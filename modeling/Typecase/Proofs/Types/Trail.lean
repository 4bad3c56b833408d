import Typecase.Proofs.Types.Advance
import Typecase.Proofs.Types.View
import Typecase.Types.Transaction
set_option autoImplicit false

/-!
# Unification on the trail

Whether a unification succeeds or fails, the store moves on, and what it puts on the trail
undoes all that it did.  A transaction that is rolled back leaves the variables as they were.
-/

namespace Typecase

namespace Store

variable {s s' s'' : Store} {x t a b : Ty} {u v w : Var} {n l : Int} {r : Except UnifyError Unit}

/-! ## The trail -/

theorem cell_setCell (s : Store) (v : Var) (c : Cell) (u : Var) :
    (s.setCell v c).cell u = if u = v ∧ v < s.size then c else s.cell u := by
  unfold setCell cell size
  by_cases hu : u = v
  · subst hu
    by_cases hlt : u < s.cells.size
    · simp [hlt]
    · simp [hlt]
  · simp [hu, Ne.symm hu]

@[simp] theorem size_setCell (s : Store) (v : Var) (c : Cell) : (s.setCell v c).size = s.size := by
  simp [setCell, size]

theorem size_restore (s : Store) (es : List (Var × Cell)) : (s.restore es).size = s.size := by
  unfold restore
  induction es generalizing s with
  | nil => rfl
  | cons e es ih =>
    rw [List.foldl_cons, ih, size_setCell]

theorem nextId_restore (s : Store) (es : List (Var × Cell)) : (s.restore es).nextId = s.nextId := by
  unfold restore
  induction es generalizing s with
  | nil => rfl
  | cons e es ih => exact ih _

theorem renaming_restore (s : Store) (es : List (Var × Cell)) :
    (s.restore es).renames = s.renames := by
  induction es generalizing s with
  | nil => rfl
  | cons e es ih => exact ih (s.setCell e.1 e.2)

theorem restore_append (s : Store) (es es' : List (Var × Cell)) :
    s.restore (es ++ es') = (s.restore es).restore es' := List.foldl_append

theorem cell_restore_congr (es : List (Var × Cell)) (hv : v < s.size) (hv' : v < s'.size)
    (h : s'.cell v = s.cell v) : (s'.restore es).cell v = (s.restore es).cell v := by
  unfold restore
  induction es generalizing s s' with
  | nil => exact h
  | cons e es ih =>
    rw [List.foldl_cons, List.foldl_cons]
    refine ih (by simpa using hv) (by simpa using hv') ?_
    rw [cell_setCell, cell_setCell]
    by_cases he : v = e.1
    · rw [if_pos ⟨he, he ▸ hv'⟩, if_pos ⟨he, he ▸ hv⟩]
    · rw [if_neg (fun h => he h.1), if_neg (fun h => he h.1), h]

theorem cell_restore_of_not_mem (es : List (Var × Cell)) (hv : ∀ e ∈ es, e.1 ≠ v) :
    (s.restore es).cell v = s.cell v := by
  unfold restore
  induction es generalizing s with
  | nil => rfl
  | cons e es ih =>
    rw [List.forall_mem_cons] at hv
    rw [List.foldl_cons, ih hv.2, cell_setCell, if_neg (fun h => hv.1 h.1.symm)]

/-- Restoring leaves a variable as it is or puts it back to what an entry says. -/
theorem cell_restore_cases (es : List (Var × Cell)) (v : Var) :
    (s.restore es).cell v = s.cell v ∨ ∃ e ∈ es, (s.restore es).cell v = e.2 := by
  induction es generalizing s with
  | nil => exact Or.inl rfl
  | cons e es ih =>
    rcases ih (s := s.setCell e.1 e.2) with hcell | ⟨e', he', hcell⟩
    · rw [cell_setCell] at hcell
      split at hcell
      · exact Or.inr ⟨e, List.mem_cons_self, hcell⟩
      · exact Or.inl hcell
    · exact Or.inr ⟨e', List.mem_cons_of_mem _ he', hcell⟩

/-- Putting back the entries `es` undoes what was done to `s`: its variables are as they were,
and new variables are as they were when they were allocated. -/
structure Undoes (s : Store) (es : List (Var × Cell)) (s' : Store) : Prop where
  lt : ∀ e ∈ es, e.1 < s'.size
  old : ∀ v < s.size, (s'.restore es).cell v = s.cell v
  new : ∀ v, s.size ≤ v → v < s'.size → ∃ l, (s'.restore es).state v = .atLevel (Level.ofInt l)
  id : ∀ v, (s'.restore es).id v = s'.id v

/-- While changes are recorded, what is added to the trail undoes them. -/
structure Trailed (s s' : Store) : Prop where
  size_le : s.size ≤ s'.size
  speculative : s'.speculative = s.speculative
  trail : s.speculative = true → ∃ es, s'.trail = es ++ s.trail ∧ Undoes s es s'

theorem undoes_nil (hold : ∀ v < s.size, s'.cell v = s.cell v)
    (hnew : ∀ v, s.size ≤ v → v < s'.size → ∃ l, s'.state v = .atLevel (Level.ofInt l)) :
    Undoes s [] s' where
  lt := fun _ he => absurd he List.not_mem_nil
  old := hold
  new := hnew
  id := fun _ => rfl

theorem Trailed.refl (s : Store) : Trailed s s where
  size_le := Nat.le_refl _
  speculative := rfl
  trail := fun _ => ⟨[], rfl, undoes_nil (fun _ _ => rfl) fun _ h h' => absurd h (Nat.not_le.mpr h')⟩

theorem Undoes.trans {es es' : List (Var × Cell)} (h : Undoes s es s') (h' : Undoes s' es' s'')
    (hle : s.size ≤ s'.size) (hle' : s'.size ≤ s''.size) : Undoes s (es' ++ es) s'' := by
  -- the variables of `s'` are first brought back to `s'`, and from there to `s`
  have hback : ∀ v < s'.size, (s''.restore (es' ++ es)).cell v = (s'.restore es).cell v := by
    intro v hv
    rw [restore_append]
    refine cell_restore_congr es hv ?_ (h'.old v hv)
    rw [size_restore]
    exact Nat.lt_of_lt_of_le hv hle'
  have hkept : ∀ v, s'.size ≤ v → (s''.restore (es' ++ es)).cell v = (s''.restore es').cell v := by
    intro v hv
    rw [restore_append]
    refine cell_restore_of_not_mem es ?_
    intro e he heq
    exact absurd (heq ▸ h.lt e he) (Nat.not_lt.mpr hv)
  refine ⟨?_, ?_, ?_, ?_⟩
  · intro e he
    rcases List.mem_append.mp he with he | he
    · exact h'.lt e he
    · exact Nat.lt_of_lt_of_le (h.lt e he) hle'
  · intro v hv
    rw [hback v (Nat.lt_of_lt_of_le hv hle)]
    exact h.old v hv
  · intro v hv hlt
    by_cases hv' : v < s'.size
    · unfold state
      rw [hback v hv']
      exact h.new v hv hv'
    · unfold state
      rw [hkept v (Nat.not_lt.mp hv')]
      exact h'.new v (Nat.not_lt.mp hv') hlt
  · intro v
    by_cases hv' : v < s'.size
    · have hid := h'.id v
      unfold Store.id at hid ⊢
      rw [h'.old v hv'] at hid
      rw [hback v hv', ← hid]
      exact h.id v
    · unfold Store.id
      rw [hkept v (Nat.not_lt.mp hv')]
      exact h'.id v

theorem Trailed.trans (h : Trailed s s') (h' : Trailed s' s'') : Trailed s s'' where
  size_le := Nat.le_trans h.size_le h'.size_le
  speculative := h'.speculative.trans h.speculative
  trail := by
    intro hspec
    obtain ⟨es, htrail, hundo⟩ := h.trail hspec
    obtain ⟨es', htrail', hundo'⟩ := h'.trail (h.speculative.trans hspec)
    refine ⟨es' ++ es, ?_, hundo.trans hundo' h.size_le h'.size_le⟩
    rw [htrail', htrail, List.append_assoc]

/-- A variable that is recorded gets back what it had. -/
theorem cell_restore_record (hspec : s.speculative = true) (v u : Var) (st : VarState) :
    (((s.record v).setState v st).restore [(v, s.cell v)]).cell u = s.cell u := by
  have hrecord : s.record v = { s with trail := (v, s.cell v) :: s.trail } := if_pos hspec
  show (((s.record v).setState v st).setCell v (s.cell v)).cell u = _
  rw [cell_setCell, size_setState, size_record, hrecord]
  by_cases hu : u = v ∧ v < s.size
  · rw [if_pos hu, hu.1]
  · rw [if_neg hu, setState, cell_setCell]
    exact if_neg hu

/-- Changing a variable after recording it. -/
theorem trailed_setState (hv : v < s.size) (st : VarState) :
    Trailed s ((s.record v).setState v st) where
  size_le := by rw [size_setState, size_record]
  speculative := by
    unfold record
    split <;> rfl
  trail := by
    intro hspec
    have hrecord : s.record v = { s with trail := (v, s.cell v) :: s.trail } := if_pos hspec
    have hcell := fun u => cell_restore_record hspec v u st
    refine ⟨[(v, s.cell v)], by rw [hrecord]; rfl, ?_, fun u _ => hcell u, ?_, ?_⟩
    · intro e he
      rw [List.mem_singleton] at he
      rw [he, size_setState, size_record]
      exact hv
    · intro u hu hlt
      rw [size_setState, size_record] at hlt
      exact absurd hu (Nat.not_le.mpr hlt)
    · intro u
      rw [id_setState]
      unfold Store.id
      rw [hcell u, hrecord]
      rfl

/-! ## Binding -/

/-- What a unification does to a store. -/
structure Traced (s s' : Store) : Prop extends Moves s s', Trailed s s'

theorem Traced.refl (hs : s.Orderly) :
    Traced s s := ⟨.refl hs, (Trailed.refl s).2, (Trailed.refl s).3⟩

theorem Traced.trans (h : Traced s s') (h' : Traced s' s'') : Traced s s'' :=
  have htrailed := h.toTrailed.trans h'.toTrailed
  ⟨h.toMoves.trans h'.toMoves, htrailed.2, htrailed.3⟩

theorem Lowered.traced (h : Lowered s s') (h' : Trailed s s') (hs : s.Orderly) : Traced s s' :=
  ⟨h.moves hs, h'.2, h'.3⟩

/-- Variables are lowered on the trail. -/
structure Sunk (s s' : Store) : Prop where
  lowered : Lowered s s'
  trailed : Trailed s s'

theorem Sunk.refl (s : Store) : Sunk s s := ⟨.refl s, .refl s⟩

theorem Sunk.trans (h : Sunk s s') (h' : Sunk s' s'') : Sunk s s'' :=
  ⟨h.lowered.trans h'.lowered, h.trailed.trans h'.trailed⟩

theorem sunk_lower {k : Int} (hlow : Level.linked ≤ l) (hu : s.state u = .unbound k) (hlt : l < k) :
    Sunk s (s.lower u l) where
  lowered := by
    refine (lowered_record s u).trans (lowered_setState ?_)
    rw [state_record, hu]
    exact sinks_atLevel hlow (Int.le_of_lt hlt)
  trailed := trailed_setState (lt_size_of_unlinked (by simp [hu])) _

theorem adjust_sunk (hlow : Level.linked ≤ l) (h : adjust v l t u s = (r, s')) :
    Sunk s s' ∧ (r = .ok () → ∀ k, s'.state u = .unbound k → k ≤ l) := by
  rw [adjust_eq] at h
  cases hu : s.state u with
  | generic =>
    rw [hu] at h
    cases h
    exact ⟨.refl s, nofun⟩
  | linked w =>
    rw [hu] at h
    cases h
    exact ⟨.refl s, fun _ k hk => by rw [hu] at hk; cases hk⟩
  | unbound k =>
    rw [hu] at h
    simp only at h
    split at h
    · cases h
      exact ⟨.refl s, nofun⟩
    · split at h
      · rename_i hlt
        cases h
        refine ⟨sunk_lower hlow hu hlt, ?_⟩
        intro _ k' hk'
        have hin : u < (s.record u).size := by
          rw [size_record]
          exact lt_size_of_unlinked (by simp [hu])
        have hstate : (s.lower u l).state u = .atLevel l := by
          rw [lower, state_setState, if_pos ⟨rfl, hin⟩]
        exact Int.le_of_eq (unbound_of_atLevel (hstate ▸ hk'))
      · rename_i hle
        cases h
        refine ⟨.refl s, ?_⟩
        intro _ k' hk'
        rw [hu] at hk'
        cases hk'
        exact Int.not_lt.mp hle

theorem forM_adjust_sunk (hlow : Level.linked ≤ l) (us : List Var)
    (h : us.forM (adjust v l t) s = (r, s')) :
    Sunk s s' ∧ (r = .ok () → ∀ u ∈ us, ∀ k, s'.state u = .unbound k → k ≤ l) := by
  induction us generalizing s with
  | nil =>
    cases h
    exact ⟨.refl _, by simp⟩
  | cons u us ih =>
    rcases bind_cases h with ⟨e, hu, rfl⟩ | ⟨_, s₁, hu, h⟩
    · exact ⟨(adjust_sunk hlow hu).1, nofun⟩
    · obtain ⟨hsunk, hlevel⟩ := adjust_sunk hlow hu
      obtain ⟨hsunk', hlevels⟩ := ih h
      refine ⟨hsunk.trans hsunk', ?_⟩
      intro hok
      rw [List.forall_mem_cons]
      refine ⟨?_, hlevels hok⟩
      intro k hk
      obtain ⟨k', hk', hle⟩ := hsunk'.lowered.unbound hk
      exact Int.le_trans hle (hlevel rfl k' hk')

/-- Binding a variable, if that fails: some variables are lowered.  If it succeeds: everything
behind the variable is lowered to its level first. -/
theorem bind_outcome (hs : s.Orderly) (h : bind v t s = (r, s')) :
    Sunk s s' ∨ ∃ s₁, Sunk s s₁ ∧ s' = s₁.link v t ∧ s.state v ≠ .generic ∧
      ∀ u ∈ s.reach t, ∀ k, s₁.state u = .unbound k → k ≤ (s.state v).level := by
  have hlow : Level.linked ≤ (s.state v).level := by
    cases hv : s.state v with
    | unbound l => exact Int.le_of_lt (hs.leveled v l hv)
    | generic => decide
    | linked t => exact Int.le_refl _
  unfold bind at h
  rcases bind_cases h with ⟨e, hget, -⟩ | ⟨_, _, hget, h⟩
  · cases hget
  · cases hget
    split at h
    · rename_i hgeneric
      cases h
      exact Or.inl (.refl s)
    · rename_i hgeneric
      rcases bind_cases h with ⟨e, hadjust, rfl⟩ | ⟨_, s₁, hadjust, h⟩
      · exact Or.inl (forM_adjust_sunk hlow _ hadjust).1
      · obtain ⟨hsunk, hlevels⟩ := forM_adjust_sunk hlow _ hadjust
        cases h
        refine Or.inr ⟨s₁, hsunk, rfl, ?_, hlevels rfl⟩
        intro hv
        rw [hv] at hgeneric
        exact hgeneric rfl

/-- What is met after `v` is bound to `t` was met before, or stands behind `t`. -/
theorem Reach.link_cases (hw : (s.link v t).Reach x w) :
    s.Reach x w ∨ s.Reach x v ∧ s.Reach t w := by
  have hstate : ∀ y u, (s.link v t).state y = .linked u →
      y = v ∧ u = t ∨ s.state y = .linked u := by
    intro y u hy
    rw [Store.link, state_setState, state_record] at hy
    split at hy
    · rename_i heq
      cases hy
      exact Or.inl ⟨heq.1, rfl⟩
    · exact Or.inr hy
  induction hw with
  | here hmem => exact Or.inl (.here hmem)
  | @step x u w y hmem hlink _ ih =>
    rcases hstate y u hlink with ⟨rfl, rfl⟩ | hy
    · rcases ih with hrest | ⟨-, hrest⟩
      · exact Or.inr ⟨.here hmem, hrest⟩
      · exact Or.inr ⟨.here hmem, hrest⟩
    · rcases ih with hrest | ⟨hv, hrest⟩
      · exact Or.inl (.step hmem hy hrest)
      · exact Or.inr ⟨.step hmem hy hv, hrest⟩

/-- Binding a variable once everything behind it is at its level. -/
theorem moves_link {s₁ : Store} (hs : s.Orderly) (h : Lowered s s₁) (hv : v < s.size)
    (ht : s.Bounded t) (hgeneric : s.state v ≠ .generic)
    (hlevel : ∀ u ∈ s.reach t, ∀ k, s₁.state u = .unbound k → k ≤ (s.state v).level) :
    Moves s (s₁.link v t) := by
  have hs₁ := (h.moves hs).orderly
  have hsize : (s₁.link v t).size = s.size := by
    rw [link, size_setState, size_record, h.size]
  have hlt : v < (s₁.record v).size := by
    rw [size_record, h.size]
    exact hv
  have hself : (s₁.link v t).state v = .linked t := by
    rw [link, state_setState, if_pos ⟨rfl, hlt⟩]
  have hother : ∀ u, u ≠ v → (s₁.link v t).state u = s₁.state u := by
    intro u hu
    rw [link, state_setState, if_neg (fun h => hu h.1), state_record]
  refine ⟨⟨?_, ?_⟩, Nat.le_of_eq hsize.symm, ?_, ?_, ?_, ?_⟩
  · intro u y hu
    by_cases huv : u = v
    · subst huv
      rw [hself] at hu
      cases hu
      intro w hw
      rw [hsize]
      exact ht w hw
    · rw [hother u huv] at hu
      intro w hw
      rw [hsize, ← h.size]
      exact hs₁.closed u y hu w hw
  · intro u k hu
    by_cases huv : u = v
    · subst huv
      rw [hself] at hu
      cases hu
    · rw [hother u huv] at hu
      exact hs₁.leveled u k hu
  · show s.nextId ≤ (s₁.record v).nextId
    rw [(lowered_record s₁ v).nextId, h.nextId]
  · refine keepsNumbers_of_id hsize ?_ ?_ ?_
    · show (s₁.record v).nextId = _
      rw [(lowered_record s₁ v).nextId, h.nextId]
    · intro u
      rw [link, id_setState, (lowered_record s₁ v).id, h.id]
    · intro u hu
      rw [hother u fun heq => hgeneric (heq ▸ hu)]
      exact h.generic hu
  · exact fun hidle => (lowered_record s₁ v).idle (h.idle hidle)
  · intro x w k _ hw hk
    have hne : w ≠ v := by
      rintro rfl
      rw [hself] at hk
      cases hk
    rw [hother w hne] at hk
    obtain ⟨k', hk', hle⟩ := h.unbound hk
    rcases hw.link_cases with hreach | ⟨hreach, hbehind⟩
    · exact ⟨w, k', h.reach hreach, hk', hle⟩
    · have hle' := hlevel w ((h.reach hbehind).mem_reach (by simp [hk'])) k hk
      cases hstate : s.state v with
      | unbound l =>
        rw [hstate] at hle'
        exact ⟨v, l, h.reach hreach, hstate, hle'⟩
      | generic => exact absurd hstate hgeneric
      | linked y =>
        -- nothing is at the level of bound variables
        rw [hstate] at hle'
        exact absurd (hs₁.leveled w k hk) (Int.not_lt.mpr hle')

theorem bind_traced (hs : s.Orderly) (hv : v < s.size) (ht : s.Bounded t) :
    Traced s (bind v t s).2 := by
  obtain ⟨r, s', h⟩ : ∃ r s', bind v t s = (r, s') := ⟨_, _, rfl⟩
  rw [h]
  rcases bind_outcome hs h with hsunk | ⟨s₁, hsunk, rfl, hgeneric, hlevel⟩
  · exact hsunk.lowered.traced hsunk.trailed hs
  · have hlt : v < s₁.size := by
      rw [hsunk.lowered.size]
      exact hv
    have htrailed := hsunk.trailed.trans (trailed_setState hlt (.linked t))
    exact ⟨moves_link hs hsunk.lowered hv ht hgeneric hlevel, htrailed.2, htrailed.3⟩

theorem fresh_traced (hs : s.Orderly) (level : Int) : Traced s (Ty.fresh level s).2 := by
  refine ⟨fresh_moves hs level, rfl, ?_⟩
  intro _
  refine ⟨[], rfl, undoes_nil ?_ ?_⟩
  · intro u hu
    exact cell_fresh s level (Nat.ne_of_lt hu)
  · exact (fresh_grows s level).new

/-- Marks are no concern of the variables. -/
theorem lowered_of_cells (hcells : s'.cells = s.cells) (hnext : s'.nextId = s.nextId)
    (hidle : s.renames = [] → s'.renames = []) : Lowered s s' := by
  have hcell : ∀ v, s'.cell v = s.cell v := by
    intro v
    unfold cell
    rw [hcells]
  refine ⟨by unfold size; rw [hcells], hnext, hidle, ?_, ?_⟩
  · intro v
    unfold id
    rw [hcell]
  · intro v
    unfold state
    exact Or.inl (congrArg Cell.state (hcell v))

theorem extendRow_traced (hs : s.Orderly) (ls : LabelMap Ty) (r : Ty) :
    Traced s (Ty.extendRow ls r s).2 := by
  unfold Ty.extendRow
  split
  · exact .refl hs
  · have hlowered : Lowered s (Ty.mkRowExtend ls r s).2 := lowered_of_cells rfl rfl fun h => h
    refine hlowered.traced ⟨Nat.le_refl _, rfl, ?_⟩ hs
    exact fun _ => ⟨[], rfl,
      undoes_nil (fun _ _ => rfl) fun _ h h' => absurd h (Nat.not_le.mpr h')⟩

/-! ## Unification -/

section Unification

variable {fs : LabelMap Ty} {r a b : Ty}

/-- All fields of a row exist. -/
def BoundedFields (s : Store) (fs : LabelMap Ty) : Prop := ∀ e ∈ fs, s.Bounded e.2

theorem BoundedFields.move (hfs : s.BoundedFields fs) (h : Moves s s') : s'.BoundedFields fs :=
  fun e he => (hfs e he).move h

theorem BoundedFields.without (h : s.BoundedFields fs) (gs : LabelMap Ty) :
    s.BoundedFields (LabelMap.without fs gs) :=
  fun e he => h e (List.mem_of_mem_filter he)

theorem bounded_list {ts : List Ty} :
    (∀ v ∈ Ty.varsList ts, v < s.size) ↔ ∀ t ∈ ts, s.Bounded t := by
  simp only [Ty.mem_varsList, Bounded]
  exact ⟨fun h t ht v hv => h v ⟨t, ht, hv⟩, by
    rintro h v ⟨t, ht, hv⟩
    exact h t ht v hv⟩

theorem bounded_fields {fs : List (String × Ty)} :
    (∀ v ∈ Ty.varsFields fs, v < s.size) ↔ s.BoundedFields fs := by
  simp only [Ty.mem_varsFields, BoundedFields, Bounded]
  exact ⟨fun h e he v hv => h v ⟨e, he, hv⟩, by
    rintro h v ⟨e, he, hv⟩
    exact h e he v hv⟩

theorem bounded_rowExtend {m : Mark} {fs : List (String × Ty)} :
    s.Bounded (.rowExtend m fs r) ↔ s.BoundedFields fs ∧ s.Bounded r := by
  unfold Bounded
  rw [Ty.vars, List.forall_mem_append, bounded_fields]

theorem extendRow_bounded (hfs : s.BoundedFields fs) (hr : s.Bounded r) :
    (Ty.extendRow fs r s).2.Bounded (Ty.extendRow fs r s).1 := by
  unfold Ty.extendRow
  split
  · exact hr
  · exact bounded_rowExtend.mpr ⟨hfs, hr⟩

theorem Row.bounded (hs : s.Orderly) {fs : List (String × Ty)} {e : RowEnd} (h : s.Row r fs e)
    (hr : s.Bounded r) : s.BoundedFields fs ∧ s.Bounded e.toTy := by
  induction h with
  | extend _ ih =>
    obtain ⟨hlabels, hrest⟩ := bounded_rowExtend.mp hr
    obtain ⟨hfs, he⟩ := ih hrest
    exact ⟨fun f hf => (List.mem_append.mp hf).elim (hlabels f) (hfs f), he⟩
  | link hv _ ih => exact ih (hs.closed _ _ hv)
  | flexible _ | rigid => exact ⟨fun _ hf => absurd hf List.not_mem_nil, hr⟩

theorem flattenRow_bounded (hs : s.Orderly) {e : RowEnd} (hr : s.Bounded r)
    (h : s.flattenRow r = some (fs, e)) : s.BoundedFields fs ∧ s.Bounded e.toTy := by
  obtain ⟨ls, hrow, rfl⟩ := flattenRow_row h
  obtain ⟨hls, he⟩ := hrow.bounded hs hr
  refine ⟨fun f hf => ?_, he⟩
  rcases LabelMap.mem_extend hf with hnil | hmem
  · cases hnil
  · exact hls f hmem

/-- A way to unify two types, which takes the store along. -/
def Tracing (f : Ty → Ty → UnifyM Unit) : Prop :=
  ∀ a b s, s.Orderly → s.Bounded a → s.Bounded b → Traced s (f a b s).2

variable {f : Ty → Ty → UnifyM Unit}

/-- One computation after another. -/
theorem Traced.bind {β γ : Type} {m : UnifyM β} {k : β → UnifyM γ} (hm : Traced s (m s).2)
    (hk : ∀ b s₁, m s = (.ok b, s₁) → Traced s s₁ → Traced s₁ (k b s₁).2) :
    Traced s ((m >>= k) s).2 := by
  obtain ⟨r, s', h⟩ : ∃ r s', (m >>= k) s = (r, s') := ⟨_, _, rfl⟩
  rw [h]
  rcases bind_cases h with ⟨e, herror, -⟩ | ⟨b, s₁, hok, hrest⟩
  · rw [herror] at hm
    exact hm
  · rw [hok] at hm
    have hlast := hk b s₁ hok hm
    rw [hrest] at hlast
    exact hm.trans hlast

theorem unifyAll_traced (hf : Tracing f) {as bs : List Ty} (hs : s.Orderly)
    (has : ∀ a ∈ as, s.Bounded a) (hbs : ∀ b ∈ bs, s.Bounded b) :
    Traced s (unifyAll f as bs s).2 := by
  induction as generalizing s bs with
  | nil => exact .refl hs
  | cons a as ih =>
    cases bs with
    | nil => exact .refl hs
    | cons b bs =>
      rw [List.forall_mem_cons] at has hbs
      refine Traced.bind (hf a b s hs has.1 hbs.1) ?_
      intro _ s₁ _ h
      exact ih h.orderly (fun t ht => (has.2 t ht).move h.toMoves)
        (fun t ht => (hbs.2 t ht).move h.toMoves)

theorem unifyShared_traced (hf : Tracing f) {as bs : LabelMap Ty} (hs : s.Orderly)
    (has : s.BoundedFields as) (hbs : s.BoundedFields bs) : Traced s (unifyShared f bs as s).2 := by
  induction as generalizing s with
  | nil => exact .refl hs
  | cons e as ih =>
    obtain ⟨label, t⟩ := e
    have hrest : s.BoundedFields as := fun e he => has e (List.mem_cons_of_mem _ he)
    unfold unifyShared
    cases hfind : LabelMap.find? bs label with
    | none => exact ih hs hrest hbs
    | some u =>
      refine Traced.bind (hf t u s hs (has _ List.mem_cons_self) ?_) ?_
      · exact hbs _ (LabelMap.mem_of_lookup hfind)
      · intro _ s₁ _ h
        exact ih h.orderly (hrest.move h.toMoves) (hbs.move h.toMoves)

/-- Bind a variable to a row with a new node. -/
theorem bind_extendRow_traced (hs : s.Orderly) (hv : v < s.size) (hfs : s.BoundedFields fs)
    (hr : s.Bounded r) :
    Traced s ((do Store.bind v (← (Ty.extendRow fs r : StoreM Ty)) : UnifyM Unit) s).2 := by
  refine Traced.bind (extendRow_traced hs fs r) ?_
  intro row s₁ hrun h
  cases hrun
  exact bind_traced h.orderly (Nat.lt_of_lt_of_le hv h.toMoves.size_le)
    (extendRow_bounded hfs hr)

theorem unifyEnds_traced {expected found : Ty} {lackA lackB : LabelMap Ty} {a b : RowEnd}
    (hs : s.Orderly) (hA : s.BoundedFields lackA) (hB : s.BoundedFields lackB)
    (ha : s.Bounded a.toTy) (hb : s.Bounded b.toTy) :
    Traced s (unifyEnds expected found lackA lackB a b s).2 := by
  have hempty : s.Bounded .rowEmpty := fun _ hv => absurd hv List.not_mem_nil
  cases a with
  | rigid =>
    cases b with
    | rigid => exact .refl hs
    | flexible b => exact bind_extendRow_traced hs (bounded_var.mp hb) hB hempty
  | flexible a =>
    cases b with
    | rigid => exact bind_extendRow_traced hs (bounded_var.mp ha) hA hempty
    | flexible b =>
      have hlta := bounded_var.mp ha
      have hltb := bounded_var.mp hb
      rw [unifyEnds]
      by_cases hab : a = b
      · rw [if_pos hab]
        split <;> exact .refl hs
      · rw [if_neg hab]
        split
        · exact bind_traced hs hlta hb
        · refine Traced.bind (.refl hs) ?_
          rintro _ _ hget -
          cases hget
          refine Traced.bind (fresh_traced hs _) ?_
          intro rest s₁ hrun h₁
          cases hrun
          have hrest : (Ty.fresh (min (s.state a).level (s.state b).level) s).2.Bounded
              (.var s.size) := by
            rw [bounded_var, size_fresh]
            exact Nat.lt_succ_self _
          refine Traced.bind (extendRow_traced h₁.orderly lackA _) ?_
          intro row s₂ hrun h₂
          cases hrun
          have h₁₂ := h₁.trans h₂
          refine Traced.bind (bind_traced h₂.orderly (Nat.lt_of_lt_of_le hlta h₁₂.toMoves.size_le)
            (extendRow_bounded (hA.move h₁.toMoves) hrest)) ?_
          intro _ s₃ _ h₃
          have h₁₃ := h₁₂.trans h₃
          exact bind_extendRow_traced h₃.orderly (Nat.lt_of_lt_of_le hltb h₁₃.toMoves.size_le)
            (hB.move h₁₃.toMoves) ((hrest.move h₂.toMoves).move h₃.toMoves)

theorem unifyRows_traced (hf : Tracing f) {expected found : Ty} (hs : s.Orderly) (ha : s.Bounded a)
    (hb : s.Bounded b) : Traced s (unifyRows f expected found a b s).2 := by
  rcases hrun : unifyRows f expected found a b s with ⟨r, s'⟩
  rcases unifyRows_cases hrun with ⟨-, -, rfl⟩ | ⟨fs, e, gs, e', hA, hB, ⟨-, _, -, rfl⟩ | ⟨-, -, h⟩⟩
  · exact .refl hs
  · exact .refl hs
  · obtain ⟨hfieldsA, hendA⟩ := flattenRow_bounded hs ha hA
    obtain ⟨hfieldsB, hendB⟩ := flattenRow_bounded hs hb hB
    rw [← h]
    refine Traced.bind (unifyShared_traced hf hs hfieldsA hfieldsB) ?_
    intro _ s₁ _ h
    exact unifyEnds_traced h.orderly ((hfieldsB.without _).move h.toMoves)
      ((hfieldsA.without _).move h.toMoves) (hendA.move h.toMoves) (hendB.move h.toMoves)

theorem unifyHeads_traced (hf : Tracing f) (hs : s.Orderly) (ha : s.Bounded a) (hb : s.Bounded b) :
    Traced s (unifyHeads f a b s).2 := by
  unfold unifyHeads
  split
  · exact .refl hs
  · split
    · exact bind_traced hs (bounded_var.mp ha) hb
    · exact bind_traced hs (bounded_var.mp hb) ha
    · split
      · exact .refl hs
      · split
        · exact .refl hs
        · exact unifyAll_traced hf hs (bounded_list.mp ha) (bounded_list.mp hb)
    · rename_i x y _ x' y' _
      have ha' : s.Bounded x ∧ s.Bounded y := List.forall_mem_append.mp ha
      have hb' : s.Bounded x' ∧ s.Bounded y' := List.forall_mem_append.mp hb
      refine Traced.bind (hf x x' s hs ha'.1 hb'.1) ?_
      intro _ s₁ _ h
      exact hf y y' s₁ h.orderly (ha'.2.move h.toMoves) (hb'.2.move h.toMoves)
    · split
      · exact .refl hs
      · exact unifyAll_traced hf hs (bounded_list.mp ha) (bounded_list.mp hb)
    · exact unifyRows_traced hf hs ha hb
    · exact unifyRows_traced hf hs ha hb
    · exact unifyRows_traced hf hs ha hb
    · exact unifyRows_traced hf hs ha hb
    · exact .refl hs

theorem unifyAt_tracing (k : Nat) : Tracing (unifyAt k) := by
  induction k with
  | zero => exact fun _ _ _ hs _ _ => .refl hs
  | succ k ih =>
    intro a b s hs ha hb
    refine Traced.bind (.refl hs) ?_
    rintro _ _ hget -
    cases hget
    exact unifyHeads_traced ih hs (ha.leads hs (head_leads s a)) (hb.leads hs (head_leads s b))

/-- Unification takes the store along, whether it succeeds or fails. -/
theorem unify_traced (hs : s.Orderly) (ha : s.Bounded a) (hb : s.Bounded b) :
    Traced s (unify a b s).2 :=
  unifyAt_tracing _ a b s hs ha hb

end Unification

/-! ## Transactions -/

theorem openTransaction_moves (hs : s.Orderly) : Moves s (openTransaction s).2 :=
  (lowered_of_cells rfl rfl fun h => h : Lowered s (openTransaction s).2).moves hs

theorem commit_moves (hs : s.Orderly) (txn : Transaction) : Moves s (s.commit txn) := by
  unfold commit
  split
  · exact .refl hs
  · have hlowered : Lowered s { s with speculative := false, trail := txn.trail } :=
      lowered_of_cells rfl rfl fun h => h
    exact hlowered.moves hs

/-- Rolling back undoes what was recorded since the transaction began. -/
theorem cell_rollback {es : List (Var × Cell)} (h : s'.trail = es ++ s.trail) (v : Var) :
    (s'.rollback (openTransaction s).1).cell v = (s'.restore es).cell v := by
  show (s'.restore (s'.trail.take (s'.trail.length - s.trail.length))).cell v = _
  rw [h, List.length_append, Nat.add_sub_cancel, List.take_left]

/-- Rolling back leaves the variables as they were when the transaction began. -/
theorem rollback_grows (h : Traced (openTransaction s).2 s') :
    Grows s (s'.rollback (openTransaction s).1) := by
  obtain ⟨es, htrail, hundo⟩ := h.toTrailed.trail rfl
  have hcell := cell_rollback (s := s) htrail
  have hsize : (s'.rollback (openTransaction s).1).size = s'.size := by
    show (s'.restore _).size = _
    exact size_restore s' _
  have hnext : (s'.rollback (openTransaction s).1).nextId = s'.nextId := by
    show (s'.restore _).nextId = _
    exact nextId_restore s' _
  have hold : ∀ v < s.size, (s'.rollback (openTransaction s).1).state v = s.state v := by
    intro v hv
    unfold state
    rw [hcell v, hundo.old v hv]
    rfl
  have hnew : ∀ v, s.size ≤ v → v < (s'.rollback (openTransaction s).1).size →
      ∃ l, (s'.rollback (openTransaction s).1).state v = .atLevel (Level.ofInt l) := by
    intro v hv hlt
    rw [hsize] at hlt
    obtain ⟨l, hl⟩ := hundo.new v hv hlt
    refine ⟨l, ?_⟩
    unfold state at hl ⊢
    rw [hcell v, hl]
  have hrenaming : (s'.rollback (openTransaction s).1).renames = s'.renames := by
    show (s'.restore _).renames = _
    exact renaming_restore s' _
  refine ⟨?_, rfl, rfl, ?_, ?_, ?_, hold, hnew⟩
  · rw [hsize]
    exact h.toMoves.size_le
  · rw [hrenaming]
    exact h.idle
  · rw [hnext]
    exact h.nextId_le
  · intro number hnumber
    have hbefore : (openTransaction s).2.NumberedBy number :=
      ⟨hnumber.id, hnumber.range, hnumber.sign, hnumber.inj⟩
    obtain ⟨number', hnumber', hkept, hlater⟩ := h.numbers number hbefore
    have hid : ∀ v, (s'.rollback (openTransaction s).1).id v = s'.id v := by
      intro v
      rw [← hundo.id v]
      unfold id
      rw [hcell v]
    refine ⟨number', ⟨?_, ?_, ?_, ?_⟩, hkept, fun v hle hlt => hlater v hle (hsize ▸ hlt)⟩
    · exact fun v hv => (hid v).trans (hnumber'.id v (hsize ▸ hv))
    · exact fun v hv => hnext ▸ hnumber'.range v (hsize ▸ hv)
    · intro v hv
      by_cases hlt : v < s.size
      · rw [hold v hlt, hkept v hlt]
        exact hnumber.sign v hlt
      · exact Or.inr (hlater v (Nat.not_lt.mp hlt) (hsize ▸ hv))
    · exact fun u v hu hv => hnumber'.inj u v (hsize ▸ hu) (hsize ▸ hv)

theorem rollback_moves (hs : s.Orderly) (h : Traced (openTransaction s).2 s') :
    Moves s (s'.rollback (openTransaction s).1) :=
  (rollback_grows h).moves hs

/-- The types of a transaction are there when it begins. -/
theorem transaction_traced (hs : s.Orderly) (ha : s.Bounded a) (hb : s.Bounded b) :
    Traced (openTransaction s).2 (unify a b (openTransaction s).2).2 :=
  have h := openTransaction_moves hs
  unify_traced h.orderly (ha.move h) (hb.move h)

theorem tryUnify_run (a b : Ty) (s : Store) :
    tryUnify a b s = match unify a b (openTransaction s).2 with
      | (.ok (), s₁) => (.ok (), s₁.commit (openTransaction s).1)
      | (.error e, s₁) => (.error e, s₁.rollback (openTransaction s).1) := rfl

/-- What a unification did is committed or rolled back. -/
theorem tryUnify_store (a b : Ty) (s : Store) :
    (tryUnify a b s).2 = (unify a b (openTransaction s).2).2.commit (openTransaction s).1 ∨
      (tryUnify a b s).2 = (unify a b (openTransaction s).2).2.rollback (openTransaction s).1 := by
  rw [tryUnify_run]
  rcases unify a b (openTransaction s).2 with ⟨r, s₁⟩
  cases r with
  | ok _ => exact .inl rfl
  | error e => exact .inr rfl

theorem canUnify_eq (a b : Ty) (s : Store) :
    canUnify a b s = ((unify a b (openTransaction s).2).1.isOk,
      (unify a b (openTransaction s).2).2.rollback (openTransaction s).1) := by
  show (match unify a b (openTransaction s).2 with | (.ok (), s₁) => _ | (.error _, s₁) => _) = _
  rcases unify a b (openTransaction s).2 with ⟨r, s₁⟩
  cases r <;> rfl

theorem tryUnify_moves (hs : s.Orderly) (ha : s.Bounded a) (hb : s.Bounded b) :
    Moves s (tryUnify a b s).2 := by
  have htraced := transaction_traced hs ha hb
  rcases tryUnify_store a b s with h | h <;> rw [h]
  · exact ((openTransaction_moves hs).trans htraced.toMoves).trans
      (commit_moves htraced.orderly _)
  · exact rollback_moves hs htraced

theorem canUnify_moves (hs : s.Orderly) (ha : s.Bounded a) (hb : s.Bounded b) :
    Moves s (canUnify a b s).2 := by
  rw [canUnify_eq]
  exact rollback_moves hs (transaction_traced hs ha hb)

/-! ## Regular stores -/

section Regular

variable {a b : Ty}

theorem unify_advances (hs : s.Regular) (ha : s.Bounded a) (hb : s.Bounded b) :
    Advances s (unify a b s).2 :=
  (unify_traced hs.orderly ha hb).toMoves.advances hs

theorem tryUnify_advances (hs : s.Regular) (ha : s.Bounded a) (hb : s.Bounded b) :
    Advances s (tryUnify a b s).2 :=
  (tryUnify_moves hs.orderly ha hb).advances hs

theorem canUnify_advances (hs : s.Regular) (ha : s.Bounded a) (hb : s.Bounded b) :
    Advances s (canUnify a b s).2 :=
  (canUnify_moves hs.orderly ha hb).advances hs

end Regular

end Store

end Typecase
