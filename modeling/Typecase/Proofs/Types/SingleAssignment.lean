import Typecase.Proofs.Types.Advance
import Typecase.Proofs.Types.UnifySound
import Mathlib.Data.Fintype.Card
import Mathlib.Data.Fintype.EquivFin
set_option autoImplicit false

/-!
# Variables are bound once

A unification, whether it succeeds or fails, gives links to variables that had none.  It never
changes a link, never leaves a variable bound to nothing, and never closes a circle of links.

This rests on the order among rows (`Disciplined`).  The ends of two rows are read before their
common fields are unified and bound afterwards; if a field could reach the end of its own row,
that end might be bound in the meantime, and would then be bound a second time.
-/

namespace Typecase

mutual

/-- Whether nothing is missing in a type. -/
def Ty.isWhole : Ty → Bool
  | .var _ => true
  | .con _ _ args => Ty.areWhole args
  | .arrow _ a r => a.isWhole && r.isWhole
  | .tuple _ es => Ty.areWhole es
  | .record _ r => r.isWhole
  | .rowExtend _ ls r => Ty.fieldsAreWhole ls && r.isWhole
  | .rowEmpty => true
  | .lost => false

/-- Whether nothing is missing in a list of types. -/
def Ty.areWhole : List Ty → Bool
  | [] => true
  | t :: ts => t.isWhole && Ty.areWhole ts

/-- Whether nothing is missing in labelled types. -/
def Ty.fieldsAreWhole : List (String × Ty) → Bool
  | [] => true
  | (_, t) :: fs => t.isWhole && Ty.fieldsAreWhole fs

end

theorem Ty.areWhole_iff {ts : List Ty} : areWhole ts = true ↔ ∀ t ∈ ts, t.isWhole = true := by
  induction ts with
  | nil => simp [areWhole]
  | cons t ts ih => simp [areWhole, ih]

theorem Ty.fieldsAreWhole_iff {fs : List (String × Ty)} :
    fieldsAreWhole fs = true ↔ ∀ f ∈ fs, f.2.isWhole = true := by
  induction fs with
  | nil => simp [fieldsAreWhole]
  | cons f fs ih => simp [fieldsAreWhole, ih]

theorem Ty.isWhole_args {t c : Ty} (h : t.isWhole = true) (hc : c ∈ t.args) : c.isWhole = true := by
  cases t with
  | con | tuple => exact areWhole_iff.mp h c hc
  | arrow =>
    simp only [args, List.mem_cons, List.not_mem_nil, or_false] at hc
    rw [isWhole, Bool.and_eq_true] at h
    rcases hc with rfl | rfl
    · exact h.1
    · exact h.2
  | _ => cases hc

theorem Ty.isWhole_row? {t r : Ty} (h : t.isWhole = true) (hr : t.row? = some r) :
    r.isWhole = true := by
  cases t <;> simp [row?] at hr <;> subst hr <;> exact h

namespace Store

variable {s s' s'' : Store} {kind : Var → Kind} {W : Set Ty} {v : Var} {t : Ty}
  {r : Except UnifyError Unit} {e : RowEnd} {level : Int} {ls : LabelMap Ty}

/-! ## Stores in order -/

/-- The links of a store: they lead to whole types over variables of the store, and never in a
circle. -/
structure WellLinked (s : Store) : Prop where
  closed : ∀ v t, v < s.size → s.state v = .linked t → s.Bounded t
  whole : ∀ v t, v < s.size → s.state v = .linked t → t.isWhole = true
  acyclic : ∀ v t, v < s.size → s.state v = .linked t → ¬ s.Reach t v

/-- Following links comes to an end, at whole types. -/
structure Sane (s : Store) : Prop where
  finite : ∀ v < s.size, s.Resolvable (.var v)
  whole : ∀ v t, v < s.size → s.state v = .linked t → t.isWhole = true

theorem Sane.wellLinked (h : s.Sane) : s.WellLinked where
  closed := fun v _ hv ht _ hu => ((h.finite v hv).link ht).bound hu
  whole := h.whole
  acyclic := fun v _ hv ht => ((h.finite v hv).link ht).not_reach ht

/-- There are finitely many variables, so links that do not run in a circle come to an end. -/
theorem WellLinked.sane (h : s.WellLinked) : s.Sane := by
  refine ⟨?_, h.whole⟩
  -- `u` stands in the type that `v` is bound to
  let behind : Fin s.size → Fin s.size → Prop := fun u v =>
    ∃ t, s.state v = .linked t ∧ s.Reach t u
  have htrans : IsTrans (Fin s.size) behind := by
    refine ⟨?_⟩
    rintro u v w ⟨t, ht, hu⟩ ⟨t', ht', hv⟩
    refine ⟨t', ht', Reach.trans hv ?_⟩
    exact .step (by simp [Ty.vars]) ht hu
  have hirrefl : Std.Irrefl behind := by
    refine ⟨?_⟩
    rintro v ⟨t, ht, hv⟩
    exact h.acyclic v t v.isLt ht hv
  have hwf : WellFounded behind := Finite.wellFounded_of_trans_of_irrefl behind
  have hall : ∀ v : Fin s.size, s.Resolvable (.var v) := by
    intro v
    induction v using hwf.induction with
    | _ v ih =>
      refine .intro ?_ ?_
      · intro u hu
        rw [Ty.vars, List.mem_singleton] at hu
        exact hu ▸ v.isLt
      · intro u hu t ht
        rw [Ty.vars, List.mem_singleton] at hu
        subst hu
        have hbound := h.closed v t v.isLt ht
        refine .intro hbound ?_
        intro w hw t' ht'
        exact (ih ⟨w, hbound w hw⟩ ⟨t, ht, .here hw⟩).link ht'
  exact fun v hv => hall ⟨v, hv⟩

/-! ## Whole types -/

theorem Row.isWhole {r : Ty} {fs : List (String × Ty)} (h : s.Row r fs e) (hs : s.Sane)
    (hr : s.Resolvable r) (hwhole : r.isWhole = true) : ∀ f ∈ fs, f.2.isWhole = true := by
  induction h with
  | extend _ ih =>
    rw [Ty.isWhole, Bool.and_eq_true, Ty.fieldsAreWhole_iff] at hwhole
    intro f hf
    rcases List.mem_append.mp hf with hf | hf
    · exact hwhole.1 f hf
    · exact ih hr.tail hwhole.2 f hf
  | link hv _ ih => exact ih (hr.link hv) (hs.whole _ _ hr.lt hv)
  | flexible | rigid => exact fun _ hf => absurd hf List.not_mem_nil

theorem Child.isWhole {x c : Ty} (h : s.Child x c) (hs : s.Sane) (hx : s.Resolvable x)
    (hwhole : x.isWhole = true) : c.isWhole = true := by
  obtain ⟨sym, k, slot, hview, hc⟩ := h
  induction hview with
  | link hv _ ih => exact ih (hx.link hv) (hs.whole _ _ hx.lt hv) hc
  | con | arrow | tuple => exact Ty.isWhole_args hwhole (Slot.mem_of_nth hc)
  | record hr hrow =>
    obtain ⟨l, hmem⟩ := Slot.mem_of_named hc
    exact hrow.isWhole hs (hx.row hr) (Ty.isWhole_row? hwhole hr) (l, _) hmem
  | _ => cases hc

/-! ## Giving links -/

theorem Resolvable.tuned {vs : List Var} (h : s.Resolvable t) (htuned : Tuned vs s s')
    (hvs : ∀ v ∈ vs, s.Reach t v → ∀ u, s'.state v = .linked u → s'.Resolvable u) :
    s'.Resolvable t := by
  induction h with
  | @intro t hbound _ ih =>
    refine .intro (fun v hv => Nat.lt_of_lt_of_le (hbound v hv) htuned.size_le) ?_
    intro v hv u hu
    by_cases hmem : v ∈ vs
    · exact hvs v hmem (.here hv) u hu
    · have hbefore := (htuned.linked (hbound v hv) hmem).mp hu
      refine ih v hv u hbefore ?_
      intro w hw hreach
      exact hvs w hw (.step hv hbefore hreach)

/-- Whatever was recorded on the way from `s` to `s'` is the earlier state of a variable that had
no link at the time. -/
def FirstWrites (s s' : Store) : Prop :=
  ∃ es, s'.trail = es ++ s.trail ∧ ∀ e ∈ es, ∀ t, e.2.state ≠ .linked t

theorem FirstWrites.of_eq (h : s'.trail = s.trail) : FirstWrites s s' :=
  ⟨[], h, fun _ he => absurd he List.not_mem_nil⟩

theorem FirstWrites.trans (h : FirstWrites s s') (h' : FirstWrites s' s'') : FirstWrites s s'' := by
  obtain ⟨es, htrail, hes⟩ := h
  obtain ⟨es', htrail', hes'⟩ := h'
  refine ⟨es' ++ es, by rw [htrail', htrail, List.append_assoc], ?_⟩
  intro e he
  rcases List.mem_append.mp he with he | he
  · exact hes' e he
  · exact hes e he

theorem firstWrites_setState (hv : ∀ t, s.state v ≠ .linked t) (st : VarState) :
    FirstWrites s ((s.record v).setState v st) := by
  unfold record
  split
  · exact ⟨[(v, s.cell v)], rfl, List.forall_mem_singleton.mpr hv⟩
  · exact .of_eq rfl

/-- `s'` came from `s` by giving links to variables that had none.  What was finite still is. -/
structure Preserves (s s' : Store) : Prop where
  size_le : s.size ≤ s'.size
  kept : ∀ v t, v < s.size → s.state v = .linked t → s'.state v = .linked t
  writes : FirstWrites s s'
  finite : ∀ v < s'.size, (v < s.size → s.Resolvable (.var v)) → s'.Resolvable (.var v)

theorem Preserves.refl (s : Store) : Preserves s s :=
  ⟨Nat.le_refl _, fun _ _ _ ht => ht, .of_eq rfl, fun _ hv h => h hv⟩

theorem Preserves.trans (h : Preserves s s') (h' : Preserves s' s'') : Preserves s s'' where
  size_le := Nat.le_trans h.size_le h'.size_le
  kept := fun v t hv ht =>
    h'.kept v t (Nat.lt_of_lt_of_le hv h.size_le) (h.kept v t hv ht)
  writes := h.writes.trans h'.writes
  finite := fun v hv hold => h'.finite v hv fun hv' => h.finite v hv' hold

/-- Every link of the store leads to a type with the property `Q`. -/
def AllLinks (s : Store) (Q : Ty → Prop) : Prop :=
  ∀ v t, v < s.size → s.state v = .linked t → Q t

/-- No variable gets a link. -/
theorem Tuned.preserves (h : Tuned [] s s') (hwrites : FirstWrites s s')
    (hnew : ∀ v t, s.size ≤ v → v < s'.size → s'.state v ≠ .linked t) : Preserves s s' where
  size_le := h.size_le
  kept := fun v t hv ht => (h.linked hv List.not_mem_nil).mpr ht
  writes := hwrites
  finite := by
    intro v hv hold
    by_cases hlt : v < s.size
    · exact (hold hlt).tuned h fun w hw => absurd hw List.not_mem_nil
    · refine .intro (by simpa [Ty.vars] using hv) ?_
      intro u hu t ht
      rw [Ty.vars, List.mem_singleton] at hu
      exact absurd ht (hnew u t (hu ▸ Nat.not_lt.mp hlt) (hu ▸ hv))

theorem Tuned.allLinks (h : Tuned [] s s') {Q : Ty → Prop} (hs : s.AllLinks Q)
    (hnew : ∀ v t, s.size ≤ v → v < s'.size → s'.state v ≠ .linked t) : s'.AllLinks Q := by
  intro v t hv ht
  by_cases hlt : v < s.size
  · exact hs v t hlt ((h.linked hlt List.not_mem_nil).mp ht)
  · exact absurd ht (hnew v t (Nat.not_lt.mp hlt) hv)

theorem Binds.preserves (h : Binds v t s s') (hwrites : FirstWrites s s') (hsize : s'.size = s.size)
    (ht : s.Resolvable t) (hoccurs : ¬ s.Reach t v) : Preserves s s' := by
  have ht' : s'.Resolvable t := by
    refine ht.tuned h.tuned ?_
    intro w hw hreach
    rw [List.mem_singleton] at hw
    exact absurd (hw ▸ hreach) hoccurs
  refine ⟨h.tuned.size_le, ?_, hwrites, ?_⟩
  · intro u y hu hy
    refine (h.tuned.linked hu ?_).mpr hy
    rw [List.mem_singleton]
    rintro rfl
    exact h.unlinked y hy
  · intro u hu hold
    refine (hold (hsize ▸ hu)).tuned h.tuned ?_
    intro w hw _ y hy
    rw [List.mem_singleton.mp hw, h.linked] at hy
    cases hy
    exact ht'

/-! ## What single steps do -/

theorem adjust_tuned {u : Var} (hlevel : Level.Valid level) (h : adjust v level t u s = (r, s')) :
    Tuned [] s s' ∧ FirstWrites s s' ∧ s'.size = s.size := by
  rw [adjust_eq] at h
  cases hu : s.state u with
  | unbound l =>
    rw [hu] at h
    simp only at h
    split at h
    · cases h
      exact ⟨.refl s, .of_eq rfl, rfl⟩
    · split at h <;> cases h
      · exact ⟨lower_tuned hu hlevel, firstWrites_setState (by simp [hu]) _, by simp [lower]⟩
      · exact ⟨.refl s, .of_eq rfl, rfl⟩
  | _ =>
    rw [hu] at h
    cases h
    exact ⟨.refl s, .of_eq rfl, rfl⟩

theorem forM_adjust_tuned (hlevel : Level.Valid level) (us : List Var)
    (h : us.forM (adjust v level t) s = (r, s')) :
    Tuned [] s s' ∧ FirstWrites s s' ∧ s'.size = s.size := by
  induction us generalizing s with
  | nil =>
    cases h
    exact ⟨.refl _, .of_eq rfl, rfl⟩
  | cons u us ih =>
    rcases bind_cases h with ⟨e, hu, -⟩ | ⟨_, s₁, hu, h⟩
    · exact adjust_tuned hlevel hu
    · obtain ⟨htuned, hwrites, hsize⟩ := adjust_tuned hlevel hu
      obtain ⟨htuned', hwrites', hsize'⟩ := ih h
      exact ⟨htuned.trans htuned', hwrites.trans hwrites', hsize'.trans hsize⟩

section Bind

variable (hv : ∀ w, s.state v ≠ .linked w) (hleveled : (s.state v).Leveled)
include hv hleveled

/-- Before a variable is bound, others are lowered to its level. -/
theorem bind_outcome_tuned (h : bind v t s = (r, s')) :
    ∃ s₁, Tuned [] s s₁ ∧ FirstWrites s s₁ ∧ s₁.size = s.size ∧
      ((∃ e, r = .error e) ∧ s' = s₁ ∨ r = .ok () ∧ s' = s₁.link v t) := by
  unfold bind at h
  rcases bind_cases h with ⟨e, hget, -⟩ | ⟨_, _, hget, h⟩
  · cases hget
  · cases hget
    split at h
    · cases h
      exact ⟨s, .refl s, .of_eq rfl, rfl, Or.inl ⟨⟨_, rfl⟩, rfl⟩⟩
    · rename_i hgeneric
      have hlevel := hleveled.level hv (by
        intro hstate
        rw [hstate] at hgeneric
        exact hgeneric rfl)
      rcases bind_cases h with ⟨e, hadjust, rfl⟩ | ⟨_, s₁, hadjust, h⟩
      · obtain ⟨htuned, hwrites, hsize⟩ := forM_adjust_tuned hlevel _ hadjust
        exact ⟨s', htuned, hwrites, hsize, Or.inl ⟨⟨e, rfl⟩, rfl⟩⟩
      · obtain ⟨htuned, hwrites, hsize⟩ := forM_adjust_tuned hlevel _ hadjust
        cases h
        exact ⟨s₁, htuned, hwrites, hsize, Or.inr ⟨rfl, rfl⟩⟩

theorem bind_preserves (ht : s.Resolvable t) (h : bind v t s = (r, s')) : Preserves s s' := by
  obtain ⟨s₁, htuned, hwrites, hsize, ⟨-, rfl⟩ | ⟨rfl, hlink⟩⟩ := bind_outcome_tuned hv hleveled h
  · exact htuned.preserves hwrites fun u _ hle hlt => absurd hlt (Nat.not_lt.mpr (hsize ▸ hle))
  · obtain ⟨hbinds, hoccurs⟩ := bind_ok hv hleveled ht h
    have hv₁ := htuned.unlinked List.not_mem_nil hv
    refine hbinds.preserves (hlink ▸ hwrites.trans (firstWrites_setState hv₁ _)) ?_ ht hoccurs
    rw [hlink, link, size_setState, size_record, hsize]

theorem bind_allLinks {Q : Ty → Prop} (hs : s.AllLinks Q) (ht : Q t) (h : bind v t s = (r, s')) :
    s'.AllLinks Q := by
  obtain ⟨s₁, htuned, -, hsize, hend⟩ := bind_outcome_tuned hv hleveled h
  have hs₁ : s₁.AllLinks Q :=
    htuned.allLinks hs fun u _ hle hlt => absurd hlt (Nat.not_lt.mpr (hsize ▸ hle))
  rcases hend with ⟨-, rfl⟩ | ⟨-, rfl⟩
  · exact hs₁
  · intro u y hu hy
    rw [link, size_setState, size_record] at hu
    rw [link, state_setState, state_record] at hy
    split at hy
    · cases hy
      exact ht
    · exact hs₁ u y hu hy

end Bind

theorem fresh_unlinked (hlow : Level.linked < level) (hhigh : level ≤ Level.generic) :
    ∀ v t, s.size ≤ v → v < (Ty.fresh level s).2.size →
      (Ty.fresh level s).2.state v ≠ .linked t := by
  intro v t hle hlt
  rw [size_fresh] at hlt
  obtain rfl : v = s.size := by omega
  exact (fresh_open hlow hhigh s).2 t

theorem fresh_preserves (hlow : Level.linked < level) (hhigh : level ≤ Level.generic) :
    Preserves s (Ty.fresh level s).2 :=
  (fresh_tuned level s).preserves (.of_eq rfl) (fresh_unlinked hlow hhigh)

theorem trail_extendRow {r : Ty} (h : Ty.extendRow ls r s = (t, s')) : s'.trail = s.trail := by
  unfold Ty.extendRow at h
  split at h <;> cases h <;> rfl

/-- The end `v` of a row is bound to `t`, which is made of the fields `ls` and the end `e`. -/
structure Bindable (s s₁ : Store) (v : Var) (ls : LabelMap Ty) (e : RowEnd) (t : Ty) : Prop where
  tuned : Tuned [] s s₁
  size : s₁.size = s.size
  trail : s₁.trail = s.trail
  made : t = e.toTy ∨ ∃ m, t = .rowExtend m ls e.toTy
  resolvable : s₁.Resolvable t
  unlinked : ∀ u, s₁.state v ≠ .linked u
  leveled : (s₁.state v).Leveled

theorem Completing.bindable (h : Completing kind W s v ls e) (hrun : complete v ls e s = (r, s')) :
    ∃ t s₁, Bindable s s₁ v ls e t ∧ bind v t s₁ = (r, s') := by
  rcases bind_cases hrun with ⟨_, hextend, -⟩ | ⟨t, s₁, hextend, hbind⟩
  · cases hextend
  have hextend := lift_ok_iff.mp hextend
  obtain ⟨htuned, hsize, ht⟩ := extendRow_run hextend
  have hproper : ∀ k x, s.Proper kind k x → s₁.Proper kind k x := fun k x hx =>
    hx.tuned htuned fun w hw => absurd hw List.not_mem_nil
  have hresolvable : s₁.Resolvable t := by
    rcases ht with ⟨-, rfl⟩ | ⟨m, rfl⟩
    · exact (hproper _ _ h.rest).resolvable
    · exact (Proper.rowExtend (fun f hf => hproper _ _ (h.fields f hf))
        (hproper _ _ h.rest)).resolvable
  exact ⟨t, s₁, ⟨htuned, hsize, trail_extendRow hextend, ht.imp_left And.right, hresolvable,
    htuned.unlinked List.not_mem_nil h.unlinked,
    htuned.leveled h.usable.lt List.not_mem_nil h.usable.leveled⟩, hbind⟩

theorem Bindable.no_new {s₁ : Store} (h : Bindable s s₁ v ls e t) (u : Var) (y : Ty)
    (hle : s.size ≤ u) (hlt : u < s₁.size) : s₁.state u ≠ .linked y :=
  absurd hlt (Nat.not_lt.mpr (h.size ▸ hle))

theorem Completing.preserves (h : Completing kind W s v ls e) (hrun : complete v ls e s = (r, s')) :
    Preserves s s' := by
  obtain ⟨t, s₁, hb, hbind⟩ := h.bindable hrun
  exact (hb.tuned.preserves (.of_eq hb.trail) hb.no_new).trans
    (bind_preserves hb.unlinked hb.leveled hb.resolvable hbind)

/-! ## What unification does -/

section Unification

variable {R : Ty → Ty → Prop} {root : Ty} {bound : Nat} {r : Except UnifyError Unit}
  {Q : Ty → Prop}

theorem Ended.preserves (h : Ended kind W s r s') : Preserves s s' := by
  cases h with
  | done => exact .refl _
  | fail => exact .refl _
  | complete h hrun => exact h.preserves hrun
  | newEndFail hlow hhigh h hrun => exact (fresh_preserves hlow hhigh).trans (h.preserves hrun)
  | newEnd hlow hhigh h hrun h' hrun' =>
    exact ((fresh_preserves hlow hhigh).trans (h.preserves hrun)).trans (h'.preserves hrun')

/-- Unification gives links to variables that had none, whether it succeeds or fails. -/
theorem Course.preserves (h : Course kind W R root bound s r s') : Preserves s s' := by
  induction h with
  | start => exact .refl _
  | cut _ _ _ _ ih => exact ih
  | stuck _ _ _ _ ih => exact ih
  | bind _ hdue hxv hyt hv _ _ hrun ih =>
    exact ih.trans (bind_preserves hv ((hdue.tidy.proper _ hdue.left).leads hxv).var.leveled
      ((hdue.tidy.resolvable _ hdue.right).leads hyt) hrun)
  | ends _ hrecords _ hrun ih => exact ih.trans (hrecords.ended hrun).preserves

/-- What unification binds variables to has the property `Q` if the types in `W` do. -/
structure Inherited (W : Set Ty) (Q : Ty → Prop) : Prop where
  part : ∀ x ∈ W, Q x
  ending : ∀ e : RowEnd, Q e.toTy
  row : ∀ m ls (e : RowEnd), (∀ f ∈ ls, f.2 ∈ W) → Q (.rowExtend m ls e.toTy)

theorem Completing.allLinks {v : Var} {ls : LabelMap Ty} {e : RowEnd}
    (h : Completing kind W s v ls e) (hQ : Inherited W Q) (hs : s.AllLinks Q)
    (hrun : Store.complete v ls e s = (r, s')) : s'.AllLinks Q := by
  obtain ⟨t, s₁, hb, hbind⟩ := h.bindable hrun
  refine bind_allLinks hb.unlinked hb.leveled (hb.tuned.allLinks hs hb.no_new) ?_ hbind
  rcases hb.made with rfl | ⟨m, rfl⟩
  · exact hQ.ending e
  · exact hQ.row m ls e h.parts

theorem Ended.allLinks (h : Ended kind W s r s') (hQ : Inherited W Q) (hs : s.AllLinks Q) :
    s'.AllLinks Q := by
  cases h with
  | done => exact hs
  | fail => exact hs
  | complete h hrun => exact h.allLinks hQ hs hrun
  | newEndFail hlow hhigh h hrun =>
    exact h.allLinks hQ ((fresh_tuned _ _).allLinks hs (fresh_unlinked hlow hhigh)) hrun
  | newEnd hlow hhigh h hrun h' hrun' =>
    have hs₁ := h.allLinks hQ ((fresh_tuned _ _).allLinks hs (fresh_unlinked hlow hhigh)) hrun
    exact h'.allLinks hQ hs₁ hrun'

theorem Course.allLinks (h : Course kind W R root bound s r s') (hQ : Inherited W Q)
    (hs : s.AllLinks Q) : s'.AllLinks Q := by
  induction h with
  | start => exact hs
  | cut _ _ _ _ ih => exact ih
  | stuck _ _ _ _ ih => exact ih
  | bind _ hdue hxv hyt hv _ _ hrun ih =>
    exact bind_allLinks hv ((hdue.tidy.proper _ hdue.left).leads hxv).var.leveled ih
      (hyt.holds ih (hdue.tidy.resolvable _ hdue.right) (hQ.part _ hdue.right)) hrun
  | ends _ hrecords _ hrun ih => exact (hrecords.ended hrun).allLinks hQ ih

theorem inherited_isWhole (hW : ∀ x ∈ W, x.isWhole = true) :
    Inherited W fun t => t.isWhole = true where
  part := hW
  ending := by
    intro e
    cases e <;> rfl
  row := by
    intro m ls e hls
    rw [Ty.isWhole, Bool.and_eq_true, Ty.fieldsAreWhole_iff]
    refine ⟨fun f hf => hW _ (hls f hf), ?_⟩
    cases e <;> rfl

end Unification

theorem PartOf.isWhole {ts : List Ty} {x : Ty} (h : s.PartOf ts x) (hs : s.Sane)
    (hfinite : ∀ t ∈ ts, s.Resolvable t) (hwhole : ∀ t ∈ ts, t.isWhole = true) :
    x.isWhole = true := by
  obtain ⟨t, ht, hbelow⟩ := h
  have hboth : s.Resolvable x ∧ x.isWhole = true := by
    induction hbelow with
    | refl => exact ⟨hfinite t ht, hwhole t ht⟩
    | tail _ hchild ih => exact ⟨ih.1.child hchild, hchild.isWhole hs ih.1 ih.2⟩
  exact hboth.2

/-- Unification keeps every link, writes only to variables that have no link, and leaves links
that lead to whole types and never in a circle. -/
theorem unify_assigns_once {a b : Ty} (hs : s.WellLinked) (ha : a.isWhole = true)
    (hb : b.isWhole = true) (h : s.Disciplined [a, b]) :
    (∀ v t, v < s.size → s.state v = .linked t → (unify a b s).2.state v = .linked t) ∧
      FirstWrites s (unify a b s).2 ∧ (unify a b s).2.WellLinked := by
  obtain ⟨kind, htidy⟩ := h.tidy
  have hwhole : ∀ t ∈ [a, b], t.isWhole = true := by simp [ha, hb]
  have hparts : ∀ x ∈ {x | s.PartOf [a, b] x}, x.isWhole = true := fun x hx =>
    PartOf.isWhole hx hs.sane h.finite hwhole
  have hcourse := htidy.course_unify ⟨a, by simp, .refl⟩ ⟨b, by simp, .refl⟩
  obtain ⟨-, hkept, hwrites, hfinite⟩ := hcourse.preserves
  have hsane : (unify a b s).2.Sane := ⟨fun v hv => hfinite v hv (hs.sane.finite v),
    hcourse.allLinks (inherited_isWhole hparts) hs.whole⟩
  exact ⟨hkept, hwrites, hsane.wellLinked⟩

theorem twoOpen_wellLinked : twoOpen.WellLinked where
  closed := fun _ _ hv ht => absurd ht (twoOpen_unlinked hv _)
  whole := fun _ _ hv ht => absurd ht (twoOpen_unlinked hv _)
  acyclic := fun _ _ hv ht => absurd ht (twoOpen_unlinked hv _)

theorem unify_assigns_once_twoOpen :
    twoOpen.WellLinked ∧ withX.isWhole = true ∧ withY.isWhole = true ∧
      twoOpen.Disciplined [withX, withY] ∧
      (unify withX withY twoOpen).2.state 0 =
        .linked (.rowExtend (.node 0) [("y", .bool)] (.var 2)) ∧
      (unify withX withY twoOpen).2.WellLinked :=
  ⟨twoOpen_wellLinked, rfl, rfl, twoOpen_disciplined, rfl,
    (unify_assigns_once twoOpen_wellLinked rfl rfl twoOpen_disciplined).2.2⟩

/-- An open record with a field that ends in the same variable as the record itself. -/
def selfEnding : Ty :=
  .record .plain (.rowExtend .plain
    [("f", .record .plain (.rowExtend .plain [("a", .int)] (.var 0)))] (.var 0))

/-- An open record over a closed one. -/
def closedInside : Ty :=
  .record .plain (.rowExtend .plain
    [("f", .record .plain (.rowExtend .plain [("a", .int), ("b", .int)] .rowEmpty))] (.var 1))

/-- Where a field ends in the variable that ends its record, that variable is bound together with
the field and then once more, and the other end is left bound to nothing. -/
theorem unify_selfEnding_binds_twice :
    twoOpen.WellLinked ∧
      (unify selfEnding closedInside { twoOpen with speculative := true }).1 = .ok () ∧
      (0, ⟨0, .linked (.rowExtend (.node 0) [("b", .int)] .rowEmpty)⟩) ∈
        (unify selfEnding closedInside { twoOpen with speculative := true }).2.trail ∧
      (unify selfEnding closedInside twoOpen).2.state 1 = .linked .lost :=
  ⟨twoOpen_wellLinked, rfl, by decide, rfl⟩

end Store

end Typecase
