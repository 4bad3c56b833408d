import Typecase.Proofs.Types.Copies
import Typecase.Proofs.Types.Trail
set_option autoImplicit false

/-!
# Levels of schemes and instances

Quantifying a type at level `n` leaves only variables at level `n` or lower in it, and touches
none of the latter.  An instance at a level holds no deeper variables than its scheme and that
level allow.
-/

namespace Typecase

namespace Store

variable {s s' : Store} {x t : Ty} {u v w : Var} {n l : Int}

/-! ## Quantifying and holding back -/

section Folds

variable {f : Store → Var → Store}

/-- Variables that are treated one after the other end up at level `n` or lower. -/
theorem foldl_lowered (hf : ∀ s v, Lowered s (f s v) ∧ ∀ l, (f s v).state v = .unbound l → l ≤ n)
    (vs : List Var) (s : Store) :
    Lowered s (vs.foldl f s) ∧ ∀ v ∈ vs, ∀ l, (vs.foldl f s).state v = .unbound l → l ≤ n := by
  induction vs generalizing s with
  | nil => exact ⟨.refl s, fun _ hv => absurd hv List.not_mem_nil⟩
  | cons v vs ih =>
    obtain ⟨hfirst, hlevel⟩ := hf s v
    obtain ⟨hrest, hlevels⟩ := ih (f s v)
    refine ⟨hfirst.trans hrest, List.forall_mem_cons.mpr ⟨?_, hlevels⟩⟩
    intro l hl
    obtain ⟨k, hk, hle⟩ := hrest.unbound hl
    exact Int.le_trans hle (hlevel k hk)

/-- A type all of whose variables were treated lies within level `n`. -/
theorem within_of_lowered (ht : s.Bounded t) (h : Lowered s s')
    (hlevels : ∀ v ∈ s.reach t, ∀ l, s'.state v = .unbound l → l ≤ n) : s'.Within n t := by
  intro v hv
  refine ⟨h.size ▸ ht v hv, ?_⟩
  intro u l hu hl
  obtain ⟨k, hk, -⟩ := h.unbound hl
  have hreach : s.Reach t u := Reach.trans (.here hv) (h.reach hu)
  exact hlevels u (hreach.mem_reach (by simp [hk])) l hl

end Folds

theorem quantify_lowered (n : Int) (s : Store) (v : Var) :
    Lowered s (quantify n s v) ∧ ∀ l, (quantify n s v).state v = .unbound l → l ≤ n := by
  unfold quantify
  cases hv : s.state v with
  | unbound k =>
    simp only
    split
    · refine ⟨lowered_setState (Or.inr ⟨k, hv, Or.inl rfl⟩), ?_⟩
      intro l hl
      rw [state_setState, if_pos ⟨rfl, lt_size_of_unlinked (by simp [hv])⟩] at hl
      cases hl
    · rename_i hle
      refine ⟨.refl s, ?_⟩
      intro l hl
      rw [hv] at hl
      cases hl
      exact Int.not_lt.mp hle
  | _ =>
    refine ⟨.refl s, ?_⟩
    intro l hl
    rw [hv] at hl
    cases hl

/-- Quantifying changes nothing but unbound variables deeper than the level. -/
theorem quantify_state (hu : ∀ l, s.state u = .unbound l → l ≤ n) (v : Var) :
    (quantify n s v).state u = s.state u := by
  unfold quantify
  cases hv : s.state v with
  | unbound k =>
    simp only
    split
    · rename_i hlt
      rw [state_setState, if_neg]
      rintro ⟨rfl, -⟩
      exact absurd (hu k hv) (Int.not_le.mpr hlt)
    · rfl
  | _ => rfl

theorem foldl_quantify_state (hu : ∀ l, s.state u = .unbound l → l ≤ n) (vs : List Var) :
    (vs.foldl (quantify n) s).state u = s.state u := by
  induction vs generalizing s with
  | nil => rfl
  | cons v vs ih =>
    have hfirst := quantify_state hu v
    rw [List.foldl_cons, ih (by rwa [hfirst]), hfirst]

theorem markGeneric_cells (s : Store) (t : Ty) :
    (s.markGeneric t).cells = s.cells ∧ (s.markGeneric t).nextId = s.nextId ∧
      (s.markGeneric t).renames = s.renames := by
  unfold markGeneric
  split
  · cases t.mark?.getD .plain <;> exact ⟨rfl, rfl, rfl⟩
  · exact ⟨rfl, rfl, rfl⟩

theorem foldl_markGeneric_cells (ts : List Ty) (s : Store) :
    (ts.foldl markGeneric s).cells = s.cells ∧ (ts.foldl markGeneric s).nextId = s.nextId ∧
      (ts.foldl markGeneric s).renames = s.renames := by
  induction ts generalizing s with
  | nil => exact ⟨rfl, rfl, rfl⟩
  | cons t ts ih =>
    obtain ⟨hcells, hnext, hrenaming⟩ := markGeneric_cells s t
    obtain ⟨hcells', hnext', hrenaming'⟩ := ih (s.markGeneric t)
    exact ⟨hcells'.trans hcells, hnext'.trans hnext, hrenaming'.trans hrenaming⟩

theorem state_of_cells (h : s'.cells = s.cells) (v : Var) : s'.state v = s.state v := by
  unfold state cell
  rw [h]

theorem mem_distinctBy {α κ : Type} [BEq κ] {key : α → κ} {xs : List α} {x : α}
    (h : x ∈ distinctBy key xs) : x ∈ xs := by
  have hfold : ∀ (ys acc : List α), x ∈ ys.foldl (fun acc x =>
      if acc.any (fun y => key y == key x) then acc else acc ++ [x]) acc → x ∈ acc ∨ x ∈ ys := by
    intro ys
    induction ys with
    | nil => exact fun acc h => Or.inl h
    | cons y ys ih =>
      intro acc h
      rcases ih _ h with hacc | hys
      · simp only at hacc
        split at hacc
        · exact Or.inl hacc
        · rcases List.mem_append.mp hacc with hacc | hy
          · exact Or.inl hacc
          · exact Or.inr (List.mem_cons.mpr (Or.inl (List.mem_singleton.mp hy)))
      · exact Or.inr (List.mem_cons_of_mem y hys)
  exact (hfold xs [] h).resolve_left List.not_mem_nil

theorem generalize_state (t : Ty) (hu : ∀ l, s.state u = .unbound l → l ≤ n) :
    (generalize n t s).2.state u = s.state u := by
  have hmarks := (foldl_markGeneric_cells
    (((s.reach (s.head t)).foldl (quantify n) s).nodes (s.head t))
    ((s.reach (s.head t)).foldl (quantify n) s)).1
  exact (state_of_cells hmarks u).trans (foldl_quantify_state hu _)

/-- What quantifying a type at level `n` comes to. -/
structure Quantifies (n : Int) (t : Ty) (s : Store) (σ : Scheme) (s' : Store) : Prop where
  lowered : Lowered s s'
  type : σ.type = s.head t
  within : s'.Within n σ.type
  bound : ∀ v ∈ σ.bound, s'.state v = .generic
  kept : ∀ v l, s.state v = .unbound l → l ≤ n → s'.state v = .unbound l

theorem generalize_quantifies (hs : s.Regular) (ht : s.Bounded t) (n : Int) :
    Quantifies n t s (generalize n t s).1 (generalize n t s).2 := by
  obtain ⟨hlowered, hlevels⟩ := foldl_lowered (quantify_lowered n) (s.reach (s.head t)) s
  have hwithin := within_of_lowered (ht.leads hs.orderly (head_leads s t)) hlowered hlevels
  obtain ⟨hcells, hnext, hrenaming⟩ := foldl_markGeneric_cells
    (((s.reach (s.head t)).foldl (quantify n) s).nodes (s.head t))
    ((s.reach (s.head t)).foldl (quantify n) s)
  have hmarks : Lowered ((s.reach (s.head t)).foldl (quantify n) s) (generalize n t s).2 :=
    lowered_of_cells hcells hnext hrenaming.trans
  refine ⟨hlowered.trans hmarks, rfl, hwithin.advance ?_, ?_, ?_⟩
  · exact hmarks.advances (hlowered.advances hs).regular
  · intro v hv
    have hgeneric := (List.mem_filter.mp (mem_distinctBy hv)).2
    have hstate : (generalize n t s).2.state v =
        ((s.reach (s.head t)).foldl (quantify n) s).state v := state_of_cells hcells v
    rw [hstate]
    cases hcase : ((s.reach (s.head t)).foldl (quantify n) s).state v with
    | generic => rfl
    | _ =>
      rw [hcase] at hgeneric
      cases hgeneric
  · intro v l hl hle
    rw [generalize_state t fun k hk => ?_, hl]
    rw [hl] at hk
    cases hk
    exact hle

/-- No variable is quantified that is free in types that lie within the level. -/
theorem Quantifies.escape?_eq_none {σ : Scheme} (h : Quantifies n t s σ s') (hs : s.Regular)
    (hcap : s.nextId ≤ capacity) {free : List Int}
    (hfree : ∀ i ∈ free, ∃ u l, s.id u = i ∧ s.state u = .unbound l ∧ l ≤ n) :
    s'.escape? free σ = none := by
  unfold escape?
  rw [Option.map_eq_none_iff, List.find?_eq_none]
  intro v hv hcontains
  obtain ⟨u, l, hid, hl, hle⟩ := hfree _ (List.contains_iff_mem.mp hcontains)
  have hgeneric := h.bound v hv
  have hltv : v < s.size := h.lowered.size ▸ lt_size_of_unlinked (by simp [hgeneric])
  have hltu : u < s.size := lt_size_of_unlinked (by simp [hl])
  obtain rfl : u = v := by
    refine hs.numbered.id_inj hcap hltu (by simp [hl]) hltv ?_
    rw [hid, h.lowered.id]
  rw [h.kept u l hl hle] at hgeneric
  cases hgeneric

theorem restrict_step (hn : Level.linked ≤ n) (s : Store) (v : Var) :
    Lowered s (match s.state v with
      | .unbound l => if l > n then s.setState v (.atLevel (Level.ofInt n)) else s
      | _ => s) ∧ ∀ l, Store.state (match s.state v with
      | .unbound l => if l > n then s.setState v (.atLevel (Level.ofInt n)) else s
      | _ => s) v = .unbound l → l ≤ n := by
  cases hv : s.state v with
  | unbound k =>
    simp only
    split
    · rename_i hlt
      have hle := Level.ofInt_le hn
      refine ⟨lowered_setState (hv ▸ sinks_atLevel (Level.linked_le_ofInt n) (by omega)), ?_⟩
      intro l hl
      rw [state_setState, if_pos ⟨rfl, lt_size_of_unlinked (by simp [hv])⟩] at hl
      exact unbound_of_atLevel hl ▸ hle
    · rename_i hle
      refine ⟨.refl s, ?_⟩
      intro l hl
      rw [hv] at hl
      cases hl
      exact Int.not_lt.mp hle
  | _ =>
    refine ⟨.refl s, ?_⟩
    intro l hl
    simp only at hl
    rw [hv] at hl
    cases hl

/-- Holding back the variables of a type leaves them at level `n` or lower. -/
theorem restrict_lowered (hn : Level.linked ≤ n) (ht : s.Bounded t) :
    Lowered s (s.restrict n t) ∧ (s.restrict n t).Within n t := by
  obtain ⟨hlowered, hlevels⟩ := foldl_lowered (restrict_step hn) (s.reach t) s
  exact ⟨hlowered, within_of_lowered ht hlowered hlevels⟩

/-! ## Shortcuts -/

theorem Leads.reach_end (h : s.Leads x t) (hw : s.Reach t w) : s.Reach x w := by
  induction h with
  | done => exact hw
  | link hv _ ih => exact .step (by simp [Ty.vars]) hv (ih hw)

/-- Binding a variable directly to the end of its chain of links. -/
theorem shortcut_moves (hs : s.Orderly) (hv : s.state v = .linked t) :
    Moves s (s.setState v (.linked (s.head t))) := by
  have hlinked : ∀ u y, (s.setState v (.linked (s.head t))).state u = .linked y →
      s.state u = .linked y ∨ s.state u = .linked t ∧ y = s.head t := by
    intro u y hu
    rw [state_setState] at hu
    split at hu
    · rename_i heq
      cases hu
      exact Or.inr ⟨heq.1 ▸ hv, rfl⟩
    · exact Or.inl hu
  have hunbound : ∀ u l, (s.setState v (.linked (s.head t))).state u = .unbound l →
      s.state u = .unbound l := by
    intro u l hu
    rw [state_setState] at hu
    split at hu
    · cases hu
    · exact hu
  have hreach : ∀ x w, (s.setState v (.linked (s.head t))).Reach x w → s.Reach x w := by
    intro x w hw
    induction hw with
    | here hmem => exact .here hmem
    | step hmem hlink _ ih =>
      rcases hlinked _ _ hlink with hsame | ⟨hold, rfl⟩
      · exact .step hmem hsame ih
      · exact .step hmem hold ((head_leads s t).reach_end ih)
  refine ⟨⟨?_, ?_⟩, ?_, ?_, ?_, fun h => h, ?_⟩
  · intro u y hu
    have hbounded : s.Bounded y := by
      rcases hlinked u y hu with hsame | ⟨-, rfl⟩
      · exact hs.closed u y hsame
      · exact Bounded.leads hs (hs.closed v t hv) (head_leads s t)
    intro w hw
    rw [size_setState]
    exact hbounded w hw
  · exact fun u l hu => hs.leveled u l (hunbound u l hu)
  · rw [size_setState]
  · exact Nat.le_refl _
  · refine keepsNumbers_of_id (size_setState _ _ _) rfl (id_setState _ _ _) ?_
    intro u hu
    rwa [state_setState, if_neg]
    rintro ⟨rfl, -⟩
    rw [hv] at hu
    cases hu
  · exact fun u w l _ hw hl => ⟨w, l, hreach _ _ hw, hunbound w l hl, Int.le_refl l⟩

theorem foldl_shortcut_moves (vs : List Var) (hs : s.Orderly) : Moves s (vs.foldl (fun s v =>
    match s.state v with
    | .linked t => s.setState v (.linked (s.head t))
    | _ => s) s) := by
  induction vs generalizing s with
  | nil => exact .refl hs
  | cons v vs ih =>
    rw [List.foldl_cons]
    cases hv : s.state v with
    | linked t =>
      have hfirst := shortcut_moves hs hv
      exact hfirst.trans (ih hfirst.orderly)
    | _ => exact ih hs

theorem compress_moves (hs : s.Orderly) : Moves s s.compress := by
  have hflat := foldl_shortcut_moves s.recent hs
  refine hflat.trans (Lowered.moves ?_ hflat.orderly)
  exact lowered_of_cells rfl rfl fun h => h

theorem compress_advances (hs : s.Regular) : Advances s s.compress :=
  (compress_moves hs.orderly).advances hs

/-! ## Building types -/

/-- A type is put together from variables among `vs`, and nothing but marks changes. -/
structure Assembles (s : Store) (vs : List Var) (r : Ty × Store) : Prop where
  cells : r.2.cells = s.cells
  nextId : r.2.nextId = s.nextId
  renames : r.2.renames = s.renames
  vars : r.1.vars ⊆ vs

theorem Assembles.advances {vs : List Var} {r : Ty × Store} (h : Assembles s vs r)
    (hs : s.Regular) : Advances s r.2 :=
  (lowered_of_cells h.cells h.nextId h.renames.trans).advances hs

theorem Assembles.within {vs : List Var} {r : Ty × Store} (h : Assembles s vs r) (hs : s.Regular)
    (hvs : ∀ v ∈ vs, s.WithinVar n v) : r.2.Within n r.1 :=
  fun v hv => (hvs v (h.vars hv)).advance (h.advances hs)

theorem assembles_mkCon (name : String) (args : List Ty) :
    Assembles s (Ty.varsList args) (Ty.mkCon name args s) := by
  unfold Ty.mkCon
  split
  · exact ⟨rfl, rfl, rfl, List.nil_subset _⟩
  · exact ⟨rfl, rfl, rfl, fun _ hv => hv⟩

theorem assembles_mkArrow (a r : Ty) : Assembles s (a.vars ++ r.vars) (Ty.mkArrow a r s) :=
  ⟨rfl, rfl, rfl, fun _ hv => hv⟩

theorem assembles_mkTuple (elems : List Ty) :
    Assembles s (Ty.varsList elems) (Ty.mkTuple elems s) := by
  unfold Ty.mkTuple
  split
  · exact ⟨rfl, rfl, rfl, List.nil_subset _⟩
  · exact ⟨rfl, rfl, rfl, fun _ hv => List.mem_append_left _ hv⟩
  · exact ⟨rfl, rfl, rfl, fun _ hv => hv⟩

theorem assembles_extendRow (labels : LabelMap Ty) (row : Ty) :
    Assembles s (Ty.varsFields labels ++ row.vars) (Ty.extendRow labels row s) := by
  unfold Ty.extendRow
  split
  · exact ⟨rfl, rfl, rfl, fun _ hv => List.mem_append_right _ hv⟩
  · exact ⟨rfl, rfl, rfl, fun _ hv => hv⟩

theorem assembles_mkRecord (labels : LabelMap Ty) (row : Ty) :
    Assembles s (Ty.varsFields labels ++ row.vars) (Ty.mkRecord labels row s) :=
  have h := assembles_extendRow (s := s) labels row
  ⟨h.cells, h.nextId, h.renames, h.vars⟩

/-! ## Instances -/

section Copies

variable {given known : Renaming} {behind : Ty → Ty → Prop}

/-- What is known lies within the level, if what was given does. -/
theorem Supplied.within (h : Supplied n given s known s') (hn : 0 ≤ n) (hs : s.Regular)
    (hgiven : ∀ e ∈ given, s.Within n e.2) {i : Int} (hi : known.lookup i = some t) :
    s'.Within n t := by
  rcases h.lookup_cases hi with ⟨e, he, rfl⟩ | ⟨w, rfl, hw, hlt⟩
  · exact (hgiven e he).move (h.grows.moves hs.orderly)
  · exact within_var.mpr (withinVar_atLevel hn (Int.le_refl n) hlt (h.fresh w hw hlt))

/-- Copies hold no deeper variables than what is copied. -/
theorem Copies.within {ts ts' : List Ty} (h : Copies n given s behind known s' ts ts')
    (hsupplied : Supplied n given s known s') (hn : 0 ≤ n) (hs : s.Regular)
    (hgiven : ∀ e ∈ given, s.Within n e.2)
    (hbehind : ∀ u t, s.Within n u → behind u t → s'.Within n t)
    (hts : ∀ v ∈ Ty.varsList ts, s.WithinVar n v) : ∀ v ∈ Ty.varsList ts', s'.WithinVar n v := by
  induction h with
  | nil => exact fun _ hv => absurd hv List.not_mem_nil
  | shared _ _ _ ih =>
    obtain ⟨ht, hts⟩ := List.forall_mem_append.mp hts
    exact List.forall_mem_append.mpr
      ⟨fun v hv => (ht v hv).move (hsupplied.grows.moves hs.orderly), ih hts⟩
  | known h₁ hv hlookup _ ih =>
    exact List.forall_mem_append.mpr
      ⟨hsupplied.within hn hs hgiven hlookup, ih (List.forall_mem_append.mp hts).2⟩
  | link h₁ hv hcopy _ ih =>
    obtain ⟨ht, hts⟩ := List.forall_mem_append.mp hts
    have hmem : ∀ v : Var, v ∈ (Ty.var v).vars := by simp [Ty.vars]
    rw [h₁.state (ht _ (hmem _)).1] at hv
    exact List.forall_mem_append.mpr
      ⟨hbehind _ _ (Within.follow hs.orderly ht (hmem _) hv) hcopy, ih hts⟩
  | con _ _ _ ihparts ih | tuple _ _ _ ihparts ih =>
    obtain ⟨ht, hts⟩ := List.forall_mem_append.mp hts
    exact List.forall_mem_append.mpr ⟨ihparts ht, ih hts⟩
  | arrow _ _ _ ihparts ih | record _ _ _ ihparts ih =>
    obtain ⟨ht, hts⟩ := List.forall_mem_append.mp hts
    simp only [Ty.varsList, List.append_nil] at ihparts
    exact List.forall_mem_append.mpr ⟨ihparts ht, ih hts⟩
  | rowExtend _ _ _ _ _ ihls ihr ih =>
    obtain ⟨ht, hts⟩ := List.forall_mem_append.mp hts
    obtain ⟨hls, hr⟩ := List.forall_mem_append.mp ht
    simp only [Ty.varsList, List.append_nil, ← Ty.varsFields_eq] at ihls ihr
    exact List.forall_mem_append.mpr ⟨List.forall_mem_append.mpr ⟨ihls hls, ihr hr⟩, ih hts⟩

theorem CopyAt.within {k : Nat} {t' : Ty} (h : CopyAt n given s k known s' t t')
    (hsupplied : Supplied n given s known s') (hn : 0 ≤ n) (hs : s.Regular)
    (hgiven : ∀ e ∈ given, s.Within n e.2) (ht : s.Within n t) : s'.Within n t' := by
  induction k generalizing t t' with
  | zero =>
    cases h
    exact ht.move (hsupplied.grows.moves hs.orderly)
  | succ k ih =>
    have hcopies := Copies.within h hsupplied hn hs hgiven fun u t hu ht => ih ht hu
    simp only [Ty.varsList, List.append_nil] at hcopies
    exact hcopies ht

end Copies

/-- An instance holds no deeper variables than the type and what stands for variables. -/
theorem instantiateFrom_within (hn : 0 ≤ n) (hs : s.Regular) (hidle : s.renames = [])
    (ht : s.Within n t) {given : Renaming} (hgiven : ∀ e ∈ given, s.Within n e.2) :
    Advances s (instantiateFrom n given t s).2 ∧
      (instantiateFrom n given t s).2.Within n (instantiateFrom n given t s).1 := by
  obtain ⟨known, hsupplied, hcopy⟩ := instantiateFrom_copyAt n given t s
  rw [hidle, List.append_nil] at hsupplied hcopy
  exact ⟨(hsupplied.grows.moves hs.orderly).advances hs,
    hcopy.within hsupplied hn hs hgiven (ht.leads hs.orderly (head_leads s t))⟩

theorem instantiate_within (hn : 0 ≤ n) (hs : s.Regular) (hidle : s.renames = []) {σ : Scheme}
    (hσ : s.Within n σ.type) :
    Advances s (instantiate n σ s).2 ∧ (instantiate n σ s).2.Within n (instantiate n σ s).1 := by
  unfold instantiate
  split
  · exact ⟨.refl hs, hσ⟩
  · exact instantiateFrom_within hn hs hidle hσ (fun _ he => absurd he List.not_mem_nil)

theorem instantiateWith_within (hn : 0 ≤ n) (hs : s.Regular) (hidle : s.renames = [])
    (params : List Var) {args : List Ty} (hargs : ∀ a ∈ args, s.Within n a) (ht : s.Within n t) :
    Advances s (instantiateWith n params args t s).2 ∧
      (instantiateWith n params args t s).2.Within n (instantiateWith n params args t s).1 := by
  refine instantiateFrom_within hn hs hidle ht ?_
  intro e he
  exact hargs e.2 (List.of_mem_zip (List.mem_reverse.mp he)).2

end Store

end Typecase
