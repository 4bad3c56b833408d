import Typecase.Proofs.Types.Copying
import Typecase.Proofs.Types.Generalization
import Typecase.Proofs.Types.LevelInvariant
import Typecase.Proofs.Types.Texts
set_option autoImplicit false

/-!
# Instances of schemes

An instance of a scheme is its type with fresh variables for the quantified ones.  Quantifying
them again gives the scheme back, up to the choice of variables.
-/

namespace Typecase

namespace Store

variable {s s' s'' : Store} {σ : Scheme} {t : Ty} {v w : Var} {n m : Int} {known : Renaming}
  {ρ : Var → Var}

/-- The scheme binds the quantified variables of its type, which are told apart by their numbers,
and the composite parts that hold quantified variables are marked. -/
structure Quantified (s : Store) (σ : Scheme) : Prop where
  resolvable : s.Resolvable σ.type
  bound : ∀ v ∈ (s.expand σ.type).vars, s.state v = .generic → v ∈ σ.bound
  ids : Set.InjOn s.id {v | v ∈ (s.expand σ.type).vars}
  marked : ∀ x ∈ s.nodes σ.type, (∃ v ∈ (s.expand x).vars, s.state v = .generic) →
    s.isGeneric x = some true

/-- Generalizing gives a scheme that binds the quantified variables of its type. -/
theorem generalize_quantified (ht : s.Resolvable t)
    (hids : Set.InjOn s.id {v | v ∈ (s.expand t).vars}) (hnodes : s.Identified t) :
    (generalize m t s).2.Quantified (generalize m t s).1 := by
  obtain ⟨hresolvable, hexpand, hparts⟩ := generalize_looks (n := m) ht
  refine ⟨hresolvable, fun v hv hgeneric => ?_, ?_, fun x hx hholds => ?_⟩
  · rw [generalize_bound ht hids, List.mem_eraseDups, List.mem_filter, VarState.isGeneric_iff]
    exact ⟨hexpand ▸ hv, hgeneric⟩
  · show Set.InjOn _ {v | v ∈ ((generalize m t s).2.expand (s.head t)).vars}
    rw [hexpand]
    exact hids.congr fun v _ => (generalize_id m t s v).symm
  · rw [generalize_expand ht] at hholds
    exact generalize_marks ht hnodes ((hparts x).mp hx) hholds

/-- In `s'` the type `t` is the type of `σ` with its quantified variables renamed by `ρ` to
different fresh variables at level `n`.  What there was in `s` has not changed. -/
structure Instantiated (n : Int) (σ : Scheme) (s : Store) (ρ : Var → Var) (t : Ty) (s' : Store) :
    Prop where
  resolvable : s'.Resolvable t
  expand : s'.expand t = (s.expand σ.type).fill fun v => .var (ρ v)
  fixed : ∀ v, s.state v ≠ .generic → ρ v = v
  fresh : ∀ v ∈ (s.expand σ.type).vars, s.state v = .generic →
    s.size ≤ ρ v ∧ s'.state (ρ v) = .unbound n
  inj : Set.InjOn ρ {v | v ∈ (s.expand σ.type).vars}
  size_le : s.size ≤ s'.size
  cells : ∀ v < s.size, s'.cell v = s.cell v
  marks : ∀ m, s'.isMarked m = s.isMarked m
  nodes : ∀ x ∈ s'.nodes t, s.Resolvable x ∨ ∃ k, x.mark? = some (.node k) ∧ s.marks.size ≤ k
  idle : s'.renames = []

theorem instantiate_copies (hσ : s.Quantified σ) (hn : Level.Valid n) (hidle : s.renames = []) :
    ∃ known, Supplied n [] s known (instantiate n σ s).2 ∧
      (∃ t, s.Leads σ.type t ∧
        CopyOf n s known (instantiate n σ s).2 t (instantiate n σ s).1) ∧
      (instantiate n σ s).2.renames = [] := by
  have hmarked : ∀ x ∈ s.nodes σ.type, s.holdsGeneric x = true → s.isGeneric x = some true :=
    fun x hx hholds => hσ.marked x hx (holdsGeneric_iff.mp hholds)
  unfold instantiate
  split
  · rename_i hmono
    refine ⟨[], .refl n [] s, ⟨σ.type, .done, ?_⟩, hidle⟩
    refine copyOf_shared hσ.resolvable (.refl n [] s) ?_
    refine Bool.eq_false_iff.mpr fun hholds => ?_
    obtain ⟨v, hv, hgeneric⟩ := holdsGeneric_iff.mp hholds
    have hmem := hσ.bound v hv hgeneric
    rw [List.isEmpty_iff.mp hmono] at hmem
    exact absurd hmem List.not_mem_nil
  · obtain ⟨known, hs, hcopy, hidle⟩ := instantiateType_copies hn hidle hσ.resolvable hmarked
    exact ⟨known, hs, ⟨s.head σ.type, head_leads s σ.type, hcopy⟩, hidle⟩

/-- A copy holds no quantified variables. -/
theorem CopyOf.not_generic {t t' : Ty} (h : CopyOf n s known s' t t')
    (hs : Supplied n [] s known s') (ht : s'.Resolvable t') (hv : v ∈ (s'.expand t').vars) :
    s'.state v ≠ .generic := by
  rw [ht.expand_eq, Ty.vars_fill] at hv
  obtain ⟨w, hw, hv⟩ := List.mem_flatMap.mp hv
  rcases (assembled_single.mp h).2.1 w hw with ⟨-, hstate⟩ | ⟨hold, hplain⟩
  · rw [ending_unlinked (by simp [hstate]), Ty.vars, List.mem_singleton] at hv
    simp [hv, hstate]
  · have hending : s'.ending w = s.expand (.var w) := by
      rw [← (hs.looks hold).2.1, (hs.looks hold).1.expand_eq, Ty.fill]
    rw [hending] at hv
    rw [hs.state (lt_size_of_unlinked (hold.unlinked hv))]
    intro hgeneric
    rw [holdsGeneric_iff.mpr ⟨v, hv, hgeneric⟩] at hplain
    cases hplain

/-- The composite parts of a copy are over variables that there were, or new. -/
theorem CopyOf.node_cases {t t' x : Ty} (h : CopyOf n s known s' t t')
    (hs : Supplied n [] s known s') (ht : s'.Resolvable t') (hx : x ∈ s'.nodes t') :
    s.Resolvable x ∨ ∃ k, x.mark? = some (.node k) ∧ s.marks.size ≤ k := by
  rcases ht.mem_nodes_vars.mp hx with hx | ⟨w, hw, hx⟩
  · exact (assembled_single.mp h).2.2 x hx
  · rcases (assembled_single.mp h).2.1 w hw with ⟨-, hstate⟩ | ⟨hold, -⟩
    · simp [(ht.var hw).mem_nodes, Ty.nodes, Ty.vars, hstate] at hx
    · exact .inl (hold.of_mem_nodes (((hs.looks hold).2.2 x).mp hx)).1

theorem instantiate_instantiated (hσ : s.Quantified σ) (hn : Level.Valid n)
    (hidle : s.renames = []) :
    ∃ ρ, Instantiated n σ s ρ (instantiate n σ s).1 (instantiate n σ s).2 := by
  obtain ⟨known, hs, ⟨t, hlead, hcopy⟩, hidle⟩ := instantiate_copies hσ hn hidle
  obtain ⟨hresolvable, hexpand⟩ := hcopy.expand hs (hσ.resolvable.leads hlead)
  rw [hσ.resolvable.expand_leads hlead] at hexpand
  obtain ⟨origin, hnew⟩ := hs.new
  -- every quantified variable of the type was given a variable, or it would be in the copy
  have hfresh : ∀ v ∈ (s.expand σ.type).vars, s.state v = .generic → ∃ w,
      known.lookup (s.id v) = some (.var w) ∧ s.size ≤ w ∧
        (instantiate n σ s).2.state w = .unbound n ∧ origin w = s.id v := by
    intro v hv hgeneric
    cases hlookup : known.lookup (s.id v) with
    | some t =>
      obtain ⟨w, rfl, hw, hlt, horigin⟩ := hnew (s.id v) t rfl hlookup
      exact ⟨w, rfl, hw, by rw [hs.fresh w hw hlt, hn.ofInt, hn.atLevel], horigin⟩
    | none =>
      have hmem : v ∈ ((instantiate n σ s).2.expand (instantiate n σ s).1).vars := by
        rw [hexpand, Ty.vars_fill]
        refine List.mem_flatMap.mpr ⟨v, hv, ?_⟩
        simp [stand, hgeneric, hlookup, Ty.vars]
      refine absurd ?_ (hcopy.not_generic hs hresolvable hmem)
      rw [hs.state (lt_size_of_unlinked (hσ.resolvable.unlinked hv)), hgeneric]
  choose! fresh hlookup hsize hstate horigin using hfresh
  refine ⟨fun v => if s.state v = .generic then fresh v else v, hresolvable, ?_, ?_, ?_, ?_,
    hs.size_le, hs.cells, hs.marks, fun x hx => hcopy.node_cases hs hresolvable hx, hidle⟩
  · rw [hexpand]
    refine Ty.fill_congr _ fun v hv => ?_
    rw [stand]
    split
    · rename_i hgeneric
      have hend : ∀ u, (instantiate n σ s).2.state (fresh v) ≠ .linked u := by
        simp [hstate v hv hgeneric]
      rw [hlookup v hv hgeneric, Option.map_some, Option.getD_some,
        (resolvable_unlinked hend).expand_eq, Ty.fill, ending_unlinked hend]
    · rfl
  · exact fun v hnot => if_neg hnot
  · intro v hv hgeneric
    rw [if_pos hgeneric]
    exact ⟨hsize v hv hgeneric, hstate v hv hgeneric⟩
  · intro u hu v hv heq
    have hltu := lt_size_of_unlinked (hσ.resolvable.unlinked hu)
    have hltv := lt_size_of_unlinked (hσ.resolvable.unlinked hv)
    simp only at heq
    split at heq <;> split at heq
    · rename_i hgu hgv
      refine hσ.ids hu hv ?_
      rw [← horigin u hu hgu, heq, horigin v hv hgv]
    · rename_i hgu hgv
      exact absurd hltv (Nat.not_lt.mpr (heq ▸ hsize u hu hgu))
    · rename_i hgu hgv
      exact absurd hltu (Nat.not_lt.mpr (heq ▸ hsize v hv hgv))
    · exact heq

theorem Instantiated.state (h : Instantiated n σ s ρ t s') (hv : v < s.size) :
    s'.state v = s.state v :=
  congrArg Cell.state (h.cells v hv)

theorem Instantiated.looks {x : Ty} (h : Instantiated n σ s ρ t s') (hx : s.Resolvable x) :
    s'.Resolvable x ∧ s'.expand x = s.expand x ∧ ∀ y, y ∈ s'.nodes x ↔ y ∈ s.nodes x :=
  hx.expand_of_links h.size_le fun v hv u => by rw [h.state hv]

theorem Instantiated.mem_vars (h : Instantiated n σ s ρ t s') :
    v ∈ (s'.expand t).vars ↔ ∃ w ∈ (s.expand σ.type).vars, v = ρ w := by
  rw [h.expand, Ty.vars_fill]
  simp [Ty.vars]

/-- A scheme is not changed by its instances. -/
theorem Quantified.later (hσ : s.Quantified σ) (h : Instantiated n σ s ρ t s') :
    s'.Quantified σ := by
  obtain ⟨hresolvable, hexpand, hnodes⟩ := h.looks hσ.resolvable
  have hlt : ∀ v ∈ (s.expand σ.type).vars, v < s.size :=
    fun v hv => lt_size_of_unlinked (hσ.resolvable.unlinked hv)
  refine ⟨hresolvable, ?_, ?_, ?_⟩
  · rw [hexpand]
    exact fun v hv hgeneric => hσ.bound v hv ((h.state (hlt v hv)).symm.trans hgeneric)
  · rw [hexpand]
    exact hσ.ids.congr fun v hv => (congrArg Cell.id (h.cells v (hlt v hv))).symm
  · intro x hx hholds
    rw [hnodes] at hx
    obtain ⟨hxr, ⟨m, hm⟩, -⟩ := hσ.resolvable.of_mem_nodes hx
    rw [isGeneric_of_mark? hm, h.marks, ← isGeneric_of_mark? hm]
    obtain ⟨v, hv, hgeneric⟩ := hholds
    rw [(h.looks hxr).2.1] at hv
    have hlt := lt_size_of_unlinked (hxr.unlinked hv)
    exact hσ.marked x hx ⟨v, hv, (h.state hlt).symm.trans hgeneric⟩

/-- A variable of an instance is fresh or a variable of the scheme that is not quantified. -/
theorem Instantiated.var_cases (h : Instantiated n σ s ρ t s') (hσ : s.Quantified σ)
    (hv : v ∈ (s'.expand t).vars) : s.size ≤ v ∧ s'.state v = .unbound n ∨
      v ∈ (s.expand σ.type).vars ∧ s.state v ≠ .generic ∧ s'.state v = s.state v := by
  obtain ⟨w, hw, rfl⟩ := h.mem_vars.mp hv
  by_cases hgeneric : s.state w = .generic
  · exact .inl (h.fresh w hw hgeneric)
  · rw [h.fixed w hgeneric]
    exact .inr ⟨hw, hgeneric, h.state (lt_size_of_unlinked (hσ.resolvable.unlinked hw))⟩

/-- The instance of a scheme is its type with different fresh variables in the place of the
quantified ones.  It holds no quantified variable, what there was does not change, and the
variables it shares with a further instance are variables of the scheme that are not
quantified. -/
theorem instantiate_fresh (hσ : s.Quantified σ) (hn : Level.Valid n) (hidle : s.renames = []) :
    let t := (instantiate n σ s).1
    let s' := (instantiate n σ s).2
    (∃ ρ, Instantiated n σ s ρ t s') ∧ (∀ v ∈ (s'.expand t).vars, s'.state v ≠ .generic) ∧
      s'.showScheme σ = s.showScheme σ ∧
      ∀ m, Level.Valid m → ∀ v ∈ ((instantiate m σ s').2.expand t).vars,
        v ∈ ((instantiate m σ s').2.expand (instantiate m σ s').1).vars →
          v ∈ (s.expand σ.type).vars ∧ s.state v ≠ .generic := by
  intro t s'
  obtain ⟨ρ, h⟩ : ∃ ρ, Instantiated n σ s ρ t s' := instantiate_instantiated hσ hn hidle
  refine ⟨⟨ρ, h⟩, ?_, hσ.resolvable.showType_of_cells h.size_le h.cells, ?_⟩
  · intro v hv
    rcases h.var_cases hσ hv with ⟨-, hstate⟩ | ⟨-, hnot, hstate⟩
    · simp [hstate]
    · rwa [hstate]
  · intro m hm v hfirst hsecond
    obtain ⟨ρ', h'⟩ := instantiate_instantiated (hσ.later h) hm h.idle
    rw [(h'.looks h.resolvable).2.1] at hfirst
    rcases h'.var_cases (hσ.later h) hsecond with ⟨hsize, -⟩ | ⟨hv, hnot, -⟩
    · exact absurd (lt_size_of_unlinked (h.resolvable.unlinked hfirst)) (Nat.not_lt.mpr hsize)
    · rw [(h.looks hσ.resolvable).2.1] at hv
      rw [h.state (lt_size_of_unlinked (hσ.resolvable.unlinked hv))] at hnot
      exact ⟨hv, hnot⟩

theorem looseArrow_quantified : (generalize 1 looseArrow looseStore).2.Quantified
    (generalize 1 looseArrow looseStore).1 :=
  generalize_quantified looseArrow_resolvable looseArrow_ids looseArrow_identified

theorem instantiate_fresh_looseArrow :
    let σ := (generalize 1 looseArrow looseStore).1
    let s := (generalize 1 looseArrow looseStore).2
    let t := (instantiate 3 σ s).1
    let s' := (instantiate 3 σ s).2
    (∃ ρ, Instantiated 3 σ s ρ t s') ∧ (∀ v ∈ (s'.expand t).vars, s'.state v ≠ .generic) ∧
      s'.expand t = .arrow .plain (.con .plain "list" [.var 3]) (.con .plain "ref" [.var 2]) := by
  obtain ⟨hinstance, hplain, -⟩ :=
    instantiate_fresh (n := 3) looseArrow_quantified ⟨by decide, by decide⟩ rfl
  exact ⟨hinstance, hplain, by decide⟩

/-! ## Quantifying an instance -/

section RoundTrip

variable (h : Instantiated (n + 1) σ s ρ t s') (hσ : s.Quantified σ)
  (hlevels : ∀ v ∈ (s.expand σ.type).vars, ∀ l, s.state v = .unbound l → l ≤ n)
include h hσ hlevels

/-- Of the variables of an instance, the fresh ones are quantified. -/
theorem Instantiated.quantified_iff (hv : v ∈ (s'.expand t).vars) :
    Ripe n (s'.state v) ↔ s.size ≤ v := by
  rcases h.var_cases hσ hv with ⟨hsize, hstate⟩ | ⟨hmem, hnot, hstate⟩
  · rw [hstate]
    exact iff_of_true ⟨rfl, Int.lt_succ n⟩ hsize
  · have hlt := lt_size_of_unlinked (hσ.resolvable.unlinked hmem)
    rw [hstate]
    refine iff_of_false ?_ (Nat.not_le.mpr hlt)
    rintro ⟨hunbound, hdeep⟩
    cases hl : s.state v with
    | unbound l =>
      rw [hl] at hdeep
      exact absurd (hlevels v hmem l hl) (Int.not_le.mpr hdeep)
    | _ => simp [hl, VarState.isUnbound] at hunbound

theorem Instantiated.generalize_cell (hv : v < s.size) :
    (generalize n t s').2.cell v = s.cell v := by
  have hstate : (generalize n t s').2.state v = s'.state v := by
    rw [generalize_state_eq h.resolvable, if_neg]
    rintro ⟨hmem, hripe⟩
    exact absurd hv (Nat.not_lt.mpr ((h.quantified_iff hσ hlevels hmem).mp hripe))
  rw [← h.cells v hv]
  exact congrArg₂ Cell.mk (generalize_id n t s' v) hstate

theorem Instantiated.generalize_generic (hv : v ∈ (s.expand σ.type).vars) :
    (generalize n t s').2.state (ρ v) = .generic ↔ s.state v = .generic := by
  have hmem := h.mem_vars.mpr ⟨v, hv, rfl⟩
  by_cases hgeneric : s.state v = .generic
  · rw [generalize_state_eq h.resolvable, if_pos]
    · exact iff_of_true rfl hgeneric
    · exact ⟨hmem, (h.quantified_iff hσ hlevels hmem).mpr (h.fresh v hv hgeneric).1⟩
  · have hlt := lt_size_of_unlinked (hσ.resolvable.unlinked hv)
    rw [h.fixed v hgeneric, Store.state, h.generalize_cell hσ hlevels hlt]
    exact Iff.rfl

/-- Quantifying an instance marks no node that there was. -/
theorem Instantiated.generalize_isMarked {k : Nat} (hk : k < s.marks.size) :
    (generalize n t s').2.isMarked (.node k) = s.isMarked (.node k) := by
  rw [Bool.eq_iff_iff, Store.generalize_isMarked h.resolvable, h.marks]
  refine or_iff_left ?_
  rintro ⟨j, hj, x, hx, ⟨v, hv, hgeneric⟩, hmark, -⟩
  cases hj
  rcases h.nodes x hx with hold | ⟨j, hj, hle⟩
  · have hmem := (h.resolvable.of_mem_nodes hx).2.2 hv
    rw [(h.looks hold).2.1] at hv
    have hlt := lt_size_of_unlinked (hold.unlinked hv)
    rw [Store.state, h.generalize_cell hσ hlevels hlt] at hgeneric
    rcases h.var_cases hσ hmem with ⟨hsize, -⟩ | ⟨-, hnot, -⟩
    · exact absurd hlt (Nat.not_lt.mpr hsize)
    · exact hnot hgeneric
  · cases hmark.symm.trans hj
    exact absurd hk (Nat.not_lt.mpr hle)

/-- The scheme of an instance has the text of the scheme. -/
theorem Instantiated.generalize_showScheme (hids : Set.InjOn s'.id {v | v ∈ (s'.expand t).vars}) :
    (generalize n t s').2.showScheme (generalize n t s').1 = s.showScheme σ := by
  obtain ⟨hresolvable, hexpand, -⟩ := generalize_looks (n := n) h.resolvable
  have hmem : ∀ v ∈ (s.expand σ.type).vars, ρ v ∈ (s'.expand t).vars :=
    fun v hv => h.mem_vars.mpr ⟨v, hv, rfl⟩
  refine showType_rename hσ.resolvable hresolvable (hexpand.trans h.expand) ?_ ?_
  · intro v hv
    rw [Bool.eq_iff_iff, VarState.isGeneric_iff, VarState.isGeneric_iff]
    exact h.generalize_generic hσ hlevels hv
  · intro u hu v hv
    rw [generalize_id, generalize_id]
    constructor
    · exact fun heq => by rw [hσ.ids hu hv heq]
    · exact fun heq => by rw [h.inj hu hv (hids (hmem u hu) (hmem v hv) heq)]

/-- The scheme of an instance binds as many variables as there are quantified ones. -/
theorem Instantiated.generalize_length (hids : Set.InjOn s'.id {v | v ∈ (s'.expand t).vars}) :
    (generalize n t s').1.bound.length =
      ((s.expand σ.type).vars.filter fun v => (s.state v).isGeneric).toFinset.card := by
  have hbound := generalize_bound (n := n) h.resolvable hids
  have hset : (generalize n t s').1.bound.toFinset =
      ((s.expand σ.type).vars.filter fun v => (s.state v).isGeneric).toFinset.image ρ := by
    ext w
    simp only [hbound, List.mem_toFinset, List.mem_eraseDups, List.mem_filter, h.mem_vars,
      VarState.isGeneric_iff, Finset.mem_image]
    constructor
    · rintro ⟨⟨v, hv, rfl⟩, hgeneric⟩
      exact ⟨v, ⟨hv, (h.generalize_generic hσ hlevels hv).mp hgeneric⟩, rfl⟩
    · rintro ⟨v, ⟨hv, hgeneric⟩, rfl⟩
      exact ⟨⟨v, hv, rfl⟩, (h.generalize_generic hσ hlevels hv).mpr hgeneric⟩
  rw [← List.toFinset_card_of_nodup (hbound ▸ nodup_eraseDups _), hset]
  refine Finset.card_image_of_injOn (h.inj.mono fun v hv => ?_)
  exact (List.mem_filter.mp (List.mem_toFinset.mp hv)).1

end RoundTrip

/-- Generalizing gives schemes that bind the quantified variables of their types.  An instance of
such a scheme at a level above its other variables is generalized to a scheme with the same text,
which binds a variable for every quantified one; the scheme itself does not change. -/
theorem instantiate_generalize :
    (∀ (m : Int) (t : Ty) (s : Store), s.Resolvable t →
      Set.InjOn s.id {v | v ∈ (s.expand t).vars} → s.Identified t →
        (generalize m t s).2.Quantified (generalize m t s).1) ∧
    ∀ (n : Int) (σ : Scheme) (s : Store), s.Quantified σ → s.Numbered → s.renames = [] →
      Level.Valid (n + 1) →
      (∀ v ∈ (s.expand σ.type).vars, ∀ l, s.state v = .unbound l → l ≤ n) →
      (instantiate (n + 1) σ s).2.nextId ≤ capacity →
        let t := (instantiate (n + 1) σ s).1
        let s₁ := (instantiate (n + 1) σ s).2
        let σ' := (generalize n t s₁).1
        let s₂ := (generalize n t s₁).2
        s₂.showScheme σ' = s.showScheme σ ∧
        σ'.bound.length =
          ((s.expand σ.type).vars.filter fun v => (s.state v).isGeneric).toFinset.card ∧
        s₂.showScheme σ = s.showScheme σ ∧ (∀ v < s.size, s₂.cell v = s.cell v) ∧
        ∀ k < s.marks.size, s₂.isMarked (.node k) = s.isMarked (.node k) := by
  refine ⟨fun m t s ht hids hnodes => generalize_quantified ht hids hnodes, ?_⟩
  intro n σ s hσ hnumbered hidle hn hlevels hcap t s₁ σ' s₂
  obtain ⟨ρ, h⟩ : ∃ ρ, Instantiated (n + 1) σ s ρ t s₁ := instantiate_instantiated hσ hn hidle
  have hids : Set.InjOn s₁.id {v | v ∈ (s₁.expand t).vars} := by
    intro u hu v hv heq
    have hgeneric : s₁.state u ≠ .generic := by
      rcases h.var_cases hσ hu with ⟨-, hstate⟩ | ⟨-, hnot, hstate⟩
      · simp [hstate]
      · rwa [hstate]
    exact ((instantiate_grows (n + 1) σ s).numbers.numbered hnumbered).id_inj hcap
      (lt_size_of_unlinked (h.resolvable.unlinked hu)) hgeneric
      (lt_size_of_unlinked (h.resolvable.unlinked hv)) heq
  have hcells : ∀ v < s.size, s₂.cell v = s.cell v :=
    fun v hv => h.generalize_cell hσ hlevels hv
  have hsize : s.size ≤ s₂.size := (generalize_size n t s₁).symm ▸ h.size_le
  exact ⟨h.generalize_showScheme hσ hlevels hids, h.generalize_length hσ hlevels hids,
    hσ.resolvable.showType_of_cells hsize hcells, hcells,
    fun k hk => h.generalize_isMarked hσ hlevels hk⟩

theorem instantiate_generalize_looseArrow :
    let σ := (generalize 1 looseArrow looseStore).1
    let s := (generalize 1 looseArrow looseStore).2
    let t := (instantiate 2 σ s).1
    let s₁ := (instantiate 2 σ s).2
    (generalize 1 t s₁).2.showScheme (generalize 1 t s₁).1 = s.showScheme σ ∧
      (generalize 1 t s₁).1.bound.length = 1 := by
  intro σ s t s₁
  have hnumbered : s.Numbered :=
    ⟨fun v => v, by decide, by decide, by decide, fun u v _ _ _ h => Int.ofNat.inj h⟩
  have hlevels : ∀ v ∈ (s.expand σ.type).vars, ∀ l, s.state v = .unbound l → l ≤ 1 := by
    have hvars : (s.expand σ.type).vars = [0, 2] := by decide
    intro v hv l hl
    obtain rfl | rfl : v = 0 ∨ v = 2 := by simpa [hvars] using hv
    · exact VarState.noConfusion hl
    · exact Int.le_of_eq (VarState.unbound.inj hl).symm
  obtain ⟨htext, hlength, -⟩ := instantiate_generalize.2 1 σ s
    (instantiate_generalize.1 1 looseArrow looseStore looseArrow_resolvable looseArrow_ids
      looseArrow_identified) hnumbered rfl ⟨by decide, by decide⟩ hlevels (by decide)
  exact ⟨htext, hlength.trans (by decide)⟩

end Store

end Typecase
