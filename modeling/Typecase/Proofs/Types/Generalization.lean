import Typecase.Proofs.Types.Expansion
import Mathlib.Data.Set.Function
set_option autoImplicit false

/-!
# What generalizing a type does

Generalizing a type at a level quantifies the unbound variables of the type that are deeper, and
no others.  The scheme lists the quantified variables of the type in the order in which they
occur, and the composite parts that hold them, and only these, are marked.
-/

namespace Typecase

/-- If elements with one key are equal, only repetitions are dropped. -/
theorem distinctBy_eq_eraseDups {α κ : Type} [BEq κ] [LawfulBEq κ] [BEq α] [LawfulBEq α]
    {key : α → κ} {xs : List α} (hkey : Set.InjOn key {x | x ∈ xs}) :
    distinctBy key xs = xs.eraseDups := by
  have hfold : ∀ ys acc : List α, acc ⊆ xs → ys ⊆ xs → ys.foldl (fun acc x =>
      if acc.any (fun y => key y == key x) then acc else acc ++ [x]) acc =
        acc ++ (ys.filter fun y => !acc.contains y).eraseDups := by
    intro ys
    induction ys with
    | nil => intro acc _ _; simp
    | cons y ys ih =>
      intro acc hacc hys
      obtain ⟨hy, hys⟩ := List.cons_subset.mp hys
      have hany : acc.any (fun x => key x == key y) = acc.contains y := by
        rw [Bool.eq_iff_iff, List.any_eq_true, List.contains_iff_mem]
        constructor
        · rintro ⟨x, hx, heq⟩
          rwa [← hkey (hacc hx) hy (eq_of_beq heq)]
        · exact fun hmem => ⟨y, hmem, BEq.rfl⟩
      rw [List.foldl_cons, hany, List.filter_cons]
      cases hmem : acc.contains y with
      | true => exact ih acc hacc hys
      | false =>
        have hlonger : acc ++ [y] ⊆ xs := List.append_subset.mpr ⟨hacc, by simpa using hy⟩
        rw [if_neg (by simp), ih (acc ++ [y]) hlonger hys]
        simp only [Bool.not_false, if_true, List.eraseDups_cons, List.filter_filter,
          List.append_assoc, List.singleton_append, List.contains_append, Bool.not_or, List.contains_cons,
          List.contains_nil, Bool.or_false, Bool.and_comm]
  have hall := hfold xs [] (List.nil_subset xs) (List.Subset.refl xs)
  simpa [distinctBy] using hall

namespace Store

variable {s s' : Store} {t x : Ty} {u v : Var} {n : Int}

/-! ## Variables -/

/-- A variable in this state is quantified by generalizing at level `n`. -/
def Ripe (n : Int) (st : VarState) : Prop := st.isUnbound = true ∧ n < st.level

instance (n : Int) (st : VarState) : Decidable (Ripe n st) :=
  inferInstanceAs (Decidable (_ ∧ _))

theorem quantify_state_eq (s : Store) (v u : Var) :
    (quantify n s v).state u = if u = v ∧ Ripe n (s.state u) then .generic else s.state u := by
  unfold quantify Ripe
  cases hv : s.state v with
  | unbound l =>
    have hlt : v < s.size := lt_size_of_unlinked (by simp [hv])
    simp only
    split
    · rename_i hl
      rw [state_setState]
      by_cases huv : u = v
      · subst huv
        simp [hlt, hv, VarState.isUnbound, VarState.level, hl]
      · simp [huv]
    · rename_i hl
      rw [if_neg]
      rintro ⟨rfl, -, hdeep⟩
      rw [hv] at hdeep
      exact hl hdeep
  | _ =>
    rw [if_neg]
    rintro ⟨rfl, hunbound, -⟩
    simp [hv, VarState.isUnbound] at hunbound

theorem foldl_quantify_state_eq (vs : List Var) (s : Store) (u : Var) :
    (vs.foldl (quantify n) s).state u =
      if u ∈ vs ∧ Ripe n (s.state u) then .generic else s.state u := by
  induction vs generalizing s with
  | nil => simp
  | cons v vs ih =>
    rw [List.foldl_cons, ih, quantify_state_eq]
    by_cases hripe : Ripe n (s.state u)
    · by_cases huv : u = v
      · simp [huv ▸ hripe, huv]
      · simp [huv, hripe]
    · simp [hripe]

theorem generalize_cells (n : Int) (t : Ty) (s : Store) : (generalize n t s).2.cells =
    ((s.reach (s.head t)).foldl (quantify n) s).cells :=
  (foldl_markGeneric_cells _ _).1

theorem generalize_size (n : Int) (t : Ty) (s : Store) : (generalize n t s).2.size = s.size :=
  (congrArg Array.size (generalize_cells n t s)).trans
    (foldl_lowered (quantify_lowered n) _ s).1.size

theorem generalize_id (n : Int) (t : Ty) (s : Store) (v : Var) :
    (generalize n t s).2.id v = s.id v := by
  have hfold := (foldl_lowered (quantify_lowered n) (s.reach (s.head t)) s).1.id v
  rw [← hfold]
  unfold Store.id cell
  rw [generalize_cells]

/-- The unbound variables of the type that are deeper than the level become generic, and
no other variable changes. -/
theorem generalize_state_eq (ht : s.Resolvable t) (v : Var) : (generalize n t s).2.state v =
    if v ∈ (s.expand t).vars ∧ Ripe n (s.state v) then .generic else s.state v := by
  rw [state_of_cells (generalize_cells n t s), foldl_quantify_state_eq,
    ← ht.expand_leads (head_leads s t), vars_expand]

theorem generalize_linked (ht : s.Resolvable t) (v : Var) (u : Ty) :
    (generalize n t s).2.state v = .linked u ↔ s.state v = .linked u := by
  rw [generalize_state_eq ht]
  split
  · rename_i h
    cases hv : s.state v with
    | linked y => simp [hv, Ripe, VarState.isUnbound] at h
    | _ => simp
  · exact Iff.rfl

theorem generalize_generic (ht : s.Resolvable t) (h : s.state v = .generic) :
    (generalize n t s).2.state v = .generic := by
  rw [generalize_state_eq ht, h, ite_self]

/-! ## Expansions -/

theorem expandAt_of_links (h : ∀ v u, s'.state v = .linked u ↔ s.state v = .linked u) (k : Nat)
    (t : Ty) : s'.expandAt k t = s.expandAt k t := by
  induction k generalizing t with
  | zero => rfl
  | succ k ih =>
    refine Ty.fill_congr t fun v _ => ?_
    cases hv : s.state v with
    | linked u => rw [(h v u).mpr hv]; exact ih u
    | _ =>
      cases hv' : s'.state v with
      | linked u => exact absurd ((h v u).mp hv') (by simp [hv])
      | _ => rfl

/-- Generalizing does not change what types expand to. -/
theorem generalize_expand (ht : s.Resolvable t) (x : Ty) :
    (generalize n t s).2.expand x = s.expand x := by
  rw [expand, generalize_size, expandAt_of_links (generalize_linked ht), expand]

theorem generalize_looks (ht : s.Resolvable t) :
    (generalize n t s).2.Resolvable (s.head t) ∧
      (generalize n t s).2.expand (s.head t) = s.expand t ∧
      ∀ x, x ∈ (generalize n t s).2.nodes (s.head t) ↔ x ∈ s.nodes t := by
  have hlead := head_leads s t
  obtain ⟨hresolvable, hexpand, hnodes⟩ := (ht.leads hlead).expand_of_links
    (Nat.le_of_eq (generalize_size n t s).symm) fun v _ => generalize_linked ht v
  exact ⟨hresolvable, hexpand.trans (ht.expand_leads hlead),
    fun x => (hnodes x).trans (ht.nodes_leads hlead).symm⟩

/-- The scheme lists the quantified variables of the type. -/
theorem generalize_bound (ht : s.Resolvable t) (hids : Set.InjOn s.id {v | v ∈ (s.expand t).vars}) :
    (generalize n t s).1.bound = ((s.expand t).vars.filter fun v =>
      ((generalize n t s).2.state v).isGeneric).eraseDups := by
  have hstate : ∀ v, (generalize n t s).2.state v =
      ((s.reach (s.head t)).foldl (quantify n) s).state v :=
    state_of_cells (generalize_cells n t s)
  have hid : ((s.reach (s.head t)).foldl (quantify n) s).id = s.id :=
    funext (foldl_lowered (quantify_lowered n) (s.reach (s.head t)) s).1.id
  simp only [hstate]
  rw [← ht.expand_leads (head_leads s t), vars_expand] at hids ⊢
  refine distinctBy_eq_eraseDups ?_
  rw [hid]
  exact hids.mono fun v hv => (List.mem_filter.mp hv).1

/-! ## Marks -/

theorem holdsGeneric_of_cells (h : s'.cells = s.cells) (t : Ty) :
    s'.holdsGeneric t = s.holdsGeneric t := by
  have hstate : s'.state = s.state := funext (state_of_cells h)
  have hsize : s'.size = s.size := congrArg Array.size h
  have hreach : s'.reach t = s.reach t := by
    rw [← vars_expand, ← vars_expand, expand, expand, hsize, expandAt_of_links]
    exact fun v u => by rw [hstate]
  rw [holdsGeneric, holdsGeneric, hreach, hstate]

/-- The store knows the node `k`, `t` is this node, and it holds quantified variables. -/
def Marks (s : Store) (t : Ty) (k : Nat) : Prop :=
  s.holdsGeneric t = true ∧ t.mark? = some (.node k) ∧ k < s.marks.size

theorem markGeneric_isMarked (s : Store) (t : Ty) (m : Mark) :
    ((s.markGeneric t).isMarked m = true ↔
      s.isMarked m = true ∨ ∃ k, m = .node k ∧ s.Marks t k) ∧
      (s.markGeneric t).marks.size = s.marks.size := by
  unfold markGeneric Marks
  cases hholds : s.holdsGeneric t with
  | false => simp
  | true =>
    cases hmark : t.mark? with
    | none => simp [setMark]
    | some mark =>
      cases mark with
      | node k =>
        cases m with
        | node j =>
          simp [setMark, isMarked, Array.getD_eq_getD_getElem?, Array.getElem?_setIfInBounds]
          grind
        | _ => simp [setMark, isMarked]
      | _ => simp [setMark]

theorem foldl_markGeneric_isMarked (ts : List Ty) (s : Store) (m : Mark) :
    (ts.foldl markGeneric s).isMarked m = true ↔
      s.isMarked m = true ∨ ∃ k, m = .node k ∧ ∃ t ∈ ts, s.Marks t k := by
  induction ts generalizing s with
  | nil => simp
  | cons t ts ih =>
    have hmarks : ∀ y k, (s.markGeneric t).Marks y k ↔ s.Marks y k := by
      intro y k
      rw [Marks, Marks, holdsGeneric_of_cells (markGeneric_cells s t).1,
        (markGeneric_isMarked s t m).2]
    simp only [List.foldl_cons, ih, (markGeneric_isMarked s t m).1, hmarks,
      List.exists_mem_cons_iff]
    grind

/-- The marks of the composite parts of a type tell which of them are one node: a plain node has
no variables, any other is known to the store, and parts with the same mark are the same. -/
structure Identified (s : Store) (t : Ty) : Prop where
  plain : ∀ x ∈ s.nodes t, x.mark? = some .plain → x.vars = []
  kept : ∀ x ∈ s.nodes t, ∀ k, x.mark? = some (.node k) → k < s.marks.size
  unique : ∀ x ∈ s.nodes t, ∀ y ∈ s.nodes t, ∀ k, x.mark? = some (.node k) →
    y.mark? = some (.node k) → x = y

theorem foldl_quantify_marks (vs : List Var) (s : Store) :
    (vs.foldl (quantify n) s).marks = s.marks := by
  induction vs generalizing s with
  | nil => rfl
  | cons v vs ih =>
    rw [List.foldl_cons, ih]
    unfold quantify
    split
    · split <;> rfl
    · rfl

/-- Besides the marks that there were, the composite parts are marked that hold quantified
variables now. -/
theorem generalize_isMarked (ht : s.Resolvable t) (m : Mark) :
    (generalize n t s).2.isMarked m = true ↔ s.isMarked m = true ∨ ∃ k, m = .node k ∧
      ∃ x ∈ s.nodes t, (∃ v ∈ (s.expand x).vars, (generalize n t s).2.state v = .generic) ∧
        x.mark? = some (.node k) ∧ k < s.marks.size := by
  have hmarks := foldl_quantify_marks (n := n) (s.reach (s.head t)) s
  have hmarked : ((s.reach (s.head t)).foldl (quantify n) s).isMarked m = s.isMarked m := by
    cases m <;> simp only [isMarked, hmarks]
  have hnodes : ∀ x, x ∈ ((s.reach (s.head t)).foldl (quantify n) s).nodes (s.head t) ↔
      x ∈ s.nodes t := by
    intro x
    rw [ht.nodes_leads (head_leads s t)]
    refine ((ht.leads (head_leads s t)).expand_of_links ?_ fun v _ u => ?_).2.2 x
    · exact Nat.le_of_eq (foldl_lowered (quantify_lowered n) _ s).1.size.symm
    · rw [← state_of_cells (generalize_cells n t s), generalize_linked ht]
  have hholds : ∀ x, ((s.reach (s.head t)).foldl (quantify n) s).holdsGeneric x = true ↔
      ∃ v ∈ (s.expand x).vars, (generalize n t s).2.state v = .generic := by
    intro x
    rw [← holdsGeneric_of_cells (generalize_cells n t s), holdsGeneric_iff, generalize_expand ht]
  show (List.foldl markGeneric _ _).isMarked m = true ↔ _
  simp only [foldl_markGeneric_isMarked, hmarked, Marks, hnodes, hholds, hmarks]

/-- The composite parts that hold quantified variables are marked. -/
theorem generalize_marks (ht : s.Resolvable t) (hnodes : s.Identified t) (hx : x ∈ s.nodes t)
    (hholds : ∃ v ∈ (s.expand x).vars, (generalize n t s).2.state v = .generic) :
    (generalize n t s).2.isGeneric x = some true := by
  obtain ⟨hresolvable, ⟨m, hm⟩, -⟩ := ht.of_mem_nodes hx
  rw [isGeneric_of_mark? hm, Option.some.injEq, generalize_isMarked ht]
  cases m with
  | plain =>
    obtain ⟨v, hv, -⟩ := hholds
    rw [hresolvable.expand_eq, Ty.vars_fill, hnodes.plain x hx hm] at hv
    exact absurd hv List.not_mem_nil
  | node k => exact .inr ⟨k, rfl, x, hx, hholds, hm, hnodes.kept x hx k hm⟩
  | generic => exact .inl rfl

/-- If only composite parts that hold quantified variables were marked, then only such parts are
marked afterwards. -/
theorem generalize_marks_only (ht : s.Resolvable t) (hnodes : s.Identified t)
    (hflagged : ∀ x ∈ s.nodes t, s.isGeneric x = some true →
      ∃ v ∈ (s.expand x).vars, s.state v = .generic) (hx : x ∈ s.nodes t)
    (hmarked : (generalize n t s).2.isGeneric x = some true) :
    ∃ v ∈ (s.expand x).vars, (generalize n t s).2.state v = .generic := by
  obtain ⟨-, ⟨m, hm⟩, -⟩ := ht.of_mem_nodes hx
  rw [isGeneric_of_mark? hm, Option.some.injEq, generalize_isMarked ht] at hmarked
  rcases hmarked with hmarked | ⟨k, rfl, y, hy, hgeneric, hk, -⟩
  · obtain ⟨v, hv, hstate⟩ := hflagged x hx (by rw [isGeneric_of_mark? hm, hmarked])
    exact ⟨v, hv, generalize_generic ht hstate⟩
  · rwa [hnodes.unique x hx y hy k hm hk]

/-- Generalizing makes exactly the unbound variables of the type generic that are deeper than the
level.  The scheme lists the generic variables of the type, each once, in the order in which they
first occur; the type itself expands to what it did; and a composite part is generic if and only
if a generic variable occurs in it. -/
theorem generalize_exact (ht : s.Resolvable t) (hids : Set.InjOn s.id {v | v ∈ (s.expand t).vars})
    (hnodes : s.Identified t) (hflagged : ∀ x ∈ s.nodes t, s.isGeneric x = some true →
      ∃ v ∈ (s.expand x).vars, s.state v = .generic) (n : Int) :
    let σ := (generalize n t s).1
    let s' := (generalize n t s).2
    (∀ v, s'.id v = s.id v ∧ s'.state v =
      if v ∈ (s.expand t).vars ∧ Ripe n (s.state v) then .generic else s.state v) ∧
    σ.bound = ((s.expand t).vars.filter fun v => (s'.state v).isGeneric).eraseDups ∧
    σ.bound.Nodup ∧
    s'.expand t = s.expand t ∧ s'.expand σ.type = s.expand t ∧
    ∀ x ∈ s.nodes t, s'.isGeneric x = some true ↔
      ∃ v ∈ (s'.expand x).vars, s'.state v = .generic := by
  refine ⟨fun v => ⟨generalize_id n t s v, generalize_state_eq ht v⟩, generalize_bound ht hids, ?_,
    generalize_expand ht t, (generalize_looks ht).2.1, ?_⟩
  · rw [generalize_bound ht hids]
    exact nodup_eraseDups _
  · intro x hx
    rw [generalize_expand ht]
    exact ⟨generalize_marks_only ht hnodes hflagged hx, generalize_marks ht hnodes hx⟩

/-- A store with a variable at level 2, a variable bound to a list of it, and one at level 1. -/
def looseStore : Store where
  cells := #[⟨0, .unbound 2⟩, ⟨1, .linked (.con (.node 0) "list" [.var 0])⟩, ⟨2, .unbound 1⟩]
  marks := #[false, false, false]
  nextId := 3

/-- A function from the list to references. -/
def looseArrow : Ty := .arrow (.node 1) (.var 1) (.con (.node 2) "ref" [.var 2])

theorem looseArrow_resolvable : looseStore.Resolvable looseArrow := by
  have hlist : looseStore.Resolvable (.con (.node 0) "list" [.var 0]) := by
    refine .intro (by decide) fun v hv u hu => ?_
    obtain rfl : v = 0 := by simpa [Ty.vars, Ty.varsList] using hv
    exact VarState.noConfusion hu
  refine .intro (by decide) fun v hv u hu => ?_
  obtain rfl | rfl : v = 1 ∨ v = 2 := by simpa [looseArrow, Ty.vars, Ty.varsList] using hv
  · exact VarState.linked.inj hu ▸ hlist
  · exact VarState.noConfusion hu

theorem looseArrow_identified : looseStore.Identified looseArrow := by
  have hnodes : looseStore.nodes looseArrow = [looseArrow, .con (.node 2) "ref" [.var 2],
    .con (.node 0) "list" [.var 0]] := by decide
  constructor <;> rw [hnodes] <;> simp [looseArrow, looseStore, Ty.mark?]

theorem looseArrow_ids : Set.InjOn looseStore.id {v | v ∈ (looseStore.expand looseArrow).vars} := by
  have hids : ∀ u ∈ (looseStore.expand looseArrow).vars,
      ∀ v ∈ (looseStore.expand looseArrow).vars, looseStore.id u = looseStore.id v → u = v := by
    decide
  exact fun u hu v hv => hids u hu v hv

theorem generalize_exact_looseArrow :
    let σ := (generalize 1 looseArrow looseStore).1
    let s' := (generalize 1 looseArrow looseStore).2
    s'.state 0 = .generic ∧ s'.state 2 = .unbound 1 ∧ σ.bound = [0] ∧
      (s'.isGeneric looseArrow = some true ↔
        ∃ v ∈ (s'.expand looseArrow).vars, s'.state v = .generic) := by
  obtain ⟨hstates, hbound, -, -, -, hmarked⟩ := generalize_exact looseArrow_resolvable
    looseArrow_ids looseArrow_identified (by decide) 1
  exact ⟨(hstates 0).2.trans (by decide), (hstates 2).2.trans (by decide),
    hbound.trans (by decide), hmarked looseArrow (by decide)⟩

end Store

end Typecase
