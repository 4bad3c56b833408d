import Typecase.Proofs.Types.Quantify
set_option autoImplicit false

/-!
# Types with all links followed

A type over a store stands for a type without links and without marks, its expansion.  The
variables of the expansion, read from left to right, are the ones that are reached from the type.
-/

namespace Typecase

namespace Ty

mutual

/-- The type without its marks, and with `θ v` in the place of every variable `v`. -/
def fill (θ : Var → Ty) : Ty → Ty
  | .var v => θ v
  | .con _ name args => .con .plain name (fillList θ args)
  | .arrow _ a r => .arrow .plain (fill θ a) (fill θ r)
  | .tuple _ es => .tuple .plain (fillList θ es)
  | .record _ r => .record .plain (fill θ r)
  | .rowExtend _ ls r => .rowExtend .plain (fillFields θ ls) (fill θ r)
  | .rowEmpty => .rowEmpty
  | .lost => .lost

/-- Elementwise `fill`. -/
def fillList (θ : Var → Ty) : List Ty → List Ty
  | [] => []
  | t :: ts => fill θ t :: fillList θ ts

/-- Entrywise `fill`, with the labels kept. -/
def fillFields (θ : Var → Ty) : List (String × Ty) → List (String × Ty)
  | [] => []
  | (l, t) :: ts => (l, fill θ t) :: fillFields θ ts

end

variable {θ η : Var → Ty}

theorem fillList_eq (ts : List Ty) : fillList θ ts = ts.map (fill θ) := by
  induction ts with
  | nil => rfl
  | cons t ts ih => rw [fillList, ih, List.map_cons]

theorem fillFields_map (fs : List (String × Ty)) :
    fillFields θ fs = fs.map fun f => (f.1, f.2.fill θ) := by
  induction fs with
  | nil => rfl
  | cons e fs ih => rw [fillFields, ih, List.map_cons]

theorem fillFields_eq (fs : List (String × Ty)) :
    fillFields θ fs = (fs.map (·.1)).zip (fillList θ (fs.map (·.2))) := by
  rw [fillFields_map, fillList_eq, List.map_map, List.zip_map']
  rfl

theorem fillList_congr {ts : List Ty} (h : ∀ t ∈ ts, t.fill θ = t.fill η) :
    fillList θ ts = fillList η ts := by
  rw [fillList_eq, fillList_eq, List.map_congr_left h]

theorem fill_congr (t : Ty) (h : ∀ v ∈ t.vars, θ v = η v) : t.fill θ = t.fill η := by
  induction t using Ty.induction with
  | var v => exact h v (by simp [vars])
  | con _ _ ts ih | tuple _ ts ih =>
    rw [vars, forall_mem_varsList] at h
    rw [fill, fill, fillList_congr fun t ht => ih t ht (h t ht)]
  | arrow _ a r iha ihr =>
    rw [vars, List.forall_mem_append] at h
    rw [fill, fill, iha h.1, ihr h.2]
  | record _ r ih => rw [fill, fill, ih h]
  | rowExtend _ ls r ihls ihr =>
    rw [vars, List.forall_mem_append, varsFields_eq, forall_mem_varsList] at h
    rw [fill, fill, fillFields_eq, fillFields_eq, ihr h.2,
      fillList_congr fun t ht => ihls t ht (h.1 t ht)]
  | rowEmpty | lost => rfl

theorem fill_fill (t : Ty) : (t.fill θ).fill η = t.fill fun v => (θ v).fill η := by
  induction t using Ty.induction with
  | con _ _ ts ih | tuple _ ts ih => simpa [fill, fillList_eq] using ih
  | rowExtend _ ls r ihls ihr =>
    simpa [fill, fillFields_map, ihr] using List.forall_mem_map.mp ihls
  | _ => simp_all [fill]

theorem varsList_fillList {ts : List Ty}
    (h : ∀ t ∈ ts, (t.fill θ).vars = t.vars.flatMap fun v => (θ v).vars) :
    varsList (fillList θ ts) = (varsList ts).flatMap fun v => (θ v).vars := by
  rw [fillList_eq, varsList_eq, varsList_eq, List.flatMap_map, List.flatMap_assoc]
  exact List.flatMap_congr h

theorem vars_fill (t : Ty) : (t.fill θ).vars = t.vars.flatMap fun v => (θ v).vars := by
  induction t using Ty.induction with
  | con _ _ ts ih | tuple _ ts ih =>
    rw [fill, vars, vars, varsList_fillList ih]
  | rowExtend _ ls r ihls ihr =>
    rw [fill, vars, vars, List.flatMap_append, ihr, varsFields_eq, varsFields_eq,
      ← varsList_fillList ihls, fillFields_map, fillList_eq, List.map_map, List.map_map]
    rfl
  | _ => simp_all [fill, vars]

theorem fillList_append (ts us : List Ty) :
    fillList θ (ts ++ us) = fillList θ ts ++ fillList θ us := by
  rw [fillList_eq, fillList_eq, fillList_eq, List.map_append]

theorem varsList_append (ts us : List Ty) : varsList (ts ++ us) = varsList ts ++ varsList us := by
  induction ts with
  | nil => rfl
  | cons t ts ih => simp [varsList, ih]

theorem nodesList_append (ts us : List Ty) :
    nodesList (ts ++ us) = nodesList ts ++ nodesList us := by
  induction ts with
  | nil => rfl
  | cons t ts ih => simp [nodesList, ih]

theorem nodesFields_eq (fs : List (String × Ty)) : nodesFields fs = nodesList (fs.map (·.2)) := by
  induction fs with
  | nil => rfl
  | cons e fs ih => simp [nodesFields, nodesList, ih]

section Parts

variable {x : Ty}

theorem mem_nodes_self {m : Mark} (h : x.mark? = some m) : x ∈ x.nodes := by
  cases x <;> cases h <;> exact List.mem_cons_self

theorem mem_nodesList {ts : List Ty} : x ∈ nodesList ts ↔ ∃ t ∈ ts, x ∈ t.nodes := by
  induction ts with
  | nil => simp [nodesList]
  | cons t ts ih => simp [nodesList, ih]

/-- A composite part has a mark, and its variables are variables of the whole. -/
theorem part_of_mem_nodes (t : Ty) (h : x ∈ t.nodes) : x.vars ⊆ t.vars ∧ ∃ m, x.mark? = some m := by
  have hlist : ∀ {ts : List Ty},
      (∀ t ∈ ts, x ∈ t.nodes → x.vars ⊆ t.vars ∧ ∃ m, x.mark? = some m) →
      x ∈ nodesList ts → x.vars ⊆ varsList ts ∧ ∃ m, x.mark? = some m := by
    intro ts ih hx
    obtain ⟨t, ht, hx⟩ := mem_nodesList.mp hx
    exact (ih t ht hx).imp_left fun hsub v hv => mem_varsList.mpr ⟨t, ht, hsub hv⟩
  induction t using Ty.induction with
  | var | rowEmpty | lost => exact absurd h List.not_mem_nil
  | con m _ ts ih | tuple m ts ih =>
    rcases List.mem_cons.mp h with rfl | h
    · exact ⟨List.Subset.refl _, m, rfl⟩
    · exact hlist ih h
  | arrow m a r iha ihr =>
    rcases List.mem_cons.mp h with rfl | h
    · exact ⟨List.Subset.refl _, m, rfl⟩
    · rcases List.mem_append.mp h with h | h
      · exact (iha h).imp_left (List.subset_append_of_subset_left _)
      · exact (ihr h).imp_left (List.subset_append_of_subset_right _)
  | record m r ih =>
    rcases List.mem_cons.mp h with rfl | h
    · exact ⟨List.Subset.refl _, m, rfl⟩
    · exact ih h
  | rowExtend m ls r ihls ihr =>
    rcases List.mem_cons.mp h with rfl | h
    · exact ⟨List.Subset.refl _, m, rfl⟩
    · rw [vars, varsFields_eq]
      rw [nodesFields_eq] at h
      rcases List.mem_append.mp h with h | h
      · exact (hlist ihls h).imp_left (List.subset_append_of_subset_left _)
      · exact (ihr h).imp_left (List.subset_append_of_subset_right _)

end Parts

end Ty

theorem VarState.isGeneric_iff {st : VarState} : st.isGeneric = true ↔ st = .generic := by
  cases st <;> simp [isGeneric]

namespace Store

variable {s s' : Store} {t u x : Ty} {v : Var} {n k : Nat}

/-- The expansion of `t`, with at most `n` links followed on every branch. -/
def expandAt (s : Store) : Nat → Ty → Ty
  | 0, t => t.fill .var
  | n + 1, t => t.fill fun v =>
    match s.state v with
    | .linked u => expandAt s n u
    | _ => .var v

/-- The expansion of `t`: the type with every link followed, without marks. -/
def expand (s : Store) (t : Ty) : Ty := s.expandAt s.size t

/-- What stands for a variable in an expansion. -/
def ending (s : Store) (v : Var) : Ty :=
  match s.state v with
  | .linked u => s.expand u
  | _ => .var v

theorem ending_linked (h : s.state v = .linked u) : s.ending v = s.expand u := by
  rw [ending, h]

theorem ending_unlinked (h : ∀ u, s.state v ≠ .linked u) : s.ending v = .var v := by
  unfold ending
  cases hv : s.state v with
  | linked u => exact absurd hv (h u)
  | _ => rfl

theorem vars_expandAt (s : Store) (n : Nat) (t : Ty) : (s.expandAt n t).vars = s.reachAt n t := by
  induction n generalizing t with
  | zero => rw [expandAt, reachAt, Ty.vars_fill]; exact List.flatMap_singleton' t.vars
  | succ n ih =>
    rw [expandAt, reachAt, Ty.vars_fill]
    congr 1
    funext v
    cases s.state v with
    | linked u => exact ih u
    | _ => rfl

theorem vars_expand (s : Store) (t : Ty) : (s.expand t).vars = s.reach t := vars_expandAt s _ t

theorem expandAt_fill_var (s : Store) (n : Nat) (t : Ty) :
    (s.expandAt n t).fill .var = s.expandAt n t := by
  cases n with
  | zero => rw [expandAt, Ty.fill_fill]; rfl
  | succ n =>
    rw [expandAt, Ty.fill_fill]
    congr 1
    funext v
    cases s.state v with
    | linked u => exact expandAt_fill_var s n u
    | _ => rfl

theorem Settled.expandAt_of_le (h : s.Settled n t) (hle : n ≤ k) :
    s.expandAt k t = s.expandAt n t := by
  induction n generalizing k t with
  | zero =>
    cases k with
    | zero => rfl
    | succ k =>
      refine Ty.fill_congr t fun v hv => ?_
      cases hs : s.state v with
      | linked u => exact absurd hs (h v hv u)
      | _ => rfl
  | succ n ih =>
    obtain ⟨k, rfl⟩ := Nat.exists_eq_add_of_le' hle
    refine Ty.fill_congr t fun v hv => ?_
    cases hs : s.state v with
    | linked u => exact ih (h v hv u hs) (Nat.le_add_left n k)
    | _ => rfl

theorem Resolvable.var (h : s.Resolvable t) (hv : v ∈ t.vars) : s.Resolvable (.var v) :=
  h.mono (by simpa [Ty.vars] using hv)

theorem resolvable_of_vars (h : ∀ v ∈ t.vars, s.Resolvable (.var v)) : s.Resolvable t :=
  .intro (fun v hv => (h v hv).lt) fun v hv _ hu => (h v hv).link hu

/-- Expanding is not cut off. -/
theorem Resolvable.expand_eq (h : s.Resolvable t) : s.expand t = t.fill s.ending := by
  have hstep := h.settled.expandAt_of_le (Nat.le_succ s.size)
  exact hstep.symm

/-- Links are followed to their ends. -/
theorem Resolvable.unlinked (h : s.Resolvable t) (hv : v ∈ (s.expand t).vars) (u : Ty) :
    s.state v ≠ .linked u := by
  induction h with
  | @intro t hbound hfollow ih =>
    rw [(Resolvable.intro hbound hfollow).expand_eq, Ty.vars_fill] at hv
    obtain ⟨w, hw, hv⟩ := List.mem_flatMap.mp hv
    cases hs : s.state w with
    | linked y =>
      rw [ending_linked hs] at hv
      exact ih w hw y hs hv
    | _ =>
      rw [ending_unlinked (by simp [hs]), Ty.vars, List.mem_singleton] at hv
      simp [hv, hs]

theorem Resolvable.expand_leads (h : s.Resolvable t) (hlead : s.Leads t u) :
    s.expand u = s.expand t := by
  induction hlead with
  | done => rfl
  | link hv _ ih => rw [ih (h.link hv), h.expand_eq, Ty.fill, ending_linked hv]

/-! ## Composite parts -/

theorem Settled.nodesAt_of_le (h : s.Settled n t) (hle : n ≤ k) :
    s.nodesAt k t = s.nodesAt n t := by
  induction n generalizing k t with
  | zero =>
    cases k with
    | zero => rfl
    | succ k =>
      simp only [nodesAt, List.append_right_eq_self, List.flatMap_eq_nil_iff]
      intro v hv
      cases hs : s.state v with
      | linked u => exact absurd hs (h v hv u)
      | _ => rfl
  | succ n ih =>
    obtain ⟨k, rfl⟩ := Nat.exists_eq_add_of_le' hle
    simp only [nodesAt, Nat.add_eq, List.append_cancel_left_eq]
    refine List.flatMap_congr fun v hv => ?_
    cases hs : s.state v with
    | linked u => exact ih (h v hv u hs) (Nat.le_add_left n k)
    | _ => rfl

theorem Resolvable.mem_nodes (h : s.Resolvable t) : x ∈ s.nodes t ↔
    x ∈ t.nodes ∨ ∃ v ∈ t.vars, ∃ u, s.state v = .linked u ∧ x ∈ s.nodes u := by
  have hstep : s.nodesAt (s.size + 1) t = s.nodes t := h.settled.nodesAt_of_le (Nat.le_succ s.size)
  rw [← hstep, nodesAt, List.mem_append, List.mem_flatMap]
  refine or_congr_right (exists_congr fun v => and_congr_right fun _ => ?_)
  cases s.state v with
  | linked u => simp [nodes]
  | _ => simp

theorem Resolvable.mem_nodes_vars (h : s.Resolvable t) :
    x ∈ s.nodes t ↔ x ∈ t.nodes ∨ ∃ v ∈ t.vars, x ∈ s.nodes (.var v) := by
  rw [h.mem_nodes]
  refine or_congr_right (exists_congr fun v => and_congr_right fun hv => ?_)
  rw [(h.var hv).mem_nodes]
  simp [Ty.nodes, Ty.vars]

/-- A composite part is a type of its own, whose variables are variables of the whole. -/
theorem Resolvable.of_mem_nodes (h : s.Resolvable t) (hx : x ∈ s.nodes t) :
    s.Resolvable x ∧ (∃ m, x.mark? = some m) ∧ (s.expand x).vars ⊆ (s.expand t).vars := by
  induction h with
  | @intro t hbound hfollow ih =>
    have ht := Resolvable.intro hbound hfollow
    rcases ht.mem_nodes.mp hx with hx | ⟨v, hv, u, hu, hx⟩
    · obtain ⟨hvars, hmark⟩ := Ty.part_of_mem_nodes t hx
      refine ⟨ht.mono hvars, hmark, ?_⟩
      rw [(ht.mono hvars).expand_eq, ht.expand_eq, Ty.vars_fill, Ty.vars_fill]
      intro w hw
      obtain ⟨v, hv, hw⟩ := List.mem_flatMap.mp hw
      exact List.mem_flatMap.mpr ⟨v, hvars hv, hw⟩
    · obtain ⟨hresolvable, hmark, hsub⟩ := ih v hv u hu hx
      refine ⟨hresolvable, hmark, fun w hw => ?_⟩
      rw [ht.expand_eq, Ty.vars_fill]
      exact List.mem_flatMap.mpr ⟨v, hv, ending_linked hu ▸ hsub hw⟩

theorem Resolvable.nodes_leads (h : s.Resolvable t) (hlead : s.Leads t u) :
    x ∈ s.nodes t ↔ x ∈ s.nodes u := by
  induction hlead with
  | done => exact Iff.rfl
  | @link v t u hv _ ih => rw [← ih (h.link hv), h.mem_nodes]; simp [Ty.nodes, Ty.vars, hv]

/-! ## Marked types -/

theorem holdsGeneric_iff :
    s.holdsGeneric x = true ↔ ∃ v ∈ (s.expand x).vars, s.state v = .generic := by
  simp only [holdsGeneric, List.any_eq_true, vars_expand, VarState.isGeneric_iff]

theorem Resolvable.plain_var (h : s.Resolvable t) (hplain : s.holdsGeneric t = false)
    (hv : v ∈ t.vars) : s.holdsGeneric (.var v) = false := by
  rw [Bool.eq_false_iff, ne_eq, holdsGeneric_iff] at hplain ⊢
  rintro ⟨w, hw, hgeneric⟩
  rw [(h.var hv).expand_eq] at hw
  refine hplain ⟨w, ?_, hgeneric⟩
  rw [h.expand_eq, Ty.vars_fill]
  exact List.mem_flatMap.mpr ⟨v, hv, hw⟩

/-! ## Stores with the same links -/

/-- Types look the same in stores that agree on the links. -/
theorem Resolvable.expand_of_links (h : s.Resolvable t) (hsize : s.size ≤ s'.size)
    (hlinks : ∀ v < s.size, ∀ u, s'.state v = .linked u ↔ s.state v = .linked u) :
    s'.Resolvable t ∧ s'.expand t = s.expand t ∧ ∀ x, x ∈ s'.nodes t ↔ x ∈ s.nodes t := by
  induction h with
  | @intro t hbound hfollow ih =>
    have ht : s.Resolvable t := .intro hbound hfollow
    have ht' : s'.Resolvable t := by
      refine .intro (fun v hv => Nat.lt_of_lt_of_le (hbound v hv) hsize) fun v hv u hu => ?_
      exact (ih v hv u ((hlinks v (hbound v hv) u).mp hu)).1
    refine ⟨ht', ?_, ?_⟩
    · rw [ht'.expand_eq, ht.expand_eq]
      refine Ty.fill_congr t fun v hv => ?_
      cases hs : s.state v with
      | linked u =>
        rw [ending_linked hs, ending_linked ((hlinks v (hbound v hv) u).mpr hs)]
        exact (ih v hv u hs).2.1
      | _ =>
        have hs' : ∀ u, s'.state v ≠ .linked u :=
          fun u hu => absurd ((hlinks v (hbound v hv) u).mp hu) (by simp [hs])
        rw [ending_unlinked hs', ending_unlinked (by simp [hs])]
    · intro x
      rw [ht'.mem_nodes, ht.mem_nodes]
      refine or_congr_right (exists_congr fun v => and_congr_right fun hv => ?_)
      refine exists_congr fun u => ?_
      rw [hlinks v (hbound v hv) u]
      exact and_congr_right fun hu => (ih v hv u hu).2.2 x

end Store

end Typecase
