import Typecase.Graph.Components
import Mathlib.Logic.Relation
import Mathlib.Data.List.Nodup
import Mathlib.Data.List.Perm.Subperm
set_option autoImplicit false

/-!
# What a depth-first search keeps

A search stands at the end of a path of vertices whose edges are still being followed.
The vertices on the stack are ordered by their numbers: a lower one reaches every higher
one, and every one of them reaches a vertex of the path that is not above it.  The finished
components are closed under edges, each is the set of vertices that reach each other, and
an edge leads into the same component or into one that was finished before.
-/

namespace Typecase.Graph

/-- There is an edge from `v` to `w`. -/
def Edge (g : Graph) (v w : Nat) : Prop := w ∈ g.succ v

/-- There is a path from `v` to `w`. -/
def Reaches (g : Graph) : Nat → Nat → Prop := Relation.ReflTransGen g.Edge

/-- Every edge leads to a vertex of the graph. -/
def InRange (g : Graph) : Prop := ∀ v w, g.Edge v w → w < g.size

/-- Each reaches the other. -/
def Mutual (g : Graph) (v w : Nat) : Prop := g.Reaches v w ∧ g.Reaches w v

/-- Components in topological order: each is a class of vertices that reach each other, and
its edges lead into itself and the components behind it. -/
def Layered (g : Graph) : List (List Nat) → Prop
  | [] => True
  | c :: cs =>
    (c.Nodup ∧ c ≠ []) ∧ (∀ v ∈ c, v ∉ cs.flatten) ∧
      (∀ v ∈ c, ∀ w, w ∈ c ↔ g.Mutual v w) ∧
      (∀ v ∈ c, ∀ w, g.Edge v w → w ∈ c ∨ w ∈ cs.flatten) ∧ Layered g cs

section Layered

variable {g : Graph} {cs : List (List Nat)} {v w : Nat}

theorem Layered.edge (h : g.Layered cs) (hv : v ∈ cs.flatten) (he : g.Edge v w) :
    w ∈ cs.flatten := by
  induction cs with
  | nil => simp at hv
  | cons c cs ih =>
    obtain ⟨-, -, -, hedges, hrest⟩ := h
    rw [List.flatten_cons, List.mem_append] at hv ⊢
    rcases hv with hv | hv
    · exact hedges v hv w he
    · exact .inr (ih hrest hv)

theorem Layered.reaches (h : g.Layered cs) (hv : v ∈ cs.flatten) (hr : g.Reaches v w) :
    w ∈ cs.flatten := by
  induction hr with
  | refl => exact hv
  | tail _ he ih => exact h.edge ih he

theorem Layered.nodup (h : g.Layered cs) : cs.flatten.Nodup := by
  induction cs with
  | nil => simp
  | cons c cs ih =>
    obtain ⟨hc, hdisjoint, -, -, hrest⟩ := h
    rw [List.flatten_cons, List.nodup_append]
    refine ⟨hc.1, ih hrest, ?_⟩
    rintro v hv _ hw rfl
    exact hdisjoint v hv hw

theorem Layered.mutual_iff (h : g.Layered cs) {c : List Nat} (hc : c ∈ cs) (hv : v ∈ c) (w : Nat) :
    w ∈ c ↔ g.Mutual v w := by
  induction cs with
  | nil => simp at hc
  | cons d cs ih =>
    obtain ⟨-, -, hmutual, -, hrest⟩ := h
    rcases List.mem_cons.mp hc with rfl | hc
    · exact hmutual v hv w
    · exact ih hrest hc

/-- An edge leads into the same component or into a later one. -/
theorem Layered.edge_le (h : g.Layered cs) (hv : v ∈ cs.flatten) (he : g.Edge v w) :
    ∃ (m n : Nat) (c d : List Nat),
      cs[m]? = some c ∧ cs[n]? = some d ∧ v ∈ c ∧ w ∈ d ∧ m ≤ n := by
  induction cs with
  | nil => simp at hv
  | cons c cs ih =>
    obtain ⟨-, -, -, hedges, hrest⟩ := h
    rw [List.flatten_cons, List.mem_append] at hv
    rcases hv with hv | hv
    · rcases hedges v hv w he with hw | hw
      · exact ⟨0, 0, c, c, rfl, rfl, hv, hw, Nat.le_refl 0⟩
      · obtain ⟨d, hd, hwd⟩ := List.mem_flatten.mp hw
        obtain ⟨n, hn⟩ := List.mem_iff_getElem?.mp hd
        exact ⟨0, n + 1, c, d, rfl, hn, hv, hwd, Nat.zero_le _⟩
    · obtain ⟨m, n, d, e, hm, hn, hvd, hwe, hle⟩ := ih hrest hv
      exact ⟨m + 1, n + 1, d, e, hm, hn, hvd, hwe, Nat.succ_le_succ hle⟩

end Layered

namespace Search

/-- What holds while the edges of the vertices on `path` are being followed. -/
structure Invariant (g : Graph) (path : List Nat) (s : Search) : Prop where
  size_number : s.number.size = g.size
  number_le : ∀ v, s.numberOf v ≤ s.discovered
  /-- The stack is ordered by number, the highest on top. -/
  descending : s.stack.Pairwise fun v w => s.numberOf w < s.numberOf v
  /-- A discovered vertex is on the stack or in a finished component, and not in both. -/
  found : ∀ v, s.numberOf v ≠ 0 ↔ v ∈ s.stack ∨ v ∈ s.components.flatten
  apart : ∀ v ∈ s.stack, v ∉ s.components.flatten
  count : s.discovered = s.stack.length + s.components.flatten.length
  path_open : ∀ v ∈ path, v ∈ s.stack
  /-- Only a vertex of the path has edges that were not followed yet. -/
  examined : ∀ v, s.numberOf v ≠ 0 → v ∉ path → ∀ w, g.Edge v w → s.numberOf w ≠ 0
  forward : ∀ v ∈ s.stack, ∀ w ∈ s.stack, s.numberOf v ≤ s.numberOf w → g.Reaches v w
  backward : ∀ w ∈ s.stack, ∃ v ∈ path, s.numberOf v ≤ s.numberOf w ∧ g.Reaches w v
  layered : g.Layered s.components

/-- A later state of a search: what was discovered keeps its number, and `opened` are the
new vertices that are still on the stack. -/
structure Later (s s' : Search) (opened : List Nat) : Prop where
  number : ∀ v, s.numberOf v ≠ 0 → s'.numberOf v = s.numberOf v
  fresh : ∀ v, s.numberOf v = 0 → s'.numberOf v ≠ 0 → s.discovered < s'.numberOf v
  discovered_le : s.discovered ≤ s'.discovered
  stack_eq : s'.stack = opened ++ s.stack
  undiscovered : ∀ v ∈ opened, s.numberOf v = 0

theorem Later.refl (s : Search) : Later s s [] where
  number _ _ := rfl
  fresh _ h h' := absurd h h'
  discovered_le := Nat.le_refl _
  stack_eq := rfl
  undiscovered v hv := by simp at hv

theorem Later.trans {s₁ s₂ s₃ : Search} {o o' : List Nat} (h : Later s₁ s₂ o)
    (h' : Later s₂ s₃ o') : Later s₁ s₃ (o' ++ o) where
  number v hv := by
    have h₂ : s₂.numberOf v ≠ 0 := by rwa [h.number v hv]
    rw [h'.number v h₂, h.number v hv]
  fresh v hv hv' := by
    by_cases h₂ : s₂.numberOf v = 0
    · exact Nat.lt_of_le_of_lt h.discovered_le (h'.fresh v h₂ hv')
    · rw [h'.number v h₂]
      exact h.fresh v hv h₂
  discovered_le := Nat.le_trans h.discovered_le h'.discovered_le
  stack_eq := by rw [h'.stack_eq, h.stack_eq, List.append_assoc]
  undiscovered v hv := by
    rcases List.mem_append.mp hv with hv | hv
    · by_contra hne
      apply hne
      rw [← h.number v hne]
      exact h'.undiscovered v hv
    · exact h.undiscovered v hv

section Basic

variable {g : Graph} {path : List Nat} {s : Search} {v : Nat}

theorem Invariant.nodup_stack (h : Invariant g path s) : s.stack.Nodup := by
  refine h.descending.imp ?_
  rintro v w hlt rfl
  exact Nat.lt_irrefl _ hlt

theorem Invariant.number_ne_zero (h : Invariant g path s) (hv : v ∈ s.stack) : s.numberOf v ≠ 0 :=
  (h.found v).mpr (.inl hv)

theorem Invariant.lt_size (h : Invariant g path s) (hv : s.numberOf v ≠ 0) : v < g.size := by
  rw [← h.size_number]
  by_contra hge
  apply hv
  unfold numberOf
  rw [Array.getD_eq_getD_getElem?, Array.getElem?_eq_none (Nat.le_of_not_lt hge)]
  rfl

/-- A vertex that is not discovered yet leaves room for one more. -/
theorem Invariant.discovered_lt (h : Invariant g path s) (hv : v < g.size)
    (hnew : s.numberOf v = 0) : s.discovered < g.size := by
  have hfound : ∀ w ∈ s.stack ++ s.components.flatten, s.numberOf w ≠ 0 := by
    intro w hw
    exact (h.found w).mpr (List.mem_append.mp hw)
  have hnodup : (s.stack ++ s.components.flatten).Nodup := by
    rw [List.nodup_append]
    refine ⟨h.nodup_stack, h.layered.nodup, ?_⟩
    rintro w hw _ hw' rfl
    exact h.apart w hw hw'
  have hnodup' : (v :: (s.stack ++ s.components.flatten)).Nodup :=
    List.nodup_cons.mpr ⟨fun hmem => hfound v hmem hnew, hnodup⟩
  have hsub : (v :: (s.stack ++ s.components.flatten)).Subperm (List.range g.size) := by
    refine hnodup'.subperm ?_
    intro w hw
    rcases List.mem_cons.mp hw with rfl | hw
    · exact List.mem_range.mpr hv
    · exact List.mem_range.mpr (h.lt_size (hfound w hw))
  have hlen := hsub.length_le
  rw [List.length_cons, List.length_append, List.length_range] at hlen
  rw [h.count]
  omega

theorem numberOf_discover_self (hv : v < s.number.size) :
    (s.discover v).numberOf v = s.discovered + 1 := by
  simp [numberOf, discover, hv]

theorem numberOf_discover_of_ne {w : Nat} (h : w ≠ v) :
    (s.discover v).numberOf w = s.numberOf w := by
  unfold numberOf discover
  simp only [Array.getD_eq_getD_getElem?, Array.getElem?_setIfInBounds]
  rw [if_neg (Ne.symm h)]

theorem later_discover (h : Invariant g path s) (hv : v < g.size) (hnew : s.numberOf v = 0) :
    Later s (s.discover v) [v] where
  number w hw := by
    apply numberOf_discover_of_ne
    rintro rfl
    exact hw hnew
  fresh w hw hw' := by
    by_cases hwv : w = v
    · subst hwv
      rw [numberOf_discover_self (h.size_number.symm ▸ hv)]
      exact Nat.lt_succ_self _
    · rw [numberOf_discover_of_ne hwv] at hw'
      exact absurd hw hw'
  discovered_le := Nat.le_succ _
  stack_eq := rfl
  undiscovered w hw := by
    rw [List.mem_singleton.mp hw]
    exact hnew

/-- Discovering a vertex that every vertex of the path reaches keeps the invariant; the
vertex is the new end of the path. -/
theorem Invariant.discover (h : Invariant g path s) (hv : v < g.size) (hnew : s.numberOf v = 0)
    (hpath : ∀ u ∈ path, g.Reaches u v) : Invariant g (v :: path) (s.discover v) := by
  have hself : (s.discover v).numberOf v = s.discovered + 1 :=
    numberOf_discover_self (h.size_number.symm ▸ hv)
  have hne : ∀ w, s.numberOf w ≠ 0 → w ≠ v := by
    rintro w hw rfl
    exact hw hnew
  have hkept : ∀ w ∈ s.stack, (s.discover v).numberOf w = s.numberOf w := fun w hw =>
    numberOf_discover_of_ne (hne w (h.number_ne_zero hw))
  -- Whatever is on the stack reaches the path, and the path reaches `v`.
  have hreach : ∀ w ∈ s.stack, g.Reaches w v := by
    intro w hw
    obtain ⟨u, hu, -, hwu⟩ := h.backward w hw
    exact hwu.trans (hpath u hu)
  constructor
  case size_number => simpa [Search.discover] using h.size_number
  case number_le =>
    intro w
    by_cases hwv : w = v
    · subst hwv
      rw [hself]
      exact Nat.le_refl _
    · rw [numberOf_discover_of_ne hwv]
      exact Nat.le_succ_of_le (h.number_le w)
  case descending =>
    refine List.pairwise_cons.mpr ⟨?_, ?_⟩
    · intro w hw
      rw [hself, hkept w hw]
      exact Nat.lt_succ_of_le (h.number_le w)
    · refine h.descending.imp_of_mem ?_
      intro x y hx hy hlt
      rwa [hkept x hx, hkept y hy]
  case found =>
    intro w
    by_cases hwv : w = v
    · subst hwv
      rw [hself]
      simp [Search.discover]
    · rw [numberOf_discover_of_ne hwv, h.found w]
      simp [Search.discover, hwv]
  case apart =>
    intro w hw
    rcases List.mem_cons.mp hw with rfl | hw
    · intro hmem
      exact (h.found w).mpr (.inr hmem) hnew
    · exact h.apart w hw
  case count =>
    have hcount := h.count
    simp only [Search.discover, List.length_cons]
    omega
  case path_open =>
    intro w hw
    rcases List.mem_cons.mp hw with rfl | hw
    · exact List.mem_cons_self
    · exact List.mem_cons_of_mem _ (h.path_open w hw)
  case examined =>
    intro w hw hnot x hx
    rw [List.mem_cons, not_or] at hnot
    rw [numberOf_discover_of_ne hnot.1] at hw
    have hx' : s.numberOf x ≠ 0 := h.examined w hw hnot.2 x hx
    rwa [numberOf_discover_of_ne (hne x hx')]
  case forward =>
    intro x hx y hy hle
    rcases List.mem_cons.mp hx with hxv | hxs <;> rcases List.mem_cons.mp hy with hyv | hys
    · rw [hxv, hyv]
      exact .refl
    · rw [hxv, hself, hkept y hys] at hle
      have hbound := h.number_le y
      omega
    · rw [hyv]
      exact hreach x hxs
    · rw [hkept x hxs, hkept y hys] at hle
      exact h.forward x hxs y hys hle
  case backward =>
    intro w hw
    rcases List.mem_cons.mp hw with rfl | hw
    · exact ⟨w, List.mem_cons_self, Nat.le_refl _, .refl⟩
    · obtain ⟨u, hu, hle, hwu⟩ := h.backward w hw
      refine ⟨u, List.mem_cons_of_mem _ hu, ?_, hwu⟩
      rwa [hkept u (h.path_open u hu), hkept w hw]
  case layered => exact h.layered

end Basic

end Search

end Typecase.Graph
