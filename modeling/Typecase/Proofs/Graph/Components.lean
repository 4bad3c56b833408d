import Typecase.Proofs.Graph.Search
import Mathlib.Data.List.Basic
set_option autoImplicit false

/-!
# Strongly connected components

A search from an undiscovered vertex keeps the invariant of the path that leads to it.  It
reports a number of the stack that the vertex reaches and that bounds the numbers at the
ends of the edges from the vertices it leaves on the stack.  So a vertex whose own number is
reported closes a component, and the components of a graph come out as a partition into
classes of vertices that reach each other, with no edge leading backwards.  Sorting the
vertices inside the components changes none of this.
-/

namespace Typecase.Graph

open Search

variable {g : Graph} {path opened : List Nat} {s s' : Search} {v w : Nat} {cs : List (List Nat)}

/-- The outcome of searching from `v`: the number `low` and the state `s'`. -/
structure Visited (g : Graph) (path : List Nat) (v : Nat) (s : Search) (low : Nat) (s' : Search)
    (opened : List Nat) : Prop where
  inv : Invariant g path s'
  later : Later s s' opened
  found : s'.numberOf v ≠ 0
  low_reached : low = s.discovered + 1 ∨ ∃ y ∈ s.stack, s.numberOf y = low ∧ g.Reaches v y
  low_le : ∀ x ∈ opened, ∀ y ∈ s.stack, g.Edge x y → low ≤ s.numberOf y

/-- The outcome of following the edges from `v` to `ws`, the least number being `low` before
and `low'` afterwards. -/
structure Explored (g : Graph) (path : List Nat) (v : Nat) (ws : List Nat) (low : Nat) (s : Search)
    (low' : Nat) (s' : Search) (opened : List Nat) : Prop where
  inv : Invariant g path s'
  later : Later s s' opened
  found : ∀ w ∈ ws, s'.numberOf w ≠ 0
  le : low' ≤ low
  low_reached : low' = low ∨ ∃ y ∈ s.stack, s.numberOf y = low' ∧ g.Reaches v y
  low_le : ∀ x ∈ opened, ∀ y ∈ s.stack, g.Edge x y → low' ≤ s.numberOf y
  low_le_target : ∀ w ∈ ws, w ∈ s.stack → low' ≤ s.numberOf w

theorem Search.Later.number_ne_zero (h : Later s s' opened) (hv : s.numberOf v ≠ 0) :
    s'.numberOf v ≠ 0 := by
  rwa [h.number v hv]

theorem Search.Later.mem_stack (h : Later s s' opened) (hv : v ∈ s.stack) : v ∈ s'.stack := by
  rw [h.stack_eq]
  exact List.mem_append_right _ hv

/-- An edge to a vertex that is already discovered is followed without a search. -/
theorem Explored.skip {ws : List Nat} {low bound low' : Nat} (hw : s.numberOf w ≠ 0)
    (hle : bound ≤ low) (hbound : bound = low ∨ ∃ y ∈ s.stack, s.numberOf y = bound ∧ g.Reaches v y)
    (htarget : w ∈ s.stack → bound ≤ s.numberOf w)
    (h : Explored g path v ws bound s low' s' opened) :
    Explored g path v (w :: ws) low s low' s' opened where
  inv := h.inv
  later := h.later
  found x hx := by
    rcases List.mem_cons.mp hx with rfl | hx
    · exact h.later.number_ne_zero hw
    · exact h.found x hx
  le := Nat.le_trans h.le hle
  low_reached := by
    rcases h.low_reached with heq | hreached
    · rw [heq]
      exact hbound
    · exact .inr hreached
  low_le := h.low_le
  low_le_target x hx hmem := by
    rcases List.mem_cons.mp hx with rfl | hx
    · exact Nat.le_trans h.le (htarget hmem)
    · exact h.low_le_target x hx hmem

/-- An edge to an undiscovered vertex is followed by searching from there. -/
theorem Explored.after {ws : List Nat} {low reached low' : Nat} {s₁ : Search} {o₁ o₂ : List Nat}
    (hinv : Invariant g path s) (hlow : low ≤ s.discovered) (he : g.Edge v w)
    (hnew : s.numberOf w = 0) (hw : Visited g path w s reached s₁ o₁)
    (h : Explored g path v ws (min low reached) s₁ low' s' o₂) :
    Explored g path v (w :: ws) low s low' s' (o₂ ++ o₁) := by
  have hkept : ∀ y ∈ s.stack, s₁.numberOf y = s.numberOf y := fun y hy =>
    hw.later.number y (hinv.number_ne_zero hy)
  constructor
  case inv => exact h.inv
  case later => exact hw.later.trans h.later
  case found =>
    intro x hx
    rcases List.mem_cons.mp hx with rfl | hx
    · exact h.later.number_ne_zero hw.found
    · exact h.found x hx
  case le => exact Nat.le_trans h.le (Nat.min_le_left _ _)
  case low_reached =>
    -- A number above `low` has no part in the minimum, so only old vertices count.
    rcases h.low_reached with heq | ⟨y, hy, hnum, hvy⟩
    · rcases hw.low_reached with hr | ⟨y, hy, hnum, hwy⟩
      · exact .inl (by omega)
      · rcases Nat.le_total low reached with hle | hle
        · exact .inl (by omega)
        · exact .inr ⟨y, hy, by omega, .head he hwy⟩
    · rw [hw.later.stack_eq] at hy
      rcases List.mem_append.mp hy with hy | hy
      · have hopen : s₁.numberOf y ≠ 0 :=
          hw.inv.number_ne_zero (hw.later.stack_eq ▸ List.mem_append_left _ hy)
        have hfresh := hw.later.fresh y (hw.later.undiscovered y hy) hopen
        have hle := h.le
        omega
      · exact .inr ⟨y, hy, by rw [← hkept y hy, hnum], hvy⟩
  case low_le =>
    intro x hx y hy hxy
    rcases List.mem_append.mp hx with hx | hx
    · rw [← hkept y hy]
      exact h.low_le x hx y (hw.later.mem_stack hy) hxy
    · have hreached := hw.low_le x hx y hy hxy
      have hle := h.le
      omega
  case low_le_target =>
    intro x hx hmem
    rcases List.mem_cons.mp hx with rfl | hx
    · exact absurd hnew (hinv.number_ne_zero hmem)
    · rw [← hkept x hmem]
      exact h.low_le_target x hx (hw.later.mem_stack hmem)

/-- A search that does what it should from every vertex that has room below `depth`. -/
def Visits (g : Graph) (depth : Nat) (visit : Nat → Search → Nat × Search) : Prop :=
  ∀ path v s, Invariant g path s → v < g.size → s.numberOf v = 0 → (∀ u ∈ path, g.Reaches u v) →
    g.size ≤ s.discovered + depth → ∃ opened, Visited g path v s (visit v s).1 (visit v s).2 opened

theorem explore_explored {depth : Nat} {visit : Nat → Search → Nat × Search}
    (hvisit : g.Visits depth visit) (hrange : g.InRange) (hpath : ∀ u ∈ path, g.Reaches u v)
    (ws : List Nat) (hws : ∀ w ∈ ws, g.Edge v w) (low : Nat) (hinv : Invariant g path s)
    (hlow : low ≤ s.discovered) (hroom : g.size ≤ s.discovered + depth) :
    ∃ opened,
      Explored g path v ws low s (explore visit ws low s).1 (explore visit ws low s).2 opened := by
  induction ws generalizing low s with
  | nil =>
    exact ⟨[], hinv, .refl s, by simp, Nat.le_refl _, .inl rfl, by simp, by simp⟩
  | cons w ws ih =>
    have he : g.Edge v w := hws w List.mem_cons_self
    have hws' : ∀ x ∈ ws, g.Edge v x := fun x hx => hws x (List.mem_cons_of_mem _ hx)
    unfold explore
    split
    case isTrue hnew =>
      obtain ⟨o₁, hw⟩ := hvisit path w s hinv (hrange v w he) hnew
        (fun u hu => (hpath u hu).tail he) hroom
      have hle := hw.later.discovered_le
      obtain ⟨o₂, h⟩ := ih hws' (min low (visit w s).1) hw.inv (by omega) (by omega)
      exact ⟨o₂ ++ o₁, .after hinv hlow he hnew hw h⟩
    case isFalse hfound =>
      split
      case isTrue hopen =>
        have hmem : w ∈ s.stack := by simpa using hopen
        obtain ⟨o, h⟩ := ih hws' (min low (s.numberOf w)) hinv (by omega) hroom
        refine ⟨o, .skip hfound (Nat.min_le_left _ _) ?_ (fun _ => Nat.min_le_right _ _) h⟩
        rcases Nat.le_total low (s.numberOf w) with hle | hle
        · exact .inl (Nat.min_eq_left hle)
        · exact .inr ⟨w, hmem, (Nat.min_eq_right hle).symm, .single he⟩
      case isFalse hclosed =>
        have hmem : w ∉ s.stack := by simpa using hclosed
        obtain ⟨o, h⟩ := ih hws' low hinv hlow hroom
        exact ⟨o, .skip hfound (Nat.le_refl _) (.inl rfl) (fun hw => absurd hw hmem) h⟩

/-! ## The end of a search -/

section Finish

variable {v : Nat} {opened : List Nat} {low : Nat} {s₁ : Search}

/-- The state after `v` is discovered in `s` and its edges have been followed. -/
structure Followed (g : Graph) (path : List Nat) (v : Nat) (s : Search) (low : Nat) (s₁ : Search)
    (opened : List Nat) : Prop where
  before : Invariant g path s
  lt_size : v < g.size
  undiscovered : s.numberOf v = 0
  explored : Explored g (v :: path) v (g.succ v) (s.discovered + 1) (s.discover v) low s₁ opened

namespace Followed

variable {w : Nat} (h : Followed g path v s low s₁ opened)
include h

theorem stack_eq : s₁.stack = opened ++ v :: s.stack :=
  h.explored.later.stack_eq

theorem later : Later s s₁ (opened ++ [v]) :=
  (later_discover h.before h.lt_size h.undiscovered).trans h.explored.later

theorem number_self : s₁.numberOf v = s.discovered + 1 := by
  have hself : (s.discover v).numberOf v = s.discovered + 1 :=
    numberOf_discover_self (h.before.size_number.symm ▸ h.lt_size)
  rw [h.explored.later.number v (by omega), hself]

theorem number_below (hw : w ∈ s.stack) :
    s₁.numberOf w = s.numberOf w ∧ s.numberOf w ≤ s.discovered :=
  ⟨h.later.number w (h.before.number_ne_zero hw), h.before.number_le w⟩

theorem number_above (hw : w ∈ opened ++ [v]) : s.discovered < s₁.numberOf w :=
  h.later.fresh w (h.later.undiscovered w hw)
    (h.explored.inv.number_ne_zero (by rw [h.later.stack_eq]; exact List.mem_append_left _ hw))

/-- Nothing but `v` has a number of the stack that is as low as its own and not below. -/
theorem number_self_le (hw : w ∈ opened ++ [v]) : s₁.numberOf v ≤ s₁.numberOf w := by
  rw [h.number_self]
  exact h.number_above hw

theorem mem_stack (hw : w ∈ opened ++ [v]) : w ∈ s₁.stack := by
  rw [h.later.stack_eq]
  exact List.mem_append_left _ hw

theorem not_mem_path (hw : w ∈ opened ++ [v]) :
    w ∉ path := fun hp =>
  h.before.number_ne_zero (h.before.path_open w hp) (h.later.undiscovered w hw)

theorem examined (w : Nat) (hw : s₁.numberOf w ≠ 0) (hpath : w ∉ path) (x : Nat) (hx : g.Edge w x) :
    s₁.numberOf x ≠ 0 := by
  by_cases hwv : w = v
  · subst hwv
    exact h.explored.found x hx
  · exact h.explored.inv.examined w hw (by simp [hwv, hpath]) x hx

theorem mutual_self (hw : w ∈ opened ++ [v]) : g.Mutual v w := by
  have hv : v ∈ s₁.stack := h.mem_stack (by simp)
  refine ⟨h.explored.inv.forward v hv w (h.mem_stack hw) (h.number_self_le hw), ?_⟩
  obtain ⟨u, hu, -, hwu⟩ := h.explored.inv.backward w (h.mem_stack hw)
  rcases List.mem_cons.mp hu with rfl | hu
  · exact hwu
  · have hus : u ∈ s.stack := h.before.path_open u hu
    have hle : s₁.numberOf u ≤ s₁.numberOf v := by
      rw [(h.number_below hus).1, h.number_self]
      exact Nat.le_succ_of_le (h.number_below hus).2
    exact hwu.trans (h.explored.inv.forward u (h.later.mem_stack hus) v hv hle)

/-- If `v` reports its own number, no edge leads from what it opened to what was open
before. -/
theorem edge_stays (hlow : low = s.discovered + 1) {x : Nat} (hw : w ∈ opened ++ [v])
    (hx : g.Edge w x) : x ∈ opened ++ [v] ∨ x ∈ s₁.components.flatten := by
  have hfound : s₁.numberOf x ≠ 0 :=
    h.examined w (h.explored.inv.number_ne_zero (h.mem_stack hw)) (h.not_mem_path hw) x hx
  rcases (h.explored.inv.found x).mp hfound with hopen | hclosed
  · rw [h.later.stack_eq] at hopen
    rcases List.mem_append.mp hopen with hnew | hold
    · exact .inl hnew
    · exfalso
      have hbelow := (h.before.number_le x)
      have hkept : (s.discover v).numberOf x = s.numberOf x :=
        (later_discover h.before h.lt_size h.undiscovered).number x (h.before.number_ne_zero hold)
      have hle : low ≤ (s.discover v).numberOf x := by
        rcases List.mem_append.mp hw with hw | hw
        · exact h.explored.low_le w hw x (List.mem_cons_of_mem _ hold) hx
        · rw [List.mem_singleton] at hw
          subst hw
          exact h.explored.low_le_target x hx (List.mem_cons_of_mem _ hold)
      omega
  · exact .inr hclosed

theorem mem_iff_mutual (hlow : low = s.discovered + 1) (hw : w ∈ opened ++ [v]) (x : Nat) :
    x ∈ opened ++ [v] ↔ g.Mutual w x := by
  have hwv := h.mutual_self hw
  constructor
  · intro hx
    have hvx := h.mutual_self hx
    exact ⟨hwv.2.trans hvx.1, hvx.2.trans hwv.1⟩
  · rintro ⟨hwx, hxw⟩
    have hclosure : x ∈ opened ++ [v] ∨ x ∈ s₁.components.flatten := by
      clear hxw
      induction hwx with
      | refl => exact .inl hw
      | tail _ he ih =>
        rcases ih with ih | ih
        · exact h.edge_stays hlow ih he
        · exact .inr (h.explored.inv.layered.edge ih he)
    rcases hclosure with hx | hx
    · exact hx
    · exact absurd (h.explored.inv.layered.reaches hx hxw)
        (h.explored.inv.apart w (h.mem_stack hw))

theorem not_mem_opened : v ∉ opened := by
  have hnodup := h.explored.inv.nodup_stack
  rw [h.stack_eq, List.nodup_append] at hnodup
  exact fun hv => hnodup.2.2 v hv v List.mem_cons_self rfl

theorem close_eq :
    s₁.close v =
      { s₁ with stack := s.stack, components := (opened ++ [v]) :: s₁.components } := by
  have hne : ∀ x ∈ opened, (x != v) = true := by
    intro x hx
    rw [bne_iff_ne]
    rintro rfl
    exact h.not_mem_opened hx
  have htake : (opened ++ v :: s.stack).takeWhile (· != v) = opened := by
    rw [List.takeWhile_append_of_pos hne]
    simp
  have hdrop : (opened ++ v :: s.stack).dropWhile (· != v) = v :: s.stack := by
    rw [List.dropWhile_append_of_pos hne]
    simp
  unfold close
  rw [h.stack_eq, htake, hdrop]
  rfl

/-- A vertex of the path that was there before stays below what was opened. -/
theorem backward_below (hw : w ∈ s.stack) :
    ∃ u ∈ path, s₁.numberOf u ≤ s₁.numberOf w ∧ g.Reaches w u := by
  obtain ⟨u, hu, hle, hwu⟩ := h.before.backward w hw
  refine ⟨u, hu, ?_, hwu⟩
  rw [(h.number_below hw).1, (h.number_below (h.before.path_open u hu)).1]
  exact hle

theorem close_invariant (hlow : low = s.discovered + 1) : Invariant g path (s₁.close v) := by
  have hinv := h.explored.inv
  have hstack : s₁.stack = (opened ++ [v]) ++ s.stack := h.later.stack_eq
  have hnodup := hinv.nodup_stack
  rw [hstack, List.nodup_append] at hnodup
  rw [h.close_eq]
  constructor
  case size_number => exact hinv.size_number
  case number_le => exact hinv.number_le
  case descending =>
    have hdesc := hinv.descending
    rw [hstack, List.pairwise_append] at hdesc
    exact hdesc.2.1
  case found =>
    intro w
    have hfound := hinv.found w
    rw [hstack, List.mem_append] at hfound
    rw [List.flatten_cons, List.mem_append]
    refine hfound.trans ?_
    tauto
  case apart =>
    intro w hw
    rw [List.flatten_cons, List.mem_append, not_or]
    exact ⟨fun hw' => hnodup.2.2 w hw' w hw rfl, hinv.apart w (h.later.mem_stack hw)⟩
  case count =>
    have hcount := hinv.count
    rw [hstack, List.length_append] at hcount
    show s₁.discovered = s.stack.length + ((opened ++ [v]) :: s₁.components).flatten.length
    rw [List.flatten_cons, List.length_append]
    omega
  case path_open => exact h.before.path_open
  case examined => exact h.examined
  case forward =>
    intro x hx y hy hle
    exact hinv.forward x (h.later.mem_stack hx) y (h.later.mem_stack hy) hle
  case backward =>
    intro w hw
    exact h.backward_below hw
  case layered =>
    refine ⟨⟨hnodup.1, by simp⟩, ?_, ?_, ?_, hinv.layered⟩
    · intro w hw
      exact hinv.apart w (h.mem_stack hw)
    · intro w hw x
      exact h.mem_iff_mutual hlow hw x
    · intro w hw x hx
      exact h.edge_stays hlow hw hx

/-- Where `v` reaches below itself, it stays on the stack with what it opened. -/
theorem open_invariant {y : Nat} (hy : y ∈ s.stack) (hvy : g.Reaches v y) :
    Invariant g path s₁ := by
  have hinv := h.explored.inv
  refine { hinv with path_open := ?_, examined := h.examined, backward := ?_ }
  · intro w hw
    exact hinv.path_open w (List.mem_cons_of_mem _ hw)
  · intro w hw
    rw [h.later.stack_eq] at hw
    rcases List.mem_append.mp hw with hw | hw
    · obtain ⟨u, hu, hle, hyu⟩ := h.backward_below hy
      refine ⟨u, hu, ?_, (h.mutual_self hw).2.trans (hvy.trans hyu)⟩
      have habove := h.number_above hw
      have hbelow := h.number_below hy
      omega
    · exact h.backward_below hw

theorem visited :
    ∃ opened',
      Visited g path v s low (if low = s.discovered + 1 then s₁.close v else s₁) opened' := by
  have hfound : s₁.numberOf v ≠ 0 := by
    rw [h.number_self]
    exact Nat.succ_ne_zero _
  have hkept : ∀ y ∈ s.stack, (s.discover v).numberOf y = s.numberOf y := fun y hy =>
    (later_discover h.before h.lt_size h.undiscovered).number y (h.before.number_ne_zero hy)
  split
  case isTrue hlow =>
    refine ⟨[], h.close_invariant hlow, ?_, ?_, .inl hlow, by simp⟩
    · rw [h.close_eq]
      exact ⟨h.later.number, h.later.fresh, h.later.discovered_le, rfl, by simp⟩
    · rw [h.close_eq]
      exact hfound
  case isFalse hlow =>
    obtain ⟨y, hy, hnum, hvy⟩ : ∃ y ∈ s.stack, s.numberOf y = low ∧ g.Reaches v y := by
      rcases h.explored.low_reached with heq | ⟨y, hy, hnum, hvy⟩
      · exact absurd heq hlow
      · rcases List.mem_cons.mp hy with rfl | hy
        · rw [numberOf_discover_self (h.before.size_number.symm ▸ h.lt_size)] at hnum
          exact absurd hnum.symm hlow
        · exact ⟨y, hy, by rw [← hkept y hy, hnum], hvy⟩
    refine ⟨opened ++ [v], h.open_invariant hy hvy, h.later, hfound, .inr ⟨y, hy, hnum, hvy⟩, ?_⟩
    intro x hx z hz hxz
    rw [← hkept z hz]
    rcases List.mem_append.mp hx with hx | hx
    · exact h.explored.low_le x hx z (List.mem_cons_of_mem _ hz) hxz
    · rw [List.mem_singleton] at hx
      subst hx
      exact h.explored.low_le_target z hxz (List.mem_cons_of_mem _ hz)

end Followed

end Finish

/-- Searching to a depth that leaves room for every undiscovered vertex does what it should. -/
theorem visit_visits (hrange : g.InRange) (depth : Nat) : g.Visits depth (g.visit depth) := by
  induction depth with
  | zero =>
    intro path v s hinv hv hnew hpath hroom
    have hlt := hinv.discovered_lt hv hnew
    omega
  | succ depth ih =>
    intro path v s hinv hv hnew hpath hroom
    have hreach : ∀ u ∈ v :: path, g.Reaches u v := by
      intro u hu
      rcases List.mem_cons.mp hu with rfl | hu
      · exact .refl
      · exact hpath u hu
    have hroom' : g.size ≤ (s.discover v).discovered + depth := by
      simp only [discover]
      omega
    obtain ⟨opened, h⟩ := explore_explored ih hrange hreach (g.succ v) (fun w hw => hw)
      (s.discovered + 1) (hinv.discover hv hnew hpath) (Nat.le_refl _) hroom'
    exact Followed.visited ⟨hinv, hv, hnew, h⟩

/-! ## All components -/

theorem start_invariant (g : Graph) : Invariant g [] (Search.start g.size) := by
  have hzero : ∀ v, (Search.start g.size).numberOf v = 0 := by
    intro v
    simp only [numberOf, Search.start, Array.getD_eq_getD_getElem?, Array.getElem?_replicate]
    split <;> rfl
  constructor
  case size_number => simp [Search.start]
  case number_le => simp [hzero]
  case found =>
    intro v
    rw [hzero v]
    simp [Search.start]
  case examined => simp [hzero]
  case layered => trivial
  all_goals simp [Search.start]

/-- Nothing is open once the path is left. -/
theorem Search.Invariant.stack_nil (h : Invariant g [] s) : s.stack = [] := by
  rw [List.eq_nil_iff_forall_not_mem]
  intro w hw
  obtain ⟨u, hu, -⟩ := h.backward w hw
  simp at hu

theorem foldl_invariant (hrange : g.InRange) (vs : List Nat) (hvs : ∀ v ∈ vs, v < g.size)
    (hinv : Invariant g [] s) :
    let s' := vs.foldl (fun s v => if s.numberOf v = 0 then (g.visit g.size v s).2 else s) s
    Invariant g [] s' ∧ (∀ v, s.numberOf v ≠ 0 → s'.numberOf v ≠ 0) ∧
      ∀ v ∈ vs, s'.numberOf v ≠ 0 := by
  induction vs generalizing s with
  | nil => exact ⟨hinv, fun _ h => h, by simp⟩
  | cons v vs ih =>
    have hvs' : ∀ w ∈ vs, w < g.size := fun w hw => hvs w (List.mem_cons_of_mem _ hw)
    rw [List.foldl_cons]
    split
    case isTrue hnew =>
      obtain ⟨opened, h⟩ := visit_visits hrange g.size [] v s hinv (hvs v List.mem_cons_self) hnew
        (by simp) (Nat.le_add_left _ _)
      obtain ⟨hinv', hkept, hall⟩ := ih hvs' h.inv
      refine ⟨hinv', fun w hw => hkept w (h.later.number_ne_zero hw), ?_⟩
      intro w hw
      rcases List.mem_cons.mp hw with rfl | hw
      · exact hkept w h.found
      · exact hall w hw
    case isFalse hfound =>
      obtain ⟨hinv', hkept, hall⟩ := ih hvs' hinv
      refine ⟨hinv', hkept, ?_⟩
      intro w hw
      rcases List.mem_cons.mp hw with rfl | hw
      · exact hkept w hfound
      · exact hall w hw

theorem components_layered (hrange : g.InRange) :
    g.Layered g.components ∧ ∀ v, v ∈ g.components.flatten ↔ v < g.size := by
  obtain ⟨hinv, -, hall⟩ := foldl_invariant hrange (List.range g.size)
    (fun v hv => List.mem_range.mp hv) (start_invariant g)
  refine ⟨hinv.layered, ?_⟩
  intro v
  have hfound := hinv.found v
  rw [hinv.stack_nil] at hfound
  constructor
  · intro hv
    exact hinv.lt_size (hfound.mpr (.inr hv))
  · intro hv
    rcases hfound.mp (hall v (List.mem_range.mpr hv)) with hopen | hclosed
    · simp at hopen
    · exact hclosed

/-! ## The partition -/

theorem Layered.ne_nil (h : g.Layered cs) : [] ∉ cs := by
  induction cs with
  | nil => simp
  | cons c cs ih =>
    obtain ⟨hc, -, -, -, hrest⟩ := h
    rw [List.mem_cons, not_or]
    exact ⟨fun heq => hc.2 heq.symm, ih hrest⟩

/-- No edge leads back to an earlier component. -/
theorem Layered.pairwise_not_edge (h : g.Layered cs) :
    cs.Pairwise fun c d => ∀ w ∈ d, ∀ v ∈ c, ¬ g.Edge w v := by
  induction cs with
  | nil => exact .nil
  | cons c cs ih =>
    obtain ⟨-, hdisjoint, -, -, hrest⟩ := h
    refine .cons ?_ (ih hrest)
    intro d hd w hw v hv he
    exact hdisjoint v hv (hrest.edge (List.mem_flatten_of_mem hd hw) he)

/-- An edge between two components leads from an earlier one to a later one. -/
theorem Layered.edge_lt (h : g.Layered cs) {m n : Nat} {c d : List Nat} (hm : cs[m]? = some c)
    (hn : cs[n]? = some d) (hne : m ≠ n) (hv : v ∈ c) (hw : w ∈ d) (he : g.Edge v w) : m < n := by
  obtain ⟨hltm, rfl⟩ := List.getElem?_eq_some_iff.mp hm
  obtain ⟨hltn, rfl⟩ := List.getElem?_eq_some_iff.mp hn
  by_contra hlt
  have hback := List.pairwise_iff_getElem.mp h.pairwise_not_edge n m hltn hltm (by omega)
  exact hback v hv w hw he

theorem mergeSort_ascending {c : List Nat} (h : c.Nodup) :
    c.mergeSort.Perm c ∧ c.mergeSort.Pairwise (· < ·) := by
  refine ⟨List.mergeSort_perm c _, ?_⟩
  have hle : c.mergeSort.Pairwise fun v w => decide (v ≤ w) = true :=
    List.pairwise_mergeSort (by simpa using fun _ _ _ => Nat.le_trans)
      (by simpa using Nat.le_total) c
  have hne : c.mergeSort.Pairwise (· ≠ ·) := (List.mergeSort_perm c _).nodup_iff.mpr h
  refine (hle.and hne).imp ?_
  intro v w hvw
  exact Nat.lt_of_le_of_ne (of_decide_eq_true hvw.1) hvw.2

/-- The components partition the vertices of a graph.  Two vertices share a component exactly
if each reaches the other, an edge between two components leads from an earlier one to a later
one, and sorting orders the vertices of every component and nothing else. -/
theorem components_partition (g : Graph) (hrange : g.InRange) :
    g.components.flatten.Perm (List.range g.size) ∧ [] ∉ g.components ∧
      (∀ v w, v < g.size →
        ((∃ c ∈ g.components, v ∈ c ∧ w ∈ c) ↔ g.Reaches v w ∧ g.Reaches w v)) ∧
      (∀ (m n : Nat) (c d : List Nat), g.components[m]? = some c → g.components[n]? = some d → m ≠ n →
        ∀ v ∈ c, ∀ w ∈ d, g.Edge v w → m < n) ∧
      List.Forall₂ (fun c d => d.Perm c ∧ d.Pairwise (· < ·)) g.components
        g.sortedComponents := by
  obtain ⟨hlayered, hall⟩ := components_layered hrange
  refine ⟨?_, hlayered.ne_nil, ?_, ?_, ?_⟩
  · refine (List.perm_ext_iff_of_nodup hlayered.nodup List.nodup_range).mpr ?_
    simpa using hall
  · intro v w hv
    constructor
    · rintro ⟨c, hc, hvc, hwc⟩
      exact (hlayered.mutual_iff hc hvc w).mp hwc
    · intro hmutual
      obtain ⟨c, hc, hvc⟩ := List.mem_flatten.mp ((hall v).mpr hv)
      exact ⟨c, hc, hvc, (hlayered.mutual_iff hc hvc w).mpr hmutual⟩
  · intro m n c d hm hn hne v hv w hw he
    exact hlayered.edge_lt hm hn hne hv hw he
  · refine List.forall₂_map_right_iff.mpr (List.forall₂_same.mpr ?_)
    intro c hc
    exact mergeSort_ascending ((List.nodup_flatten.mp hlayered.nodup).1 c hc)

/-- The edges `0 → 2`, `2 → 3`, `3 → 2`, `3 → 1` on the vertices `0, …, 4`. -/
def twoJoined : Graph := ⟨#[[2], [], [3], [2, 1], []]⟩

theorem components_partition_twoJoined :
    twoJoined.InRange ∧ twoJoined.components = [[4], [0], [3, 2], [1]] ∧
      twoJoined.Reaches 2 3 ∧ twoJoined.Reaches 3 2 ∧ ¬ twoJoined.Reaches 1 3 := by
  have hrange : twoJoined.InRange := by
    intro v w he
    have hv : v < 5 := by
      by_contra hge
      simp [Edge, succ, twoJoined, Nat.le_of_not_lt hge] at he
    have hall : ∀ v < 5, ∀ w ∈ twoJoined.succ v, w < twoJoined.size := by decide
    exact hall v hv w he
  have hcomponents : twoJoined.components = [[4], [0], [3, 2], [1]] := by decide +kernel
  obtain ⟨-, -, hmutual, -, -⟩ := components_partition twoJoined hrange
  rw [hcomponents] at hmutual
  refine ⟨hrange, hcomponents, ?_, ?_, ?_⟩
  · exact ((hmutual 2 3 (by decide)).mp (by simp)).1
  · exact ((hmutual 2 3 (by decide)).mp (by simp)).2
  · intro h
    have h31 : twoJoined.Reaches 3 1 := .single (by simp [Edge, succ, twoJoined])
    have hshared := (hmutual 3 1 (by decide)).mpr ⟨h31, h⟩
    simp at hshared

end Typecase.Graph
