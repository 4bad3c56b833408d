import Typecase.Proofs.Match.Normalize
import Mathlib.Algebra.Order.BigOperators.Group.List
import Mathlib.Algebra.Order.Ring.Nat
set_option autoImplicit false

/-!
# The bounds suffice

Normalization and compilation recurse on a bound.  Neither ever runs into it.

Normalization looks at the columns it has and at those that it adds.  The spread of a
pattern counts the columns that its tuples and records can add, so every step lowers the
number of columns ahead together with the spread of the patterns in them.

Compilation goes down by a test or by a guarded clause.  A test uses up a pattern that
tests for a tag, a guard uses up a row, so every level of the tree lowers the number of
rows together with the number of tests in them.
-/

namespace Typecase

namespace Pattern

variable {α : Type}

mutual

/-- A count of the constructors and constants in a pattern, each for `test`, and of the components
of its tuples and records, each for `part`. -/
def weigh (test part : Nat) : Pattern α → Nat
  | .wildcard _ | .var _ _ | .omitted => 0
  | .literal _ _ | .con _ _ none => test
  | .con _ _ (some p) => weigh test part p + test
  | .tuple _ ps => weighList test part ps
  | .record _ fs _ => weighFields test part fs
  | .layered _ _ p => weigh test part p

def weighList (test part : Nat) : List (Pattern α) → Nat
  | [] => 0
  | p :: ps => weigh test part p + part + weighList test part ps

def weighFields (test part : Nat) : List (String × Pattern α) → Nat
  | [] => 0
  | (_, p) :: fs => weigh test part p + part + weighFields test part fs

end

/-- Number of columns that the tuples and records of a pattern can add. -/
def spread : Pattern α → Nat := weigh 0 1

/-- Number of constructors and constants in a pattern. -/
def tests : Pattern α → Nat := weigh 1 0

variable {test part : Nat}

theorem weighList_eq (ps : List (Pattern α)) :
    weighList test part ps = (ps.map fun p => weigh test part p + part).sum := by
  induction ps with
  | nil => rfl
  | cons p ps ih => simp [weighList, ih]

theorem weighFields_eq (fs : List (String × Pattern α)) :
    weighFields test part fs = (fs.map fun f => weigh test part f.2 + part).sum := by
  induction fs with
  | nil => rfl
  | cons f fs ih => simp [weighFields, ih]

mutual

theorem weigh_le_size (h : test + part ≤ 1) : (p : Pattern α) → weigh test part p + part ≤ size p
  | .wildcard _ | .var _ _ | .literal _ _ | .con _ _ none | .omitted => by
    simp only [weigh, size]
    omega
  | .con _ _ (some p) | .layered _ _ p => by
    have := weigh_le_size h p
    simp only [weigh, size]
    omega
  | .tuple _ ps => by
    have := weighList_le_size h ps
    simp only [weigh, size]
    omega
  | .record _ fs _ => by
    have := weighFields_le_size h fs
    simp only [weigh, size]
    omega

theorem weighList_le_size (h : test + part ≤ 1) :
    (ps : List (Pattern α)) → weighList test part ps ≤ sizeList ps
  | [] => Nat.le_refl 0
  | p :: ps => by
    have := weigh_le_size h p
    have := weighList_le_size h ps
    simp only [weighList, sizeList]
    omega

theorem weighFields_le_size (h : test + part ≤ 1) :
    (fs : List (String × Pattern α)) → weighFields test part fs ≤ sizeFields fs
  | [] => Nat.le_refl 0
  | (_, p) :: fs => by
    have := weigh_le_size h p
    have := weighFields_le_size h fs
    simp only [weighFields, sizeFields]
    omega

end

end Pattern

namespace Match

variable {α : Type} {m : Matrix α} {col : Nat} {sh : Shape} {path : Path}

/-! ## Counting what is left of a pattern -/

/-- Different labels find different fields. -/
theorem sum_lookup_le (f : Pattern α → Nat) (hf : f .omitted = 0) {ls : List String}
    (hls : ls.Nodup) (fs : List (String × Pattern α)) :
    (ls.map fun l => f ((fs.lookup l).getD .omitted)).sum ≤ (fs.map fun e => f e.2).sum := by
  induction fs generalizing ls with
  | nil => simp [hf]
  | cons e fs ih =>
    obtain ⟨k, p⟩ := e
    have hother : ∀ l, l ≠ k → ((k, p) :: fs).lookup l = fs.lookup l := by
      intro l hl
      have hne : (l == k) = false := by simpa using hl
      rw [List.lookup_cons, hne]
    have hmap : ∀ ls : List String, k ∉ ls →
        (ls.map fun l => f ((((k, p) :: fs).lookup l).getD .omitted)) =
          ls.map fun l => f ((fs.lookup l).getD .omitted) := by
      intro ls hk
      refine List.map_congr_left ?_
      intro l hl
      rw [hother l fun h => hk (h ▸ hl)]
    by_cases hk : k ∈ ls
    · have hrest := ih (hls.erase k)
      rw [((List.perm_cons_erase hk).map _).sum_eq, List.map_cons, List.sum_cons,
        hmap _ hls.not_mem_erase]
      simpa using hrest
    · rw [hmap ls hk, List.map_cons, List.sum_cons]
      exact Nat.le_add_left_of_le (ih hls)

/-- The components of a pattern count no more than the pattern. -/
theorem sum_components_le {f : Pattern α → Nat} (hf : f .omitted = 0)
    (hsh : (labels (some sh)).Nodup) {p : Pattern α} {n : Nat}
    (htuple : ∀ note ps, p = .tuple note ps → (ps.map f).sum ≤ n)
    (hrecord : ∀ note fs flexible, p = .record note fs flexible →
      (fs.map fun e => f e.2).sum ≤ n) : ((components sh p).map f).sum ≤ n := by
  have hwilds : ∀ k, ((wilds k : List (Pattern α)).map f).sum ≤ n := by
    intro k
    simp [wilds, hf]
  cases sh with
  | tuple k =>
    cases p with
    | tuple note ps => exact htuple note ps rfl
    | _ => exact hwilds k
  | record ls =>
    cases p with
    | record note fs flexible =>
      have hle := sum_lookup_le f hf hsh fs.reverse
      rw [(fs.reverse_perm.map _).sum_eq] at hle
      rw [components, List.map_map]
      exact hle.trans (hrecord note fs flexible rfl)
    | _ => exact hwilds ls.length

theorem spread_components (hsh : (labels (some sh)).Nodup) (p : Pattern α) :
    ((components sh p).map Pattern.spread).sum + width p ≤ p.spread := by
  have hwidth : width p ≤ p.spread := by
    cases p <;>
      simp [width, Pattern.spread, Pattern.weigh, Pattern.weighList_eq, Pattern.weighFields_eq]
  have hle : ((components sh p).map Pattern.spread).sum ≤ p.spread - width p := by
    refine sum_components_le rfl hsh ?_ ?_
    · rintro note ps rfl
      simp [width, Pattern.spread, Pattern.weigh, Pattern.weighList_eq]
    · rintro note fs flexible rfl
      simp [width, Pattern.spread, Pattern.weigh, Pattern.weighFields_eq]
  omega

theorem tests_components (hsh : (labels (some sh)).Nodup) (p : Pattern α) :
    ((components sh p).map Pattern.tests).sum ≤ p.tests := by
  refine sum_components_le rfl hsh ?_ ?_
  · rintro note ps rfl
    simp [Pattern.tests, Pattern.weigh, Pattern.weighList_eq]
  · rintro note fs flexible rfl
    simp [Pattern.tests, Pattern.weigh, Pattern.weighFields_eq]

/-- Taking names off a pattern leaves all counts that names do not enter. -/
theorem strip_count {f : Pattern α → Nat} (hvar : ∀ note x, f (.var note x) = f .omitted)
    (hlayered : ∀ note x p, f (.layered note x p) = f p) (path : Path) (p : Pattern α) :
    f (Row.strip path p).2 = f p := by
  fun_induction Row.strip path p with
  | case1 note x => exact (hvar note x).symm
  | case2 note x p bindings q heq ih =>
    rw [heq] at ih
    exact ih.trans (hlayered note x p).symm
  | case3 => rfl

theorem strip_spread (path : Path) (p : Pattern α) : (Row.strip path p).2.spread = p.spread :=
  strip_count (fun _ _ => rfl) (fun _ _ p => by simp [Pattern.spread, Pattern.weigh]) path p

theorem strip_tests (path : Path) (p : Pattern α) : (Row.strip path p).2.tests = p.tests :=
  strip_count (fun _ _ => rfl) (fun _ _ p => by simp [Pattern.tests, Pattern.weigh]) path p

/-! ## Normalization -/

/-- Columns from `col` on, with those that their patterns can add. -/
def Matrix.pending (m : Matrix α) (col : Nat) : Nat :=
  (m.paths.length - col) +
    (m.rows.map fun r => ((r.patterns.drop col).map Pattern.spread).sum).sum

theorem pending_bindAt (hm : m.Rect) (hpath : m.paths[col]? = some path) :
    (m.bindAt col path).pending col = m.pending col := by
  unfold Matrix.pending Matrix.bindAt
  rw [List.map_map]
  refine congrArg (m.paths.length - col + List.sum ·) (List.map_congr_left ?_)
  intro r hr
  obtain ⟨ps, qs, hpatterns, hlen, -⟩ := hm.row hpath hr
  rw [Function.comp_apply, Row.bind_patterns hpatterns hlen, hpatterns, List.drop_left' hlen,
    List.drop_left' hlen]
  simp only [List.map_cons, List.sum_cons, strip_spread]

theorem pending_succ (hm : m.Rect) (hpath : m.paths[col]? = some path) :
    m.pending (col + 1) < m.pending col := by
  obtain ⟨hcol, -⟩ := List.getElem?_eq_some_iff.mp hpath
  have hrows : (m.rows.map fun r => ((r.patterns.drop (col + 1)).map Pattern.spread).sum).sum ≤
      (m.rows.map fun r => ((r.patterns.drop col).map Pattern.spread).sum).sum := by
    refine List.sum_le_sum ?_
    intro r hr
    obtain ⟨ps, qs, hpatterns, hlen, -⟩ := hm.row hpath hr
    rw [hpatterns, List.append_cons, List.drop_left' (by simp [hlen]), ← List.append_cons,
      List.drop_left' hlen]
    simp
  unfold Matrix.pending
  omega

theorem pending_expand (hm : m.Rect) (hpath : m.paths[col]? = some path)
    (hsh : columnShape m.rows col = .ok (some sh)) :
    (m.expand col path sh).pending col < m.pending col := by
  obtain ⟨hcol, -⟩ := List.getElem?_eq_some_iff.mp hpath
  obtain ⟨-, harity, hdistinct⟩ := columnShape_shaped hsh
  have hlen : (m.expand col path sh).paths.length =
      col + (Shape.steps sh).length + (m.paths.length - (col + 1)) := by
    rw [Matrix.expand_eq, Matrix.length_replace hpath]
  -- each row loses at least as much spread as it lists components
  have hrows : ((m.expand col path sh).rows.map fun r =>
        ((r.patterns.drop col).map Pattern.spread).sum).sum +
        (m.rows.map fun r => width (r.pat col)).sum ≤
      (m.rows.map fun r => ((r.patterns.drop col).map Pattern.spread).sum).sum := by
    unfold Matrix.expand
    rw [List.map_map, ← List.sum_map_add]
    refine List.sum_le_sum ?_
    intro r hr
    obtain ⟨ps, qs, hpatterns, hlen, -⟩ := hm.row hpath hr
    have hspread := spread_components hdistinct (r.pat col)
    rw [Function.comp_apply, Row.splice, hpatterns, splice_append _ _ _ _ hlen, List.append_assoc,
      List.drop_left' hlen, List.drop_left' hlen]
    simp only [List.map_append, List.sum_append, List.map_cons, List.sum_cons]
    omega
  have harity' : (Shape.steps sh).length ≤ (m.rows.map fun r => width (r.pat col)).sum := harity
  unfold Matrix.pending
  omega

section Steps

variable {m : Matrix α} {col : Nat} {path : Path} (n : Nat) (st : State)

theorem normalizeAt_done (hpath : m.paths[col]? = none) :
    normalizeAt (n + 1) col m st = .ok (m, st) := by
  rw [normalizeAt, hpath]
  rfl

theorem normalizeAt_error (hpath : m.paths[col]? = some path) {e : Fault}
    (hsh : columnShape (m.bindAt col path).rows col = .error e) :
    normalizeAt (n + 1) col m st = .error e := by
  unfold Matrix.bindAt at hsh
  rw [normalizeAt, hpath]
  simp only [hsh]
  rfl

theorem normalizeAt_next (hpath : m.paths[col]? = some path)
    (hsh : columnShape (m.bindAt col path).rows col = .ok none) :
    normalizeAt (n + 1) col m st = normalizeAt n (col + 1) (m.bindAt col path) st := by
  unfold Matrix.bindAt at hsh ⊢
  rw [normalizeAt, hpath]
  simp only [hsh]
  rfl

theorem normalizeAt_expand (hpath : m.paths[col]? = some path) {sh : Shape}
    (hsh : columnShape (m.bindAt col path).rows col = .ok (some sh)) :
    normalizeAt (n + 1) col m st =
      normalizeAt n col ((m.bindAt col path).expand col path sh)
        { st with shapes := LabelMap.set st.shapes path.render sh } := by
  unfold Matrix.bindAt at hsh ⊢
  rw [normalizeAt, hpath]
  simp only [hsh]
  rfl

end Steps

/-- Bounded by what is pending, normalization computes the normal form and notes what it expands. -/
theorem normalizeAt_expands {n : Nat} {m' : Matrix α} {st st' : State} (hm : m.Rect)
    (hn : m.pending col ≤ n) (h : normalizeAt n col m st = .ok (m', st')) :
    ∃ opened, Expands col m opened m' ∧
      st' = { st with shapes := opened.foldl Finding.note st.shapes } := by
  induction n generalizing col m st with
  | zero =>
    cases h
    refine ⟨[], .done (List.getElem?_eq_none_iff.mpr ?_), rfl⟩
    unfold Matrix.pending at hn
    omega
  | succ n ih =>
    cases hpath : m.paths[col]? with
    | none =>
      rw [normalizeAt_done n st hpath] at h
      cases h
      exact ⟨[], .done hpath, rfl⟩
    | some path =>
      have hbound := hm.bindAt hpath
      have hpending := pending_bindAt hm hpath
      cases hsh : columnShape (m.bindAt col path).rows col with
      | error e =>
        rw [normalizeAt_error n st hpath hsh] at h
        cases h
      | ok sh =>
        cases sh with
        | none =>
          rw [normalizeAt_next n st hpath hsh] at h
          have hlt := pending_succ hbound hpath
          obtain ⟨opened, hexpands, hst⟩ := ih hbound (by omega) h
          exact ⟨opened, .next hpath hsh hexpands, hst⟩
        | some sh =>
          rw [normalizeAt_expand n st hpath hsh] at h
          have hlt := pending_expand hbound hpath hsh
          obtain ⟨opened, hexpands, hst⟩ := ih (hbound.expand hpath hsh) (by omega) h
          exact ⟨.opened path sh :: opened, .expand hpath hsh hexpands, hst⟩

/-! ## Compilation -/

/-- Rows of a matrix together with the tests in them. -/
def Matrix.weight (m : Matrix α) : Nat :=
  (m.rows.map fun r => (r.patterns.map Pattern.tests).sum + 1).sum

theorem weight_bindAt (hm : m.Rect) (hpath : m.paths[col]? = some path) :
    (m.bindAt col path).weight = m.weight := by
  unfold Matrix.weight Matrix.bindAt
  rw [List.map_map]
  refine congrArg List.sum (List.map_congr_left ?_)
  intro r hr
  obtain ⟨ps, qs, hpatterns, hlen, -⟩ := hm.row hpath hr
  rw [Function.comp_apply, Row.bind_patterns hpatterns hlen, hpatterns]
  simp only [List.map_append, List.map_cons, List.sum_append, List.sum_cons, strip_tests]

theorem sum_filterMap {β γ : Type} (f : β → Option γ) (w : γ → Nat) (xs : List β) :
    ((xs.filterMap f).map w).sum = (xs.map fun x => (f x).elim 0 w).sum := by
  induction xs with
  | nil => rfl
  | cons x xs ih => cases hf : f x <;> simp [hf, ih]

section Replace

variable {m : Matrix α} {col : Nat} {path : Path} {steps : List Step}
  {q : Pattern α → Option (List (Pattern α))} {r : Row α}

section Replaced

variable (hm : m.Rect) (hpath : m.paths[col]? = some path)
include hm hpath

/-- The weight that a row contributes after its column was replaced. -/
theorem weight_splice (hr : r ∈ m.rows) (qs : List (Pattern α)) :
    (((r.splice col qs).patterns.map Pattern.tests).sum + 1) + (r.pat col).tests =
      ((r.patterns.map Pattern.tests).sum + 1) + (qs.map Pattern.tests).sum := by
  obtain ⟨ps, ps', hpatterns, hlen, -⟩ := hm.row hpath hr
  have hsplice : (r.splice col qs).patterns = ps ++ qs ++ ps' := by
    rw [Row.splice, hpatterns, splice_append _ _ _ _ hlen]
  have hsum := congrArg (fun ps => (ps.map Pattern.tests).sum) hpatterns
  simp only [List.map_append, List.sum_append, List.map_cons, List.sum_cons] at hsum
  rw [hsplice]
  simp only [List.map_append, List.sum_append]
  omega

/-- A row that is dropped, or that uses up `n` tests, contributes that much less. -/
theorem weight_replaced (hr : r ∈ m.rows) {n : Nat} (hn : n ≤ 1)
    (hq : ∀ qs, q (r.pat col) = some qs → (qs.map Pattern.tests).sum + n ≤ (r.pat col).tests) :
    (((q (r.pat col)).map (r.splice col)).elim 0
        fun r => (r.patterns.map Pattern.tests).sum + 1) + n ≤
      (r.patterns.map Pattern.tests).sum + 1 := by
  cases hqs : q (r.pat col) with
  | none =>
    simp only [Option.map_none, Option.elim_none]
    omega
  | some qs =>
    have hrow := weight_splice hm hpath hr qs
    have hle := hq qs hqs
    simp only [Option.map_some, Option.elim_some]
    omega

theorem weight_replace_le (hq : ∀ p qs, q p = some qs → (qs.map Pattern.tests).sum ≤ p.tests) :
    (m.replace col path steps q).weight ≤ m.weight := by
  unfold Matrix.weight Matrix.replace
  rw [sum_filterMap]
  refine List.sum_le_sum ?_
  intro r hr
  exact weight_replaced hm hpath hr (Nat.zero_le 1) (hq _)

/-- A step that uses up a test, or drops a row, lowers the weight. -/
theorem weight_replace_lt (hq : ∀ p qs, q p = some qs → (qs.map Pattern.tests).sum ≤ p.tests)
    (hr : r ∈ m.rows)
    (hlt : ∀ qs, q (r.pat col) = some qs → (qs.map Pattern.tests).sum < (r.pat col).tests) :
    (m.replace col path steps q).weight < m.weight := by
  unfold Matrix.weight Matrix.replace
  rw [sum_filterMap]
  refine List.sum_lt_sum _ _ ?_ ⟨r, hr, weight_replaced hm hpath hr (Nat.le_refl 1) hlt⟩
  intro r' hr'
  exact weight_replaced hm hpath hr' (Nat.zero_le 1) (hq _)

end Replaced

end Replace

theorem tests_wilds (n : Nat) : ((wilds n : List (Pattern α)).map Pattern.tests).sum = 0 := by
  simp [wilds, Pattern.tests, Pattern.weigh]

theorem tests_specialized_lt {tag : Tag} {p : Pattern α} (htag : headTag p = some tag)
    (qs : List (Pattern α)) (h : specialized tag p = some qs) :
    (qs.map Pattern.tests).sum < p.tests := by
  rw [specialized, if_pos (Or.inr htag)] at h
  cases h
  cases p with
  | literal note l => simp [carried, wilds, Pattern.tests, Pattern.weigh]
  | con note c arg =>
    cases arg with
    | none => simp [carried, wilds, Pattern.tests, Pattern.weigh]
    | some p => cases hc : tag.hasArg <;> simp [carried, hc, Pattern.tests, Pattern.weigh]
  | _ => simp [headTag] at htag

theorem tests_specialized (tag : Tag) (p : Pattern α) (qs : List (Pattern α))
    (h : specialized tag p = some qs) : (qs.map Pattern.tests).sum ≤ p.tests := by
  by_cases htag : headTag p = some tag
  · exact Nat.le_of_lt (tests_specialized_lt htag qs h)
  · unfold specialized at h
    split at h
    · rename_i hcases
      have hwild : p.isWild = true := hcases.resolve_right htag
      cases h
      cases p <;> simp [Pattern.isWild] at hwild <;> simp [carried, tests_wilds]
    · cases h

theorem tests_unspecialized (p : Pattern α) (qs : List (Pattern α))
    (h : unspecialized p = some qs) : (qs.map Pattern.tests).sum ≤ p.tests := by
  unfold unspecialized at h
  split at h
  · cases h
    simp
  · cases h

/-- Normalization does not raise the weight. -/
theorem Normalizes.weight_le {m' : Matrix α} (h : Normalizes col m m') (hm : m.Rect) :
    m'.weight ≤ m.weight := by
  obtain ⟨opened, h⟩ := h
  induction h with
  | done => exact Nat.le_refl _
  | next hpath _ _ ih =>
    rw [← weight_bindAt hm hpath]
    exact ih (hm.bindAt hpath)
  | @expand col path sh opened m m' hpath hsh _ ih =>
    have hbound := hm.bindAt hpath
    obtain ⟨-, -, hdistinct⟩ := columnShape_shaped hsh
    calc m'.weight
        ≤ ((m.bindAt col path).expand col path sh).weight := ih (hbound.expand hpath hsh)
      _ ≤ (m.bindAt col path).weight := by
        rw [Matrix.expand_eq]
        refine weight_replace_le hbound hpath ?_
        intro p qs hqs
        cases hqs
        exact tests_components hdistinct p
      _ = m.weight := weight_bindAt hm hpath

end Match

end Typecase
