import Typecase.LabelMap
import Mathlib.Data.List.Nodup
set_option autoImplicit false

/-!
# Laws of label maps

A label is found exactly if it is among the labels.  A map that lists no label twice is
determined by what is found in it, whatever the order of its entries.
-/

namespace Typecase

theorem nodup_eraseDups {α : Type} [BEq α] [LawfulBEq α] : (xs : List α) → xs.eraseDups.Nodup
  | [] => by simp
  | x :: xs => by
    rw [List.eraseDups_cons, List.nodup_cons, List.mem_eraseDups]
    exact ⟨by simp, nodup_eraseDups _⟩
  termination_by xs => xs.length
  decreasing_by exact Nat.lt_succ_of_le (List.length_filter_le _ _)

end Typecase

namespace Typecase.LabelMap

variable {α : Type} {m m' : LabelMap α} {l : String} {a : α}

theorem mem_of_lookup (h : m.lookup l = some a) : (l, a) ∈ m := by
  obtain ⟨before, after, rfl, -⟩ := List.lookup_eq_some_iff.mp h
  simp

theorem mem_labels_of_lookup (h : m.lookup l = some a) : l ∈ m.map (·.1) :=
  List.mem_map.mpr ⟨(l, a), mem_of_lookup h, rfl⟩

theorem exists_lookup (h : l ∈ m.map (·.1)) : ∃ a, m.lookup l = some a := by
  obtain ⟨e, he, rfl⟩ := List.mem_map.mp h
  exact Option.isSome_iff_exists.mp (List.lookup_isSome_iff.mpr ⟨e, he, by simp⟩)

theorem lookup_eq_none : m.lookup l = none ↔ l ∉ m.map (·.1) := by
  rw [List.lookup_eq_none_iff, List.mem_map]
  constructor
  · rintro h ⟨e, he, rfl⟩
    simpa using h e he
  · intro h e he
    simpa using fun heq => h ⟨e, he, heq.symm⟩

/-- Without repeated labels, every entry is found. -/
theorem has_eq_false : has m l = false ↔ m.lookup l = none := by
  simp [has, find?]

theorem lookup_of_mem (hm : (m.map (·.1)).Nodup) (h : (l, a) ∈ m) : m.lookup l = some a := by
  obtain ⟨b, hb⟩ := exists_lookup (List.mem_map.mpr ⟨(l, a), h, rfl⟩)
  have heq : (l, b) = (l, a) := List.inj_on_of_nodup_map hm (mem_of_lookup hb) h rfl
  rw [hb, (Prod.mk.inj heq).2]

/-- Without repeated labels, the order of the entries does not matter. -/
theorem lookup_reverse (hm : (m.map (·.1)).Nodup) (l : String) :
    m.reverse.lookup l = m.lookup l := by
  cases h : m.lookup l with
  | none =>
    rw [lookup_eq_none] at h ⊢
    simpa using h
  | some a =>
    have hrev : (m.reverse.map (·.1)).Nodup := by
      rw [List.map_reverse, List.nodup_reverse]
      exact hm
    exact lookup_of_mem hrev (List.mem_reverse.mpr (mem_of_lookup h))

theorem lookup_perm (hm : (m.map (·.1)).Nodup) (h : m.Perm m') (l : String) :
    m.lookup l = m'.lookup l := by
  have hm' : (m'.map (·.1)).Nodup := (h.map _).nodup_iff.mp hm
  cases hl : m'.lookup l with
  | none =>
    rw [lookup_eq_none] at hl ⊢
    exact fun hmem => hl ((h.map _).mem_iff.mp hmem)
  | some a => exact lookup_of_mem hm (h.mem_iff.mpr (mem_of_lookup hl))

theorem lookup_append_left (h : m.lookup l = some a) : (m ++ m').lookup l = some a := by
  rw [List.lookup_append, h, Option.some_or]

/-- Without repeated labels, later labels come last. -/
theorem extend_eq_append {later : LabelMap α} (h : ((m ++ later).map (·.1)).Nodup) :
    extend m later = m ++ later := by
  induction later generalizing m with
  | nil => simp [extend]
  | cons e later ih =>
    have hfresh : e.1 ∉ m.map (·.1) := by
      rw [List.map_append, List.nodup_append] at h
      intro hmem
      exact h.2.2 e.1 hmem e.1 (by simp) rfl
    have hset : set m e.1 e.2 = m ++ [e] := by
      rw [set, has, find?, lookup_eq_none.mpr hfresh]
      rfl
    have hrest : extend (m ++ [e]) later = m ++ [e] ++ later := ih (by simpa using h)
    rw [extend, List.foldl_cons, hset, ← extend, hrest]
    simp

theorem lookup_map {β : Type} (f : α → β) (m : LabelMap α) (l : String) :
    (m.map fun e => (e.1, f e.2)).lookup l = (m.lookup l).map f := by
  induction m with
  | nil => rfl
  | cons e m ih =>
    obtain ⟨k, a⟩ := e
    rw [List.map_cons, List.lookup_cons, List.lookup_cons]
    cases l == k <;> simp [ih]

theorem lookup_replace (m : LabelMap α) (l k : String) (a : α) :
    (m.map fun e => if e.1 == l then (l, a) else e).lookup k =
      if k = l then (m.lookup l).map fun _ => a else m.lookup k := by
  induction m with
  | nil => simp
  | cons e m ih =>
    obtain ⟨j, c⟩ := e
    rw [List.map_cons]
    by_cases hjl : j = l <;> by_cases hkl : k = l <;> grind

theorem lookup_set (m : LabelMap α) (l k : String) (a : α) :
    (set m l a).lookup k = if k = l then some a else m.lookup k := by
  unfold set has find?
  split
  case isTrue h =>
    obtain ⟨b, hb⟩ := Option.isSome_iff_exists.mp h
    rw [lookup_replace, hb]
    rfl
  case isFalse h =>
    have hnone : m.lookup l = none := Option.not_isSome_iff_eq_none.mp h
    by_cases hkl : k = l <;> grind

theorem mem_set {e : String × α} (h : e ∈ set m l a) : e ∈ m ∨ e = (l, a) := by
  unfold set at h
  split at h
  · obtain ⟨e', he', rfl⟩ := List.mem_map.mp h
    split
    · exact Or.inr rfl
    · exact Or.inl he'
  · exact (List.mem_append.mp h).imp_right List.mem_singleton.mp

/-- No label comes twice. -/
theorem nodup_set (hm : (m.map (·.1)).Nodup) (l : String) (a : α) :
    ((set m l a).map (·.1)).Nodup := by
  unfold set has find?
  split
  case isTrue =>
    have hlabels : (m.map fun e => if e.1 == l then (l, a) else e).map (·.1) = m.map (·.1) := by
      rw [List.map_map]
      refine List.map_congr_left fun e _ => ?_
      by_cases he : e.1 = l <;> simp [he]
    rw [hlabels]
    exact hm
  case isFalse h =>
    have hnone : l ∉ m.map (·.1) := lookup_eq_none.mp (Option.not_isSome_iff_eq_none.mp h)
    rw [List.map_append, List.nodup_append]
    refine ⟨hm, List.nodup_singleton l, ?_⟩
    rintro k hk _ hl rfl
    have hkl : k = l := List.mem_singleton.mp hl
    exact hnone (hkl ▸ hk)

theorem nodup_extend (hm : (m.map (·.1)).Nodup) (later : LabelMap α) :
    ((extend m later).map (·.1)).Nodup := by
  unfold extend
  induction later generalizing m with
  | nil => exact hm
  | cons e later ih => exact ih (nodup_set hm e.1 e.2)

theorem mem_extend {later : LabelMap α} {e : String × α} (h : e ∈ extend m later) :
    e ∈ m ∨ e ∈ later := by
  unfold extend at h
  induction later generalizing m with
  | nil => exact Or.inl h
  | cons f later ih =>
    rcases ih h with hset | hlater
    · rcases mem_set hset with hm | rfl
      · exact Or.inl hm
      · exact Or.inr List.mem_cons_self
    · exact Or.inr (List.mem_cons_of_mem f hlater)

/-- The label that was set last counts. -/
theorem lookup_extend (m later : LabelMap α) (k : String) :
    (extend m later).lookup k = (later.reverse.lookup k).or (m.lookup k) := by
  unfold extend
  induction later generalizing m with
  | nil => simp
  | cons e later ih =>
    obtain ⟨l, a⟩ := e
    rw [List.foldl_cons, ih, lookup_set, List.reverse_cons, List.lookup_append, Option.or_assoc]
    congr 1
    by_cases hk : k = l
    · simp [hk]
    · simp [List.lookup_cons, hk, beq_false_of_ne hk]

theorem lookup_erase (m : LabelMap α) (l k : String) :
    (erase m l).lookup k = if k = l then none else m.lookup k := by
  unfold erase
  induction m with
  | nil => simp
  | cons e m ih =>
    obtain ⟨j, c⟩ := e
    by_cases hjl : j = l <;> by_cases hkj : k = j <;> grind

theorem lookup_filter (m : LabelMap α) (p : String → Bool) (l : String) :
    (m.filter fun e => p e.1).lookup l = if p l then m.lookup l else none := by
  induction m with
  | nil => simp
  | cons e m ih =>
    obtain ⟨k, a⟩ := e
    by_cases hlk : l = k
    · subst hlk
      cases hp : p l with
      | true => simp [hp]
      | false => simpa [hp] using ih
    · have hne : (l == k) = false := by simpa using hlk
      cases hp : p k with
      | true | false => simpa [hp, List.lookup_cons, hne] using ih

theorem lookup_without (m other : LabelMap α) (l : String) :
    (without m other).lookup l = if has other l then none else m.lookup l := by
  rw [without, lookup_filter m (fun k => !has other k)]
  cases has other l <;> rfl

theorem has_append (m m' : LabelMap α) (l : String) :
    has (m ++ m' : LabelMap α) l = (has m l || has m' l) := by
  simp only [has, find?, List.lookup_append, Option.isSome_or]

theorem has_without (m other : LabelMap α) (l : String) :
    has (without m other) l = (has m l && !has other l) := by
  show ((without m other).lookup l).isSome = _
  rw [lookup_without]
  cases hother : has other l <;> simp [has, find?]

theorem without_eq_nil (h : has m = has m') : without m m' = [] := by
  refine List.filter_eq_nil_iff.mpr ?_
  intro e he
  have hlabel : has m e.1 = true := List.lookup_isSome_iff.mpr ⟨e, he, by simp⟩
  rw [← h, hlabel]
  simp

/-- What one map lacks is found behind it. -/
theorem lookup_append_without (m m' : LabelMap α) (l : String) :
    (m ++ without m' m).lookup l = (m.lookup l).or (m'.lookup l) := by
  rw [List.lookup_append, lookup_without, has, find?]
  cases m.lookup l <;> rfl

theorem nodup_append_without {other : LabelMap α} (hm : (m.map (·.1)).Nodup)
    (hm' : (m'.map (·.1)).Nodup) (hlabels : has m = has other) :
    ((m ++ without m' other).map (·.1)).Nodup := by
  rw [List.map_append, List.nodup_append]
  refine ⟨hm, hm'.sublist (List.filter_sublist.map _), ?_⟩
  rintro l hl _ hl' rfl
  obtain ⟨e, he, rfl⟩ := List.mem_map.mp hl'
  obtain ⟨a, ha⟩ := exists_lookup hl
  have hlack : has m e.1 = false := by
    rw [hlabels]
    simpa using (List.mem_filter.mp he).2
  rw [has, find?, ha] at hlack
  cases hlack

/-- The values that two maps give to their common labels. -/
def common (m m' : LabelMap α) : List (α × α) :=
  m.filterMap fun e => (find? m' e.1).map fun b => (e.2, b)

theorem mem_common {p : α × α} : p ∈ common m m' ↔ ∃ l, (l, p.1) ∈ m ∧ m'.lookup l = some p.2 := by
  rw [common, List.mem_filterMap]
  constructor
  · rintro ⟨⟨l, a⟩, hmem, hp⟩
    obtain ⟨b, hb, rfl⟩ := Option.map_eq_some_iff.mp hp
    exact ⟨l, hmem, hb⟩
  · rintro ⟨l, hmem, hlookup⟩
    exact ⟨(l, p.1), hmem, Option.map_eq_some_iff.mpr ⟨p.2, hlookup, rfl⟩⟩

end Typecase.LabelMap
