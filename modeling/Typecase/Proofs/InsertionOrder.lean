import Typecase.Proofs.LabelMap
import Mathlib.Data.Finset.Card
set_option autoImplicit false

/-!
# The order of a built map

A builder keeps the present labels and the insertions apart.  After any updates the present
labels are those whose last update gave a value, and the insertions are the updates that made
an absent label present.  The built map visits every insertion of a present label, so a label
that was taken away and given a value again is visited twice.
-/

namespace Typecase.LabelMap

variable {α : Type}

/-- A change to a builder. -/
inductive Update (α : Type) where
  | set (label : String) (a : α)
  | erase (label : String)

namespace Update

/-- The label it changes. -/
def label : Update α → String
  | set l _ => l
  | erase l => l

/-- What it leaves at its label. -/
def value : Update α → Option α
  | set _ a => some a
  | erase _ => none

/-- What is at a label after the updates if `v` was there before: the last update of the label
decides. -/
def lastValue (v : Option α) (us : List (Update α)) (l : String) : Option α :=
  (us.filter (·.label == l)).getLast?.elim v value

/-- The labels that an update made present, in the order of these updates. -/
def inserted (present : String → Bool) : List (Update α) → List String
  | [] => []
  | set l _ :: us =>
    (if present l then [] else [l]) ++ inserted (fun k => k == l || present k) us
  | erase l :: us => inserted (fun k => k != l && present k) us

theorem lastValue_cons (v : Option α) (u : Update α) (us : List (Update α)) (l : String) :
    lastValue v (u :: us) l = lastValue (if l = u.label then u.value else v) us l := by
  unfold lastValue
  by_cases h : u.label = l
  · rw [List.filter_cons_of_pos (by simpa using h), List.getLast?_cons, if_pos h.symm]
    cases (us.filter (·.label == l)).getLast? <;> rfl
  · rw [List.filter_cons_of_neg (by simpa using h), if_neg (Ne.symm h)]

end Update

open Update

namespace Builder

variable {b : Builder α}

/-- Make one change. -/
def apply (b : Builder α) : Update α → Builder α
  | .set l a => b.set l a
  | .erase l => b.erase l

theorem lookup_apply (b : Builder α) (u : Update α) (l : String) :
    (b.apply u).present.lookup l = if l = u.label then u.value else b.present.lookup l := by
  cases u with
  | set k a => exact lookup_set b.present k l a
  | erase k => exact lookup_erase b.present k l

theorem lookup_foldl (us : List (Update α)) (b : Builder α) (l : String) :
    (us.foldl apply b).present.lookup l = lastValue (b.present.lookup l) us l := by
  induction us generalizing b with
  | nil => rfl
  | cons u us ih => rw [List.foldl_cons, ih, lookup_apply, lastValue_cons]

theorem insertions_foldl (us : List (Update α)) (b : Builder α) :
    (us.foldl apply b).insertions = b.insertions ++ inserted (has b.present) us := by
  induction us generalizing b with
  | nil => exact (List.append_nil _).symm
  | cons u us ih =>
    have hpresent : has (b.apply u).present = fun k =>
        (if k = u.label then u.value else b.present.lookup k).isSome := by
      funext k
      rw [has, LabelMap.find?, lookup_apply]
    rw [List.foldl_cons, ih, hpresent]
    cases u with
    | set l a =>
      have hsame : (fun k => (if k = l then some a else b.present.lookup k).isSome) =
          fun k => k == l || has b.present k := by
        funext k
        by_cases hk : k = l <;> simp [hk, has, LabelMap.find?]
      rw [inserted, ← List.append_assoc, ← hsame]
      congr 1
      show (if has b.present l then b.insertions else b.insertions ++ [l]) = _
      cases has b.present l <;> simp
    | erase l =>
      have hsame : (fun k => (if k = l then none else b.present.lookup k).isSome) =
          fun k => k != l && has b.present k := by
        funext k
        by_cases hk : k = l <;> simp [hk, has, LabelMap.find?]
      rw [inserted, ← hsame]
      rfl

/-- Every present label was inserted. -/
def Covered (b : Builder α) : Prop := ∀ l, (b.present.lookup l).isSome → l ∈ b.insertions

theorem Covered.apply (h : b.Covered) (u : Update α) : (b.apply u).Covered := by
  intro l hl
  rw [lookup_apply] at hl
  cases u with
  | set k a =>
    show l ∈ if has b.present k then b.insertions else b.insertions ++ [k]
    by_cases hk : l = k
    · subst hk
      cases hpresent : has b.present l with
      | true => exact h l hpresent
      | false => simp
    · have hold := h l (by simpa [Update.label, hk] using hl)
      split
      · exact hold
      · exact List.mem_append_left _ hold
  | erase k =>
    by_cases hk : l = k
    · simp [Update.label, Update.value, hk] at hl
    · exact h l (by simpa [Update.label, hk] using hl)

theorem Covered.foldl (h : b.Covered) (us : List (Update α)) :
    (us.foldl Builder.apply b).Covered := by
  induction us generalizing b with
  | nil => exact h
  | cons u us ih => exact ih (h.apply u)

theorem covered_ofMap (m : LabelMap α) : (ofMap m).Covered := by
  intro l hl
  obtain ⟨a, ha⟩ := Option.isSome_iff_exists.mp hl
  exact mem_labels_of_lookup ha

theorem labels_build (b : Builder α) :
    labels b.build = b.insertions.filter fun l => (b.present.lookup l).isSome := by
  unfold build labels
  induction b.insertions with
  | nil => rfl
  | cons l ls ih =>
    cases h : b.present.lookup l <;> simp [find?, LabelMap.find?, h] <;> exact ih

theorem mem_build {e : String × α} (h : e ∈ b.build) : b.present.lookup e.1 = some e.2 := by
  obtain ⟨l, -, hl⟩ := List.mem_filterMap.mp h
  obtain ⟨a, ha, rfl⟩ := Option.map_eq_some_iff.mp hl
  exact ha

/-- The built map finds what the builder finds. -/
theorem lookup_build (h : b.Covered) (l : String) : b.build.lookup l = b.present.lookup l := by
  cases hl : b.present.lookup l with
  | none =>
    rw [lookup_eq_none, ← labels, labels_build, List.mem_filter, hl]
    simp
  | some a =>
    have hmem : l ∈ labels b.build := by
      rw [labels_build, List.mem_filter, hl]
      exact ⟨h l (by rw [hl]; rfl), rfl⟩
    obtain ⟨c, hc⟩ := exists_lookup hmem
    rw [hc, ← mem_build (mem_of_lookup hc), ← hl]

theorem build_eq_present (hlabels : b.insertions = labels b.present)
    (hnodup : (labels b.present).Nodup) : b.build = b.present := by
  rw [build, hlabels, labels, List.filterMap_map]
  refine (List.filterMap_congr fun e he => ?_).trans List.filterMap_some
  rw [Function.comp_apply, find?, LabelMap.find?, lookup_of_mem hnodup he]
  rfl

theorem foldl_set (entries : List (String × α)) (hlabels : b.insertions = labels b.present) :
    ((entries.map fun e => Update.set e.1 e.2).foldl apply b).present = extend b.present entries ∧
      ((entries.map fun e => Update.set e.1 e.2).foldl apply b).insertions =
        labels (extend b.present entries) := by
  induction entries generalizing b with
  | nil => exact ⟨rfl, hlabels⟩
  | cons e entries ih =>
    refine ih (b := b.set e.1 e.2) ?_
    show (if has b.present e.1 then b.insertions else b.insertions ++ [e.1]) =
      labels (LabelMap.set b.present e.1 e.2)
    unfold LabelMap.set
    cases has b.present e.1 with
    | false => simp [labels, hlabels]
    | true =>
      rw [if_pos rfl, if_pos rfl, hlabels, labels, labels, List.map_map]
      refine List.map_congr_left fun f _ => ?_
      by_cases hf : f.1 = e.1 <;> simp [hf]

end Builder

theorem size_eq_card (m : LabelMap α) : size m = (labels m).toFinset.card := by
  rw [size, ← List.toFinset_card_of_nodup (nodup_eraseDups (labels m))]
  congr 1
  ext l
  simp

/-- Whatever the updates of a builder that starts from a map, the built map finds at each label
what its last update left there, visits the pairs of a label with what is found for it, and
counts the labels it finds.  It lists every insertion of a label that is present at the end, the
labels at the start counted as insertions, in their order; so it lists a present label as often
as the label was inserted.  Where no label is taken away, each label is listed once and the built
map is the map that setting the labels one after the other gives. -/
theorem build_foldl_apply (m : LabelMap α) (us : List (Update α)) :
    let start := ofList m
    let built := (us.foldl Builder.apply (Builder.ofMap m)).build
    let insertions := labels start ++ inserted (has start) us
    ((labels start).Nodup ∧ ((labels m).Nodup → start = m)) ∧
      (∀ l, find? built l = lastValue (find? start l) us l) ∧
      built.map some = (labels built).map (fun l => (find? built l).map fun a => (l, a)) ∧
      size built = (labels built).toFinset.card ∧
      labels built =
        insertions.filter (fun l => (lastValue (find? start l) us l).isSome) ∧
      (∀ l, has built l = true → (labels built).count l = insertions.count l) ∧
      ∀ entries, us = entries.map (fun e => .set e.1 e.2) →
        built = extend start entries ∧ (labels built).Nodup := by
  intro start built insertions
  have hstart : (labels start).Nodup := nodup_extend (m := []) List.nodup_nil m
  have hcovered := (Builder.covered_ofMap m).foldl us
  have hfind : ∀ l, find? built l = lastValue (find? start l) us l := fun l =>
    (Builder.lookup_build hcovered l).trans (Builder.lookup_foldl us _ l)
  have hlabels : labels built =
      insertions.filter fun l => (lastValue (find? start l) us l).isSome := by
    rw [Builder.labels_build, Builder.insertions_foldl]
    simp only [Builder.lookup_foldl]
    rfl
  refine ⟨⟨hstart, fun hm => ?_⟩, hfind, ?_, size_eq_card built, hlabels, fun l hl => ?_, ?_⟩
  · exact extend_eq_append (m := []) hm
  · rw [labels, List.map_map]
    refine List.map_congr_left fun e he => ?_
    have he' : built.lookup e.1 = some e.2 :=
      (Builder.lookup_build hcovered e.1).trans (Builder.mem_build he)
    rw [Function.comp_apply, find?, he']
    rfl
  · rw [hlabels]
    exact List.count_filter (by rwa [← hfind])
  · rintro entries rfl
    obtain ⟨hpresent, hinsertions⟩ := Builder.foldl_set (b := Builder.ofMap m) entries rfl
    have hnodup : (labels (extend start entries)).Nodup := nodup_extend hstart entries
    have hbuilt : built = extend start entries := by
      refine (Builder.build_eq_present (hinsertions.trans ?_) ?_).trans hpresent
      · rw [hpresent]
      · rw [hpresent]
        exact hnodup
    exact ⟨hbuilt, hbuilt ▸ hnodup⟩

/-- A label that is set, taken away and set again is listed twice. -/
theorem set_erase_set_listed_twice :
    let built := ([.set "a" 0, .erase "a", .set "a" 1].foldl Builder.apply (Builder.ofMap [])).build
    labels built = ["a", "a"] ∧ size built = 1 ∧ ¬ (labels built).Nodup := by
  decide

end Typecase.LabelMap
