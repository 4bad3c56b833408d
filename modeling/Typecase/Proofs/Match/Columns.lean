import Mathlib
import Typecase.Proofs.Match.Compiled
import Typecase.Proofs.Match.Paths
set_option autoImplicit false

/-!
# Columns that stand apart

The columns of a matrix belong to parts of the scrutinee that do not lie within one
another, and every step on the matrix replaces a column by columns below it.  As long as
no label and no constructor name holds a dot, this shows in the texts of the paths too:
no text of a column continues the text of another one, and the text of a column that was
replaced is not continued by any path below the columns that are left.
-/

namespace Typecase

/-! ## Patterns without dots -/

namespace Pattern

variable {α : Type}

mutual

/-- The labels and constructor names of a pattern. -/
def marks : Pattern α → List String
  | .wildcard _ => []
  | .var _ _ => []
  | .literal _ _ => []
  | .con _ c none => [c.name]
  | .con _ c (some p) => c.name :: marks p
  | .tuple _ ps => marksAll ps
  | .record _ fs _ => marksFields fs
  | .layered _ _ p => marks p
  | .omitted => []

/-- The labels and constructor names of a list of patterns. -/
def marksAll : List (Pattern α) → List String
  | [] => []
  | p :: ps => marks p ++ marksAll ps

/-- The labels and constructor names of the fields of a record pattern. -/
def marksFields : List (String × Pattern α) → List String
  | [] => []
  | (l, p) :: fs => l :: (marks p ++ marksFields fs)

end

/-- No label and no constructor name of a pattern holds a dot. -/
def Dotless (p : Pattern α) : Prop := ∀ text ∈ p.marks, IsDotless text

instance (p : Pattern α) : Decidable p.Dotless := inferInstanceAs (Decidable (∀ _ ∈ _, _))

theorem dotless_of_mem_marksAll {ps : List (Pattern α)} (h : ∀ text ∈ marksAll ps, IsDotless text)
    {p : Pattern α} (hp : p ∈ ps) : p.Dotless := by
  induction ps with
  | nil => cases hp
  | cons q ps ih =>
    intro text htext
    rcases List.mem_cons.mp hp with rfl | hp
    · exact h text (List.mem_append_left _ htext)
    · exact ih (fun text htext => h text (List.mem_append_right _ htext)) hp text htext

theorem dotless_of_mem_marksFields {fs : List (String × Pattern α)}
    (h : ∀ text ∈ marksFields fs, IsDotless text) {l : String} {p : Pattern α} (hp : (l, p) ∈ fs) :
    IsDotless l ∧ p.Dotless := by
  induction fs with
  | nil => cases hp
  | cons f fs ih =>
    obtain ⟨k, q⟩ := f
    rcases List.mem_cons.mp hp with heq | hp
    · cases heq
      exact ⟨h l (by simp [marksFields]), fun text htext => h text (by simp [marksFields, htext])⟩
    · exact ih (fun text htext => h text (by simp [marksFields, htext])) hp

theorem dotless_omitted : (.omitted : Pattern α).Dotless := by
  intro text htext
  cases htext

end Pattern

namespace Match

variable {α : Type} {p : Pattern α} {m : Matrix α}

theorem dotless_wilds {n : Nat} (hp : p ∈ (wilds n : List (Pattern α))) : p.Dotless := by
  rw [List.eq_of_mem_replicate hp]
  exact Pattern.dotless_omitted

theorem dotless_strip (path : Path) (hp : p.Dotless) : (Row.strip path p).2.Dotless := by
  fun_induction Row.strip path p with
  | case1 => exact Pattern.dotless_omitted
  | case2 note x p bindings q heq ih =>
    rw [heq] at ih
    exact ih hp
  | case3 => exact hp

theorem dotless_components {sh : Shape} (hp : p.Dotless) {q : Pattern α}
    (hq : q ∈ components sh p) : q.Dotless := by
  cases sh with
  | tuple n =>
    cases p with
    | tuple note ps => exact Pattern.dotless_of_mem_marksAll hp hq
    | _ => exact dotless_wilds hq
  | record ls =>
    cases p with
    | record note fs flexible =>
      obtain ⟨l, -, rfl⟩ := List.mem_map.mp hq
      cases hlookup : fs.reverse.lookup l with
      | none => exact Pattern.dotless_omitted
      | some q =>
        have hmem : (l, q) ∈ fs := List.mem_reverse.mp (LabelMap.mem_of_lookup hlookup)
        exact (Pattern.dotless_of_mem_marksFields hp hmem).2
    | _ => exact dotless_wilds hq

theorem dotless_carried {tag : Tag} (hp : p.Dotless) {q : Pattern α} (hq : q ∈ carried tag p) :
    q.Dotless := by
  cases p with
  | con note c arg =>
    cases arg with
    | none => exact dotless_wilds hq
    | some p =>
      simp only [carried] at hq
      split at hq
      · rw [List.mem_singleton.mp hq]
        exact fun text htext => hp text (List.mem_cons_of_mem c.name htext)
      · cases hq
  | _ => exact dotless_wilds hq

theorem dotless_tag (hp : p.Dotless) {tag : Tag} (htag : headTag p = some tag) {step : Step}
    (hstep : step ∈ tag.steps) : IsDotless step.text := by
  cases p with
  | literal note l =>
    cases htag
    cases hstep
  | con note c arg =>
    cases htag
    simp only [Tag.steps] at hstep
    split at hstep
    · rw [List.mem_singleton.mp hstep]
      exact hp c.name (by cases arg <;> simp [Pattern.marks])
    · cases hstep
  | _ => simp [headTag] at htag

theorem Joins.dotless {sh sh' : Option Shape} (h : Joins sh p sh')
    (hsh : ∀ l ∈ labels sh, IsDotless l) (hp : p.Dotless) : ∀ l ∈ labels sh', IsDotless l := by
  cases h with
  | tuple => exact nofun
  | record =>
    intro l hl
    rcases List.mem_append.mp (List.mem_eraseDups.mp hl) with hl | hl
    · exact hsh l hl
    · obtain ⟨⟨k, q⟩, hmem, rfl⟩ := List.mem_map.mp hl
      exact (Pattern.dotless_of_mem_marksFields hp hmem).1
  | flat => exact hsh

/-- The shape of a column has only labels of its patterns. -/
theorem dotless_columnShape {rows : List (Row α)} {col : Nat} {sh : Shape}
    (hrows : ∀ r ∈ rows, (r.pat col).Dotless) (h : columnShape rows col = .ok (some sh)) :
    ∀ step ∈ Shape.steps sh, IsDotless step.text := by
  have hlabels : ∀ l ∈ labels (some sh), IsDotless l := by
    revert hrows
    refine columnShape_induction (fun _ => nofun) ?_ h
    intro rows r sh sh' hjoins ih hrows
    rw [List.forall_mem_append, List.forall_mem_singleton] at hrows
    exact hjoins.dotless (ih hrows.1) hrows.2
  intro step hstep
  cases sh with
  | tuple n =>
    obtain ⟨i, -, rfl⟩ := List.mem_map.mp hstep
    exact isDotless_toString i
  | record ls =>
    obtain ⟨l, hl, rfl⟩ := List.mem_map.mp hstep
    exact hlabels l hl

/-! ## Paths that stand apart -/

/-- Neither of two paths continues the other, as far as their texts go. -/
def Apart (p q : Path) : Prop := ¬ p.texts <+: q.texts ∧ ¬ q.texts <+: p.texts

theorem Apart.symm {p q : Path} (h : Apart p q) : Apart q p := ⟨h.2, h.1⟩

theorem prefix_snoc (p : Path) (step : Step) : Path.texts p <+: Path.texts (p ++ [step]) := by
  rw [Path.texts_append]
  exact List.prefix_append _ _

theorem not_snoc_prefix (p : Path) (step : Step) : ¬ Path.texts (p ++ [step]) <+: Path.texts p := by
  intro h
  have hlen := h.length_le
  simp [Path.texts] at hlen

theorem Apart.snoc {p q : Path} (h : Apart p q) (step : Step) : Apart (p ++ [step]) q := by
  constructor
  · exact fun hprefix => h.1 ((prefix_snoc p step).trans hprefix)
  · intro hprefix
    have htexts : Path.texts (p ++ [step]) = Path.texts p ++ [step.text] := by simp [Path.texts]
    rw [htexts, List.prefix_concat_iff] at hprefix
    rcases hprefix with heq | hprefix
    · exact h.1 (heq ▸ List.prefix_append _ _)
    · exact h.2 hprefix

theorem apart_siblings {step step' : Step} (h : step.text ≠ step'.text) (p : Path) :
    Apart (p ++ [step]) (p ++ [step']) := by
  have hne : ∀ {s s' : Step}, s.text ≠ s'.text →
      ¬ Path.texts (p ++ [s]) <+: Path.texts (p ++ [s']) := by
    intro s s' hs hprefix
    have heq := hprefix.eq_of_length (by simp [Path.texts])
    simp only [Path.texts, List.map_append, List.map_cons, List.map_nil,
      List.append_cancel_left_eq, List.cons.injEq, and_true] at heq
    exact hs heq
  exact ⟨hne h, hne (Ne.symm h)⟩

/-- A path lies below one of the given paths, or is one of them. -/
def Below (paths : List Path) (p : Path) : Prop := ∃ c ∈ paths, c.texts <+: p.texts

/-- A path without dots that does not lie below any of the given paths. -/
def Outside (paths : List Path) (p : Path) : Prop := p.Dotless ∧ ¬ Below paths p

theorem below_of_mem {paths : List Path} {p : Path} (h : p ∈ paths) : Below paths p :=
  ⟨p, h, List.prefix_rfl⟩

/-- A matrix whose columns stand apart, without any dots. -/
structure Clear (m : Matrix α) : Prop where
  rect : m.Rect
  apart : m.paths.Pairwise Apart
  paths : ∀ p ∈ m.paths, p.Dotless
  rows : ∀ r ∈ m.rows, ∀ p ∈ r.patterns, p.Dotless

theorem Clear.pat (hm : Clear m) (col : Nat) {r : Row α} (hr : r ∈ m.rows) :
    (r.pat col).Dotless := by
  by_cases hcol : col < r.patterns.length
  · have hpat : r.pat col = r.patterns[col] := by simp [Row.pat, hcol]
    rw [hpat]
    exact hm.rows r hr _ (List.getElem_mem hcol)
  · have hpat : r.pat col = .omitted := by simp [Row.pat, Nat.le_of_not_lt hcol]
    rw [hpat]
    exact Pattern.dotless_omitted

theorem Clear.bindAt (hm : Clear m) {col : Nat} {path : Path} (hpath : m.paths[col]? = some path) :
    Clear (m.bindAt col path) := by
  refine ⟨hm.rect.bindAt hpath, hm.apart, hm.paths, ?_⟩
  intro r' hr' p hp
  obtain ⟨r, hr, rfl⟩ := List.mem_map.mp hr'
  obtain ⟨ps, qs, hpatterns, hlen, -⟩ := hm.rect.row hpath hr
  have hrow := hm.rows r hr
  rw [hpatterns] at hrow
  rw [Row.bind_patterns hpatterns hlen, List.mem_append, List.mem_cons] at hp
  rcases hp with hp | rfl | hp
  · exact hrow p (by simp [hp])
  · exact dotless_strip path (hm.pat col hr)
  · exact hrow p (by simp [hp])

theorem Clear.rest (hm : Clear m) {first : Row α} {rest : List (Row α)}
    (hrows : m.rows = first :: rest) : Clear ({ m with rows := rest } : Matrix α) where
  rect r hr := hm.rect r (hrows ▸ List.mem_cons_of_mem first hr)
  apart := hm.apart
  paths := hm.paths
  rows r hr := hm.rows r (hrows ▸ List.mem_cons_of_mem first hr)

/-! ## Replacing a column -/

section Replace

variable {m : Matrix α} {col : Nat} {path : Path} {steps : List Step}
  {q : Pattern α → Option (List (Pattern α))}

theorem Matrix.replace_paths (hpath : m.paths[col]? = some path) (steps : List Step)
    (q : Pattern α → Option (List (Pattern α))) :
    ∃ before after, m.paths = before ++ path :: after ∧
      (m.replace col path steps q).paths =
        before ++ (steps.map fun step => path ++ [step]) ++ after := by
  obtain ⟨hcol, hget⟩ := List.getElem?_eq_some_iff.mp hpath
  refine ⟨m.paths.take col, m.paths.drop (col + 1), ?_, rfl⟩
  rw [← hget]
  simp

/-- A column that replaces another one lies below it. -/
theorem mem_replace_paths (hpath : m.paths[col]? = some path) {p : Path}
    (hp : p ∈ (m.replace col path steps q).paths) :
    p ∈ m.paths ∨ ∃ step ∈ steps, p = path ++ [step] := by
  obtain ⟨before, after, hpaths, hreplace⟩ := Matrix.replace_paths hpath steps q
  rw [hreplace, List.mem_append, List.mem_append, List.mem_map] at hp
  rcases hp with (hp | ⟨step, hstep, rfl⟩) | hp
  · exact Or.inl (by simp [hpaths, hp])
  · exact Or.inr ⟨step, hstep, rfl⟩
  · exact Or.inl (by simp [hpaths, hp])

theorem below_replace (hpath : m.paths[col]? = some path) {p : Path}
    (h : Below (m.replace col path steps q).paths p) : Below m.paths p := by
  obtain ⟨c, hc, hprefix⟩ := h
  rcases mem_replace_paths hpath hc with hc | ⟨step, -, rfl⟩
  · exact ⟨c, hc, hprefix⟩
  · exact ⟨path, List.mem_of_getElem? hpath, (prefix_snoc path step).trans hprefix⟩

theorem apart_replace (happart : m.paths.Pairwise Apart) (hpath : m.paths[col]? = some path)
    (hnodup : (steps.map Step.text).Nodup) : (m.replace col path steps q).paths.Pairwise Apart := by
  obtain ⟨before, after, hpaths, hreplace⟩ := Matrix.replace_paths hpath steps q
  rw [hpaths, List.pairwise_append, List.pairwise_cons] at happart
  obtain ⟨hbefore, ⟨hpathafter, hafter⟩, hacross⟩ := happart
  have hnew : (steps.map fun step => path ++ [step]).Pairwise Apart := by
    rw [List.pairwise_map]
    exact (List.pairwise_map.mp hnodup).imp fun hne => apart_siblings hne path
  rw [hreplace, List.pairwise_append, List.pairwise_append]
  refine ⟨⟨hbefore, hnew, ?_⟩, hafter, ?_⟩
  · intro p hp p' hp'
    obtain ⟨step, -, rfl⟩ := List.mem_map.mp hp'
    exact ((hacross p hp path List.mem_cons_self).symm.snoc step).symm
  · intro p hp p' hp'
    rcases List.mem_append.mp hp with hp | hp
    · exact hacross p hp p' (List.mem_cons_of_mem path hp')
    · obtain ⟨step, -, rfl⟩ := List.mem_map.mp hp
      exact (hpathafter p' hp').snoc step

/-- A column that was replaced does not lie below the columns that are left. -/
theorem not_below_replace (happart : m.paths.Pairwise Apart) (hpath : m.paths[col]? = some path) :
    ¬ Below (m.replace col path steps q).paths path := by
  rintro ⟨c, hc, hprefix⟩
  obtain ⟨before, after, hpaths, hreplace⟩ := Matrix.replace_paths hpath steps q
  rw [hpaths, List.pairwise_append, List.pairwise_cons] at happart
  obtain ⟨-, ⟨hpathafter, -⟩, hacross⟩ := happart
  rw [hreplace, List.mem_append, List.mem_append, List.mem_map] at hc
  rcases hc with (hc | ⟨step, -, rfl⟩) | hc
  · exact (hacross c hc path List.mem_cons_self).1 hprefix
  · exact not_snoc_prefix path step hprefix
  · exact (hpathafter c hc).2 hprefix

theorem mem_splice_patterns (hm : m.Rect) (hpath : m.paths[col]? = some path) {r : Row α}
    (hr : r ∈ m.rows) {qs : List (Pattern α)} {p : Pattern α}
    (hp : p ∈ (r.splice col qs).patterns) : p ∈ r.patterns ∨ p ∈ qs := by
  obtain ⟨ps, ps', hpatterns, hpslen, -⟩ := hm.row hpath hr
  rw [Row.splice, hpatterns, splice_append _ _ _ _ hpslen, List.mem_append, List.mem_append] at hp
  rw [hpatterns]
  rcases hp with (hp | hp) | hp
  · exact .inl (by simp [hp])
  · exact .inr hp
  · exact .inl (by simp [hp])

theorem Clear.replace (hm : Clear m) (hpath : m.paths[col]? = some path)
    (hnodup : (steps.map Step.text).Nodup) (hsteps : ∀ step ∈ steps, IsDotless step.text)
    (hlen : ∀ r ∈ m.rows, ∀ qs, q (r.pat col) = some qs → qs.length = steps.length)
    (hq : ∀ p qs, p.Dotless → q p = some qs → ∀ p' ∈ qs, p'.Dotless) :
    Clear (m.replace col path steps q) := by
  have hmem := List.mem_of_getElem? hpath
  refine ⟨hm.rect.replace hpath hlen, apart_replace hm.apart hpath hnodup, ?_, ?_⟩
  · intro p hp
    rcases mem_replace_paths hpath hp with hp | ⟨step, hstep, rfl⟩
    · exact hm.paths p hp
    · exact (hm.paths path hmem).append (Path.dotless_singleton.mpr (hsteps step hstep))
  · intro r' hr' p hp
    obtain ⟨r, hr, heq⟩ := List.mem_filterMap.mp hr'
    obtain ⟨qs, hqs, rfl⟩ := Option.map_eq_some_iff.mp heq
    rcases mem_splice_patterns hm.rect hpath hr hp with hp | hp
    · exact hm.rows r hr p hp
    · exact hq _ qs (hm.pat col hr) hqs p hp

theorem Clear.outside_replace (hm : Clear m) (hpath : m.paths[col]? = some path) :
    Outside (m.replace col path steps q).paths path :=
  ⟨hm.paths path (List.mem_of_getElem? hpath), not_below_replace hm.apart hpath⟩

end Replace

/-! ## The steps of the compiler -/

section Steps

variable {m : Matrix α} {col : Nat} {path : Path} {tags : List Tag} {tag : Tag}

theorem nodup_steps {sh : Shape} (hsh : (labels (some sh)).Nodup) :
    ((Shape.steps sh).map Step.text).Nodup := by
  cases sh with
  | tuple n =>
    rw [Shape.steps, List.map_map]
    exact List.nodup_range.map fun i j h => Nat.repr_inj.mp h
  | record ls =>
    rw [Shape.steps, List.map_map]
    exact List.Nodup.map (f := Step.text ∘ Step.field) (fun _ _ h => h) hsh

theorem Clear.expand (hm : Clear m) (hpath : m.paths[col]? = some path) {sh : Shape}
    (hsh : columnShape m.rows col = .ok (some sh)) : Clear (m.expand col path sh) := by
  obtain ⟨hshaped, -, hdistinct⟩ := columnShape_shaped hsh
  rw [Matrix.expand_eq]
  apply hm.replace hpath (nodup_steps hdistinct)
  · exact dotless_columnShape (fun r hr => hm.pat col hr) hsh
  · intro r hr qs hqs
    cases hqs
    exact (hshaped r hr).2
  · intro p qs hp hqs p' hp'
    cases hqs
    exact dotless_components hp hp'

theorem Branches.clear_specialize (h : Branches m col path tags) (hm : Clear m)
    (htag : tag ∈ tags) : Clear (m.specialize col path tag) := by
  obtain ⟨r, hr, hhead⟩ := (mem_columnTags h.tags).mp htag
  rw [Matrix.specialize_eq]
  apply hm.replace h.path
  · cases tag with
    | con c => cases hc : c.hasArg <;> simp [Tag.steps, hc]
    | literal l => simp [Tag.steps]
  · exact fun step hstep => dotless_tag (hm.pat col hr) hhead hstep
  · intro r' _ qs hqs
    unfold specialized at hqs
    split at hqs
    · cases hqs
      exact length_carried tag _
    · cases hqs
  · intro p qs hp hqs p' hp'
    unfold specialized at hqs
    split at hqs
    · cases hqs
      exact dotless_carried hp hp'
    · cases hqs

theorem Branches.clear_default (h : Branches m col path tags) (hm : Clear m) :
    Clear (m.default col) := by
  rw [Matrix.default_eq m col path]
  have hnil : ∀ (p : Pattern α) qs, unspecialized p = some qs → qs = [] := by
    intro p qs hqs
    unfold unspecialized at hqs
    split at hqs <;> simp_all
  apply hm.replace h.path
  · simp
  · simp
  · intro r _ qs hqs
    exact congrArg List.length (hnil _ qs hqs)
  · intro p qs _ hqs p' hp'
    rw [hnil p qs hqs] at hp'
    cases hp'

end Steps

end Match

end Typecase
