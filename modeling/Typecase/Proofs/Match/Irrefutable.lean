import Typecase.Proofs.Match.FirstMatch
set_option autoImplicit false

/-!
# Irrefutable patterns

A pattern can be judged by its form alone, and it can be compiled as the only clause of a match.
Both tell whether it matches every value: the compiler takes the pattern apart column by column,
and of a single row it never drops a part that could fail.
-/

namespace Typecase

variable {α : Type}

namespace Pattern

mutual

/-- Whether a pattern is well formed: nothing is left out, only constructors that carry a value
have an argument, and the labels of a record pattern are different. -/
def isFormed : Pattern α → Bool
  | .wildcard _ => true
  | .var _ _ => true
  | .literal _ _ => true
  | .con _ _ none => true
  | .con _ c (some p) => c.hasArg && isFormed p
  | .tuple _ ps => areFormed ps
  | .record _ fs _ => decide (fs.map (·.1)).Nodup && fieldsFormed fs
  | .layered _ _ p => isFormed p
  | .omitted => false

def areFormed : List (Pattern α) → Bool
  | [] => true
  | p :: ps => isFormed p && areFormed ps

def fieldsFormed : List (String × Pattern α) → Bool
  | [] => true
  | (_, p) :: fs => isFormed p && fieldsFormed fs

end

theorem areFormed_eq_all (ps : List (Pattern α)) : areFormed ps = ps.all isFormed := by
  induction ps with
  | nil => rfl
  | cons p ps ih => rw [areFormed, ih, List.all_cons]

theorem fieldsFormed_eq_all (fs : List (String × Pattern α)) :
    fieldsFormed fs = (fs.map (·.2)).all isFormed := by
  induction fs with
  | nil => rfl
  | cons f fs ih => rw [fieldsFormed, ih, List.map_cons, List.all_cons]

theorem areIrrefutable_eq_all (ps : List (Pattern α)) :
    areIrrefutable ps = ps.all isIrrefutable := by
  induction ps with
  | nil => rfl
  | cons p ps ih => rw [areIrrefutable, ih, List.all_cons]

theorem fieldsIrrefutable_eq_all (fs : List (String × Pattern α)) :
    fieldsIrrefutable fs = (fs.map (·.2)).all isIrrefutable := by
  induction fs with
  | nil => rfl
  | cons f fs ih => rw [fieldsIrrefutable, ih, List.map_cons, List.all_cons]

end Pattern

namespace Match

variable {p : Pattern α}

/-! ## Patterns of a row -/

/-- Patterns that stand in a matrix: the compiler leaves out those that are done with. -/
def Fine (p : Pattern α) : Prop := p = .omitted ∨ p.isFormed = true

/-- Whether a pattern of a matrix matches every value. -/
def isSure : Pattern α → Bool
  | .omitted => true
  | p => p.isIrrefutable

theorem isSure_of_isFormed (h : p.isFormed = true) : isSure p = p.isIrrefutable := by
  cases p with
  | omitted => simp [Pattern.isFormed] at h
  | _ => rfl

theorem isSure_of_isWild (h : p.isWild = true) : isSure p = true := by
  cases p with
  | wildcard _ => rfl
  | omitted => rfl
  | _ => simp [Pattern.isWild] at h

/-- The patterns `qs` for the parts of a value can replace `p`. -/
structure Replaces (qs : List (Pattern α)) (p : Pattern α) : Prop where
  fine : ∀ q ∈ qs, Fine q
  sure : qs.all isSure = isSure p

/-- Well formed patterns replace the pattern that is irrefutable if they all are. -/
theorem replaces_of_formed {qs : List (Pattern α)} (hqs : qs.all Pattern.isFormed = true)
    (hp : isSure p = qs.all Pattern.isIrrefutable) : Replaces qs p where
  fine := fun q hq => .inr (List.all_eq_true.mp hqs q hq)
  sure := by
    rw [hp, Bool.eq_iff_iff, List.all_eq_true, List.all_eq_true]
    refine forall₂_congr fun q hq => ?_
    rw [isSure_of_isFormed (List.all_eq_true.mp hqs q hq)]

theorem replaces_strip (path : Path) (hp : Fine p) : Replaces [(Row.strip path p).2] p := by
  rcases hp with rfl | hp
  · exact ⟨by simp [Row.strip, Fine], rfl⟩
  · fun_induction Row.strip path p with
    | case1 note x => exact ⟨by simp [Fine], rfl⟩
    | case2 note x p bindings p' hstrip ih =>
      have hp : p.isFormed = true := hp
      obtain ⟨hfine, hsure⟩ := ih hp
      rw [hstrip] at hfine hsure
      exact ⟨hfine, hsure.trans (isSure_of_isFormed hp)⟩
    | case3 p hvar hlayered => exact ⟨by simp [Fine, hp], by simp⟩

/-- The fields that a record pattern lists are found under their labels. -/
theorem lookup_labels {fs : List (String × Pattern α)} (h : (fs.map (·.1)).Nodup) :
    ((fs.map (·.1)).map fun l => (fs.reverse.lookup l).getD .omitted) = fs.map (·.2) := by
  rw [List.map_map]
  refine List.map_congr_left fun f hf => ?_
  have hlookup : fs.reverse.lookup f.1 = some f.2 := by
    rw [LabelMap.lookup_reverse h]
    exact LabelMap.lookup_of_mem h hf
  simp [hlookup]

theorem replaces_components (hp : Fine p) {sh : Shape} (hsh : joinShape none p = .ok (some sh)) :
    Replaces (components sh p) p := by
  rcases hp with rfl | hp
  · cases hsh
  cases p with
  | tuple note ps =>
    cases hsh
    rw [Pattern.isFormed, Pattern.areFormed_eq_all] at hp
    exact replaces_of_formed hp (Pattern.areIrrefutable_eq_all ps)
  | record note fs flexible =>
    cases hsh
    rw [Pattern.isFormed, Bool.and_eq_true, decide_eq_true_iff,
      Pattern.fieldsFormed_eq_all] at hp
    have hcomponents : components (.record (fs.map (·.1)).eraseDups) (.record note fs flexible) =
        fs.map (·.2) := by
      rw [components, eraseDups_of_nodup hp.1, lookup_labels hp.1]
    rw [hcomponents]
    exact replaces_of_formed hp.2 (Pattern.fieldsIrrefutable_eq_all fs)
  | _ => cases hsh

/-- Whether a constructor is the only one of a closed datatype. -/
theorem isComplete_singleton (c : Con) :
    isComplete [.con c] = c.siblings.any (·.length == 1) := rfl

/-- A tag that all values have leaves of a pattern what the tag carries. -/
theorem replaces_carried (hp : Fine p) {tag : Tag} (htag : headTag p = some tag)
    (hcomplete : isComplete [tag] = true) : Replaces (carried tag p) p := by
  rcases hp with rfl | hp
  · cases htag
  cases p with
  | con note c arg =>
    cases htag
    rw [isComplete_singleton] at hcomplete
    cases arg with
    | none =>
      refine ⟨fun q hq => .inl ?_, ?_⟩
      · exact List.eq_of_mem_replicate hq
      · have hwilds : ∀ n, (wilds n : List (Pattern α)).all isSure = true := by
          simp [wilds, isSure]
        exact (hwilds _).trans hcomplete.symm
    | some p =>
      rw [Pattern.isFormed, Bool.and_eq_true] at hp
      have hcarried : carried (.con c) (.con note c (some p)) = [p] := if_pos hp.1
      rw [hcarried]
      refine replaces_of_formed (by simp [hp.2]) ?_
      show (_ && _) = _
      rw [hcomplete]
      simp
  | literal note l =>
    cases htag
    cases hcomplete
  | _ => cases htag

/-- A tag that some values do not have makes a pattern fail. -/
theorem isSure_of_incomplete {tag : Tag} (htag : headTag p = some tag)
    (hincomplete : isComplete [tag] = false) : isSure p = false := by
  cases p with
  | con note c arg =>
    cases htag
    rw [isComplete_singleton] at hincomplete
    cases arg with
    | none => exact hincomplete
    | some p =>
      show (_ && _) = false
      rw [hincomplete, Bool.false_and]
  | literal note l => rfl
  | _ => cases htag

/-! ## A single row -/

/-- A matrix of one row without a guard; `sure` tells whether all its patterns match every
value. -/
structure Alone (m : Matrix α) (sure : Bool) : Prop where
  rect : m.Rect
  row : ∃ r, m.rows = [r] ∧ r.guarded = false ∧ (∀ p ∈ r.patterns, Fine p) ∧
    r.patterns.all isSure = sure

variable {m m' : Matrix α} {sure : Bool} {col : Nat} {path : Path}

/-- Patterns that replace one of a row leave the row fine and as sure as it was. -/
theorem Replaces.row {ps qs new : List (Pattern α)} (h : Replaces new p)
    (hfine : ∀ q ∈ ps ++ p :: qs, Fine q) :
    (∀ q ∈ ps ++ new ++ qs, Fine q) ∧
      (ps ++ new ++ qs).all isSure = (ps ++ p :: qs).all isSure := by
  refine ⟨?_, by simp [List.all_append, h.sure]⟩
  intro q hq
  simp only [List.mem_append, List.mem_cons] at hq hfine
  rcases hq with (hq | hq) | hq
  · exact hfine q (.inl hq)
  · exact h.fine q hq
  · exact hfine q (.inr (.inr hq))

theorem Alone.bindAt (h : Alone m sure) (hpath : m.paths[col]? = some path) :
    Alone (m.bindAt col path) sure := by
  obtain ⟨r, hrows, hguarded, hfine, hsure⟩ := h.row
  obtain ⟨ps, qs, hpatterns, hlen, -⟩ := h.rect.row hpath (r := r) (by simp [hrows])
  have hpat : Fine (r.pat col) := hfine _ (by rw [hpatterns]; simp)
  rw [hpatterns] at hfine hsure
  obtain ⟨hfine', hsure'⟩ := (replaces_strip path hpat).row hfine
  refine ⟨h.rect.bindAt hpath, r.bind col path, by simp [Matrix.bindAt, hrows], hguarded, ?_⟩
  rw [Row.bind_patterns hpatterns hlen]
  simp only [List.append_assoc, List.singleton_append] at hfine' hsure'
  exact ⟨hfine', hsure'.trans hsure⟩

/-- Replacing a column of a single row. -/
theorem Alone.replace (h : Alone m sure) (hpath : m.paths[col]? = some path) {steps : List Step}
    {q : Pattern α → Option (List (Pattern α))}
    (hq : ∀ r ∈ m.rows, Fine (r.pat col) →
      ∃ new, q (r.pat col) = some new ∧ new.length = steps.length ∧ Replaces new (r.pat col)) :
    Alone (m.replace col path steps q) sure := by
  obtain ⟨r, hrows, hguarded, hfine, hsure⟩ := h.row
  have hr : r ∈ m.rows := by simp [hrows]
  obtain ⟨ps, qs, hpatterns, hlen, -⟩ := h.rect.row hpath hr
  have hpat : Fine (r.pat col) := hfine _ (by rw [hpatterns]; simp)
  obtain ⟨new, hnew, hlength, hreplaces⟩ := hq r hr hpat
  rw [hpatterns] at hfine hsure
  obtain ⟨hfine', hsure'⟩ := hreplaces.row hfine
  refine ⟨h.rect.replace hpath ?_, r.splice col new, ?_, hguarded, ?_⟩
  · intro r' hr' new' hnew'
    rw [hrows, List.mem_singleton] at hr'
    rw [hr', hnew] at hnew'
    cases hnew'
    exact hlength
  · simp [Matrix.replace, hrows, hnew]
  · have hsplice : (r.splice col new).patterns = ps ++ new ++ qs := by
      show splice r.patterns col new = _
      rw [hpatterns]
      exact splice_append ps qs new _ hlen
    rw [hsplice]
    exact ⟨hfine', hsure'.trans hsure⟩

theorem Alone.expand (h : Alone m sure) (hpath : m.paths[col]? = some path) {sh : Shape}
    (hsh : columnShape m.rows col = .ok (some sh)) : Alone (m.expand col path sh) sure := by
  rw [Matrix.expand_eq]
  refine h.replace hpath fun r hr hfine => ⟨_, rfl, ?_, ?_⟩
  · exact ((columnShape_shaped hsh).1 r hr).2
  · obtain ⟨r', hrows, -⟩ := h.row
    rw [hrows, List.mem_singleton] at hr
    rw [hr] at hfine ⊢
    rw [hrows, columnShape, List.foldlM_cons] at hsh
    refine replaces_components hfine ?_
    cases hjoin : joinShape none (r'.pat col) with
    | error e =>
      rw [hjoin] at hsh
      cases hsh
    | ok sh' =>
      rw [hjoin] at hsh
      cases hsh
      rfl

theorem Normalizes.alone (h : Normalizes col m m') (hm : Alone m sure) : Alone m' sure := by
  obtain ⟨opened, h⟩ := h
  induction h with
  | done _ => exact hm
  | next hpath _ _ ih => exact ih (hm.bindAt hpath)
  | expand hpath hsh _ ih => exact ih ((hm.bindAt hpath).expand hpath hsh)

/-- The tag of a column of a single row. -/
theorem Branches.tags_alone {tags : List Tag} (h : Branches m col path tags) {r : Row α}
    (hrows : m.rows = [r]) (hplain : isPlain (r.pat col) = true) :
    ∃ tag, headTag (r.pat col) = some tag ∧ tags = [tag] := by
  obtain ⟨first, rest, hfirst, htested⟩ := h.tested
  rw [hrows, List.cons.injEq] at hfirst
  obtain ⟨rfl, -⟩ := hfirst
  rw [isPlain, htested, Bool.false_or] at hplain
  obtain ⟨tag, htag⟩ := Option.isSome_iff_exists.mp hplain
  refine ⟨tag, htag, ?_⟩
  rw [columnTags_eq h.tags, hrows]
  simp [htag, List.eraseDups_cons]

theorem Compiled.fail_of_nil {d : Decision} (h : Compiled m d) (hrows : m.rows = []) :
    d = .fail := by
  cases h with
  | fail _ => rfl
  | leaf hnormal hrows' _ _ | guarded hnormal hrows' _ _ _ =>
    rw [hnormal.rows_eq_nil.mpr hrows] at hrows'
    cases hrows'
  | complete hnormal hbranches _ _ _ | incomplete hnormal hbranches _ _ _ _ =>
    obtain ⟨first, rest, hrows', -⟩ := hbranches.tested
    rw [hnormal.rows_eq_nil.mpr hrows] at hrows'
    cases hrows'

/-- The tree of a single row can fail unless all its patterns match every value. -/
theorem Compiled.canFail_alone {d : Decision} (h : Compiled m d) (hm : Alone m sure) :
    d.canFail = !sure := by
  induction h with
  | fail hrows =>
    obtain ⟨r, hr, -⟩ := hm.row
    rw [hrows] at hr
    cases hr
  | leaf hnormal hrows hwild _ =>
    obtain ⟨r, hr, -, -, hsure⟩ := (hnormal.alone hm).row
    rw [hrows, List.cons.injEq] at hr
    obtain ⟨rfl, -⟩ := hr
    have hall : sure = true := by
      rw [← hsure]
      exact List.all_eq_true.mpr fun p hp => isSure_of_isWild (hwild p hp)
    rw [hall]
    rfl
  | guarded hnormal hrows _ hguarded _ _ =>
    obtain ⟨r, hr, hfree, -⟩ := (hnormal.alone hm).row
    rw [hrows, List.cons.injEq] at hr
    obtain ⟨rfl, -⟩ := hr
    rw [hguarded] at hfree
    cases hfree
  | @complete m m' col path tags cases hnormal hbranches hcomplete hmap hcases ih =>
    have hm' := hnormal.alone hm
    obtain ⟨r, hrows, -⟩ := hm'.row
    obtain ⟨tag, htag, rfl⟩ := hbranches.tags_alone hrows
      (hnormal.plain_pat hm.rect col r (by simp [hrows]))
    have halone : Alone (m'.specialize col path tag) sure := by
      rw [Matrix.specialize_eq]
      refine hm'.replace hbranches.path fun r' hr' hfine => ?_
      rw [hrows, List.mem_singleton] at hr'
      rw [hr'] at hfine ⊢
      exact ⟨_, if_pos (.inr htag), length_carried tag _, replaces_carried hfine htag hcomplete⟩
    obtain ⟨e, rfl, rfl⟩ : ∃ e, cases = [e] ∧ e.1 = tag := by
      cases cases with
      | nil => cases hmap
      | cons e cases =>
        rw [List.map_cons, List.cons.injEq, List.map_eq_nil_iff] at hmap
        exact ⟨e, by rw [hmap.2], hmap.1⟩
    have hfail := ih e (by simp) halone
    simpa [Decision.canFail, Decision.canFailCases] using hfail
  | @incomplete m m' col path tags cases d hnormal hbranches hincomplete hmap _ hdefault _ _ =>
    have hm' := hnormal.alone hm
    obtain ⟨r, hrows, -, -, hsure⟩ := hm'.row
    obtain ⟨tag, htag, rfl⟩ := hbranches.tags_alone hrows
      (hnormal.plain_pat hm.rect col r (by simp [hrows]))
    obtain ⟨ps, qs, hpatterns, -⟩ := hm'.rect.row hbranches.path (r := r) (by simp [hrows])
    -- the only row tests the column, so no row is left for other values
    have hnone : (m'.default col).rows = [] := by
      obtain ⟨first, rest, hfirst, htested⟩ := hbranches.tested
      rw [hrows, List.cons.injEq] at hfirst
      simp [Matrix.default, hrows, hfirst.1, htested]
    rw [hdefault.fail_of_nil hnone, ← hsure, hpatterns]
    simp [Decision.canFail, isSure_of_incomplete htag hincomplete]

/-- Whatever can be said of one row: its columns have shapes and tags. -/
theorem compilable_alone : Compilable fun m : Matrix α => m.Rect ∧ m.rows.length ≤ 1 where
  rect := fun hm => hm.1
  shape := by
    rintro m col path ⟨-, hlen⟩ -
    match hrows : m.rows with
    | [] => exact ⟨none, by simp [Matrix.bindAt, hrows, columnShape]; rfl⟩
    | [r] =>
      have hjoin : ∀ p : Pattern α, ∃ sh, joinShape none p = .ok sh := by
        intro p
        cases p <;> exact ⟨_, rfl⟩
      obtain ⟨sh, hsh⟩ := hjoin ((r.bind col path).pat col)
      refine ⟨sh, ?_⟩
      simp only [Matrix.bindAt, hrows, columnShape, List.map_cons, List.map_nil,
        List.foldlM_cons, List.foldlM_nil, hsh]
      rfl
    | _ :: _ :: _ => simp [hrows] at hlen
  bindAt := fun hm hpath => ⟨hm.1.bindAt hpath, by simpa [Matrix.bindAt] using hm.2⟩
  expand := fun hm hpath hsh =>
    ⟨(hm.1.bindAt hpath).expand hpath hsh, by simpa [Matrix.bindAt, Matrix.expand] using hm.2⟩
  rest := by
    rintro m first rest ⟨hrect, hlen⟩ hrows
    rw [hrows, List.length_cons] at hlen
    exact ⟨fun r hr => hrect r (by simp [hrows, hr]), Nat.le_trans (Nat.le_succ _) hlen⟩
  tags := by
    rintro m col path ⟨-, hlen⟩ -
    match hrows : m.rows with
    | [] => exact ⟨[], rfl⟩
    | [r] =>
      cases htag : headTag (r.pat col) with
      | none => exact ⟨[], by simp [columnTags, htag]⟩
      | some tag =>
        refine ⟨[tag], ?_⟩
        cases tag <;> simp [columnTags, htag, Tag.compatible, List.eraseDups_cons]
    | _ :: _ :: _ => simp [hrows] at hlen
  specialize := by
    rintro m col path tags ⟨hrect, hlen⟩ hbranches tag htag
    refine ⟨(hbranches.specialize hrect htag).1, ?_⟩
    exact Nat.le_trans (List.length_filterMap_le _ _) hlen
  default := by
    rintro m col path tags ⟨hrect, hlen⟩ hbranches
    refine ⟨(hbranches.default hrect).1, ?_⟩
    show ((m.rows.filter _).map _).length ≤ 1
    rw [List.length_map]
    exact Nat.le_trans (List.length_filter_le _ _) hlen

/-- A well formed pattern, compiled as the only clause of a match on a value of whatever type,
gives an exhaustive match exactly if it is irrefutable by its form.  The compiler breaks down only
on patterns with dots that can fail. -/
theorem exhaustive_iff_isIrrefutable (s : Store) (t : Ty) (p : Pattern α) (hp : p.isFormed = true) :
    (compile s [⟨p, false⟩] (some t) = .error .outOfRange ∧ p.isIrrefutable = false ∧
      ¬ p.Dotless) ∨
    ∃ r, compile s [⟨p, false⟩] (some t) = .ok r ∧
      (r.exhaustive = true ↔ p.isIrrefutable = true) := by
  have hgiven : ∀ c ∈ [(⟨p, false⟩ : Clause α)], c.pattern ≠ .omitted := by
    intro c hc homitted
    rw [List.mem_singleton.mp hc] at homitted
    rw [show p = .omitted from homitted] at hp
    cases hp
  have halone : Alone (Matrix.ofClauses [⟨p, false⟩]) p.isIrrefutable := by
    refine ⟨by simp [Matrix.ofClauses, Matrix.Rect], _, rfl, rfl, ?_, ?_⟩
    · simp [Fine, hp]
    · simp [isSure_of_isFormed hp]
  obtain ⟨d, htree, hrun⟩ := compilable_alone.compile ⟨halone.rect, Nat.le_refl 1⟩
    (List.cons_ne_nil _ _) hgiven s t
  have hfail := htree.canFail_alone halone
  rcases hrun with ⟨r, hr, -, rfl⟩ | ⟨hr, hd, c, hc, hdots⟩
  · exact .inr ⟨r, hr, by simp [Result.exhaustive, hfail]⟩
  · rw [hfail, Bool.not_eq_true'] at hd
    rw [List.mem_singleton.mp hc] at hdots
    exact .inl ⟨hr, hd, hdots⟩

/-- The only constructor of the datatype `box`. -/
def boxCon : Con := ⟨7, "box", some [("Box", true)], "Box", 0, true, false⟩

/-- The pattern `{x = y as Box _, z = (a, true)}` is well formed; it can fail in its last
component. -/
theorem exhaustive_iff_boxed :
    let yes : Con := ⟨1, "bool", some [("false", false), ("true", false)], "true", 1, false, false⟩
    let p : Pattern Unit := .record ()
      [("x", .layered () "y" (.con () boxCon (some (.wildcard ())))),
        ("z", .tuple () [.var () "a", .con () yes none])] false
    p.isFormed = true ∧ ∃ r, compile {} [⟨p, false⟩] (some (.var 0)) = .ok r ∧
      (r.exhaustive = true ↔ p.isIrrefutable = true) :=
  ⟨by decide, (exhaustive_iff_isIrrefutable _ _ _ (by decide)).resolve_left
    fun h => absurd (by decide) h.2.2⟩

end Match

end Typecase
