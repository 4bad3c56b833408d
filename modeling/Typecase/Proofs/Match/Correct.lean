import Typecase.Proofs.Match.Compiled
set_option autoImplicit false

/-!
# Decision trees select the first clause

The tree of a typed matrix sends every value to the first row that accepts it and whose
guard holds, and no end of the tree is there in vain: some value and some guards lead to
it.  For the tree of a list of clauses this means that it selects the first clause that
takes the value, that it can fail exactly if the unguarded clauses leave out a value, and
that a clause without a leaf is never selected.
-/

namespace Typecase

def Outcome.clause? : Outcome → Option Nat
  | .selected clause _ => some clause
  | .failed => none

namespace Decision

/-! ## The ends of a tree -/

/-- A tree ends somewhere with the given clause, or without one. -/
def Ends (d : Decision) : Option Nat → Prop
  | none => d.canFail = true
  | some i => i ∈ d.clauses

theorem mem_clausesCases {cases : List (Tag × Decision)} {i : Nat} :
    i ∈ clausesCases cases ↔ ∃ c ∈ cases, i ∈ c.2.clauses := by
  induction cases with
  | nil => simp [clausesCases]
  | cons c cases ih => simp [clausesCases, ih]

section Ends

variable {e : Option Nat} {clause : Nat} {bindings : List (String × Path)} {d : Decision}
  {path : Path} {cases : List (Tag × Decision)}

theorem ends_fail : Ends .fail e ↔ e = none := by
  cases e <;> simp [Ends, canFail, clauses]

theorem ends_leaf : Ends (.leaf clause bindings none) e ↔ e = some clause := by
  cases e <;> simp [Ends, canFail, clauses]

theorem ends_guarded : Ends (.leaf clause bindings (some d)) e ↔ e = some clause ∨ d.Ends e := by
  cases e <;> simp [Ends, canFail, clauses]

theorem ends_complete : Ends (.switch path cases none) e ↔ ∃ c ∈ cases, c.2.Ends e := by
  cases e <;> simp [Ends, canFail, clauses, canFailCases_iff, mem_clausesCases]

theorem ends_incomplete :
    Ends (.switch path cases (some d)) e ↔ (∃ c ∈ cases, c.2.Ends e) ∨ d.Ends e := by
  cases e <;> simp [Ends, canFail, clauses, canFailCases_iff, mem_clausesCases]

end Ends

/-! ## Walks -/

section Walk

variable {guard : Nat → Bool} {v : Val} {cases : List (Tag × Decision)} {tag : Tag}

mutual

/-- A walk ends at an end of the tree. -/
theorem ends_of_walk (d : Decision) {o : Outcome} (h : d.walk guard v = some o) :
    d.Ends o.clause? := by
  match d with
  | .fail =>
    cases h
    exact ends_fail.mpr rfl
  | .leaf clause bindings none =>
    cases h
    exact ends_leaf.mpr rfl
  | .leaf clause bindings (some d) =>
    rw [walk] at h
    split at h
    · cases h
      exact ends_guarded.mpr (Or.inl rfl)
    · exact ends_guarded.mpr (Or.inr (ends_of_walk d h))
  | .switch path cases none =>
    rw [walk] at h
    split at h
    · cases h
    · rename_i tag htag
      cases hcases : walkCases guard v tag cases with
      | none => simp [hcases] at h
      | some o' =>
        simp only [hcases, Option.getD_some] at h
        exact ends_complete.mpr (ends_of_walkCases cases (h ▸ hcases))
  | .switch path cases (some d) =>
    rw [walk] at h
    split at h
    · cases h
    · rename_i tag htag
      cases hcases : walkCases guard v tag cases with
      | none =>
        simp only [hcases, Option.getD_none] at h
        exact ends_incomplete.mpr (Or.inr (ends_of_walk d h))
      | some o' =>
        simp only [hcases, Option.getD_some] at h
        exact ends_incomplete.mpr (Or.inl (ends_of_walkCases cases (h ▸ hcases)))

theorem ends_of_walkCases (cases : List (Tag × Decision)) {tag : Tag} {o : Outcome}
    (h : walkCases guard v tag cases = some (some o)) : ∃ c ∈ cases, c.2.Ends o.clause? := by
  match cases with
  | [] => cases h
  | (t, d) :: cases =>
    rw [walkCases] at h
    split at h
    · exact ⟨(t, d), List.mem_cons_self, ends_of_walk d (Option.some.inj h)⟩
    · obtain ⟨c, hmem, hc⟩ := ends_of_walkCases cases h
      exact ⟨c, List.mem_cons_of_mem _ hmem, hc⟩

end

theorem walkCases_of_mem (guard : Nat → Bool) (v : Val) (h : tag ∈ cases.map (·.1)) :
    ∃ d, (tag, d) ∈ cases ∧ walkCases guard v tag cases = some (d.walk guard v) := by
  induction cases with
  | nil => cases h
  | cons c cases ih =>
    obtain ⟨t, d⟩ := c
    rw [walkCases]
    by_cases ht : t = tag
    · subst ht
      exact ⟨d, List.mem_cons_self, if_pos rfl⟩
    · rw [if_neg ht]
      have hrest : tag ∈ cases.map (·.1) := by simpa [Ne.symm ht] using h
      obtain ⟨d', hmem, hd'⟩ := ih hrest
      exact ⟨d', List.mem_cons_of_mem _ hmem, hd'⟩

theorem walkCases_of_notMem (h : tag ∉ cases.map (·.1)) : walkCases guard v tag cases = none := by
  induction cases with
  | nil => rfl
  | cons c cases ih =>
    obtain ⟨t, d⟩ := c
    simp only [List.map_cons, List.mem_cons, not_or] at h
    rw [walkCases, if_neg (Ne.symm h.1), ih h.2]

/-- A test sends a value to the case of its tag, or else to the default. -/
theorem walk_switch {path : Path} {other : Option Decision} {w : Val} (hw : v.at? path = some w)
    (htag : w.tag? = some tag) :
    walk guard v (.switch path cases other) =
      (walkCases guard v tag cases).getD (other.elim none (walk guard v)) := by
  cases other <;> simp [walk, hw, htag]

end Walk

end Decision

namespace Match

variable {α : Type} {Δ : Signature} {τs : List Tree} {m : Matrix α} {vs : List Val} {e : Option Nat}
  {col : Nat} {path : Path} {tags : List Tag}

/-! ## The first hit -/

/-- The first of the hits whose guard, if it has one, holds. -/
def firstHit (guard : Nat → Bool) (hs : List (Nat × Bool)) : Option Nat :=
  (hs.find? fun h => !h.2 || guard h.1).map (·.1)

/-- Some guards make `e` the first hit: only guarded hits stand before it. -/
def Reaches : List (Nat × Bool) → Option Nat → Prop
  | [], e => e = none
  | (i, guarded) :: hs, e => e = some i ∨ guarded = true ∧ Reaches hs e

theorem firstHit_cons (guard : Nat → Bool) (i : Nat) (guarded : Bool) (hs : List (Nat × Bool)) :
    firstHit guard ((i, guarded) :: hs) =
      if guarded = false ∨ guard i = true then some i else firstHit guard hs := by
  unfold firstHit
  rw [List.find?_cons]
  cases guarded <;> cases guard i <;> simp

theorem reaches_iff {hs : List (Nat × Bool)} : Reaches hs e ↔ ∃ guard, firstHit guard hs = e := by
  constructor
  · intro h
    -- all guards fail but the one of the clause to be reached
    refine ⟨fun i => e = some i, ?_⟩
    induction hs with
    | nil => exact h.symm
    | cons hit hs ih =>
      obtain ⟨i, guarded⟩ := hit
      rw [firstHit_cons]
      rcases h with rfl | ⟨rfl, h⟩
      · simp
      · split
        · rename_i hi
          have hi : e = some i := by simpa using hi
          exact hi.symm
        · exact ih h
  · rintro ⟨guard, rfl⟩
    induction hs with
    | nil => rfl
    | cons hit hs ih =>
      obtain ⟨i, guarded⟩ := hit
      rw [firstHit_cons]
      split
      · exact Or.inl rfl
      · rename_i hi
        have hguarded : guarded = true := by simpa using (not_or.mp hi).1
        exact Or.inr ⟨hguarded, ih⟩

theorem acceptsAll_of_isWild {ps : List (Pattern α)} (hlen : ps.length = vs.length)
    (hwild : ∀ p ∈ ps, p.isWild = true) : Pattern.acceptsAll ps vs = true := by
  rw [Pattern.acceptsAll_iff]
  refine List.forall₂_iff_zip.mpr ⟨hlen, ?_⟩
  intro p v hmem
  exact Pattern.accepts_of_isWild (hwild p (List.of_mem_zip hmem).1) v

/-- A row that tests nothing is hit by all values. -/
theorem hits_wild (hm : m.Typed Δ τs) {first : Row α} {rest : List (Row α)}
    (hrows : m.rows = first :: rest) (hwild : ∀ p ∈ first.patterns, p.isWild = true)
    (hvs : Δ.HaveTypes vs τs) : hits m.rows vs = (first.clause, first.guarded) :: hits rest vs := by
  have hlen : first.patterns.length = vs.length := by
    rw [(hm.rows first (by simp [hrows])).length_eq, (Signature.haveTypes_iff.mp hvs).length_eq]
  have haccepts := acceptsAll_of_isWild hlen hwild
  rw [hrows]
  simp [hits, haccepts]

/-! ## The tree of a matrix -/

/-- Values that a matrix is matched against can be matched against another one instead. -/
def Sends (Δ : Signature) (m : Matrix α) (vs : List Val) (m' : Matrix α) : Prop :=
  ∃ τs ws, m'.Typed Δ τs ∧ Δ.HaveTypes ws τs ∧ hits m'.rows ws = hits m.rows vs ∧
    ∀ root, Located root m.paths vs → Located root m'.paths ws

/-- A test sends values on by the tag that it finds. -/
theorem Branches.sends (h : Branches m col path tags) (hm : m.Typed Δ τs)
    (hplain : ∀ r ∈ m.rows, isPlain (r.pat col) = true) (hvs : Δ.HaveTypes vs τs) :
    ∃ v tag, (∀ root, Located root m.paths vs → root.at? path = some v) ∧ v.tag? = some tag ∧
      (tag ∈ tags → Sends Δ m vs (m.specialize col path tag)) ∧
      (tag ∉ tags → isComplete tags = false ∧ Sends Δ m vs (m.default col)) := by
  obtain ⟨before, τ, after, rfl, hcol⟩ := hm.split h.path
  obtain ⟨us, v, us', rfl, hus, hv, hus'⟩ := haveTypes_column hvs
  have hopens := h.opens hm hcol
  obtain ⟨first, hfirst⟩ := List.exists_mem_of_ne_nil tags (h.tags_ne_nil hplain)
  obtain ⟨ρs, hfirst⟩ := hopens first hfirst
  obtain ⟨tag, σs, htag, hopen⟩ := hfirst.exists_tag hv
  refine ⟨v, tag, ?_, htag, ?_, ?_⟩
  · intro root hroot
    have hlen : us.length = col := (Signature.haveTypes_iff.mp hus).length_eq.trans hcol
    obtain ⟨_, _, _, _, _, hv, _⟩ := located_column h.path hlen hroot
    exact hv
  · intro _
    obtain ⟨ws, hparts, hws⟩ := hopen.parts hv htag
    obtain ⟨hhits, hlocated⟩ := hits_specialize hm hcol h.path hplain hus hopen htag hws hparts
    exact ⟨_, us ++ ws ++ us', hm.specialize hcol h.path hopen,
      haveTypes_append (haveTypes_append hus hws) hus', hhits, hlocated⟩
  · intro hnotin
    constructor
    · by_contra hcomplete
      exact hnotin (mem_of_isComplete hopens h.tags_nodup (by simpa using hcomplete) hopen)
    · obtain ⟨hhits, hlocated⟩ := hits_default hm hcol h.path hplain hus h.tags htag hnotin
      exact ⟨_, us ++ [] ++ us', hm.default hcol h.path,
        haveTypes_append (haveTypes_append hus trivial) hus', hhits, hlocated⟩

/-- The walk through the tree of a matrix finds the first hit. -/
theorem Compiled.walk {d : Decision} (h : Compiled m d) (hm : m.Typed Δ τs)
    (hvs : Δ.HaveTypes vs τs) {root : Val} (hroot : Located root m.paths vs) (guard : Nat → Bool) :
    ∃ o, d.walk guard root = some o ∧ o.clause? = firstHit guard (hits m.rows vs) := by
  induction h generalizing τs vs with
  | fail hrows =>
    refine ⟨.failed, rfl, ?_⟩
    rw [hrows]
    rfl
  | @leaf m m' first rest hnormal hrows hwild hguarded =>
    obtain ⟨τs', hrefines⟩ := hnormal.refines hm
    obtain ⟨ws, hws, hhits, -⟩ := hrefines.narrow vs hvs
    refine ⟨.selected first.clause first.bindings, rfl, ?_⟩
    rw [← hhits, hits_wild hrefines.typed hrows hwild hws, firstHit_cons]
    simp [hguarded, Outcome.clause?]
  | @guarded m m' first rest d hnormal hrows hwild hguarded _ ih =>
    obtain ⟨τs', hrefines⟩ := hnormal.refines hm
    obtain ⟨ws, hws, hhits, hlocated⟩ := hrefines.narrow vs hvs
    have hm' := hrefines.typed
    rw [← hhits, hits_wild hm' hrows hwild hws, firstHit_cons, Decision.walk]
    cases hguard : guard first.clause with
    | true => exact ⟨.selected first.clause first.bindings, by simp, by simp [Outcome.clause?]⟩
    | false => simpa [hguarded] using ih (hm'.rest hrows) hws (hlocated root hroot)
  | @complete m m' col path tags cases hnormal hbranches hcomplete hcases _ ih =>
    obtain ⟨τs', hrefines⟩ := hnormal.refines hm
    obtain ⟨ws, hws, hhits, hlocated⟩ := hrefines.narrow vs hvs
    have hlocated := hlocated root hroot
    obtain ⟨v, tag, hv, htag, hcase, hdefault⟩ :=
      hbranches.sends hrefines.typed (hnormal.plain_pat hm.rect col) hws
    have hmem : tag ∈ tags := by
      by_contra hnotin
      have hincomplete := (hdefault hnotin).1
      simp [hcomplete] at hincomplete
    obtain ⟨σs, us, hσs, hus, hhits', hlocated'⟩ := hcase hmem
    obtain ⟨d, hd, hwalk⟩ := Decision.walkCases_of_mem guard root
      (hcases.symm ▸ hmem)
    rw [Decision.walk_switch (hv root hlocated) htag, hwalk, ← hhits, ← hhits']
    exact ih (tag, d) hd hσs hus (hlocated' root hlocated)
  | @incomplete m m' col path tags cases d hnormal hbranches hcomplete hcases _ _ ihcase ih =>
    obtain ⟨τs', hrefines⟩ := hnormal.refines hm
    obtain ⟨ws, hws, hhits, hlocated⟩ := hrefines.narrow vs hvs
    have hlocated := hlocated root hroot
    obtain ⟨v, tag, hv, htag, hcase, hdefault⟩ :=
      hbranches.sends hrefines.typed (hnormal.plain_pat hm.rect col) hws
    rw [Decision.walk_switch (hv root hlocated) htag, ← hhits]
    by_cases hmem : tag ∈ tags
    · obtain ⟨σs, us, hσs, hus, hhits', hlocated'⟩ := hcase hmem
      obtain ⟨d', hd', hwalk⟩ := Decision.walkCases_of_mem guard root
        (hcases.symm ▸ hmem)
      rw [hwalk, ← hhits']
      exact ihcase (tag, d') hd' hσs hus (hlocated' root hlocated)
    · obtain ⟨-, σs, us, hσs, hus, hhits', hlocated'⟩ := hdefault hmem
      rw [Decision.walkCases_of_notMem (hcases.symm ▸ hmem), ← hhits']
      exact ih hσs hus (hlocated' root hlocated)

/-- Values of a matrix make up values of another one with the same hits. -/
structure Lifts (Δ : Signature) (m : Matrix α) (τs : List Tree) (m' : Matrix α)
    (τs' : List Tree) : Prop where
  typed : m'.Typed Δ τs'
  inhabited : ∀ τ ∈ τs', Δ.Inhabited τ
  lift : ∀ ws, Δ.HaveTypes ws τs' → ∃ vs, Δ.HaveTypes vs τs ∧ hits m.rows vs = hits m'.rows ws

theorem Refines.lifts {m' : Matrix α} {τs' : List Tree} (h : Refines Δ m τs m' τs')
    (hτs : ∀ τ ∈ τs, Δ.Inhabited τ) : Lifts Δ m τs m' τs' where
  typed := h.typed
  inhabited := h.inhabited hτs
  lift ws hws := by
    obtain ⟨vs, hvs, hhits, -⟩ := h.widen hτs ws hws
    exact ⟨vs, hvs, hhits⟩

/-- Some values and guards make `e` the first hit of a matrix. -/
def Reachable (Δ : Signature) (m : Matrix α) (τs : List Tree) (e : Option Nat) : Prop :=
  ∃ vs, Δ.HaveTypes vs τs ∧ Reaches (hits m.rows vs) e

theorem Lifts.reachable {m' : Matrix α} {τs' : List Tree} (h : Lifts Δ m τs m' τs')
    (he : Reachable Δ m' τs' e) : Reachable Δ m τs e := by
  obtain ⟨ws, hws, hreaches⟩ := he
  obtain ⟨vs, hvs, hhits⟩ := h.lift ws hws
  exact ⟨vs, hvs, hhits ▸ hreaches⟩

section Join

variable {Δ : Signature} {m : Matrix α} {before after : List Tree} {τ : Tree} {col : Nat}
  {path : Path} {tags : List Tag} {tag : Tag} (h : Branches m col path tags)
  (hm : m.Typed Δ (before ++ τ :: after)) (hcol : before.length = col)
  (hplain : ∀ r ∈ m.rows, isPlain (r.pat col) = true)
include h hm hcol hplain

/-- Values behind the case of a tag make up values that take the case. -/
theorem Branches.join_case {σs : List Tree} (hopens : Δ.Opens τ tag σs) {ws : List Val}
    (hws : Δ.HaveTypes ws (before ++ σs ++ after)) :
    ∃ vs v parts, Δ.HaveTypes vs (before ++ τ :: after) ∧ v.tag? = some tag ∧
      v.HasParts tag.steps parts ∧ hits m.rows vs = hits (m.specialize col path tag).rows ws ∧
      ∀ root, Located root m.paths vs →
        root.at? path = some v ∧ Located root (m.specialize col path tag).paths ws := by
  obtain ⟨front, us', rfl, hfront, hus'⟩ := haveTypes_split hws
  obtain ⟨us, parts, rfl, hus, hparts⟩ := haveTypes_split hfront
  obtain ⟨v, hv, hvtag, hsteps⟩ := hopens.join hparts
  have hvus' : Δ.HaveTypes (v :: us') (τ :: after) := ⟨hv, hus'⟩
  have hlen := (Signature.haveTypes_iff.mp hus).length_eq
  obtain ⟨hhits, hlocated⟩ := hits_specialize hm hcol h.path hplain hus hopens hvtag hparts hsteps
  refine ⟨us ++ v :: us', v, parts, haveTypes_append hus hvus', hvtag, hsteps, hhits.symm, ?_⟩
  intro root hroot
  obtain ⟨_, _, _, _, _, hat, _⟩ := located_column h.path (hlen.trans hcol) hroot
  exact ⟨hat, hlocated root hroot⟩

/-- Values behind the default, and a value with a tag that has no case, make up values
that take the default. -/
theorem Branches.join_default {v : Val} (hv : Δ.HasType v τ) (htag : v.tag? = some tag)
    (hnotin : tag ∉ tags) {ws : List Val} (hws : Δ.HaveTypes ws (before ++ [] ++ after)) :
    ∃ vs, Δ.HaveTypes vs (before ++ τ :: after) ∧ hits m.rows vs = hits (m.default col).rows ws ∧
      ∀ root, Located root m.paths vs →
        root.at? path = some v ∧ Located root (m.default col).paths ws := by
  obtain ⟨front, us', rfl, hfront, hus'⟩ := haveTypes_split hws
  obtain ⟨us, parts, rfl, hus, hparts⟩ := haveTypes_split hfront
  have hvus' : Δ.HaveTypes (v :: us') (τ :: after) := ⟨hv, hus'⟩
  have hlen := (Signature.haveTypes_iff.mp hus).length_eq
  cases parts with
  | nil =>
    obtain ⟨hhits, hlocated⟩ := hits_default hm hcol h.path hplain hus h.tags htag hnotin
    refine ⟨us ++ v :: us', haveTypes_append hus hvus', hhits.symm, ?_⟩
    intro root hroot
    obtain ⟨_, _, _, _, _, hat, _⟩ := located_column h.path (hlen.trans hcol) hroot
    exact ⟨hat, hlocated root hroot⟩
  | cons w ws => exact absurd hparts (by simp [Signature.HaveTypes])

end Join

/-- Every case of a test is taken by some values. -/
theorem Branches.lifts_case (h : Branches m col path tags) (hm : m.Typed Δ τs)
    (hτs : ∀ τ ∈ τs, Δ.Inhabited τ) (hplain : ∀ r ∈ m.rows, isPlain (r.pat col) = true) {tag : Tag}
    (htag : tag ∈ tags) : ∃ τs', Lifts Δ m τs (m.specialize col path tag) τs' := by
  obtain ⟨before, τ, after, rfl, hcol⟩ := hm.split h.path
  obtain ⟨σs, hopens⟩ := h.opens hm hcol tag htag
  refine ⟨before ++ σs ++ after, hm.specialize hcol h.path hopens, ?_, ?_⟩
  · exact inhabited_replace hτs fun σ hσ => hopens.inhabited (hτs τ (by simp)) hσ
  · intro ws hws
    obtain ⟨vs, -, -, hvs, -, -, hhits, -⟩ := h.join_case hm hcol hplain hopens hws
    exact ⟨vs, hvs, hhits⟩

/-- The default of a test is taken by some values, if the cases are not complete. -/
theorem Branches.lifts_default (h : Branches m col path tags) (hm : m.Typed Δ τs)
    (hτs : ∀ τ ∈ τs, Δ.Inhabited τ) (hplain : ∀ r ∈ m.rows, isPlain (r.pat col) = true)
    (hinfinite : ∀ k, {text | Δ.isConstant ⟨k, text⟩}.Infinite)
    (hcomplete : isComplete tags = false) : ∃ τs', Lifts Δ m τs (m.default col) τs' := by
  obtain ⟨before, τ, after, rfl, hcol⟩ := hm.split h.path
  obtain ⟨v, tag, hv, htag, hnotin⟩ := exists_value_of_not_isComplete (hτs τ (by simp)) hinfinite
    (h.opens hm hcol) h.tags_nodup (h.tags_ne_nil hplain) hcomplete
  refine ⟨before ++ [] ++ after, hm.default hcol h.path, ?_, ?_⟩
  · exact inhabited_replace hτs fun σ hσ => absurd hσ List.not_mem_nil
  · intro ws hws
    obtain ⟨vs, hvs, hhits, -⟩ := h.join_default hm hcol hplain hv htag hnotin hws
    exact ⟨vs, hvs, hhits⟩

theorem exists_haveTypes (h : ∀ τ ∈ τs, Δ.Inhabited τ) : ∃ vs, Δ.HaveTypes vs τs := by
  induction τs with
  | nil => exact ⟨[], trivial⟩
  | cons τ τs ih =>
    obtain ⟨v, hv⟩ := (h τ List.mem_cons_self).value
    obtain ⟨vs, hvs⟩ := ih fun σ hσ => h σ (List.mem_cons_of_mem τ hσ)
    exact ⟨v :: vs, hv, hvs⟩

/-- Every end of the tree of a matrix is reached by some values. -/
theorem Compiled.reachable (hinfinite : ∀ k, {text | Δ.isConstant ⟨k, text⟩}.Infinite)
    {d : Decision} (h : Compiled m d) (hm : m.Typed Δ τs) (hτs : ∀ τ ∈ τs, Δ.Inhabited τ)
    (he : d.Ends e) : Reachable Δ m τs e := by
  induction h generalizing τs with
  | fail hrows =>
    obtain ⟨vs, hvs⟩ := exists_haveTypes hτs
    refine ⟨vs, hvs, ?_⟩
    rw [hrows]
    exact Decision.ends_fail.mp he
  | @leaf m m' first rest hnormal hrows hwild hguarded =>
    obtain ⟨τs', hrefines⟩ := hnormal.refines hm
    have hlifts := hrefines.lifts hτs
    refine hlifts.reachable ?_
    obtain ⟨ws, hws⟩ := exists_haveTypes hlifts.inhabited
    refine ⟨ws, hws, ?_⟩
    rw [hits_wild hlifts.typed hrows hwild hws]
    exact Or.inl (Decision.ends_leaf.mp he)
  | @guarded m m' first rest d hnormal hrows hwild hguarded _ ih =>
    obtain ⟨τs', hrefines⟩ := hnormal.refines hm
    have hlifts := hrefines.lifts hτs
    refine hlifts.reachable ?_
    rcases Decision.ends_guarded.mp he with he | he
    · obtain ⟨ws, hws⟩ := exists_haveTypes hlifts.inhabited
      refine ⟨ws, hws, ?_⟩
      rw [hits_wild hlifts.typed hrows hwild hws]
      exact Or.inl he
    · obtain ⟨ws, hws, hreaches⟩ := ih (hlifts.typed.rest hrows) hlifts.inhabited he
      refine ⟨ws, hws, ?_⟩
      rw [hits_wild hlifts.typed hrows hwild hws]
      exact Or.inr ⟨hguarded, hreaches⟩
  | @complete m m' col path tags cases hnormal hbranches hcomplete hcases _ ih =>
    obtain ⟨τs', hrefines⟩ := hnormal.refines hm
    have hlifts := hrefines.lifts hτs
    refine hlifts.reachable ?_
    obtain ⟨c, hc, he⟩ := Decision.ends_complete.mp he
    have htag : c.1 ∈ tags := hcases ▸ List.mem_map_of_mem hc
    obtain ⟨σs, hcase⟩ := hbranches.lifts_case hlifts.typed hlifts.inhabited
      (hnormal.plain_pat hm.rect col) htag
    exact hcase.reachable (ih c hc hcase.typed hcase.inhabited he)
  | @incomplete m m' col path tags cases d hnormal hbranches hcomplete hcases _ _ ihcase ih =>
    obtain ⟨τs', hrefines⟩ := hnormal.refines hm
    have hlifts := hrefines.lifts hτs
    refine hlifts.reachable ?_
    rcases Decision.ends_incomplete.mp he with ⟨c, hc, he⟩ | he
    · have htag : c.1 ∈ tags := hcases ▸ List.mem_map_of_mem hc
      obtain ⟨σs, hcase⟩ := hbranches.lifts_case hlifts.typed hlifts.inhabited
        (hnormal.plain_pat hm.rect col) htag
      exact hcase.reachable (ihcase c hc hcase.typed hcase.inhabited he)
    · obtain ⟨σs, hdefault⟩ := hbranches.lifts_default hlifts.typed hlifts.inhabited
        (hnormal.plain_pat hm.rect col) hinfinite hcomplete
      exact hdefault.reachable (ih hdefault.typed hdefault.inhabited he)

end Match

end Typecase
