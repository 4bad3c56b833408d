import Typecase.Proofs.Match.Parts
set_option autoImplicit false

/-!
# Steps on a pattern matrix

The compiler changes its matrix in four ways: it binds the names of a column, expands a
column into components, keeps the rows that may match a tag, and keeps the rows that do
not test a column.  The last three replace a column by columns for parts of its values
and may drop rows.  They are treated as one step, `Matrix.replace`.

What counts about a matrix is which of its rows accept a list of values, one value for
each column.  These rows are the hits.  A step keeps the hits.
-/

namespace Typecase.Match

variable {α β : Type} {Δ : Signature} {m : Matrix α} {τs σs : List Tree} {vs ws : List Val}
  {col : Nat} {path : Path}

/-! ## Lists -/

theorem length_eraseDups_le [BEq β] (xs : List β) : xs.eraseDups.length ≤ xs.length := by
  induction hn : xs.length using Nat.strong_induction_on generalizing xs with
  | _ n ih =>
    cases xs with
    | nil => simp
    | cons x xs =>
      rw [List.eraseDups_cons]
      have hfilter : (xs.filter fun b => !b == x).length ≤ xs.length := List.length_filter_le ..
      simp only [List.length_cons] at hn ⊢
      have := ih _ (by omega) (xs.filter fun b => !b == x) rfl
      omega

theorem eraseDups_of_nodup [BEq β] [LawfulBEq β] {xs : List β} (h : xs.Nodup) :
    xs.eraseDups = xs := by
  induction xs with
  | nil => rfl
  | cons x xs ih =>
    obtain ⟨hx, hxs⟩ := List.nodup_cons.mp h
    have hfilter : xs.filter (fun y => !y == x) = xs := by
      refine List.filter_eq_self.mpr fun y hy => ?_
      have hne : y ≠ x := fun heq => hx (heq ▸ hy)
      simpa using hne
    rw [List.eraseDups_cons, hfilter, ih hxs]

theorem splice_append (before after ys : List β) (x : β) {i : Nat} (hi : before.length = i) :
    splice (before ++ x :: after) i ys = before ++ ys ++ after := by
  subst hi
  simp [splice]

/-- Related lists split in the same places. -/
theorem forall₂_split {γ : Type} {R : β → γ → Prop} {xs : List β} {before : List γ} {y : γ}
    {after : List γ} (h : List.Forall₂ R xs (before ++ y :: after)) :
    ∃ before' x after', xs = before' ++ x :: after' ∧ before'.length = before.length ∧
      List.Forall₂ R before' before ∧ R x y ∧ List.Forall₂ R after' after := by
  induction before generalizing xs with
  | nil =>
    cases h with
    | cons hx hafter => exact ⟨[], _, _, rfl, rfl, .nil, hx, hafter⟩
  | cons z before ih =>
    cases h with
    | @cons z' _ xs _ hz hrest =>
      obtain ⟨before', x, after', rfl, hlen, hbefore, hx, hafter⟩ := ih hrest
      exact ⟨z' :: before', x, after', rfl, by simp [hlen], .cons hz hbefore, hx, hafter⟩

theorem acceptsAll_append {ps qs : List (Pattern α)} (h : ps.length = vs.length) :
    Pattern.acceptsAll (ps ++ qs) (vs ++ ws) =
      (Pattern.acceptsAll ps vs && Pattern.acceptsAll qs ws) := by
  induction ps generalizing vs with
  | nil =>
    cases vs with
    | nil => rfl
    | cons v vs => simp at h
  | cons p ps ih =>
    cases vs with
    | nil => simp at h
    | cons v vs =>
      simp only [List.cons_append, Pattern.acceptsAll, ih (Nat.succ.inj h), Bool.and_assoc]

/-! ## Hits -/

/-- The clauses of the rows that accept the given values, in order, each with whether
it is guarded. -/
def hits (rows : List (Row α)) (vs : List Val) : List (Nat × Bool) :=
  (rows.filter fun r => Pattern.acceptsAll r.patterns vs).map fun r => (r.clause, r.guarded)

/-- Rows that are changed or dropped keep their hits if each keeps what it accepts. -/
theorem hits_filterMap {f : Row α → Option (Row α)} {rows : List (Row α)}
    (hsome : ∀ r ∈ rows, ∀ r', f r = some r' → r'.clause = r.clause ∧ r'.guarded = r.guarded ∧
      Pattern.acceptsAll r'.patterns ws = Pattern.acceptsAll r.patterns vs)
    (hnone : ∀ r ∈ rows, f r = none → Pattern.acceptsAll r.patterns vs = false) :
    hits (rows.filterMap f) ws = hits rows vs := by
  induction rows with
  | nil => rfl
  | cons r rows ih =>
    have hrest := ih (fun q hq => hsome q (List.mem_cons_of_mem r hq))
      (fun q hq => hnone q (List.mem_cons_of_mem r hq))
    unfold hits at hrest ⊢
    cases hf : f r with
    | none =>
      have hrow := hnone r List.mem_cons_self hf
      simp only [List.filterMap_cons, hf, List.filter_cons, hrow]
      exact hrest
    | some r' =>
      obtain ⟨hclause, hguarded, hrow⟩ := hsome r List.mem_cons_self r' hf
      simp only [List.filterMap_cons, hf, List.filter_cons, hrow]
      split
      · simp only [List.map_cons, hrest, hclause, hguarded]
      · exact hrest

/-- The patterns of a matrix may be matched against values of the given types. -/
structure Matrix.Typed (Δ : Signature) (m : Matrix α) (τs : List Tree) : Prop where
  paths : m.paths.length = τs.length
  rows : ∀ r ∈ m.rows, List.Forall₂ Δ.Admits r.patterns τs

theorem haveTypes_append {us : List Val} (hus : Δ.HaveTypes us τs) (hws : Δ.HaveTypes ws σs) :
    Δ.HaveTypes (us ++ ws) (τs ++ σs) :=
  Signature.haveTypes_iff.mpr
    (List.rel_append (Signature.haveTypes_iff.mp hus) (Signature.haveTypes_iff.mp hws))

theorem haveTypes_split (h : Δ.HaveTypes vs (τs ++ σs)) :
    ∃ us ws, vs = us ++ ws ∧ Δ.HaveTypes us τs ∧ Δ.HaveTypes ws σs := by
  rw [Signature.haveTypes_iff] at h
  refine ⟨vs.take τs.length, vs.drop τs.length, by simp, ?_, ?_⟩
  · exact Signature.haveTypes_iff.mpr (List.forall₂_take_append _ _ _ h)
  · exact Signature.haveTypes_iff.mpr (List.forall₂_drop_append _ _ _ h)

theorem haveTypes_column {before after : List Tree} {τ : Tree}
    (h : Δ.HaveTypes vs (before ++ τ :: after)) :
    ∃ us v us', vs = us ++ v :: us' ∧ Δ.HaveTypes us before ∧ Δ.HasType v τ ∧
      Δ.HaveTypes us' after := by
  obtain ⟨us, ws, rfl, hus, hws⟩ := haveTypes_split h
  cases ws with
  | nil => exact absurd hws (by simp [Signature.HaveTypes])
  | cons v us' => exact ⟨us, v, us', rfl, hus, hws.1, hws.2⟩

theorem inhabited_replace {before after : List Tree} {τ : Tree}
    (hτs : ∀ ρ ∈ before ++ τ :: after, Δ.Inhabited ρ) (hσs : ∀ σ ∈ σs, Δ.Inhabited σ) :
    ∀ ρ ∈ before ++ σs ++ after, Δ.Inhabited ρ := by
  intro ρ hρ
  rcases List.mem_append.mp hρ with hρ | hρ
  · rcases List.mem_append.mp hρ with hρ | hρ
    · exact hτs ρ (List.mem_append_left _ hρ)
    · exact hσs ρ hρ
  · exact hτs ρ (List.mem_append_right _ (List.mem_cons_of_mem τ hρ))

/-- The given values stand at the given paths of a value. -/
def Located (root : Val) (paths : List Path) (vs : List Val) : Prop :=
  List.Forall₂ (fun path v => root.at? path = some v) paths vs

/-! ## Replacing a column -/

/-- Replace a column by columns for parts of its values.  Rows on whose pattern `q` is
not defined are dropped. -/
def Matrix.replace (m : Matrix α) (col : Nat) (path : Path) (steps : List Step)
    (q : Pattern α → Option (List (Pattern α))) : Matrix α where
  paths := splice m.paths col (steps.map fun step => path ++ [step])
  rows := m.rows.filterMap fun r => (q (r.pat col)).map (r.splice col)

theorem Matrix.expand_eq (m : Matrix α) (col : Nat) (path : Path) (sh : Shape) :
    m.expand col path sh =
      m.replace col path (Shape.steps sh) fun p => some (components sh p) := by
  simp [Matrix.expand, Matrix.replace, List.filterMap_eq_map']

/-- What becomes of a pattern when a tag is found. -/
def specialized (tag : Tag) (p : Pattern α) : Option (List (Pattern α)) :=
  if p.isWild = true ∨ headTag p = some tag then some (carried tag p) else none

theorem Matrix.specialize_eq (m : Matrix α) (col : Nat) (path : Path) (tag : Tag) :
    m.specialize col path tag = m.replace col path tag.steps (specialized tag) := by
  unfold Matrix.specialize Matrix.replace
  congr 1
  · cases tag with
    | con c => cases hc : c.hasArg <;> simp [Tag.steps, hc]
    | literal l => rfl
  · refine List.filterMap_congr ?_
    intro r _
    cases hp : r.pat col with
    | con note c arg =>
      by_cases htag : some (Tag.con c) = some tag
      · cases arg <;> simp [specialized, carried, headTag, Pattern.isWild, htag]
      · simp [specialized, headTag, Pattern.isWild, htag]
    | literal note l =>
      by_cases htag : some (Tag.literal l) = some tag
      · simp [specialized, carried, headTag, Pattern.isWild, htag]
      · simp [specialized, headTag, Pattern.isWild, htag]
    | _ => simp [specialized, carried, headTag, Pattern.isWild]

/-- What becomes of a pattern when none of the tags of its column is found. -/
def unspecialized (p : Pattern α) : Option (List (Pattern α)) :=
  if p.isWild then some [] else none

theorem Matrix.default_eq (m : Matrix α) (col : Nat) (path : Path) :
    m.default col = m.replace col path [] unspecialized := by
  unfold Matrix.default Matrix.replace
  rw [← List.filterMap_eq_map', ← List.filterMap_eq_filter, List.filterMap_filterMap]
  congr 1
  refine List.filterMap_congr ?_
  intro r _
  cases hwild : (r.pat col).isWild <;> simp [unspecialized, hwild, Option.guard]

/-- Every row of a matrix has a pattern for every column. -/
def Matrix.Rect (m : Matrix α) : Prop := ∀ r ∈ m.rows, r.patterns.length = m.paths.length

theorem Matrix.Typed.rect (hm : m.Typed Δ τs) : m.Rect :=
  fun r hr => (hm.rows r hr).length_eq.trans hm.paths.symm

theorem Matrix.Typed.rest (hm : m.Typed Δ τs) {first : Row α} {rest : List (Row α)}
    (hrows : m.rows = first :: rest) : ({ m with rows := rest } : Matrix α).Typed Δ τs :=
  ⟨hm.paths, fun r hr => hm.rows r (hrows ▸ List.mem_cons_of_mem first hr)⟩

/-- The pattern of a row in a column, with the patterns before and after it. -/
theorem Matrix.Rect.row (hm : m.Rect) (hpath : m.paths[col]? = some path) {r : Row α}
    (hr : r ∈ m.rows) :
    ∃ ps qs, r.patterns = ps ++ r.pat col :: qs ∧ ps.length = col ∧
      qs.length = m.paths.length - (col + 1) := by
  obtain ⟨hcol, -⟩ := List.getElem?_eq_some_iff.mp hpath
  have hlen := hm r hr
  rw [← hlen] at hcol
  refine ⟨r.patterns.take col, r.patterns.drop (col + 1), ?_, ?_, ?_⟩
  · have hpat : r.pat col = r.patterns[col] := by simp [Row.pat, hcol]
    rw [hpat]
    simp
  · simp [Nat.le_of_lt hcol]
  · simp [hlen]

theorem Matrix.length_replace (hpath : m.paths[col]? = some path) (steps : List Step)
    (q : Pattern α → Option (List (Pattern α))) :
    (m.replace col path steps q).paths.length =
      col + steps.length + (m.paths.length - (col + 1)) := by
  obtain ⟨hcol, -⟩ := List.getElem?_eq_some_iff.mp hpath
  simp only [Matrix.replace, splice, List.length_append, List.length_take, List.length_map,
    List.length_drop]
  omega

theorem Matrix.Rect.replace (hm : m.Rect) (hpath : m.paths[col]? = some path) {steps : List Step}
    {q : Pattern α → Option (List (Pattern α))}
    (hq : ∀ r ∈ m.rows, ∀ qs, q (r.pat col) = some qs → qs.length = steps.length) :
    (m.replace col path steps q).Rect := by
  intro r' hr'
  obtain ⟨r, hr, heq⟩ := List.mem_filterMap.mp hr'
  obtain ⟨qs, hqs, rfl⟩ := Option.map_eq_some_iff.mp heq
  obtain ⟨ps, ps', hpatterns, hlen, hlen'⟩ := hm.row hpath hr
  rw [Matrix.length_replace hpath, Row.splice, hpatterns, splice_append _ _ _ _ hlen]
  simp only [List.length_append, hlen, hlen', hq r hr qs hqs]

/-- A column splits the paths and the types of a matrix. -/
theorem Matrix.Typed.split (hm : m.Typed Δ τs) (hpath : m.paths[col]? = some path) :
    ∃ before τ after, τs = before ++ τ :: after ∧ before.length = col := by
  obtain ⟨hcol, -⟩ := List.getElem?_eq_some_iff.mp hpath
  rw [hm.paths] at hcol
  refine ⟨τs.take col, τs[col], τs.drop (col + 1), ?_, ?_⟩
  · simp
  · simp [Nat.le_of_lt hcol]

section Column

variable {Δ : Signature} {m : Matrix α} {before after : List Tree} {τ : Tree} {col : Nat}
  {us us' : List Val} {v : Val}

/-- The pattern of a typed row in a column, with the patterns before and after it. -/
theorem Matrix.Typed.row (hm : m.Typed Δ (before ++ τ :: after)) (hcol : before.length = col)
    {r : Row α} (hr : r ∈ m.rows) :
    ∃ ps qs, r.patterns = ps ++ r.pat col :: qs ∧ ps.length = col ∧
      List.Forall₂ Δ.Admits ps before ∧ Δ.Admits (r.pat col) τ ∧
      List.Forall₂ Δ.Admits qs after := by
  obtain ⟨ps, p, qs, hpatterns, hlen, hps, hp, hqs⟩ := forall₂_split (hm.rows r hr)
  have hpat : r.pat col = p := by
    rw [Row.pat, hpatterns, ← hcol, ← hlen]
    simp
  rw [hpat]
  exact ⟨ps, qs, hpatterns, hlen.trans hcol, hps, hp, hqs⟩

theorem Matrix.Typed.admits_pat (hm : m.Typed Δ (before ++ τ :: after)) (hcol : before.length = col)
    {r : Row α} (hr : r ∈ m.rows) : Δ.Admits (r.pat col) τ := by
  obtain ⟨_, _, _, _, _, hp, _⟩ := hm.row hcol hr
  exact hp

variable {path : Path} {steps : List Step} {σs : List Tree}
  {q : Pattern α → Option (List (Pattern α))}

/-- Replacing a column by columns of the types of the parts keeps a matrix typed. -/
theorem Matrix.Typed.replace (hm : m.Typed Δ (before ++ τ :: after)) (hcol : before.length = col)
    (hpath : m.paths[col]? = some path) (hsteps : steps.length = σs.length)
    (hq : ∀ p, Δ.Admits p τ → ∀ qs, q p = some qs → Δ.AdmitsAll qs σs) :
    (m.replace col path steps q).Typed Δ (before ++ σs ++ after) := by
  constructor
  · have hpaths := hm.paths
    rw [Matrix.length_replace hpath]
    simp only [List.length_append, List.length_cons] at hpaths ⊢
    omega
  · intro r' hr'
    obtain ⟨r, hr, heq⟩ := List.mem_filterMap.mp hr'
    obtain ⟨qs, hqs, rfl⟩ := Option.map_eq_some_iff.mp heq
    obtain ⟨ps, ps', hpatterns, hlen, hps, hp, hps'⟩ := hm.row hcol hr
    rw [Row.splice, hpatterns, splice_append _ _ _ _ hlen]
    exact List.rel_append (List.rel_append hps (Signature.admitsAll_iff.mp (hq _ hp qs hqs))) hps'

/-- What replaces a pattern accepts the parts of a value exactly if the pattern accepts
the value. -/
def Reads (q : Pattern α → Option (List (Pattern α))) (v : Val) (ws : List Val)
    (p : Pattern α) : Prop :=
  match q p with
  | some qs => p.accepts v = Pattern.acceptsAll qs ws
  | none => p.accepts v = false

/-- Replacing a column keeps the hits, if the new patterns read the parts of the value in
the column. -/
theorem hits_replace (hm : m.Typed Δ (before ++ τ :: after)) (hcol : before.length = col)
    (hq : ∀ p, Δ.Admits p τ → ∀ qs, q p = some qs → Δ.AdmitsAll qs σs) {ws : List Val}
    (hus : Δ.HaveTypes us before) (hws : Δ.HaveTypes ws σs)
    (hreads : ∀ r ∈ m.rows, Reads q v ws (r.pat col)) :
    hits (m.replace col path steps q).rows (us ++ ws ++ us') =
      hits m.rows (us ++ v :: us') := by
  have huslen : us.length = col := (Signature.haveTypes_iff.mp hus).length_eq.trans hcol
  have hwslen : ws.length = σs.length := (Signature.haveTypes_iff.mp hws).length_eq
  refine hits_filterMap ?_ ?_
  · intro r hr r' heq
    obtain ⟨qs, hqs, rfl⟩ := Option.map_eq_some_iff.mp heq
    obtain ⟨ps, ps', hpatterns, hlen, -, hp, -⟩ := hm.row hcol hr
    have hqslen : qs.length = ws.length :=
      (Signature.admitsAll_iff.mp (hq _ hp qs hqs)).length_eq.trans hwslen.symm
    have hread := hreads r hr
    simp only [Reads, hqs] at hread
    refine ⟨rfl, rfl, ?_⟩
    rw [Row.splice, hpatterns, splice_append _ _ _ _ hlen, List.append_assoc, List.append_assoc,
      acceptsAll_append (hlen.trans huslen.symm), acceptsAll_append hqslen,
      acceptsAll_append (hlen.trans huslen.symm), Pattern.acceptsAll, hread]
  · intro r hr heq
    obtain ⟨ps, ps', hpatterns, hlen, -⟩ := hm.row hcol hr
    have hread := hreads r hr
    simp only [Reads, Option.map_eq_none_iff.mp heq] at hread
    rw [hpatterns, acceptsAll_append (hlen.trans huslen.symm), Pattern.acceptsAll, hread]
    simp

theorem located_column (hpath : m.paths[col]? = some path) {root : Val} (hus : us.length = col)
    (hroot : Located root m.paths (us ++ v :: us')) :
    ∃ ps ps', m.paths = ps ++ path :: ps' ∧ ps.length = col ∧ Located root ps us ∧
      root.at? path = some v ∧ Located root ps' us' := by
  obtain ⟨ps, p, ps', hpaths, hlen, hps, hp, hps'⟩ := forall₂_split hroot
  have hpeq : p = path := by
    rw [hpaths, ← hus, ← hlen] at hpath
    simpa using hpath
  subst hpeq
  exact ⟨ps, ps', hpaths, hlen.trans hus, hps, hp, hps'⟩

/-- The parts of a value stand where the steps lead from the value. -/
theorem located_replace (hpath : m.paths[col]? = some path) {ws : List Val} {root : Val}
    (hus : us.length = col) (hparts : v.HasParts steps ws)
    (hroot : Located root m.paths (us ++ v :: us')) :
    Located root (m.replace col path steps q).paths (us ++ ws ++ us') := by
  obtain ⟨ps, ps', hpaths, hlen, hps, hp, hps'⟩ := located_column hpath hus hroot
  have hsub : Located root (steps.map fun step => path ++ [step]) ws := by
    refine List.forall₂_map_left_iff.mpr (hparts.imp ?_)
    intro step w hw
    rw [Val.at?_snoc hp, hw]
  rw [Matrix.replace, hpaths, splice_append _ _ _ _ hlen]
  exact List.rel_append (List.rel_append hps hsub) hps'

end Column

end Typecase.Match
