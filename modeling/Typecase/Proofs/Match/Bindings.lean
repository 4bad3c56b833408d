import Typecase.Proofs.Match.FirstMatch
set_option autoImplicit false

/-!
# What a leaf binds

A pattern that accepts a value binds its names to parts of the value.  While clauses are
compiled, the names of a row move from its patterns to its bindings, where a path says
which part of the scrutinee they stand for.  What a row binds, in its patterns and in its
bindings together, stays the same up to order, so a leaf binds what the pattern of its
clause binds.
-/

namespace Typecase

namespace Pattern

variable {α : Type} {ws : List Val}

mutual

/-- The names that a pattern binds in a value that it accepts, with the parts of the value
that they are bound to. -/
def bound : Pattern α → Val → List (String × Val)
  | .wildcard _, _ => []
  | .var _ x, v => [(x, v)]
  | .omitted, _ => []
  | .layered _ x p, v => (x, v) :: bound p v
  | .literal _ _, _ => []
  | .con _ _ none, _ => []
  | .con _ _ (some p), v =>
    match v with
    | .con _ (some w) => bound p w
    | _ => []
  | .tuple _ ps, v =>
    match v with
    | .tuple vs => boundAll ps vs
    | _ => []
  | .record _ fs _, v => boundFields fs v

/-- The names that patterns bind in the values in their places. -/
def boundAll : List (Pattern α) → List Val → List (String × Val)
  | [], _ => []
  | _ :: _, [] => []
  | p :: ps, v :: vs => bound p v ++ boundAll ps vs

/-- The names that the fields of a record pattern bind. -/
def boundFields : List (String × Pattern α) → Val → List (String × Val)
  | [], _ => []
  | (l, p) :: fs, v => (v.step? (.field l)).elim [] (bound p) ++ boundFields fs v

end

mutual

/-- A pattern binds its names and no others. -/
theorem names_bound : (p : Pattern α) → {v : Val} → p.accepts v = true →
    (p.bound v).map (·.1) = p.names
  | .wildcard _, _, _ | .var _ _, _, _ | .omitted, _, _ => by simp [bound, names]
  | .layered _ x p, v, h => by
    rw [accepts] at h
    simp [bound, names, names_bound p h]
  | .literal _ _, _, _ | .con _ _ none, _, _ => by simp [bound, names]
  | .con _ _ (some p), .con _ (some w), h => by
    simp only [accepts, Bool.and_eq_true] at h
    simp [bound, names, names_bound p h.2]
  | .tuple _ ps, .tuple vs, h => by
    simp only [accepts] at h
    simp [bound, names, names_boundAll ps h]
  | .record _ fs _, .record ws, h => by
    simp only [accepts] at h
    simp [bound, names, names_boundFields fs h]
  | .con _ _ (some _), .con _ none, h | .con _ _ (some _), .literal _, h
  | .con _ _ (some _), .tuple _, h | .con _ _ (some _), .record _, h
  | .con _ _ (some _), .atom _, h => by simp [accepts] at h
  | .tuple _ _, .con _ _, h | .tuple _ _, .literal _, h | .tuple _ _, .record _, h
  | .tuple _ _, .atom _, h => by simp [accepts] at h
  | .record _ _ _, .con _ _, h | .record _ _ _, .literal _, h | .record _ _ _, .tuple _, h
  | .record _ _ _, .atom _, h => by simp [accepts] at h

theorem names_boundAll : (ps : List (Pattern α)) → {vs : List Val} → acceptsAll ps vs = true →
    (boundAll ps vs).map (·.1) = namesList ps
  | [], _, _ => by simp [boundAll, namesList]
  | _ :: _, [], h => by simp [acceptsAll] at h
  | p :: ps, v :: vs, h => by
    rw [acceptsAll, Bool.and_eq_true] at h
    simp [boundAll, namesList, names_bound p h.1, names_boundAll ps h.2]

theorem names_boundFields : (fs : List (String × Pattern α)) → {v : Val} →
    acceptsFields fs v = true → (boundFields fs v).map (·.1) = namesFields fs
  | [], _, _ => by simp [boundFields, namesFields]
  | (l, p) :: fs, v, h => by
    rw [acceptsFields, Bool.and_eq_true, Option.any_eq_true] at h
    obtain ⟨⟨w, hw, hp⟩, hrest⟩ := h
    simp [boundFields, namesFields, hw, names_bound p hp, names_boundFields fs hrest]

end

theorem bound_of_isWild {p : Pattern α} (h : p.isWild = true) (v : Val) : p.bound v = [] := by
  cases p <;> simp_all [isWild, bound]

theorem boundAll_of_isWild {ps : List (Pattern α)} (h : ∀ p ∈ ps, p.isWild = true) (vs : List Val) :
    boundAll ps vs = [] := by
  induction ps generalizing vs with
  | nil => rw [boundAll]
  | cons p ps ih =>
    cases vs with
    | nil => rw [boundAll]
    | cons v vs =>
      rw [boundAll, bound_of_isWild (h p List.mem_cons_self), List.nil_append]
      exact ih (fun q hq => h q (List.mem_cons_of_mem p hq)) vs

theorem boundAll_wilds (n : Nat) (vs : List Val) :
    boundAll (Match.wilds n : List (Pattern α)) vs = [] := by
  refine boundAll_of_isWild ?_ vs
  intro p hp
  rw [(List.mem_replicate.mp hp).2]
  rfl

theorem boundAll_append {ps qs : List (Pattern α)} {vs : List Val} (h : ps.length = vs.length) :
    boundAll (ps ++ qs) (vs ++ ws) = boundAll ps vs ++ boundAll qs ws := by
  induction ps generalizing vs with
  | nil =>
    cases vs with
    | nil => simp [boundAll]
    | cons v vs => simp at h
  | cons p ps ih =>
    cases vs with
    | nil => simp at h
    | cons v vs => simp [boundAll, ih (Nat.succ.inj h)]

/-! ## Records -/

/-- What a field of a record pattern binds. -/
def boundAt (fs : List (String × Pattern α)) (v : Val) (l : String) : List (String × Val) :=
  (fs.lookup l).elim [] fun p => (v.step? (.field l)).elim [] (bound p)

theorem boundFields_eq {fs : List (String × Pattern α)} (hfs : (fs.map (·.1)).Nodup) (v : Val) :
    boundFields fs v = (fs.map (·.1)).flatMap (boundAt fs v) := by
  have hall : ∀ gs : List (String × Pattern α), (∀ g ∈ gs, g ∈ fs) →
      boundFields gs v = (gs.map (·.1)).flatMap (boundAt fs v) := by
    intro gs
    induction gs with
    | nil => simp [boundFields]
    | cons g gs ih =>
      intro hsub
      obtain ⟨l, p⟩ := g
      have hlookup := LabelMap.lookup_of_mem hfs (hsub (l, p) List.mem_cons_self)
      rw [boundFields, ih fun g hg => hsub g (List.mem_cons_of_mem _ hg)]
      simp [boundAt, hlookup]
  exact hall fs fun _ h => h

theorem boundAll_fields (fs : List (String × Pattern α)) {v : Val} {ls : List String}
    (hws : List.Forall₂ (fun l w => v.step? (.field l) = some w) ls ws) :
    boundAll (ls.map fun l => (fs.lookup l).getD .omitted) ws = ls.flatMap (boundAt fs v) := by
  induction hws with
  | nil => simp [boundAll]
  | @cons l w ls ws hw _ ih =>
    rw [List.map_cons, boundAll, ih, List.flatMap_cons]
    cases hlookup : fs.lookup l <;> simp [boundAt, hlookup, hw, bound]

/-- The fields of a record bind the same names in the order of any labels that cover them. -/
theorem boundAll_perm_boundFields {fs : List (String × Pattern α)} (hfs : (fs.map (·.1)).Nodup)
    {ls : List String} (hls : ls.Nodup) (hcovers : ∀ l ∈ fs.map (·.1), l ∈ ls) {v : Val}
    (hws : List.Forall₂ (fun l w => v.step? (.field l) = some w) ls ws) :
    (boundAll (ls.map fun l => (fs.lookup l).getD .omitted) ws).Perm (boundFields fs v) := by
  rw [boundAll_fields fs hws, boundFields_eq hfs]
  -- the labels that the pattern does not name bind nothing
  have hperm : ls.Perm (fs.map (·.1) ++ ls.diff (fs.map (·.1))) :=
    (List.subperm_append_diff_self_of_count_le fun l hl => by
      rw [List.count_eq_one_of_mem hfs hl]
      exact List.count_pos_iff.mpr (hcovers l hl)).symm
  have hnone : (ls.diff (fs.map (·.1))).flatMap (boundAt fs v) = [] := by
    rw [List.flatMap_eq_nil_iff]
    intro l hl
    have hl := (hls.mem_sdiff_iff.mp hl).2
    simp [boundAt, LabelMap.lookup_eq_none.mpr hl]
  have hflat := hperm.flatMap_right (boundAt fs v)
  rwa [List.flatMap_append, hnone, List.append_nil] at hflat

end Pattern

namespace Signature

variable {Δ : Signature} {α : Type}

/-- The components of a pattern bind what the pattern binds. -/
theorem Splits.bound {τ : Tree} {sh : Shape} {σs : List Tree} (h : Δ.Splits τ sh σs) {p : Pattern α}
    (hp : Δ.Admits p τ) (hbare : p.isBare = true) (hcovers : Match.Covers sh p) {v : Val}
    (hv : Δ.HasType v τ) {ws : List Val} (hws : v.HasParts (Match.Shape.steps sh) ws) :
    (Pattern.boundAll (Match.components sh p) ws).Perm (p.bound v) := by
  rcases h.pattern hp hbare hv hws with ⟨hwild, hwilds⟩ | ⟨note, ps, rfl, rfl, hps⟩ |
    ⟨note, fs, flexible, ls, vs, rfl, rfl, rfl, hnodup, hfs⟩
  · rw [hwilds, Pattern.bound_of_isWild hwild, Pattern.boundAll_wilds]
  · rw [hps, Pattern.bound]
  · have hparts := List.forall₂_map_left_iff.mp hws
    simp only [Match.components, LabelMap.lookup_reverse hfs, Pattern.bound]
    exact Pattern.boundAll_perm_boundFields hfs hnodup hcovers hparts

/-- What a tag carries binds what a pattern that tests for the tag binds. -/
theorem bound_carried {τ : Tree} {tag : Tag} {p : Pattern α} (hp : Δ.Admits p τ)
    (hmay : p.isWild = true ∨ Match.headTag p = some tag) {v : Val} (htag : v.tag? = some tag)
    {ws : List Val} (hws : v.HasParts tag.steps ws) :
    Pattern.boundAll (Match.carried tag p) ws = p.bound v := by
  rcases hmay with hwild | hhead
  · rw [Pattern.bound_of_isWild hwild]
    cases p <;> simp_all [Pattern.isWild, Match.carried, Pattern.boundAll_wilds]
  · cases p with
    | literal note l => simp [Match.carried, Pattern.boundAll_wilds, Pattern.bound]
    | con note c arg =>
      cases hhead
      cases arg with
      | none => simp [Match.carried, Pattern.boundAll_wilds, Pattern.bound]
      | some p =>
        obtain ⟨σ, hoffers, -⟩ := hp
        have harg := offers_hasArg hoffers
        obtain ⟨w, rfl, rfl⟩ := hasParts_arg harg htag hws
        simp [Pattern.bound, Match.carried, Tag.hasArg, harg, Pattern.boundAll]
    | _ => simp [Match.headTag] at hhead

end Signature

namespace Match

variable {α : Type} {root : Val} {Δ : Signature} {expected : Nat → List (String × Option Val)}
  {m : Matrix α}

/-! ## What a row binds -/

/-- What a row binds in a value `root` whose parts in its columns are `vs`: its names with
the parts at their paths, and the names of its patterns. -/
def Row.captures (r : Row α) (root : Val) (vs : List Val) : List (String × Option Val) :=
  (r.bindings.map fun b => (b.1, root.at? b.2)) ++
    (Pattern.boundAll r.patterns vs).map fun b => (b.1, some b.2)

/-- The rows that accept `vs` bind what is expected of their clauses. -/
def Tracks (expected : Nat → List (String × Option Val)) (root : Val) (m : Matrix α)
    (vs : List Val) : Prop :=
  ∀ r ∈ m.rows, Pattern.acceptsAll r.patterns vs = true →
    (r.captures root vs).Perm (expected r.clause)

theorem located_unique {paths : List Path} {vs ws : List Val} (h : Located root paths vs)
    (h' : Located root paths ws) : vs = ws := by
  induction h generalizing ws with
  | nil =>
    cases h'
    rfl
  | cons hv _ ih =>
    cases h' with
    | cons hw hrest => rw [Option.some.inj (hv.symm.trans hw), ih hrest]

/-- Taking the names off a pattern leaves the other names that it binds. -/
theorem strip_bound (path : Path) (p : Pattern α) (v : Val) :
    ((Row.strip path p).1.map fun b => (b.1, v)) ++ (Row.strip path p).2.bound v = p.bound v := by
  fun_induction Row.strip path p with
  | case1 => simp [Pattern.bound]
  | case2 note x p bindings q heq ih =>
    rw [heq] at ih
    simp [Pattern.bound, ← ih]
  | case3 => simp

theorem strip_paths (path : Path) (p : Pattern α) : ∀ b ∈ (Row.strip path p).1, b.2 = path := by
  fun_induction Row.strip path p with
  | case1 => simp
  | case2 note x p bindings q heq ih =>
    rw [heq] at ih
    simpa using ih
  | case3 => simp

section Column

variable {expected : Nat → List (String × Option Val)} {root : Val} {m : Matrix α} {col : Nat}
  {path : Path} {vs : List Val}

/-- A located column splits the values of a matrix. -/
theorem located_split (hpath : m.paths[col]? = some path) (hvs : Located root m.paths vs) :
    ∃ us v us', vs = us ++ v :: us' ∧ us.length = col ∧ root.at? path = some v := by
  obtain ⟨hcol, hget⟩ := List.getElem?_eq_some_iff.mp hpath
  have hlt : col < vs.length := hvs.length_eq ▸ hcol
  refine ⟨vs.take col, vs[col], vs.drop (col + 1), by simp, by simp [Nat.le_of_lt hlt], ?_⟩
  have hat := (List.forall₂_iff_get.mp hvs).2 col hcol hlt
  simpa [hget] using hat

/-- Binding the names of a column moves them from the patterns to the bindings. -/
theorem Tracks.bindAt (hm : m.Rect) (hpath : m.paths[col]? = some path)
    (hvs : Located root m.paths vs) (h : Tracks expected root m vs) :
    Tracks expected root (m.bindAt col path) vs := by
  obtain ⟨us, v, us', rfl, hus, hv⟩ := located_split hpath hvs
  intro r' hr' haccepts
  obtain ⟨r, hr, rfl⟩ := List.mem_map.mp hr'
  obtain ⟨ps, qs, hpatterns, hlen, -⟩ := hm.row hpath hr
  have hlen' := hlen.trans hus.symm
  have haccepts' : Pattern.acceptsAll r.patterns (us ++ v :: us') = true := by
    rw [Row.bind_patterns hpatterns hlen, acceptsAll_append hlen', Pattern.acceptsAll,
      strip_accepts] at haccepts
    rwa [hpatterns, acceptsAll_append hlen', Pattern.acceptsAll]
  refine List.Perm.trans ?_ (h r hr haccepts')
  have hpaths : ((Row.strip path (r.pat col)).1.map fun b => (b.1, root.at? b.2)) =
      ((Row.strip path (r.pat col)).1.map fun b => (b.1, v)).map fun b => (b.1, some b.2) := by
    rw [List.map_map]
    refine List.map_congr_left ?_
    intro b hb
    simp [strip_paths path _ b hb, hv]
  have hbindings : (r.bind col path).bindings = r.bindings ++ (Row.strip path (r.pat col)).1 := rfl
  unfold Row.captures
  rw [hbindings, Row.bind_patterns hpatterns hlen, hpatterns, Pattern.boundAll_append hlen',
    Pattern.boundAll_append hlen', Pattern.boundAll, Pattern.boundAll,
    ← strip_bound path (r.pat col) v, List.map_append, hpaths]
  simp only [List.map_append, List.append_assoc]
  refine List.Perm.append_left _ ?_
  simp only [← List.append_assoc]
  exact (List.perm_append_comm.append_right _).append_right _

/-- What replaces a pattern reads the parts of a value as the pattern reads the value: it
accepts no more, and binds the same. -/
def Rebinds (q : Pattern α → Option (List (Pattern α))) (v : Val) (parts : List Val)
    (p : Pattern α) : Prop :=
  ∀ qs, q p = some qs → qs.length = parts.length ∧ (Pattern.acceptsAll qs parts = true →
    p.accepts v = true ∧ (Pattern.boundAll qs parts).Perm (p.bound v))

/-- Replacing a column keeps what the rows bind. -/
theorem Tracks.replace {steps : List Step} {q : Pattern α → Option (List (Pattern α))}
    {ws : List Val} (hm : m.Rect) (hpath : m.paths[col]? = some path)
    (hvs : Located root m.paths vs) (hws : Located root (m.replace col path steps q).paths ws)
    (hparts : ∀ v, root.at? path = some v →
      ∃ parts, v.HasParts steps parts ∧ ∀ r ∈ m.rows, Rebinds q v parts (r.pat col))
    (h : Tracks expected root m vs) : Tracks expected root (m.replace col path steps q) ws := by
  obtain ⟨us, v, us', rfl, hus, hv⟩ := located_split hpath hvs
  obtain ⟨parts, hparts, hrebinds⟩ := hparts v hv
  obtain rfl : ws = us ++ parts ++ us' :=
    located_unique hws (located_replace hpath hus hparts hvs)
  intro r' hr' haccepts
  obtain ⟨r, hr, heq⟩ := List.mem_filterMap.mp hr'
  obtain ⟨qs, hqs, rfl⟩ := Option.map_eq_some_iff.mp heq
  obtain ⟨ps, ps', hpatterns, hlen, -⟩ := hm.row hpath hr
  obtain ⟨hqslen, hbinds⟩ := hrebinds r hr qs hqs
  have hlen' := hlen.trans hus.symm
  have hsplice : (r.splice col qs).patterns = ps ++ (qs ++ ps') := by
    rw [Row.splice, hpatterns, splice_append _ _ _ _ hlen, List.append_assoc]
  rw [hsplice, List.append_assoc, acceptsAll_append hlen', acceptsAll_append hqslen,
    Bool.and_eq_true, Bool.and_eq_true] at haccepts
  obtain ⟨hps, hqs, hps'⟩ := haccepts
  obtain ⟨hp, hperm⟩ := hbinds hqs
  have haccepts' : Pattern.acceptsAll r.patterns (us ++ v :: us') = true := by
    rw [hpatterns, acceptsAll_append hlen', Pattern.acceptsAll, hps, hp, hps']
    rfl
  refine List.Perm.trans ?_ (h r hr haccepts')
  unfold Row.captures
  rw [hsplice, hpatterns, List.append_assoc, Pattern.boundAll_append hlen',
    Pattern.boundAll_append hqslen, Pattern.boundAll_append hlen', Pattern.boundAll]
  exact ((hperm.append_right _).append_left _).map _ |>.append_left _

end Column

/-! ## What a tree binds -/

section Typed

variable {Δ : Signature} {expected : Nat → List (String × Option Val)} {root : Val} {m : Matrix α}
  {before after : List Tree} {τ : Tree} {col : Nat} {path : Path} {vs ws : List Val}

theorem haveTypes_located (hcol : before.length = col) (hpath : m.paths[col]? = some path)
    (hvs : Δ.HaveTypes vs (before ++ τ :: after)) (hroot : Located root m.paths vs) {v : Val}
    (hv : root.at? path = some v) : Δ.HasType v τ := by
  obtain ⟨us, w, us', rfl, hus, hw, -⟩ := haveTypes_column hvs
  have hlen : us.length = col := (Signature.haveTypes_iff.mp hus).length_eq.trans hcol
  obtain ⟨_, _, _, _, _, hw', _⟩ := located_column hpath hlen hroot
  exact Option.some.inj (hw'.symm.trans hv) ▸ hw

theorem Tracks.expand {sh : Shape} {σs : List Tree} (hm : m.Typed Δ (before ++ τ :: after))
    (hcol : before.length = col) (hpath : m.paths[col]? = some path) (hsplits : Δ.Splits τ sh σs)
    (hbare : ∀ r ∈ m.rows, (r.pat col).isBare = true)
    (hcovers : ∀ r ∈ m.rows, Covers sh (r.pat col)) (hvs : Δ.HaveTypes vs (before ++ τ :: after))
    (hroot : Located root m.paths vs) (hroot' : Located root (m.expand col path sh).paths ws)
    (h : Tracks expected root m vs) : Tracks expected root (m.expand col path sh) ws := by
  rw [Matrix.expand_eq] at hroot' ⊢
  refine h.replace hm.rect hpath hroot hroot' ?_
  intro v hv
  have hv := haveTypes_located hcol hpath hvs hroot hv
  obtain ⟨parts, hparts, htyped⟩ := hsplits.parts hv
  refine ⟨parts, hparts, ?_⟩
  intro r hr qs hqs
  cases hqs
  have hp := hm.admits_pat hcol hr
  have hlen := (Signature.admitsAll_iff.mp (hsplits.admits hp)).length_eq
  refine ⟨hlen.trans (Signature.haveTypes_iff.mp htyped).length_eq.symm, ?_⟩
  intro haccepts
  rw [← hsplits.accepts hp (hbare r hr) (hcovers r hr) hv hparts] at haccepts
  exact ⟨haccepts, hsplits.bound hp (hbare r hr) (hcovers r hr) hv hparts⟩

theorem Tracks.specialize {tag : Tag} {σs : List Tree} {v : Val}
    (hm : m.Typed Δ (before ++ τ :: after)) (hcol : before.length = col)
    (hpath : m.paths[col]? = some path) (hopens : Δ.Opens τ tag σs)
    (hvs : Δ.HaveTypes vs (before ++ τ :: after)) (hroot : Located root m.paths vs)
    (hroot' : Located root (m.specialize col path tag).paths ws) (hv : root.at? path = some v)
    (htag : v.tag? = some tag) (h : Tracks expected root m vs) :
    Tracks expected root (m.specialize col path tag) ws := by
  rw [Matrix.specialize_eq] at hroot' ⊢
  refine h.replace hm.rect hpath hroot hroot' ?_
  intro w hw
  obtain rfl := Option.some.inj (hw.symm.trans hv)
  obtain ⟨parts, hparts, -⟩ := hopens.parts (haveTypes_located hcol hpath hvs hroot hv) htag
  refine ⟨parts, hparts, ?_⟩
  intro r hr qs hqs
  unfold specialized at hqs
  split at hqs
  · rename_i hmay
    cases hqs
    have hp := hm.admits_pat hcol hr
    refine ⟨(length_carried tag _).trans hparts.length_eq, ?_⟩
    intro haccepts
    rw [← hopens.accepts hp hmay htag hparts] at haccepts
    exact ⟨haccepts, .of_eq (Signature.bound_carried hp hmay htag hparts)⟩
  · cases hqs

theorem Tracks.default (hm : m.Rect) (hpath : m.paths[col]? = some path)
    (hroot : Located root m.paths vs) (hroot' : Located root (m.default col).paths ws)
    (h : Tracks expected root m vs) : Tracks expected root (m.default col) ws := by
  rw [Matrix.default_eq m col path] at hroot' ⊢
  refine h.replace hm hpath hroot hroot' ?_
  intro v hv
  refine ⟨[], .nil, ?_⟩
  intro r hr qs hqs
  unfold unspecialized at hqs
  split at hqs
  · rename_i hwild
    cases hqs
    refine ⟨rfl, fun _ => ⟨Pattern.accepts_of_isWild hwild v, ?_⟩⟩
    rw [Pattern.bound_of_isWild hwild, Pattern.boundAll]
  · cases hqs

/-- Normalization keeps what the rows bind. -/
theorem Normalizes.tracks {m' : Matrix α} {τs : List Tree} (h : Normalizes col m m')
    (hm : m.Typed Δ τs) (hvs : Δ.HaveTypes vs τs) (hroot : Located root m.paths vs)
    (htracks : Tracks expected root m vs) :
    ∃ τs' ws, m'.Typed Δ τs' ∧ Δ.HaveTypes ws τs' ∧ Located root m'.paths ws ∧
      Tracks expected root m' ws := by
  obtain ⟨opened, h⟩ := h
  induction h generalizing τs vs with
  | done => exact ⟨τs, vs, hm, hvs, hroot, htracks⟩
  | @next col path opened m m' hpath _ _ ih =>
    obtain ⟨before, τ, after, rfl, hcol⟩ := hm.split hpath
    exact ih (hm.bindAt hcol path) hvs hroot (htracks.bindAt hm.rect hpath hroot)
  | @expand col path sh opened m m' hpath hsh _ ih =>
    obtain ⟨before, τ, after, rfl, hcol⟩ := hm.split hpath
    have hbound := hm.bindAt hcol path
    obtain ⟨sh', hsh', hfits⟩ := columnShape_typed fun r hr => hbound.admits_pat hcol hr
    cases hsh.symm.trans hsh'
    obtain ⟨σs, hsplits⟩ := hfits
    have hbare : ∀ r ∈ (m.bindAt col path).rows, (r.pat col).isBare = true :=
      fun r hr => isBare_bindAt hm hcol hr
    have hcovers : ∀ r ∈ (m.bindAt col path).rows, Covers sh (r.pat col) :=
      fun r hr => ((columnShape_shaped hsh).1 r hr).1
    have hexpand := Refines.expand hbound hcol hpath hsplits hbare hcovers
    obtain ⟨ws, hws, -, hlocated⟩ := hexpand.narrow vs hvs
    have hroot' := hlocated root hroot
    exact ih hexpand.typed hws hroot' ((htracks.bindAt hm.rect hpath hroot).expand hbound hcol hpath
      hsplits hbare hcovers hvs hroot hroot')

end Typed

/-- A value goes on to a matrix whose rows bind the same. -/
def Carries (Δ : Signature) (expected : Nat → List (String × Option Val)) (root : Val)
    (m : Matrix α) : Prop :=
  ∃ τs vs, m.Typed Δ τs ∧ Δ.HaveTypes vs τs ∧ Located root m.paths vs ∧ Tracks expected root m vs

/-- A test sends a value on to a matrix whose rows bind the same. -/
theorem Branches.carries {col : Nat} {path : Path} {tags : List Tag} (h : Branches m col path tags)
    (hplain : ∀ r ∈ m.rows, isPlain (r.pat col) = true) (hm : Carries Δ expected root m) :
    ∃ v tag, root.at? path = some v ∧ v.tag? = some tag ∧
      (tag ∈ tags → Carries Δ expected root (m.specialize col path tag)) ∧
      (tag ∉ tags → isComplete tags = false ∧ Carries Δ expected root (m.default col)) := by
  obtain ⟨τs, vs, hm, hvs, hroot, htracks⟩ := hm
  obtain ⟨v, tag, hv, htag, hcase, hdefault⟩ := h.sends hm hplain hvs
  have hv := hv root hroot
  refine ⟨v, tag, hv, htag, ?_, ?_⟩
  · intro hmem
    obtain ⟨before, τ, after, rfl, hcol⟩ := hm.split h.path
    obtain ⟨σs, hopens⟩ := h.opens hm hcol tag hmem
    obtain ⟨τs', ws, hm', hws, -, hlocated⟩ := hcase hmem
    have hroot' := hlocated root hroot
    exact ⟨τs', ws, hm', hws, hroot', htracks.specialize hm hcol h.path hopens hvs hroot hroot' hv
      htag⟩
  · intro hnotin
    obtain ⟨hincomplete, τs', ws, hm', hws, -, hlocated⟩ := hdefault hnotin
    have hroot' := hlocated root hroot
    exact ⟨hincomplete, τs', ws, hm', hws, hroot', htracks.default hm.rect h.path hroot hroot'⟩

/-- Where the first row tests nothing, all that it binds is in its bindings. -/
theorem Carries.first (h : Carries Δ expected root m) {first : Row α} {rest : List (Row α)}
    (hrows : m.rows = first :: rest) (hwild : ∀ p ∈ first.patterns, p.isWild = true) :
    (first.bindings.map fun b => (b.1, root.at? b.2)).Perm (expected first.clause) := by
  obtain ⟨τs, vs, hm, hvs, -, htracks⟩ := h
  have hfirst : first ∈ m.rows := by simp [hrows]
  have hlen : first.patterns.length = vs.length := by
    rw [(hm.rows first hfirst).length_eq, (Signature.haveTypes_iff.mp hvs).length_eq]
  have hbinds := htracks first hfirst (acceptsAll_of_isWild hlen hwild)
  rwa [Row.captures, Pattern.boundAll_of_isWild hwild, List.map_nil, List.append_nil] at hbinds

/-- The leaf that a value reaches in the tree of a matrix binds what is expected of its
clause. -/
theorem Compiled.binds {d : Decision} (h : Compiled m d) (hm : Carries Δ expected root m)
    {guard : Nat → Bool} {i : Nat} {bindings : List (String × Path)}
    (hwalk : d.walk guard root = some (.selected i bindings)) :
    (bindings.map fun b => (b.1, root.at? b.2)).Perm (expected i) := by
  -- normalization comes first in every case that has rows
  have hnormalized : ∀ {m m' : Matrix α}, Carries Δ expected root m → Normalizes 0 m m' →
      m.Rect ∧ Carries Δ expected root m' := by
    rintro m m' ⟨τs, vs, hm, hvs, hroot, htracks⟩ hnormal
    exact ⟨hm.rect, hnormal.tracks hm hvs hroot htracks⟩
  induction h with
  | fail => cases hwalk
  | @leaf m m' first rest hnormal hrows hwild hguarded =>
    obtain ⟨-, hm'⟩ := hnormalized hm hnormal
    cases hwalk
    exact hm'.first hrows hwild
  | @guarded m m' first rest d hnormal hrows hwild hguarded _ ih =>
    obtain ⟨-, hm'⟩ := hnormalized hm hnormal
    rw [Decision.walk] at hwalk
    split at hwalk
    · cases hwalk
      exact hm'.first hrows hwild
    · obtain ⟨τs, vs, htyped, hvs, hroot, htracks⟩ := hm'
      refine ih ⟨τs, vs, htyped.rest hrows, hvs, hroot, ?_⟩ hwalk
      intro r hr
      exact htracks r (hrows ▸ List.mem_cons_of_mem first hr)
  | @complete m m' col path tags cases hnormal hbranches hcomplete hcases _ ih =>
    obtain ⟨hrect, hm'⟩ := hnormalized hm hnormal
    obtain ⟨v, tag, hv, htag, hcase, hdefault⟩ :=
      hbranches.carries (hnormal.plain_pat hrect col) hm'
    have hmem : tag ∈ tags := by
      by_contra hnotin
      have hincomplete := (hdefault hnotin).1
      simp [hcomplete] at hincomplete
    obtain ⟨d, hd, hsame⟩ := Decision.walkCases_of_mem guard root (hcases.symm ▸ hmem)
    rw [Decision.walk_switch hv htag, hsame] at hwalk
    exact ih (tag, d) hd (hcase hmem) hwalk
  | @incomplete m m' col path tags cases d hnormal hbranches hcomplete hcases _ _ ihcase ih =>
    obtain ⟨hrect, hm'⟩ := hnormalized hm hnormal
    obtain ⟨v, tag, hv, htag, hcase, hdefault⟩ :=
      hbranches.carries (hnormal.plain_pat hrect col) hm'
    rw [Decision.walk_switch hv htag] at hwalk
    by_cases hmem : tag ∈ tags
    · obtain ⟨d', hd', hsame⟩ := Decision.walkCases_of_mem guard root (hcases.symm ▸ hmem)
      rw [hsame] at hwalk
      exact ihcase (tag, d') hd' (hcase hmem) hwalk
    · rw [Decision.walkCases_of_notMem (hcases.symm ▸ hmem)] at hwalk
      exact ih (hdefault hmem).2 hwalk

/-! ## What the leaves of a match bind -/

/-- A leaf that a value reaches binds exactly the names of the pattern of its clause, each to
the part of the value that the pattern binds it to.  All well typed clauses are accepted but those
with dots on which the compiler breaks down. -/
theorem leaf_binds (Δ : Signature) (t : Ty) (clauses : List (Clause α))
    (h : WellTyped Δ clauses (Δ.store.resolve t)) :
    (compile Δ.store clauses (some t) = .error .outOfRange ∧ ∃ c ∈ clauses, ¬ c.pattern.Dotless) ∨
    ∃ r, compile Δ.store clauses (some t) = .ok r ∧
      ∀ v, Δ.HasType v (Δ.store.resolve t) → ∀ (guard : Nat → Bool) i bindings,
        r.tree.walk guard v = some (.selected i bindings) →
        ∃ c, clauses[i]? = some c ∧ c.pattern.accepts v = true ∧
          (bindings.map (·.1)).Perm c.pattern.names ∧
          (bindings.map fun b => (b.1, v.at? b.2)).Perm
            ((c.pattern.bound v).map fun b => (b.1, some b.2)) := by
  obtain ⟨d, htree, ⟨r, hr, -, rfl⟩ | ⟨hr, -, hdots⟩⟩ :=
    (compilable_typed Δ).compile ⟨_, h.matrix⟩ h.nonempty h.given Δ.store t
  on_goal 2 => exact .inl ⟨hr, hdots⟩
  refine .inr ⟨r, hr, ?_⟩
  intro v hv guard i bindings hwalk
  obtain ⟨o, hwalk', ho⟩ := h.walk htree hv guard
  obtain rfl := Option.some.inj (hwalk.symm.trans hwalk')
  obtain ⟨c, hc, haccepts, -⟩ := (firstHit_eq_some_iff.mp ho.symm).1
  -- a row binds what the pattern of its clause binds
  let expected (i : Nat) : List (String × Option Val) :=
    (clauses[i]?).elim [] fun c => (c.pattern.bound v).map fun b => (b.1, some b.2)
  have htracks : Tracks expected v (Matrix.ofClauses clauses) [v] := by
    intro r hr _
    obtain ⟨⟨c, j⟩, hmem, rfl⟩ := List.mem_map.mp hr
    have hj : clauses[j]? = some c := List.mem_zipIdx_iff_getElem?.mp hmem
    simp [Row.captures, Pattern.boundAll, expected, hj]
  have hbinds := htree.binds ⟨[Δ.store.resolve t], [v], h.matrix, ⟨hv, trivial⟩,
    .cons (Val.at?_nil v) .nil, htracks⟩ hwalk
  simp only [expected, hc, Option.elim_some] at hbinds
  refine ⟨c, hc, haccepts, ?_, hbinds⟩
  have hnames := hbinds.map (·.1)
  rw [List.map_map, List.map_map] at hnames
  rwa [← Pattern.names_bound c.pattern haccepts]

/-- The clauses `all as SOME x if …` and `other`, for optional integers. -/
def namedClauses : List (Clause Unit) :=
  [⟨.layered () "all" (.con () someCon (some (.var () "x"))), true⟩, ⟨.var () "other", false⟩]

theorem leaf_binds_named :
    WellTyped optionSignature namedClauses (optionSignature.store.resolve intOption) ∧
    ∃ r, compile optionSignature.store namedClauses (some intOption) = .ok r ∧
      ∀ v, optionSignature.HasType v (optionSignature.store.resolve intOption) →
        ∀ (guard : Nat → Bool) i bindings, r.tree.walk guard v = some (.selected i bindings) →
        ∃ c, namedClauses[i]? = some c ∧ c.pattern.accepts v = true ∧
          (bindings.map (·.1)).Perm c.pattern.names ∧
          (bindings.map fun b => (b.1, v.at? b.2)).Perm
            ((c.pattern.bound v).map fun b => (b.1, some b.2)) := by
  have hclauses : WellTyped optionSignature namedClauses
      (optionSignature.store.resolve intOption) := by
    refine ⟨by simp [namedClauses], ?_, ?_⟩
    · intro c hc
      simp only [namedClauses, List.mem_cons, List.not_mem_nil, or_false] at hc
      rcases hc with rfl | rfl <;> simp
    · intro c hc
      simp only [namedClauses, List.mem_cons, List.not_mem_nil, or_false] at hc
      rcases hc with rfl | rfl
      · exact ⟨_, offers_someCon, trivial⟩
      · trivial
  have hdots : ∀ c ∈ namedClauses, c.pattern.Dotless := by decide
  refine ⟨hclauses, (leaf_binds _ _ _ hclauses).resolve_left ?_⟩
  rintro ⟨-, c, hc, hdotted⟩
  exact hdotted (hdots c hc)

/-- The first clause binds `all` to `SOME 7` and `x` to `7`. -/
example : (Pattern.layered () "all" (.con () someCon (some (.var () "x")))).bound
    (.con someCon (some (.literal ⟨.int, "7"⟩))) =
      [("all", .con someCon (some (.literal ⟨.int, "7"⟩))), ("x", .literal ⟨.int, "7"⟩)] :=
  rfl

end Match

end Typecase
