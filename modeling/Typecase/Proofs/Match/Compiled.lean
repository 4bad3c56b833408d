import Typecase.Proofs.Match.Bounds
import Typecase.Proofs.Match.Switch
set_option autoImplicit false

/-!
# The decision tree of a matrix

The relation `Compiled` says which tree the compiler builds for a matrix, without the
bound on the recursion and without the examples of missing values that are collected on
the way.  Compilation computes this relation.  It comes to a tree on a typed matrix, unless
the tree can fail and an example cannot be put together.
-/

namespace Typecase

theorem Decision.canFailCases_iff {cases : List (Tag × Decision)} :
    canFailCases cases = true ↔ ∃ c ∈ cases, c.2.canFail = true := by
  induction cases with
  | nil => simp [canFailCases]
  | cons c cases ih => simp [canFailCases, ih]

namespace Match

variable {α β γ : Type} {m : Matrix α} {col : Nat} {st st' : State} {path : Path} {tags : List Tag}

/-! ## Running a compilation -/

theorem bind_ok_iff {x : CompileM β} {f : β → CompileM γ} {r : γ × State} :
    (x >>= f) st = .ok r ↔ ∃ b st', x st = .ok (b, st') ∧ f b st' = .ok r := by
  show (x st >>= fun e => f e.1 e.2) = .ok r ↔ _
  cases hx : x st with
  | error e =>
    constructor
    · intro h
      cases h
    · rintro ⟨_, _, h, _⟩
      cases h
  | ok e =>
    obtain ⟨b, st'⟩ := e
    constructor
    · intro h
      exact ⟨b, st', rfl, h⟩
    · rintro ⟨c, st'', heq, h⟩
      cases heq
      exact h

theorem lift_ok_iff {x : Except Fault β} {r : β × State} :
    (liftM x : CompileM β) st = .ok r ↔ x = .ok r.1 ∧ r.2 = st := by
  obtain ⟨b, st'⟩ := r
  cases x with
  | error e =>
    constructor
    · intro h
      cases h
    · rintro ⟨h, _⟩
      cases h
  | ok c =>
    constructor
    · intro h
      cases h
      exact ⟨rfl, rfl⟩
    · rintro ⟨h, rfl⟩
      cases h
      rfl

theorem lift_ok_bind (b : β) (k : β → CompileM γ) :
    (liftM (.ok b : Except Fault β) : CompileM β) >>= k = k b := rfl

/-- Results that are listed with their arguments come from these arguments. -/
theorem mapM_pairs_inv {f : β → CompileM γ} {xs : List β} {es : List (β × γ)}
    (h : (xs.mapM fun x => do return (x, ← f x)) st = .ok (es, st')) :
    es.map (·.1) = xs ∧ ∀ e ∈ es, ∃ s s', f e.1 s = .ok (e.2, s') := by
  induction xs generalizing es st with
  | nil =>
    cases h
    exact ⟨rfl, by simp⟩
  | cons x xs ih =>
    rw [List.mapM_cons] at h
    obtain ⟨e, s, he, h⟩ := bind_ok_iff.mp h
    obtain ⟨es', s', hes, h⟩ := bind_ok_iff.mp h
    obtain ⟨y, s₁, hy, he⟩ := bind_ok_iff.mp he
    cases he
    cases h
    obtain ⟨rfl, hall⟩ := ih hes
    refine ⟨rfl, ?_⟩
    intro e he
    rcases List.mem_cons.mp he with rfl | he
    · exact ⟨st, s, hy⟩
    · exact hall e he

/-- At the end of a branch an example is put together, or the compiler breaks down. -/
theorem giveUp_run (facts : List Fact) (st : State) :
    giveUp facts st =
      match Witness.ofFacts (fun p => LabelMap.find? st.shapes p.render) facts with
      | some w => .ok (.fail, { st with witnesses := st.witnesses ++ [w] })
      | none => .error .outOfRange := by
  show (match Witness.ofFacts _ facts with
    | some w => _
    | none => _ : CompileM Decision) st = _
  cases Witness.ofFacts (fun p => LabelMap.find? st.shapes p.render) facts <;> rfl

theorem giveUp_ok {facts : List Fact} {d : Decision} (h : giveUp facts st = .ok (d, st')) :
    d = .fail := by
  rw [giveUp_run] at h
  split at h
  · cases h
    rfl
  · cases h

/-- A compilation comes to `b`, unless it breaks down on an example; it can do so only if `p`. -/
def ComesTo (x : CompileM β) (b : β) (p : Prop) : Prop :=
  ∀ st, (∃ st', x st = .ok (b, st')) ∨ x st = .error .outOfRange ∧ p

section ComesTo

variable {x : CompileM β} {b : β} {p q : Prop}

theorem comesTo_pure : ComesTo (pure b) b p := fun st => .inl ⟨st, rfl⟩

theorem ComesTo.imp (h : ComesTo x b p) (hpq : p → q) : ComesTo x b q :=
  fun st => (h st).imp_right fun herror => ⟨herror.1, hpq herror.2⟩

theorem ComesTo.bind {k : β → CompileM γ} {c : γ} (hx : ComesTo x b p) (hk : ComesTo (k b) c p) :
    ComesTo (x >>= k) c p := by
  intro st
  show (∃ st', (x st >>= fun e => k e.1 e.2) = .ok (c, st')) ∨
    (x st >>= fun e => k e.1 e.2) = .error .outOfRange ∧ p
  rcases hx st with ⟨st', hst'⟩ | ⟨herror, hp⟩
  · rw [hst']
    exact hk st'
  · rw [herror]
    exact .inr ⟨rfl, hp⟩

theorem ComesTo.mapM {f : β → CompileM γ} {g : β → γ} {xs : List β}
    (h : ∀ x ∈ xs, ComesTo (f x) (g x) p) : ComesTo (xs.mapM f) (xs.map g) p := by
  induction xs with
  | nil => exact comesTo_pure
  | cons x xs ih =>
    rw [List.mapM_cons]
    exact (h x List.mem_cons_self).bind
      ((ih fun y hy => h y (List.mem_cons_of_mem x hy)).bind comesTo_pure)

theorem comesTo_giveUp (facts : List Fact) : ComesTo (giveUp facts) .fail True := by
  intro st
  rw [giveUp_run]
  split
  · exact .inl ⟨_, rfl⟩
  · exact .inr ⟨rfl, trivial⟩

end ComesTo

/-! ## The tree -/

/-- The first row of a normal matrix tests the column at `path`, and `tags` are the tags
of this column. -/
structure Branches (m : Matrix α) (col : Nat) (path : Path) (tags : List Tag) : Prop where
  tested : ∃ first rest, m.rows = first :: rest ∧ (first.pat col).isWild = false
  path : m.paths[col]? = some path
  tags : columnTags m.rows col = .ok tags

/-- The decision tree of a matrix. -/
inductive Compiled : Matrix α → Decision → Prop
  /-- No row is left. -/
  | fail {m : Matrix α} : m.rows = [] → Compiled m .fail
  /-- The first row tests nothing. -/
  | leaf {m m' : Matrix α} {first : Row α} {rest : List (Row α)} : Normalizes 0 m m' →
      m'.rows = first :: rest → (∀ p ∈ first.patterns, p.isWild = true) →
      first.guarded = false → Compiled m (.leaf first.clause first.bindings none)
  /-- The first row tests nothing but its guard. -/
  | guarded {m m' : Matrix α} {first : Row α} {rest : List (Row α)} {d : Decision} :
      Normalizes 0 m m' → m'.rows = first :: rest → (∀ p ∈ first.patterns, p.isWild = true) →
      first.guarded = true → Compiled { m' with rows := rest } d →
      Compiled m (.leaf first.clause first.bindings (some d))
  /-- A column is tested for all tags that its values can have. -/
  | complete {m m' : Matrix α} {col : Nat} {path : Path} {tags : List Tag}
      {cases : List (Tag × Decision)} : Normalizes 0 m m' → Branches m' col path tags →
      isComplete tags = true → cases.map (·.1) = tags →
      (∀ e ∈ cases, Compiled (m'.specialize col path e.1) e.2) →
      Compiled m (.switch path cases none)
  /-- A column is tested for some tags. -/
  | incomplete {m m' : Matrix α} {col : Nat} {path : Path} {tags : List Tag}
      {cases : List (Tag × Decision)} {d : Decision} : Normalizes 0 m m' →
      Branches m' col path tags → isComplete tags = false → cases.map (·.1) = tags →
      (∀ e ∈ cases, Compiled (m'.specialize col path e.1) e.2) → Compiled (m'.default col) d →
      Compiled m (.switch path cases (some d))

theorem length_carried (tag : Tag) (p : Pattern α) : (carried tag p).length = tag.steps.length := by
  have hsteps : tag.steps.length = if tag.hasArg then 1 else 0 := by
    cases tag with
    | con c => cases hc : c.hasArg <;> simp [Tag.steps, Tag.hasArg, hc]
    | literal l => rfl
  rw [hsteps]
  cases p with
  | con note c arg =>
    cases arg with
    | none => simp [carried, wilds]
    | some p => cases htag : tag.hasArg <;> simp [carried, htag]
  | _ => simp [carried, wilds]

/-- Going down by a tag of the column leaves a smaller matrix. -/
theorem Branches.specialize (hm : m.Rect) (h : Branches m col path tags) {tag : Tag}
    (htag : tag ∈ tags) :
    (m.specialize col path tag).Rect ∧ (m.specialize col path tag).weight < m.weight := by
  obtain ⟨r, hr, hhead⟩ := (mem_columnTags h.tags).mp htag
  rw [Matrix.specialize_eq]
  refine ⟨hm.replace h.path ?_, ?_⟩
  · intro r' _ qs hqs
    unfold specialized at hqs
    split at hqs
    · cases hqs
      exact length_carried tag _
    · cases hqs
  · exact weight_replace_lt hm h.path (tests_specialized tag) hr (tests_specialized_lt hhead)

/-- Going down by no tag of the column leaves a smaller matrix. -/
theorem Branches.default (hm : m.Rect) (h : Branches m col path tags) :
    (m.default col).Rect ∧ (m.default col).weight < m.weight := by
  obtain ⟨first, rest, hrows, htested⟩ := h.tested
  rw [Matrix.default_eq m col path]
  refine ⟨hm.replace h.path ?_, ?_⟩
  · intro r' _ qs hqs
    unfold unspecialized at hqs
    split at hqs
    · cases hqs
      rfl
    · cases hqs
  · refine weight_replace_lt hm h.path tests_unspecialized (r := first) (by simp [hrows]) ?_
    intro qs hqs
    simp [unspecialized, htested] at hqs

/-! ## Compilation computes the tree -/

theorem Normalizes.length_rows {m' : Matrix α} (h : Normalizes col m m') :
    m'.rows.length = m.rows.length := by
  obtain ⟨opened, h⟩ := h
  induction h with
  | done => rfl
  | next _ _ _ ih => simpa [Matrix.bindAt] using ih
  | expand _ _ _ ih => simpa [Matrix.bindAt, Matrix.expand] using ih

theorem Normalizes.rows_eq_nil {m' : Matrix α} (h : Normalizes col m m') :
    m'.rows = [] ↔ m.rows = [] := by
  rw [← List.length_eq_zero_iff, h.length_rows, List.length_eq_zero_iff]

theorem Matrix.size_eq (m : Matrix α) :
    m.size = (m.rows.map fun r => Pattern.sizeList r.patterns).sum := by
  unfold Matrix.size
  induction m.rows with
  | nil => rfl
  | cons r rows ih => simp [ih]

theorem pending_le_size (m : Matrix α) : m.pending 0 ≤ m.paths.length + m.size := by
  unfold Matrix.pending
  rw [Matrix.size_eq]
  have hrows : (m.rows.map fun r => ((r.patterns.drop 0).map Pattern.spread).sum).sum ≤
      (m.rows.map fun r => Pattern.sizeList r.patterns).sum := by
    refine List.sum_le_sum ?_
    intro r _
    have hle := Pattern.weighList_le_size (Nat.le_refl (0 + 1)) r.patterns
    rw [Pattern.weighList_eq, List.sum_map_add] at hle
    rw [List.drop_zero]
    exact Nat.le_trans (Nat.le_add_right _ _) hle
  omega

theorem normalize_normalizes {m' : Matrix α} (hm : m.Rect) (h : normalize m st = .ok (m', st')) :
    Normalizes 0 m m' := by
  obtain ⟨opened, hexpands, -⟩ := normalizeAt_expands hm (pending_le_size m) h
  exact ⟨opened, hexpands⟩

/-- The tested column of a normal matrix. -/
theorem tested_column (hm : m.Rect) {first : Row α} {rest : List (Row α)}
    (hrows : m.rows = first :: rest) (hcol : first.patterns.findIdx? (!·.isWild) = some col) :
    m.paths[col]? = some (m.paths.getD col []) ∧ (first.pat col).isWild = false := by
  obtain ⟨hlt, htest, -⟩ := List.findIdx?_eq_some_iff_getElem.mp hcol
  have hlen := hm first (by simp [hrows])
  constructor
  · have hpath : col < m.paths.length := hlen ▸ hlt
    simp [hpath]
  · simpa [Row.pat, hlt] using htest

theorem weight_rest {first : Row α} {rest : List (Row α)} (hrows : m.rows = first :: rest) :
    ({ m with rows := rest } : Matrix α).weight < m.weight := by
  simp only [Matrix.weight, hrows, List.map_cons, List.sum_cons]
  omega

/-- Bounded by more than its weight, compilation of a matrix computes its tree. -/
theorem compileAt_compiled {n : Nat} {facts : List Fact} {d : Decision} (hm : m.Rect)
    (hn : m.weight < n) (h : compileAt n facts m st = .ok (d, st')) : Compiled m d := by
  induction n generalizing facts m d st st' with
  | zero => omega
  | succ n ih =>
    rw [compileAt] at h
    split at h
    · rename_i hempty
      rw [giveUp_ok h]
      exact .fail (List.isEmpty_iff.mp hempty)
    · rename_i hempty
      obtain ⟨m', st₁, hnormalize, h⟩ := bind_ok_iff.mp h
      have hnormal := normalize_normalizes hm hnormalize
      obtain ⟨hrect, hplain⟩ := hnormal.plain hm (by simp)
      have hweight := hnormal.weight_le hm
      cases hrows : m'.rows with
      | nil => exact absurd (List.isEmpty_iff.mpr (hnormal.rows_eq_nil.mp hrows)) hempty
      | cons first rest =>
        simp only [hrows] at h
        cases hcol : first.patterns.findIdx? (!·.isWild) with
        | none =>
          have hwild : ∀ p ∈ first.patterns, p.isWild = true := by
            simpa using List.findIdx?_eq_none_iff.mp hcol
          simp only [hcol] at h
          split at h
          · rename_i hguarded
            obtain ⟨d', st₂, hrest, h⟩ := bind_ok_iff.mp h
            cases h
            refine .guarded hnormal hrows hwild hguarded (ih ?_ ?_ hrest)
            · intro r hr
              exact hrect r (by simp [hrows, hr])
            · have hlight := weight_rest hrows
              omega
          · rename_i hguarded
            cases h
            exact .leaf hnormal hrows hwild (by simpa using hguarded)
        | some col =>
          simp only [hcol] at h
          obtain ⟨hpath, htested⟩ := tested_column hrect hrows hcol
          generalize m'.paths.getD col [] = path at hpath h
          obtain ⟨tags, st₂, htags, h⟩ := bind_ok_iff.mp h
          obtain ⟨htags, -⟩ := lift_ok_iff.mp htags
          obtain ⟨cases, st₃, hcases, h⟩ := bind_ok_iff.mp h
          have hbranches : Branches m' col path tags :=
            ⟨⟨first, rest, hrows, htested⟩, hpath, hrows ▸ htags⟩
          obtain ⟨hmap, hruns⟩ := mapM_pairs_inv hcases
          have hcompiled : ∀ e ∈ cases, Compiled (m'.specialize col path e.1) e.2 := by
            intro e he
            obtain ⟨s, s', hs⟩ := hruns e he
            obtain ⟨hrect', hlight⟩ := hbranches.specialize hrect (hmap ▸ List.mem_map_of_mem he)
            exact ih hrect' (by omega) hs
          split at h
          · rename_i hcomplete
            cases h
            exact .complete hnormal hbranches hcomplete hmap hcompiled
          · rename_i hcomplete
            obtain ⟨d', st₄, hdefault, h⟩ := bind_ok_iff.mp h
            cases h
            obtain ⟨hrect', hlight⟩ := hbranches.default hrect
            exact .incomplete hnormal hbranches (by simpa using hcomplete) hmap hcompiled
              (ih hrect' (by omega) hdefault)

/-! ## Compilation of a typed matrix -/

theorem Branches.tags_nodup (h : Branches m col path tags) : tags.Nodup := by
  rw [columnTags_eq h.tags]
  exact nodup_eraseDups _

theorem Branches.tags_ne_nil (h : Branches m col path tags)
    (hplain : ∀ r ∈ m.rows, isPlain (r.pat col) = true) : tags ≠ [] := by
  obtain ⟨first, rest, hrows, htested⟩ := h.tested
  have hfirst : first ∈ m.rows := by simp [hrows]
  have hhead : (headTag (first.pat col)).isSome = true := by
    simpa [isPlain, htested] using hplain first hfirst
  obtain ⟨tag, htag⟩ := Option.isSome_iff_exists.mp hhead
  exact List.ne_nil_of_mem ((mem_columnTags h.tags).mpr ⟨first, hfirst, htag⟩)

/-- The column that a typed matrix tests. -/
theorem Branches.opens {Δ : Signature} {before after : List Tree} {τ : Tree}
    (h : Branches m col path tags) (hm : m.Typed Δ (before ++ τ :: after))
    (hcol : before.length = col) : ∀ tag ∈ tags, ∃ σs, Δ.Opens τ tag σs := by
  intro tag htag
  obtain ⟨r, hr, hhead⟩ := (mem_columnTags h.tags).mp htag
  exact (hm.admits_pat hcol hr).opens hhead

/-- Matrices whose columns have shapes and tags, in whatever way they are taken apart. -/
structure Compilable (G : Matrix α → Prop) : Prop where
  rect : ∀ {m}, G m → m.Rect
  shape : ∀ {m col path}, G m → m.paths[col]? = some path →
    ∃ sh, columnShape (m.bindAt col path).rows col = .ok sh
  bindAt : ∀ {m col path}, G m → m.paths[col]? = some path → G (m.bindAt col path)
  expand : ∀ {m col path sh}, G m → m.paths[col]? = some path →
    columnShape (m.bindAt col path).rows col = .ok (some sh) →
    G ((m.bindAt col path).expand col path sh)
  rest : ∀ {m first rest}, G m → m.rows = first :: rest → G { m with rows := rest }
  tags : ∀ {m col path}, G m → m.paths[col]? = some path → ∃ tags, columnTags m.rows col = .ok tags
  specialize : ∀ {m col path tags}, G m → Branches m col path tags → ∀ tag ∈ tags,
    G (m.specialize col path tag)
  default : ∀ {m col path tags}, G m → Branches m col path tags → G (m.default col)

/-- Normalization succeeds, whatever its bound, and its result does not depend on the state. -/
theorem Compilable.normalizeAt {G : Matrix α → Prop} (h : Compilable G) (n col : Nat) (hm : G m) :
    ∃ m', G m' ∧ ∀ st, ∃ st', normalizeAt n col m st = .ok (m', st') := by
  induction n generalizing col m with
  | zero => exact ⟨m, hm, fun st => ⟨st, rfl⟩⟩
  | succ n ih =>
    cases hpath : m.paths[col]? with
    | none => exact ⟨m, hm, fun st => ⟨st, normalizeAt_done n st hpath⟩⟩
    | some path =>
      obtain ⟨sh, hsh⟩ := h.shape hm hpath
      cases sh with
      | none =>
        obtain ⟨m', hm', hrun⟩ := ih (col + 1) (h.bindAt hm hpath)
        refine ⟨m', hm', fun st => ?_⟩
        rw [normalizeAt_next n st hpath hsh]
        exact hrun st
      | some sh =>
        obtain ⟨m', hm', hrun⟩ := ih col (h.expand hm hpath hsh)
        refine ⟨m', hm', fun st => ?_⟩
        rw [normalizeAt_expand n st hpath hsh]
        exact hrun _

/-- Bounded by more than its weight, compilation of a matrix comes to its tree, unless the tree can
fail and the compiler breaks down on an example. -/
theorem Compilable.compileAt {G : Matrix α → Prop} (h : Compilable G) {n : Nat} (hm : G m)
    (hn : m.weight < n) :
    ∃ d, Compiled m d ∧ ∀ facts, ComesTo (compileAt n facts m) d (d.canFail = true) := by
  induction n generalizing m with
  | zero => omega
  | succ n ih =>
    by_cases hempty : m.rows.isEmpty = true
    · refine ⟨.fail, .fail (List.isEmpty_iff.mp hempty), fun facts => ?_⟩
      rw [Match.compileAt, if_pos hempty]
      exact (comesTo_giveUp facts).imp fun _ => rfl
    obtain ⟨m', hm', hnormalize⟩ := h.normalizeAt (m.paths.length + m.size) 0 hm
    have hnormal := normalize_normalizes (h.rect hm) (hnormalize ⟨[], []⟩).choose_spec
    have hweight := hnormal.weight_le (h.rect hm)
    have hcomes : ∀ p, ComesTo (normalize m) m' p := fun _ st => .inl (hnormalize st)
    cases hrows : m'.rows with
    | nil => exact absurd (List.isEmpty_iff.mpr (hnormal.rows_eq_nil.mp hrows)) hempty
    | cons first rest =>
      cases hcol : first.patterns.findIdx? (!·.isWild) with
      | none =>
        have hwild : ∀ p ∈ first.patterns, p.isWild = true := by
          simpa using List.findIdx?_eq_none_iff.mp hcol
        cases hguarded : first.guarded with
        | false =>
          refine ⟨_, .leaf hnormal hrows hwild hguarded, fun facts => ?_⟩
          rw [Match.compileAt, if_neg hempty]
          refine (hcomes _).bind ?_
          simp only [hrows, hcol, hguarded, Bool.false_eq_true, if_false]
          exact comesTo_pure
        | true =>
          have hlight := weight_rest hrows
          obtain ⟨d, hd, hrest⟩ := ih (h.rest hm' hrows) (by omega)
          refine ⟨_, .guarded hnormal hrows hwild hguarded hd, fun facts => ?_⟩
          rw [Match.compileAt, if_neg hempty]
          refine (hcomes _).bind ?_
          simp only [hrows, hcol, hguarded, if_true]
          exact (hrest facts).bind comesTo_pure
      | some col =>
        obtain ⟨hpath, htested⟩ := tested_column (h.rect hm') hrows hcol
        generalize hpathAt : m'.paths.getD col [] = path at hpath
        obtain ⟨tags, htags⟩ := h.tags hm' hpath
        have hbranches : Branches m' col path tags :=
          ⟨⟨first, rest, hrows, htested⟩, hpath, htags⟩
        have hlift : ∀ p, ComesTo (liftM (columnTags m'.rows col)) tags p := by
          intro p st
          exact .inl ⟨st, lift_ok_iff.mpr ⟨htags, rfl⟩⟩
        rw [hrows] at hlift
        have hcase : ∀ tag ∈ tags, ∃ d, Compiled (m'.specialize col path tag) d ∧
            ∀ facts, ComesTo (Match.compileAt n facts (m'.specialize col path tag)) d
              (d.canFail = true) := by
          intro tag htag
          obtain ⟨-, hlight⟩ := hbranches.specialize (h.rect hm') htag
          exact ih (h.specialize hm' hbranches tag htag) (by omega)
        choose! tree htree hrun using hcase
        have hmap : (tags.map fun tag => (tag, tree tag)).map (·.1) = tags := by
          simp [Function.comp_def]
        have hcompiled : ∀ e ∈ tags.map fun tag => (tag, tree tag),
            Compiled (m'.specialize col path e.1) e.2 := by
          simpa using htree
        have hcases : ∀ facts, ComesTo (tags.mapM fun tag => do
            return (tag, ← Match.compileAt n (facts ++ [⟨path, tag.render, tag.hasArg⟩])
              (m'.specialize col path tag))) (tags.map fun tag => (tag, tree tag))
            (Decision.canFailCases (tags.map fun tag => (tag, tree tag)) = true) := by
          refine fun facts => .mapM fun tag htag => .bind ((hrun tag htag _).imp fun hfail => ?_)
            comesTo_pure
          exact Decision.canFailCases_iff.mpr ⟨_, List.mem_map_of_mem htag, hfail⟩
        cases hcomplete : isComplete tags with
        | true =>
          refine ⟨_, .complete hnormal hbranches hcomplete hmap hcompiled, fun facts => ?_⟩
          rw [Match.compileAt, if_neg hempty]
          refine (hcomes _).bind ?_
          simp only [hrows, hcol, hpathAt]
          refine (hlift _).bind ?_
          simp only [hcomplete, if_true]
          exact (hcases facts).bind comesTo_pure
        | false =>
          obtain ⟨-, hlight⟩ := hbranches.default (h.rect hm')
          obtain ⟨d, hd, hdefault⟩ := ih (h.default hm' hbranches) (by omega)
          refine ⟨_, .incomplete hnormal hbranches hcomplete hmap hcompiled hd, fun facts => ?_⟩
          rw [Match.compileAt, if_neg hempty]
          refine (hcomes _).bind ?_
          simp only [hrows, hcol, hpathAt]
          refine (hlift _).bind ?_
          simp only [hcomplete, Bool.false_eq_true, if_false]
          refine ((hcases facts).imp fun hfail => ?_).bind
            (((hdefault _).imp fun hfail => ?_).bind comesTo_pure)
          · simp [Decision.canFail, hfail]
          · simp [Decision.canFail, hfail]

theorem compilable_typed (Δ : Signature) : Compilable fun m : Matrix α => ∃ τs, m.Typed Δ τs where
  rect := fun ⟨_, hm⟩ => hm.rect
  shape := by
    rintro m col path ⟨τs, hm⟩ hpath
    obtain ⟨before, τ, after, rfl, hcol⟩ := hm.split hpath
    obtain ⟨sh, hsh, -⟩ := columnShape_typed fun r hr =>
      (hm.bindAt hcol path).admits_pat hcol hr
    exact ⟨sh, hsh⟩
  bindAt := by
    rintro m col path ⟨τs, hm⟩ hpath
    obtain ⟨before, τ, after, rfl, hcol⟩ := hm.split hpath
    exact ⟨_, hm.bindAt hcol path⟩
  expand := by
    rintro m col path sh ⟨τs, hm⟩ hpath hsh
    obtain ⟨before, τ, after, rfl, hcol⟩ := hm.split hpath
    obtain ⟨σs, -, hrefines⟩ := hm.refines_expand hcol hpath hsh
    exact ⟨_, hrefines.typed⟩
  rest := fun ⟨τs, hm⟩ hrows => ⟨τs, hm.rest hrows⟩
  tags := by
    rintro m col path ⟨τs, hm⟩ hpath
    obtain ⟨before, τ, after, rfl, hcol⟩ := hm.split hpath
    exact columnTags_typed fun r hr => hm.admits_pat hcol hr
  specialize := by
    rintro m col path tags ⟨τs, hm⟩ hbranches tag htag
    obtain ⟨before, τ, after, rfl, hcol⟩ := hm.split hbranches.path
    obtain ⟨σs, hopens⟩ := hbranches.opens hm hcol tag htag
    exact ⟨_, hm.specialize hcol hbranches.path hopens⟩
  default := by
    rintro m col path tags ⟨τs, hm⟩ hbranches
    obtain ⟨before, τ, after, rfl, hcol⟩ := hm.split hbranches.path
    exact ⟨_, hm.default hcol hbranches.path⟩

end Match

end Typecase
