import Typecase.Proofs.Match.Columns
import Typecase.Proofs.Match.Correct
import Typecase.Proofs.Match.Descriptions
set_option autoImplicit false

/-!
# Branches that fail

The relation `Fails` says which branches of the decision tree of a matrix end without a
clause, and what is found out on their way.  The compiler leaves an example for each of
them.  It puts the example together at the end of the branch, from the facts of the
branch and from the shapes that it knows by then.  Shapes that were learned on other
branches may have overwritten each other, but without dots in labels and constructor
names they are about other parts of the scrutinee: those of the branch are known.
-/

namespace Typecase.Match

variable {α : Type} {m : Matrix α} {col : Nat} {path p : Path} {tags : List Tag}
  {findings : List Finding} {paths : List Path}

/-! ## Expanding columns -/

section Expands

variable {col : Nat} {m m' : Matrix α} {opened findings : List Finding} {path : Path}

section Opened

variable (h : Expands col m opened m')
include h

/-- Only facts are kept, and an expansion is none. -/
theorem Expands.fact? : opened.filterMap Finding.fact? = [] := by
  induction h with
  | done => rfl
  | next _ _ _ ih => exact ih
  | expand _ _ _ ih => simpa [Finding.fact?] using ih

theorem Expands.clear (hm : Clear m) : Clear m' ∧ ∀ p, Below m'.paths p → Below m.paths p := by
  induction h with
  | done => exact ⟨hm, fun _ h => h⟩
  | next hpath _ _ ih => exact ih (hm.bindAt hpath)
  | @expand col path sh opened m m' hpath hsh _ ih =>
    have hbound := hm.bindAt hpath
    obtain ⟨hclear, hbelow⟩ := ih (hbound.expand hpath hsh)
    refine ⟨hclear, ?_⟩
    intro p hp
    have hp := hbelow p hp
    rw [Matrix.expand_eq] at hp
    exact below_replace (m := m.bindAt col path) hpath hp

/-- Expanded columns lie below the columns from which normalization starts, and outside
of those that it leaves. -/
theorem Expands.outside (hm : Clear m) {e : Finding} (he : e ∈ opened) :
    Below m.paths e.path ∧ Outside m'.paths e.path := by
  induction h with
  | done => cases he
  | next hpath _ _ ih => exact ih (hm.bindAt hpath) he
  | @expand col path sh opened m m' hpath hsh hrest ih =>
    have hbound := hm.bindAt hpath
    have hclear := hbound.expand hpath hsh
    rcases List.mem_cons.mp he with rfl | he
    · refine ⟨below_of_mem (List.mem_of_getElem? hpath), ?_⟩
      have houtside : Outside ((m.bindAt col path).expand col path sh).paths path := by
        rw [Matrix.expand_eq]
        exact hbound.outside_replace hpath
      exact ⟨houtside.1, fun hbelow => houtside.2 ((hrest.clear hclear).2 path hbelow)⟩
    · obtain ⟨hbelow, houtside⟩ := ih hclear he
      rw [Matrix.expand_eq] at hbelow
      exact ⟨below_replace (m := m.bindAt col path) hpath hbelow, houtside⟩

theorem Expands.nodup (hm : Clear m) : (opened.map fun e => e.path.texts).Nodup := by
  induction h with
  | done => simp
  | next hpath _ _ ih => exact ih (hm.bindAt hpath)
  | @expand col path sh opened m m' hpath hsh hrest ih =>
    have hbound := hm.bindAt hpath
    have hclear := hbound.expand hpath hsh
    rw [List.map_cons, List.nodup_cons]
    refine ⟨?_, ih hclear⟩
    intro hmem
    obtain ⟨e, he, htexts⟩ := List.mem_map.mp hmem
    obtain ⟨c, hc, hprefix⟩ := (hrest.outside hclear he).1
    rw [Matrix.expand_eq] at hc
    exact (hbound.outside_replace hpath).2 ⟨c, hc, htexts ▸ hprefix⟩

end Opened

theorem leads_shape {sh : Shape} (h : .opened path sh ∈ findings) {step : Step}
    (hstep : step ∈ Shape.steps sh) : Leads findings path step := by
  cases sh with
  | tuple n =>
    obtain ⟨i, hi, rfl⟩ := List.mem_map.mp hstep
    exact ⟨n, h, List.mem_range.mp hi⟩
  | record ls =>
    obtain ⟨l, hl, rfl⟩ := List.mem_map.mp hstep
    exact ⟨ls, h, hl⟩

theorem leads_tag {tag : Tag} (h : .found path tag ∈ findings) {step : Step}
    (hstep : step ∈ tag.steps) : Leads findings path step := by
  cases tag with
  | con c =>
    simp only [Tag.steps] at hstep
    split at hstep
    · rename_i hc
      rw [List.mem_singleton.mp hstep]
      exact ⟨h, hc⟩
    · cases hstep
  | literal l => cases hstep

theorem grounded_replace {steps : List Step} {q : Pattern α → Option (List (Pattern α))}
    (hpath : m.paths[col]? = some path) (hm : ∀ p ∈ m.paths, Grounded findings p)
    (hsteps : ∀ step ∈ steps, Leads findings path step) :
    ∀ p ∈ (m.replace col path steps q).paths, Grounded findings p := by
  intro p hp
  rcases mem_replace_paths hpath hp with hp | ⟨step, hstep, rfl⟩
  · exact hm p hp
  · exact (hm path (List.mem_of_getElem? hpath)).snoc (hsteps step hstep)

/-- The steps to the columns that normalization leaves are shown by its expansions. -/
theorem Expands.grounded (h : Expands col m opened m') (hsub : opened ⊆ findings)
    (hm : ∀ p ∈ m.paths, Grounded findings p) :
    (∀ p ∈ m'.paths, Grounded findings p) ∧ ∀ e ∈ opened, Grounded findings e.path := by
  induction h with
  | done => exact ⟨hm, by simp⟩
  | next _ _ _ ih => exact ih hsub hm
  | @expand col path sh opened m m' hpath _ _ ih =>
    obtain ⟨hopened, hsub⟩ := List.cons_subset.mp hsub
    have hexpanded : ∀ p ∈ ((m.bindAt col path).expand col path sh).paths, Grounded findings p := by
      rw [Matrix.expand_eq]
      exact grounded_replace (m := m.bindAt col path) hpath hm fun _ => leads_shape hopened
    obtain ⟨hpaths, hrest⟩ := ih hsub hexpanded
    refine ⟨hpaths, ?_⟩
    intro e he
    rcases List.mem_cons.mp he with rfl | he
    · exact hm path (List.mem_of_getElem? hpath)
    · exact hrest e he

end Expands

/-! ## Branches -/

/-- A branch of the tree of a matrix that ends without a clause. -/
inductive Fails : Matrix α → List Finding → Prop
  /-- No row is left. -/
  | here {m : Matrix α} : m.rows = [] → Fails m []
  /-- The guard of the first row does not hold. -/
  | guarded {m m' : Matrix α} {opened findings : List Finding} {first : Row α}
      {rest : List (Row α)} : Expands 0 m opened m' → m'.rows = first :: rest →
      (∀ p ∈ first.patterns, p.isWild = true) → first.guarded = true →
      Fails { m' with rows := rest } findings → Fails m (opened ++ findings)
  /-- A test finds one of its tags. -/
  | case {m m' : Matrix α} {opened findings : List Finding} {col : Nat} {path : Path}
      {tags : List Tag} {tag : Tag} : Expands 0 m opened m' → Branches m' col path tags →
      tag ∈ tags → Fails (m'.specialize col path tag) findings →
      Fails m (opened ++ .found path tag :: findings)
  /-- A test finds none of its tags. -/
  | default {m m' : Matrix α} {opened findings : List Finding} {col : Nat} {path : Path}
      {tags : List Tag} : Expands 0 m opened m' → Branches m' col path tags →
      isComplete tags = false → Fails (m'.default col) findings →
      Fails m (opened ++ .missed path tags :: findings)

theorem below_specialize {tag : Tag} (h : Branches m col path tags)
    (hp : Below (m.specialize col path tag).paths p) : Below m.paths p := by
  rw [Matrix.specialize_eq] at hp
  exact below_replace h.path hp

theorem below_default (h : Branches m col path tags) (hp : Below (m.default col).paths p) :
    Below m.paths p := by
  rw [Matrix.default_eq m col path] at hp
  exact below_replace h.path hp

theorem outside_specialize (hm : Clear m) (h : Branches m col path tags) (tag : Tag) :
    Outside (m.specialize col path tag).paths path := by
  rw [Matrix.specialize_eq]
  exact hm.outside_replace h.path

theorem outside_default (hm : Clear m) (h : Branches m col path tags) :
    Outside (m.default col).paths path := by
  rw [Matrix.default_eq m col path]
  exact hm.outside_replace h.path

/-- What is found out lies below the columns. -/
theorem Fails.lies_below (h : Fails m findings) (hm : Clear m) :
    ∀ e ∈ findings, Below m.paths e.path := by
  induction h with
  | here => simp
  | guarded hexpands hrows _ _ _ ih =>
    obtain ⟨hclear, hbelow⟩ := hexpands.clear hm
    intro e he
    rcases List.mem_append.mp he with he | he
    · exact (hexpands.outside hm he).1
    · exact hbelow _ (ih (hclear.rest hrows) e he)
  | case hexpands hbranches htag _ ih =>
    obtain ⟨hclear, hbelow⟩ := hexpands.clear hm
    intro e he
    rcases List.mem_append.mp he with he | he
    · exact (hexpands.outside hm he).1
    · rcases List.mem_cons.mp he with rfl | he
      · exact hbelow _ (below_of_mem (List.mem_of_getElem? hbranches.path))
      · exact hbelow _ (below_specialize hbranches
          (ih (hbranches.clear_specialize hclear htag) e he))
  | default hexpands hbranches _ _ ih =>
    obtain ⟨hclear, hbelow⟩ := hexpands.clear hm
    intro e he
    rcases List.mem_append.mp he with he | he
    · exact (hexpands.outside hm he).1
    · rcases List.mem_cons.mp he with rfl | he
      · exact hbelow _ (below_of_mem (List.mem_of_getElem? hbranches.path))
      · exact hbelow _ (below_default hbranches (ih (hbranches.clear_default hclear) e he))

/-- Findings below some columns are not about the paths outside of them. -/
theorem nodup_append_outside {opened : List Finding}
    (hopened : (opened.map fun e => e.path.texts).Nodup)
    (hfindings : (findings.map fun e => e.path.texts).Nodup)
    (houtside : ∀ e ∈ opened, Outside paths e.path) (hbelow : ∀ e ∈ findings, Below paths e.path) :
    ((opened ++ findings).map fun e => e.path.texts).Nodup := by
  rw [List.map_append, List.nodup_append]
  refine ⟨hopened, hfindings, ?_⟩
  intro texts htexts texts' htexts' heq
  obtain ⟨e, he, rfl⟩ := List.mem_map.mp htexts
  obtain ⟨e', he', rfl⟩ := List.mem_map.mp htexts'
  obtain ⟨c, hc, hprefix⟩ := hbelow e' he'
  exact (houtside e he).2 ⟨c, hc, heq ▸ hprefix⟩

/-- No part of the scrutinee is looked at twice. -/
theorem Fails.nodup (h : Fails m findings) (hm : Clear m) :
    (findings.map fun e => e.path.texts).Nodup := by
  -- a tested column lies outside of the columns that the rest of the branch looks below
  have htest : ∀ {paths : List Path} {e : Finding} {findings : List Finding},
      Outside paths e.path → (∀ e' ∈ findings, Below paths e'.path) →
      (findings.map fun e => e.path.texts).Nodup →
      ((e :: findings).map fun e => e.path.texts).Nodup := by
    intro paths e findings houtside hbelow hnodup
    have hsingle : ([e].map fun e => e.path.texts).Nodup := by simp
    exact nodup_append_outside hsingle hnodup (by simpa using houtside) hbelow
  induction h with
  | here => simp
  | guarded hexpands hrows _ _ hfails ih =>
    obtain ⟨hclear, -⟩ := hexpands.clear hm
    exact nodup_append_outside (hexpands.nodup hm) (ih (hclear.rest hrows))
      (fun e he => (hexpands.outside hm he).2) (hfails.lies_below (hclear.rest hrows))
  | case hexpands hbranches htag hfails ih =>
    obtain ⟨hclear, -⟩ := hexpands.clear hm
    have hcase := hbranches.clear_specialize hclear htag
    have hbelow := hfails.lies_below hcase
    apply nodup_append_outside (hexpands.nodup hm)
      (htest (outside_specialize hclear hbranches _) hbelow (ih hcase))
      (fun e he => (hexpands.outside hm he).2)
    intro e he
    rcases List.mem_cons.mp he with rfl | he
    · exact below_of_mem (List.mem_of_getElem? hbranches.path)
    · exact below_specialize hbranches (hbelow e he)
  | default hexpands hbranches _ hfails ih =>
    obtain ⟨hclear, -⟩ := hexpands.clear hm
    have hdefault := hbranches.clear_default hclear
    have hbelow := hfails.lies_below hdefault
    apply nodup_append_outside (hexpands.nodup hm)
      (htest (outside_default hclear hbranches) hbelow (ih hdefault))
      (fun e he => (hexpands.outside hm he).2)
    intro e he
    rcases List.mem_cons.mp he with rfl | he
    · exact below_of_mem (List.mem_of_getElem? hbranches.path)
    · exact below_default hbranches (hbelow e he)

theorem Fails.unambiguous (h : Fails m findings) (hm : Clear m) : Unambiguous findings := by
  intro e he e' he' hpath
  exact List.inj_on_of_nodup_map (h.nodup hm) he he' (congrArg Path.texts hpath)

/-- The steps to what is found out are shown by what was found out before. -/
theorem Fails.grounded (h : Fails m findings) {all : List Finding} (hsub : findings ⊆ all)
    (hm : ∀ p ∈ m.paths, Grounded all p) : ∀ e ∈ findings, Grounded all e.path := by
  induction h with
  | here => simp
  | guarded hexpands _ _ _ _ ih =>
    obtain ⟨hopened, hsub⟩ := List.append_subset.mp hsub
    obtain ⟨hpaths, hground⟩ := hexpands.grounded hopened hm
    intro e he
    rcases List.mem_append.mp he with he | he
    · exact hground e he
    · exact ih hsub hpaths e he
  | @case m m' opened findings col path tags tag hexpands hbranches _ _ ih =>
    obtain ⟨hopened, hsub⟩ := List.append_subset.mp hsub
    obtain ⟨hfound, hsub⟩ := List.cons_subset.mp hsub
    obtain ⟨hpaths, hground⟩ := hexpands.grounded hopened hm
    have hcase : ∀ p ∈ (m'.specialize col path tag).paths, Grounded all p := by
      rw [Matrix.specialize_eq]
      exact grounded_replace hbranches.path hpaths fun _ => leads_tag hfound
    intro e he
    rcases List.mem_append.mp he with he | he
    · exact hground e he
    · rcases List.mem_cons.mp he with rfl | he
      · exact hpaths path (List.mem_of_getElem? hbranches.path)
      · exact ih hsub hcase e he
  | @default m m' opened findings col path tags hexpands hbranches _ _ ih =>
    obtain ⟨hopened, hsub⟩ := List.append_subset.mp hsub
    obtain ⟨hmissed, hsub⟩ := List.cons_subset.mp hsub
    obtain ⟨hpaths, hground⟩ := hexpands.grounded hopened hm
    have hdefault : ∀ p ∈ (m'.default col).paths, Grounded all p := by
      rw [Matrix.default_eq m' col path]
      exact grounded_replace hbranches.path hpaths (by simp)
    intro e he
    rcases List.mem_append.mp he with he | he
    · exact hground e he
    · rcases List.mem_cons.mp he with rfl | he
      · exact hpaths path (List.mem_of_getElem? hbranches.path)
      · exact ih hsub hdefault e he

/-! ## Known shapes -/

/-- The shape that is known of the part at a path. -/
def look (shapes : LabelMap Shape) (p : Path) : Option Shape := LabelMap.find? shapes p.render

theorem look_set_self (shapes : LabelMap Shape) (path : Path) (sh : Shape) :
    look (LabelMap.set shapes path.render sh) path = some sh := by
  rw [look, LabelMap.find?, LabelMap.lookup_set, if_pos rfl]

/-- What is learned about a column does not change what is known outside. -/
theorem look_set_outside (hpath : path ∈ paths) (hdotless : path.Dotless) (hp : Outside paths p)
    (shapes : LabelMap Shape) (sh : Shape) :
    look (LabelMap.set shapes path.render sh) p = look shapes p := by
  have hne : p.render ≠ path.render := by
    intro heq
    have htexts := Path.texts_eq_of_render hp.1 hdotless heq
    exact hp.2 ⟨path, hpath, htexts ▸ List.prefix_rfl⟩
  rw [look, LabelMap.find?, LabelMap.lookup_set, if_neg hne]
  rfl

/-- The shapes of the given findings are known. -/
def Knows (shapes : LabelMap Shape) (findings : List Finding) : Prop :=
  ∀ path sh, .opened path sh ∈ findings → look shapes path = some sh

/-- The shapes in a state are those given, except below some columns. -/
def Keeps (shapes : LabelMap Shape) (paths : List Path) (st : State) : Prop :=
  ∀ p, Outside paths p → look st.shapes p = look shapes p

theorem Outside.mono {paths' : List Path} (h : Outside paths p)
    (hbelow : ∀ p, Below paths' p → Below paths p) : Outside paths' p :=
  ⟨h.1, fun hp => h.2 (hbelow p hp)⟩

/-- What is expanded is known afterwards, and nothing changes outside. -/
theorem Expands.knows {opened : List Finding} {m' : Matrix α} (h : Expands col m opened m')
    (hm : Clear m) (shapes : LabelMap Shape) : Knows (opened.foldl Finding.note shapes) opened ∧
      ∀ p, Outside m.paths p → look (opened.foldl Finding.note shapes) p = look shapes p := by
  induction h generalizing shapes with
  | done => exact ⟨by simp [Knows], fun _ _ => rfl⟩
  | next hpath _ _ ih => exact ih (hm.bindAt hpath) shapes
  | @expand col path sh opened m m' hpath hsh _ ih =>
    have hbound := hm.bindAt hpath
    obtain ⟨hknows, hkeeps⟩ := ih (hbound.expand hpath hsh) (LabelMap.set shapes path.render sh)
    rw [Matrix.expand_eq] at hkeeps
    refine ⟨?_, fun p hp => ?_⟩
    · intro path' sh' hmem
      rcases List.mem_cons.mp hmem with heq | hmem
      · cases heq
        exact (hkeeps path (hbound.outside_replace hpath)).trans (look_set_self shapes path sh)
      · exact hknows path' sh' hmem
    · have hpath' := List.mem_of_getElem? hpath
      exact (hkeeps p (hp.mono fun p hp => below_replace (m := m.bindAt col path) hpath hp)).trans
        (look_set_outside hpath' (hm.paths path hpath') hp shapes sh)

theorem normalize_expands {m' : Matrix α} {st st' : State} (hm : Clear m)
    (h : normalize m st = .ok (m', st')) :
    ∃ opened, Expands 0 m opened m' ∧ st'.witnesses = st.witnesses ∧
      Knows st'.shapes opened ∧ Keeps st.shapes m.paths st' := by
  obtain ⟨opened, hexpands, rfl⟩ := normalizeAt_expands hm.rect (pending_le_size m) h
  obtain ⟨hknows, hkeeps⟩ := hexpands.knows hm st.shapes
  exact ⟨opened, hexpands, rfl, hknows, hkeeps⟩

/-! ## The examples that are left -/

/-- Where a compilation from `st` ends: it leaves a state with property `K` and new examples with
property `P`, none exactly if its result does not fail; or it breaks down because there is no
example where one with property `P` was to be put together. -/
def Gathered {β : Type} (K : State → Prop) (P : Option Witness → Prop) (fails : β → Bool)
    (st : State) : Except Fault (β × State) → Prop
  | .ok r => K r.2 ∧ ∃ new, r.2.witnesses = st.witnesses ++ new ∧ (∀ w ∈ new, P (some w)) ∧
      (new ≠ [] ↔ fails r.1 = true)
  | .error e => e = .outOfRange ∧ P none

/-- From states with property `K`, a compilation leaves examples with property `P`, and
none exactly if its result does not fail. -/
def Gathers {β : Type} (K : State → Prop) (P : Option Witness → Prop) (fails : β → Bool)
    (x : CompileM β) : Prop :=
  ∀ st, K st → Gathered K P fails st (x st)

section Gathers

variable {β γ δ : Type} {K : State → Prop} {P : Option Witness → Prop} {f : β → Bool} {g : γ → Bool}
  {h : δ → Bool} {x : CompileM β} {y : CompileM γ}

theorem gathers_pure {b : β} (hb : f b = false) : Gathers K P f (pure b) :=
  fun _ hst => ⟨hst, [], by simp, by simp, by simp [hb]⟩

theorem Gathers.map (hx : Gathers K P f x) (φ : β → γ) (hφ : ∀ b, g (φ b) = f b) :
    Gathers K P g (x >>= fun b => pure (φ b)) := by
  intro st hst
  have hrun := hx st hst
  show Gathered K P g st (x st >>= fun e => .ok (φ e.1, e.2))
  cases hr : x st with
  | error e =>
    rw [hr] at hrun
    exact hrun
  | ok r =>
    rw [hr] at hrun
    obtain ⟨hst', new, hnew, hP, hiff⟩ := hrun
    exact ⟨hst', new, hnew, hP, by rw [hφ, hiff]⟩

/-- Two compilations, one after the other, whose results are put together. -/
theorem Gathers.both (hx : Gathers K P f x) (hy : Gathers K P g y) (φ : β → γ → δ)
    (hφ : ∀ b c, h (φ b c) = (f b || g c)) :
    Gathers K P h (x >>= fun b => y >>= fun c => pure (φ b c)) := by
  intro st hst
  have hrun := hx st hst
  show Gathered K P h st
    (x st >>= fun e => y e.2 >>= fun e' => .ok (φ e.1 e'.1, e'.2))
  cases hr : x st with
  | error e =>
    rw [hr] at hrun
    exact hrun
  | ok r =>
    rw [hr] at hrun
    obtain ⟨hst₁, new, hnew, hP, hiff⟩ := hrun
    have hrun' := hy r.2 hst₁
    show Gathered K P h st (y r.2 >>= fun e' => .ok (φ r.1 e'.1, e'.2))
    cases hr' : y r.2 with
    | error e =>
      rw [hr'] at hrun'
      exact hrun'
    | ok r' =>
      rw [hr'] at hrun'
      obtain ⟨hst₂, new', hnew', hP', hiff'⟩ := hrun'
      refine ⟨hst₂, new ++ new', by rw [hnew', hnew, List.append_assoc], ?_, ?_⟩
      · intro w hw
        exact (List.mem_append.mp hw).elim (hP w) (hP' w)
      · rw [hφ, Bool.or_eq_true, ← hiff, ← hiff', ne_eq, List.append_eq_nil_iff, not_and_or]

/-- A compilation that goes on from where another, which adds no examples, has led. -/
theorem Gathered.before {K' : State → Prop} {k : β → CompileM γ} {b : β} {st st₁ : State}
    (hrun : x st = .ok (b, st₁)) (hsame : st₁.witnesses = st.witnesses) (hK : ∀ st, K' st → K st)
    (hrest : Gathered K' P g st₁ (k b st₁)) : Gathered K P g st ((x >>= k) st) := by
  show Gathered K P g st (x st >>= fun e => k e.1 e.2)
  rw [hrun]
  show Gathered K P g st (k b st₁)
  cases hr : k b st₁ with
  | error e =>
    rw [hr] at hrest
    exact hrest
  | ok r =>
    rw [hr] at hrest
    obtain ⟨hst', new, hnew, hrest⟩ := hrest
    exact ⟨hK _ hst', new, by rw [hnew, hsame], hrest⟩

theorem Gathers.cases {f : Tag → CompileM Decision}
    (h : ∀ tag ∈ tags, Gathers K P Decision.canFail (f tag)) :
    Gathers K P Decision.canFailCases (tags.mapM fun tag => do return (tag, ← f tag)) := by
  induction tags with
  | nil => exact gathers_pure rfl
  | cons tag tags ih =>
    rw [List.mapM_cons]
    have hfirst : Gathers K P (fun e : Tag × Decision => e.2.canFail)
        (f tag >>= fun d => pure (tag, d)) :=
      (h tag List.mem_cons_self).map _ fun _ => rfl
    exact hfirst.both (ih fun t ht => h t (List.mem_cons_of_mem tag ht)) _ fun _ _ => rfl

end Gathers

/-- A witness is put together at the end of a branch of the matrix that fails, from
facts that hold above the matrix and the facts of the branch.  The shapes that the
branch expands are known by then, and so are those outside of the columns. -/
def Reports (shapes : LabelMap Shape) (facts : List Fact) (m : Matrix α) (w : Option Witness) :
    Prop :=
  ∃ findings known, Fails m findings ∧
    w = Witness.ofFacts (look known) (facts ++ findings.filterMap Finding.fact?) ∧
    Knows known findings ∧ ∀ p, Outside m.paths p → look known p = look shapes p

section Descend

variable {m m' sub : Matrix α} {opened : List Finding} {facts facts' : List Fact}
  {shapes shapes' : LabelMap Shape} (found : List Finding) (hm : Clear m)
  (hexpands : Expands 0 m opened m')
  (hfound : ∀ path sh, .opened path sh ∉ found)
  (hfacts : facts' = facts ++ found.filterMap Finding.fact?)
  (hfails : ∀ findings, Fails sub findings → Fails m (opened ++ (found ++ findings)))
  (hbelow : ∀ p, Below sub.paths p → Below m'.paths p)
  (hknows : Knows shapes' opened)
  (hshapes : ∀ p, Outside m.paths p → look shapes' p = look shapes p)
include hm hexpands hfound hfacts hfails hbelow hknows hshapes

/-- What is reported of a matrix further down is reported of the matrix above. -/
theorem Reports.ascend {st : State} (hst : Keeps shapes' m'.paths st) {w : Option Witness}
    (h : Reports st.shapes facts' sub w) : Reports shapes facts m w := by
  obtain ⟨findings, known, hsub, rfl, hknown, hkept⟩ := h
  have hlook : ∀ p, Outside m'.paths p → look known p = look shapes' p := by
    intro p hp
    rw [hkept p (hp.mono hbelow), hst p hp]
  refine ⟨opened ++ (found ++ findings), known, hfails findings hsub, ?_, ?_, ?_⟩
  · rw [hfacts, List.filterMap_append, List.filterMap_append, hexpands.fact?, List.nil_append,
      List.append_assoc]
  · intro path sh hmem
    rcases List.mem_append.mp hmem with hmem | hmem
    · rw [hlook path (hexpands.outside hm hmem).2]
      exact hknows path sh hmem
    · rcases List.mem_append.mp hmem with hmem | hmem
      · exact absurd hmem (hfound path sh)
      · exact hknown path sh hmem
  · intro p hp
    rw [hlook p (hp.mono (hexpands.clear hm).2), hshapes p hp]

theorem Gathers.ascend {β : Type} {fails : β → Bool} {x : CompileM β}
    (h : ∀ shapes, Gathers (Keeps shapes sub.paths) (Reports shapes facts' sub) fails x) :
    Gathers (Keeps shapes' m'.paths) (Reports shapes facts m) fails x := by
  intro st hst
  have hreports : ∀ w, Reports st.shapes facts' sub w → Reports shapes facts m w := fun _ =>
    Reports.ascend found hm hexpands hfound hfacts hfails hbelow hknows hshapes hst
  have hrun := h st.shapes st fun _ _ => rfl
  cases hr : x st with
  | error e =>
    rw [hr] at hrun
    exact ⟨hrun.1, hreports none hrun.2⟩
  | ok r =>
    rw [hr] at hrun
    obtain ⟨hst', new, hnew, hP, hiff⟩ := hrun
    refine ⟨?_, new, hnew, fun w hw => hreports _ (hP w hw), hiff⟩
    intro p hp
    rw [hst' p (hp.mono hbelow), hst p hp]

end Descend

theorem giveUp_gathers (facts : List Fact) (hrows : m.rows = []) (shapes : LabelMap Shape) :
    Gathers (Keeps shapes m.paths) (Reports shapes facts m) Decision.canFail (giveUp facts) := by
  intro st hst
  have hreports : Reports shapes facts m (Witness.ofFacts (look st.shapes) facts) :=
    ⟨[], st.shapes, .here hrows, by simp, by simp [Knows], hst⟩
  have hlook : (fun p => LabelMap.find? st.shapes p.render) = look st.shapes := rfl
  rw [giveUp_run, hlook]
  cases hw : Witness.ofFacts (look st.shapes) facts with
  | none => exact ⟨rfl, hw ▸ hreports⟩
  | some w =>
    refine ⟨hst, [w], rfl, ?_, by simp [Decision.canFail]⟩
    intro w' hw'
    rw [List.mem_singleton.mp hw', ← hw]
    exact hreports

/-- Compilation leaves an example for every branch that fails, put together from what is
found out on the branch. -/
theorem compileAt_gathers {G : Matrix α → Prop} (hG : Compilable G) {n : Nat} (facts : List Fact)
    (hm : Clear m) (hGm : G m) (hn : m.weight < n) (shapes : LabelMap Shape) :
    Gathers (Keeps shapes m.paths) (Reports shapes facts m) Decision.canFail
      (compileAt n facts m) := by
  induction n generalizing facts m shapes with
  | zero => omega
  | succ n ih =>
    rw [compileAt]
    split
    · rename_i hempty
      exact giveUp_gathers facts (List.isEmpty_iff.mp hempty) shapes
    · rename_i hempty
      intro st hst
      obtain ⟨m', hGm', hruns⟩ := hG.normalizeAt (m.paths.length + m.size) 0 hGm
      obtain ⟨st₁, hnormalize⟩ := hruns st
      obtain ⟨opened, hexpands, hwitnesses, hknows, hkeeps⟩ := normalize_expands hm hnormalize
      obtain ⟨hclear, hbelow⟩ := hexpands.clear hm
      have hnormal : Normalizes 0 m m' := ⟨opened, hexpands⟩
      have hweight := hnormal.weight_le hm.rect
      have hshapes : ∀ p, Outside m.paths p → look st₁.shapes p = look shapes p :=
        fun p hp => (hkeeps p hp).trans (hst p hp)
      -- the examples of the rest, which starts from the shapes that normalization leaves
      suffices hrest : Gathers (Keeps st₁.shapes m'.paths) (Reports shapes facts m)
          Decision.canFail _ from Gathered.before hnormalize hwitnesses
            (fun st₂ hst₂ p hp => (hst₂ p (hp.mono hbelow)).trans (hshapes p hp))
            (hrest st₁ fun _ _ => rfl)
      cases hrows : m'.rows with
      | nil => exact absurd (List.isEmpty_iff.mpr (hnormal.rows_eq_nil.mp hrows)) hempty
      | cons first rest =>
        simp only
        cases hcol : first.patterns.findIdx? (!·.isWild) with
        | none =>
          have hwild : ∀ p ∈ first.patterns, p.isWild = true := by
            simpa using List.findIdx?_eq_none_iff.mp hcol
          simp only
          split
          · rename_i hguarded
            have hlight := weight_rest hrows
            refine Gathers.map (Gathers.ascend [] hm hexpands (by simp) (by simp)
              (fun findings hfails => .guarded hexpands hrows hwild hguarded hfails)
              (fun _ h => h) hknows hshapes
              (ih facts (hclear.rest hrows) (hG.rest hGm' hrows) (by omega))) _ fun d => ?_
            rw [Decision.canFail]
          · exact gathers_pure rfl
        | some col =>
          simp only
          obtain ⟨hpath, htested⟩ := tested_column hclear.rect hrows hcol
          generalize m'.paths.getD col [] = path at hpath ⊢
          obtain ⟨tags, htags⟩ := hG.tags hGm' hpath
          have hbranches : Branches m' col path tags :=
            ⟨⟨first, rest, hrows, htested⟩, hpath, htags⟩
          rw [hrows] at htags
          rw [htags, lift_ok_bind]
          have hcase : ∀ tag ∈ tags, Gathers (Keeps st₁.shapes m'.paths) (Reports shapes facts m)
              Decision.canFail
              (compileAt n (facts ++ [⟨path, tag.render, tag.hasArg⟩])
                (m'.specialize col path tag)) := by
            intro tag htag
            obtain ⟨-, hlight⟩ := hbranches.specialize hclear.rect htag
            exact Gathers.ascend [.found path tag] hm hexpands (by simp) rfl
              (fun findings hfails => .case hexpands hbranches htag hfails)
              (fun p hp => below_specialize hbranches hp) hknows hshapes
              (ih _ (hbranches.clear_specialize hclear htag)
                (hG.specialize hGm' hbranches tag htag) (by omega))
          cases hcomplete : isComplete tags with
          | true =>
            simp only [if_true]
            exact (Gathers.cases hcase).map _ fun _ => rfl
          | false =>
            obtain ⟨-, hlight⟩ := hbranches.default hclear.rect
            have hdefault : Gathers (Keeps st₁.shapes m'.paths) (Reports shapes facts m)
                Decision.canFail (compileAt n
                  (facts ++ [⟨path, (missingHead tags).1, (missingHead tags).2⟩])
                  (m'.default col)) :=
              Gathers.ascend [.missed path tags] hm hexpands (by simp) rfl
                (fun findings hfails => .default hexpands hbranches hcomplete hfails)
                (fun p hp => below_default hbranches hp) hknows hshapes
                (ih _ (hbranches.clear_default hclear) (hG.default hGm' hbranches) (by omega))
            simp only [Bool.false_eq_true, if_false]
            exact (Gathers.cases hcase).both hdefault _ fun _ _ => rfl

/-- Without dots there is an example for every branch that fails: compilation succeeds, and each
example describes its branch. -/
theorem compileAt_describes {G : Matrix α → Prop} (hG : Compilable G) {n : Nat} (hm : Clear m)
    (hGm : G m) (hroot : m.paths = [[]]) (hn : m.weight < n) (st : State) :
    ∃ d st' new, compileAt n [] m st = .ok (d, st') ∧ st'.witnesses = st.witnesses ++ new ∧
      (new ≠ [] ↔ d.canFail = true) ∧
      ∀ w ∈ new, ∃ findings, Fails m findings ∧ w.Describes (branchView findings) [] := by
  have hdescribes : ∀ o, Reports st.shapes [] m o → ∃ w findings, o = some w ∧ Fails m findings ∧
      w.Describes (branchView findings) [] := by
    rintro o ⟨findings, known, hbranch, rfl, hknown, -⟩
    have hground : ∀ p ∈ m.paths, Grounded findings p := by
      intro p hp
      rw [hroot, List.mem_singleton] at hp
      exact hp ▸ grounded_nil
    obtain ⟨w, hw, hdescribes⟩ := ofFacts_describes (hbranch.unambiguous hm) hknown
      (hbranch.grounded (List.Subset.refl findings) hground)
    exact ⟨w, findings, hw, hbranch, hdescribes⟩
  have hrun := compileAt_gathers hG [] hm hGm hn st.shapes st fun _ _ => rfl
  cases hr : compileAt n [] m st with
  | error e =>
    rw [hr] at hrun
    obtain ⟨w, findings, hnone, -⟩ := hdescribes none hrun.2
    cases hnone
  | ok r =>
    rw [hr] at hrun
    obtain ⟨-, new, hnew, hreports, hiff⟩ := hrun
    refine ⟨r.1, r.2, new, rfl, hnew, hiff, fun w hw => ?_⟩
    obtain ⟨w', findings, heq, hfails, hdescribes⟩ := hdescribes _ (hreports w hw)
    exact ⟨findings, hfails, Option.some.inj heq ▸ hdescribes⟩

end Typecase.Match
