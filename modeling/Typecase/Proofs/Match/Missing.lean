import Typecase.Proofs.Match.FirstMatch
set_option autoImplicit false

/-!
# Examples of missing values

For every branch of a decision tree that ends without a clause, the compiler shows an
example of the values that take the branch.  If no label and no constructor name of the
clauses holds a dot, all examples can be put together.  Each of them describes the type
of the scrutinee: its tuples have as many components as the type says.  It also describes
a value of the type that no unguarded clause accepts, and there are examples exactly if
the clauses are not exhaustive.

With dots in labels, two parts of the scrutinee may be confused.  An example then has the
components of the wrong tuple, or cannot be put together at all.
-/

namespace Typecase

/-! ## Views of types and values -/

/-- Values of type `τ` may have the tag, as far as the form of the type says. -/
def Signature.Suits (Δ : Signature) (τ : Tree) : Tag → Prop
  | .literal l => Δ.form τ = .constant l.kind
  | .con c => ∃ arg, (Δ.form τ).Offers c arg

/-- What a type shows of its values. -/
def Signature.view (Δ : Signature) : View Tree where
  step τ step σ :=
    match step with
    | .component i => ∃ σs, Δ.form τ = .tuple σs ∧ σs[i]? = some σ
    | .field l => ∃ fields others, Δ.form τ = .record fields others ∧ fields.lookup l = some σ
    | .arg c => (Δ.form τ).Offers c (some σ)
  arity τ n := ∃ σs, Δ.form τ = .tuple σs ∧ σs.length = n
  head τ head hasArg := ∃ tag, Δ.Suits τ tag ∧ tag.render = head ∧ tag.hasArg = hasArg

/-- What a value shows. -/
def Val.view : View Val where
  step v step w := v.step? step = some w
  arity v n := ∃ vs, v = .tuple vs ∧ vs.length = n
  head v head hasArg := ∃ tag, v.tag? = some tag ∧ tag.render = head ∧ tag.hasArg = hasArg

theorem Signature.view_functional (Δ : Signature) : Δ.view.Functional := by
  intro τ step σ ρ hσ hρ
  cases step with
  | component i =>
    obtain ⟨σs, hform, hσ⟩ := hσ
    obtain ⟨ρs, hform', hρ⟩ := hρ
    cases hform.symm.trans hform'
    exact Option.some.inj (hσ.symm.trans hρ)
  | field l =>
    obtain ⟨fields, others, hform, hσ⟩ := hσ
    obtain ⟨fields', others', hform', hρ⟩ := hρ
    cases hform.symm.trans hform'
    exact Option.some.inj (hσ.symm.trans hρ)
  | arg c => exact Option.some.inj (Signature.offers_unique hσ hρ)

theorem Val.view_functional : Val.view.Functional :=
  fun _ _ _ _ hy hz => Option.some.inj (Eq.trans (Eq.symm hy) hz)

theorem Val.view_at {v w : Val} {path : Path} (h : v.at? path = some w) : Val.view.At v path w := by
  induction path generalizing v with
  | nil => exact (Option.some.inj h).symm
  | cons step path ih =>
    rw [Val.at?, List.foldlM_cons] at h
    obtain ⟨x, hx, hrest⟩ := Option.bind_eq_some_iff.mp h
    exact ⟨x, hx, ih hrest⟩

namespace Match

variable {α : Type} {Δ : Signature} {τ : Tree} {σs τs : List Tree} {m m' : Matrix α}
  {tags : List Tag} {sh : Shape} {l : String}

/-! ## Heads of missing values -/

/-- A constructor of a closed datatype that is found by its place, which no tag uses. -/
theorem missingHead_closed {d : Datatype} (hnumbered : d.Numbered) (hclosed : d.isOpen = false)
    {k : Constructor} {rest : List Tag} (htags : tags = .con (d.con k false) :: rest)
    (hne : (missingHead tags).1 ≠ "") :
    ∃ k' ∈ d.constructors, .con (d.con k' false) ∉ tags ∧
      missingHead tags = (k'.name, k'.arg.isSome) := by
  subst htags
  simp only [missingHead] at hne ⊢
  generalize hcandidates : List.filter _ _ = candidates at hne ⊢
  match candidates with
  | [] => exact absurd rfl hne
  | ((head, hasArg), i) :: others =>
    have hmem : ((head, hasArg), i) ∈ ((head, hasArg), i) :: others := List.mem_cons_self
    rw [← hcandidates] at hmem
    obtain ⟨hzip, hunused⟩ := List.mem_filter.mp hmem
    have hsibling := List.mk_mem_zipIdx_iff_getElem?.mp hzip
    simp only [Datatype.con, hclosed, Bool.false_eq_true, if_false, Option.getD_some,
      List.getElem?_map, Option.map_eq_some_iff] at hsibling
    obtain ⟨k', hk', heq⟩ := hsibling
    refine ⟨k', List.mem_of_getElem? hk', ?_, heq.symm⟩
    have htag : k'.tag = i := by
      obtain ⟨hlt, hget⟩ := List.getElem?_eq_some_iff.mp hk'
      have hplaces := congrArg (·[i]?) hnumbered
      simpa [hlt, hget] using hplaces
    simp only [Bool.not_eq_true', List.contains_eq_mem, decide_eq_false_iff_not] at hunused
    intro hused
    exact hunused (List.mem_filterMap.mpr ⟨_, hused, by simp [Datatype.con, htag]⟩)

/-- The head that stands for the missing values is possible, and not among the tags. -/
theorem missingHead_suits (hopens : ∀ tag ∈ tags, ∃ σs, Δ.Opens τ tag σs)
    (hne : (missingHead tags).1 ≠ "") :
    ∃ tag, Δ.Suits τ tag ∧ (∀ l, tag = .literal l → ∃ n : Nat, l = ⟨.int, toString n⟩) ∧
      tag ∉ tags ∧ (tag.render, tag.hasArg) = missingHead tags := by
  match tags with
  | [] => exact absurd rfl hne
  | .literal ⟨.int, text⟩ :: rest =>
    obtain ⟨σs, hopen⟩ := hopens _ List.mem_cons_self
    cases hopen with
    | constant hform =>
      simp only [missingHead] at hne ⊢
      generalize hfind : List.find? _ _ = found at hne ⊢
      cases found with
      | none => exact absurd rfl hne
      | some n =>
        have hunused := List.find?_some hfind
        refine ⟨.literal ⟨.int, toString n⟩, hform, ?_, by simpa using hunused, rfl⟩
        intro l hl
        cases hl
        exact ⟨n, rfl⟩
  | .literal ⟨.real, text⟩ :: rest => exact absurd rfl hne
  | .literal ⟨.string, text⟩ :: rest => exact absurd rfl hne
  | .literal ⟨.char, text⟩ :: rest => exact absurd rfl hne
  | .con c :: rest =>
    obtain ⟨σs, hopen⟩ := hopens _ List.mem_cons_self
    cases hopen with
    | con hoffers =>
      cases hform : Δ.form τ with
      | closed cons =>
        rw [hform] at hoffers
        obtain ⟨name, args, d, hd, hclosed, rfl⟩ := Signature.form_closed hform
        obtain ⟨k, -, heq⟩ := List.mem_map.mp hoffers
        cases heq
        obtain ⟨k', hk', hfresh, hhead⟩ :=
          missingHead_closed (Δ.numbered name d hd) hclosed rfl hne
        refine ⟨.con (d.con k' false), ⟨k'.arg.map (Δ.argument d args), ?_⟩, nofun, hfresh,
          hhead.symm⟩
        rw [hform]
        exact List.mem_map.mpr ⟨k', hk', rfl⟩
      | extensible d carried =>
        rw [hform] at hoffers
        simp [missingHead, hoffers.2.1] at hne
      | _ =>
        rw [hform] at hoffers
        exact absurd hoffers (by simp [Form.Offers])

/-! ## The type of the scrutinee -/

section View

variable {X : Type} {V : View X} {root x : X} {path : Path} {ys : List X}

/-- Columns that a path leads to stay so when one of them is replaced by its parts. -/
theorem at_replace {m : Matrix α} {col : Nat} {steps : List Step}
    {q : Pattern α → Option (List (Pattern α))} (hpath : m.paths[col]? = some path)
    {before after : List X} (hcol : before.length = col)
    (hroot : List.Forall₂ (V.At root) m.paths (before ++ x :: after))
    (hsteps : List.Forall₂ (V.step x) steps ys) :
    V.At root path x ∧
      List.Forall₂ (V.At root) (m.replace col path steps q).paths (before ++ ys ++ after) := by
  obtain ⟨ps, p, ps', hpaths, hlen, hps, hp, hps'⟩ := forall₂_split hroot
  have hpeq : p = path := by
    rw [hpaths, ← hcol, ← hlen] at hpath
    simpa using hpath
  subst hpeq
  refine ⟨hp, ?_⟩
  rw [Matrix.replace, hpaths, splice_append _ _ _ _ (hlen.trans hcol)]
  refine List.rel_append (List.rel_append hps (List.forall₂_map_left_iff.mpr ?_)) hps'
  exact hsteps.imp fun step y hy => View.at_snoc hp hy

/-- A thing has the shape of a column if it has the components. -/
theorem holds_opened {sh : Shape} (hsteps : List.Forall₂ (V.step x) (Shape.steps sh) ys)
    (harity : ∀ n, sh = .tuple n → V.arity x n) : (Finding.opened path sh).Holds V x := by
  have hstep : ∀ step ∈ Shape.steps sh, ∃ y, V.step x step y := by
    intro step hstep
    obtain ⟨i, hi, rfl⟩ := List.mem_iff_getElem.mp hstep
    exact ⟨_, (List.forall₂_iff_get.mp hsteps).2 i hi (hsteps.length_eq ▸ hi)⟩
  cases sh with
  | tuple n => exact ⟨harity n rfl, fun i hi => hstep _ (by simpa [Shape.steps] using hi)⟩
  | record ls => exact fun l hl => hstep _ (by simpa [Shape.steps] using hl)

/-- A thing has a tag if it is written like this and has the value that the tag carries. -/
theorem holds_found {tag : Tag} (hhead : V.head x tag.render tag.hasArg)
    (hsteps : List.Forall₂ (V.step x) tag.steps ys) : (Finding.found path tag).Holds V x := by
  refine ⟨hhead, ?_⟩
  rintro c rfl hc
  simp only [Tag.steps, hc, if_true] at hsteps
  cases hsteps with
  | cons hy _ => exact ⟨_, hy⟩

end View

theorem splits_view (h : Δ.Splits τ sh σs) : List.Forall₂ (Δ.view.step τ) (Shape.steps sh) σs := by
  cases h with
  | tuple hform =>
    refine List.forall₂_iff_get.mpr ⟨by simp [Shape.steps], ?_⟩
    intro i hi hi'
    simp [Shape.steps, Signature.view, hform]
  | record hform _ hls =>
    exact List.forall₂_map_left_iff.mpr (hls.imp fun l σ hl => ⟨_, _, hform, hl⟩)

theorem splits_arity (h : Δ.Splits τ sh σs) {n : Nat} (hn : sh = .tuple n) : Δ.view.arity τ n := by
  cases h with
  | tuple hform =>
    cases hn
    exact ⟨σs, hform, rfl⟩
  | record => cases hn

theorem opens_view {tag : Tag} (h : Δ.Opens τ tag σs) :
    Δ.view.head τ tag.render tag.hasArg ∧ List.Forall₂ (Δ.view.step τ) tag.steps σs := by
  cases h with
  | @constant l hform => exact ⟨⟨.literal l, hform, rfl, rfl⟩, .nil⟩
  | @con c arg hoffers =>
    refine ⟨⟨.con c, ⟨arg, hoffers⟩, rfl, rfl⟩, ?_⟩
    have harg := Signature.offers_hasArg hoffers
    cases arg with
    | none => simp [Tag.steps, harg]
    | some σ =>
      have hstep : Δ.view.step τ (.arg c) σ := hoffers
      simpa [Tag.steps, harg] using hstep

section Scrutinee

variable {τ₀ : Tree} {m m' : Matrix α} {τs : List Tree}

/-- The type of the scrutinee has the shapes that normalization finds. -/
theorem Expands.agrees_type {col : Nat} {opened : List Finding} (h : Expands col m opened m')
    (hm : m.Typed Δ τs) (hroot : List.Forall₂ (Δ.view.At τ₀) m.paths τs) :
    ∃ τs', m'.Typed Δ τs' ∧ List.Forall₂ (Δ.view.At τ₀) m'.paths τs' ∧
      Agrees Δ.view τ₀ opened := by
  induction h generalizing τs with
  | done => exact ⟨τs, hm, hroot, by simp [Agrees]⟩
  | @next col path opened m m' hpath _ _ ih =>
    obtain ⟨before, τ, after, rfl, hcol⟩ := hm.split hpath
    exact ih (hm.bindAt hcol path) hroot
  | @expand col path sh opened m m' hpath hsh _ ih =>
    obtain ⟨before, τ, after, rfl, hcol⟩ := hm.split hpath
    obtain ⟨σs, hsplits, hrefines⟩ := hm.refines_expand hcol hpath hsh
    obtain ⟨hat, hroot'⟩ := at_replace (m := m.bindAt col path)
      (q := fun p => some (components sh p)) hpath hcol hroot (splits_view hsplits)
    rw [← Matrix.expand_eq] at hroot'
    obtain ⟨τs', hm', hpaths, hagrees⟩ := ih hrefines.typed hroot'
    refine ⟨τs', hm', hpaths, List.forall_mem_cons.mpr ⟨⟨τ, hat, ?_⟩, hagrees⟩⟩
    exact holds_opened (splits_view hsplits) fun _ => splits_arity hsplits

/-- The type of the scrutinee agrees with every branch that fails. -/
theorem Fails.agrees_type {findings : List Finding} (h : Fails m findings) (hm : m.Typed Δ τs)
    (hroot : List.Forall₂ (Δ.view.At τ₀) m.paths τs) : Agrees Δ.view τ₀ findings := by
  induction h generalizing τs with
  | here => simp [Agrees]
  | guarded hexpands hrows _ _ _ ih =>
    obtain ⟨τs', hm', hroot', hopened⟩ := hexpands.agrees_type hm hroot
    exact List.forall_mem_append.mpr ⟨hopened, ih (hm'.rest hrows) hroot'⟩
  | @case m m' opened findings col path tags tag hexpands hbranches htag _ ih =>
    obtain ⟨τs', hm', hroot', hopened⟩ := hexpands.agrees_type hm hroot
    obtain ⟨before, τ, after, rfl, hcol⟩ := hm'.split hbranches.path
    obtain ⟨σs, hopens⟩ := hbranches.opens hm' hcol tag htag
    obtain ⟨hhead, hsteps⟩ := opens_view hopens
    obtain ⟨hat, hcase⟩ := at_replace (q := specialized tag) hbranches.path hcol hroot' hsteps
    rw [← Matrix.specialize_eq] at hcase
    refine List.forall_mem_append.mpr ⟨hopened, List.forall_mem_cons.mpr ⟨⟨τ, hat, ?_⟩, ?_⟩⟩
    · exact holds_found hhead hsteps
    · exact ih (hm'.specialize hcol hbranches.path hopens) hcase
  | @default m m' opened findings col path tags hexpands hbranches _ _ ih =>
    obtain ⟨τs', hm', hroot', hopened⟩ := hexpands.agrees_type hm hroot
    obtain ⟨before, τ, after, rfl, hcol⟩ := hm'.split hbranches.path
    obtain ⟨hat, hdefault⟩ := at_replace (q := unspecialized) hbranches.path hcol hroot' .nil
    rw [← Matrix.default_eq] at hdefault
    refine List.forall_mem_append.mpr ⟨hopened, List.forall_mem_cons.mpr ⟨⟨τ, hat, ?_⟩, ?_⟩⟩
    · intro hne
      obtain ⟨tag, hsuits, -, -, hhead⟩ := missingHead_suits (hbranches.opens hm' hcol) hne
      exact ⟨tag, hsuits, congrArg Prod.fst hhead, congrArg Prod.snd hhead⟩
    · exact ih (hm'.default hcol hbranches.path) hdefault

end Scrutinee

/-! ## A value that takes the branch -/

theorem splits_val (h : Δ.Splits τ sh σs) {v : Val} (hv : Δ.HasType v τ) {path : Path} :
    (Finding.opened path sh).Holds Val.view v := by
  obtain ⟨ws, hparts, -⟩ := h.parts hv
  refine holds_opened hparts ?_
  rintro n rfl
  cases h with
  | tuple hform =>
    obtain ⟨ws, rfl, hws⟩ := hv.tuple hform
    exact ⟨ws, rfl, (Signature.haveTypes_iff.mp hws).length_eq⟩

/-- Tags that are not complete leave out a value.  If a head is shown for the missing
values, the value has it. -/
theorem exists_missing (hτ : Δ.Inhabited τ)
    (hinfinite : ∀ k, {text | Δ.isConstant ⟨k, text⟩}.Infinite)
    (hnumerals : ∀ n : Nat, Δ.isConstant ⟨.int, toString n⟩)
    (hopens : ∀ tag ∈ tags, ∃ σs, Δ.Opens τ tag σs) (hnodup : tags.Nodup) (hne : tags ≠ [])
    (hcomplete : isComplete tags = false) :
    ∃ v tag, Δ.HasType v τ ∧ v.tag? = some tag ∧ tag ∉ tags ∧
      ((missingHead tags).1 ≠ "" → (tag.render, tag.hasArg) = missingHead tags) := by
  by_cases hhead : (missingHead tags).1 = ""
  · obtain ⟨v, tag, hv, htag, hnotin⟩ :=
      exists_value_of_not_isComplete hτ hinfinite hopens hnodup hne hcomplete
    exact ⟨v, tag, hv, htag, hnotin, fun hne => absurd hhead hne⟩
  · obtain ⟨tag, hsuits, hnumeral, hnotin, heq⟩ := missingHead_suits hopens hhead
    cases tag with
    | literal l =>
      obtain ⟨n, rfl⟩ := hnumeral l rfl
      exact ⟨.literal _, _, Or.inr ⟨hsuits, hnumerals n⟩, rfl, hnotin, fun _ => heq⟩
    | con c =>
      obtain ⟨arg, hoffers⟩ := hsuits
      cases arg with
      | none => exact ⟨.con c none, _, Or.inr hoffers, rfl, hnotin, fun _ => heq⟩
      | some σ =>
        obtain ⟨w, hw⟩ := (hτ.component (.arg hoffers)).value
        exact ⟨.con c (some w), _, Or.inr ⟨σ, hoffers, hw⟩, rfl, hnotin, fun _ => heq⟩

/-- Values of a matrix further down make up values that take the way there, on which the
given things are found out. -/
structure Passes (Δ : Signature) (m : Matrix α) (τs : List Tree) (found : List Finding)
    (m' : Matrix α) (τs' : List Tree) : Prop where
  typed : m'.Typed Δ τs'
  inhabited : ∀ τ ∈ τs', Δ.Inhabited τ
  lift : ∀ ws, Δ.HaveTypes ws τs' → ∃ vs, Δ.HaveTypes vs τs ∧
    hits m.rows vs = hits m'.rows ws ∧ ∀ root, Located root m.paths vs →
      Located root m'.paths ws ∧ Agrees Val.view root found

theorem Passes.trans {m₁ m₂ m₃ : Matrix α} {τs₁ τs₂ τs₃ : List Tree} {found found' : List Finding}
    (h : Passes Δ m₁ τs₁ found m₂ τs₂) (h' : Passes Δ m₂ τs₂ found' m₃ τs₃) :
    Passes Δ m₁ τs₁ (found ++ found') m₃ τs₃ where
  typed := h'.typed
  inhabited := h'.inhabited
  lift us hus := by
    obtain ⟨ws, hws, hhits, hroot⟩ := h'.lift us hus
    obtain ⟨vs, hvs, hhits', hroot'⟩ := h.lift ws hws
    refine ⟨vs, hvs, hhits'.trans hhits, ?_⟩
    intro root hvs
    obtain ⟨hws, hfound⟩ := hroot' root hvs
    obtain ⟨hus, hfound'⟩ := hroot root hws
    exact ⟨hus, List.forall_mem_append.mpr ⟨hfound, hfound'⟩⟩

theorem Refines.passes {τs' : List Tree} (h : Refines Δ m τs m' τs')
    (hτs : ∀ τ ∈ τs, Δ.Inhabited τ) : Passes Δ m τs [] m' τs' where
  typed := h.typed
  inhabited := h.inhabited hτs
  lift ws hws := by
    obtain ⟨vs, hvs, hhits, hroot⟩ := h.widen hτs ws hws
    exact ⟨vs, hvs, hhits, fun root hvs => ⟨hroot root hvs, by simp [Agrees]⟩⟩

/-- Every value has the shapes that normalization finds. -/
theorem Expands.passes {col : Nat} {opened : List Finding} (h : Expands col m opened m')
    (hm : m.Typed Δ τs) (hτs : ∀ τ ∈ τs, Δ.Inhabited τ) : ∃ τs', Passes Δ m τs opened m' τs' := by
  induction h generalizing τs with
  | done => exact ⟨τs, (Refines.refl hm).passes hτs⟩
  | @next col path opened m m' hpath _ _ ih =>
    obtain ⟨before, τ, after, rfl, hcol⟩ := hm.split hpath
    have hbind : Passes Δ m (before ++ τ :: after) [] (m.bindAt col path) (before ++ τ :: after) :=
      (Refines.bindAt hm hcol).passes hτs
    obtain ⟨τs', hrest⟩ := ih hbind.typed hτs
    exact ⟨τs', hbind.trans hrest⟩
  | @expand col path sh opened m m' hpath hsh _ ih =>
    obtain ⟨before, τ, after, rfl, hcol⟩ := hm.split hpath
    obtain ⟨σs, hsplits, hrefines⟩ := hm.refines_expand hcol hpath hsh
    have hexpand : Passes Δ m (before ++ τ :: after) [.opened path sh]
        ((m.bindAt col path).expand col path sh) (before ++ σs ++ after) := by
      refine ⟨hrefines.typed, hrefines.inhabited hτs, ?_⟩
      intro ws hws
      obtain ⟨vs, hvs, hhits, hroot⟩ := hrefines.widen hτs ws hws
      refine ⟨vs, hvs, hhits, ?_⟩
      intro root hlocated
      obtain ⟨us, v, us', rfl, hus, hv, -⟩ := haveTypes_column hvs
      have hlen := (Signature.haveTypes_iff.mp hus).length_eq
      obtain ⟨_, _, _, _, _, hat, _⟩ := located_column hpath (hlen.trans hcol) hlocated
      have hagrees : Agrees Val.view root [.opened path sh] :=
        List.forall_mem_singleton.mpr ⟨v, Val.view_at hat, splits_val hsplits hv⟩
      exact ⟨hroot root hlocated, hagrees⟩
    obtain ⟨τs', hrest⟩ := ih hexpand.typed hexpand.inhabited
    exact ⟨τs', hexpand.trans hrest⟩

section Branches

variable {m : Matrix α} {col : Nat} {path : Path} {tags : List Tag}
  (h : Branches m col path tags) {τs : List Tree} (hm : m.Typed Δ τs)
  (hτs : ∀ τ ∈ τs, Δ.Inhabited τ) (hplain : ∀ r ∈ m.rows, isPlain (r.pat col) = true)
include h hm hτs hplain

theorem Branches.passes_case {tag : Tag} (htag : tag ∈ tags) :
    ∃ τs', Passes Δ m τs [.found path tag] (m.specialize col path tag) τs' := by
  obtain ⟨before, τ, after, rfl, hcol⟩ := hm.split h.path
  obtain ⟨σs, hopens⟩ := h.opens hm hcol tag htag
  refine ⟨before ++ σs ++ after, hm.specialize hcol h.path hopens, ?_, ?_⟩
  · exact inhabited_replace hτs fun σ hσ => hopens.inhabited (hτs τ (by simp)) hσ
  · intro ws hws
    obtain ⟨vs, v, parts, hvs, hvtag, hparts, hhits, hroot⟩ :=
      h.join_case hm hcol hplain hopens hws
    refine ⟨vs, hvs, hhits, ?_⟩
    intro root hlocated
    obtain ⟨hat, hlocated'⟩ := hroot root hlocated
    have hholds : (Finding.found path tag).Holds Val.view v :=
      holds_found ⟨tag, hvtag, rfl, rfl⟩ hparts
    exact ⟨hlocated', List.forall_mem_singleton.mpr ⟨v, Val.view_at hat, hholds⟩⟩

theorem Branches.passes_default (hinfinite : ∀ k, {text | Δ.isConstant ⟨k, text⟩}.Infinite)
    (hnumerals : ∀ n : Nat, Δ.isConstant ⟨.int, toString n⟩) (hcomplete : isComplete tags = false) :
    ∃ τs', Passes Δ m τs [.missed path tags] (m.default col) τs' := by
  obtain ⟨before, τ, after, rfl, hcol⟩ := hm.split h.path
  obtain ⟨v, tag, hv, htag, hnotin, hhead⟩ := exists_missing (hτs τ (by simp)) hinfinite hnumerals
    (h.opens hm hcol) h.tags_nodup (h.tags_ne_nil hplain) hcomplete
  refine ⟨before ++ [] ++ after, hm.default hcol h.path, ?_, ?_⟩
  · exact inhabited_replace hτs fun σ hσ => absurd hσ List.not_mem_nil
  · intro ws hws
    obtain ⟨vs, hvs, hhits, hroot⟩ := h.join_default hm hcol hplain hv htag hnotin hws
    refine ⟨vs, hvs, hhits, ?_⟩
    intro root hlocated
    obtain ⟨hat, hlocated'⟩ := hroot root hlocated
    have hholds : (Finding.missed path tags).Holds Val.view v := fun hne =>
      ⟨tag, htag, congrArg Prod.fst (hhead hne), congrArg Prod.snd (hhead hne)⟩
    exact ⟨hlocated', List.forall_mem_singleton.mpr ⟨v, Val.view_at hat, hholds⟩⟩

end Branches

/-- Some values take the branch, and all clauses that they hit are guarded. -/
def Missed (Δ : Signature) (m : Matrix α) (τs : List Tree) (findings : List Finding) : Prop :=
  ∃ vs, Δ.HaveTypes vs τs ∧ (∀ hit ∈ hits m.rows vs, hit.2 = true) ∧
    ∀ root, Located root m.paths vs → Agrees Val.view root findings

theorem Passes.missed {τs' : List Tree} {found findings : List Finding}
    (h : Passes Δ m τs found m' τs') (hmissed : Missed Δ m' τs' findings) :
    Missed Δ m τs (found ++ findings) := by
  obtain ⟨ws, hws, hhits, hagrees⟩ := hmissed
  obtain ⟨vs, hvs, hhits', hroot⟩ := h.lift ws hws
  refine ⟨vs, hvs, hhits' ▸ hhits, ?_⟩
  intro root hlocated
  obtain ⟨hlocated', hfound⟩ := hroot root hlocated
  exact List.forall_mem_append.mpr ⟨hfound, hagrees root hlocated'⟩

/-- Every branch that fails is taken by some values. -/
theorem Fails.missed (hinfinite : ∀ k, {text | Δ.isConstant ⟨k, text⟩}.Infinite)
    (hnumerals : ∀ n : Nat, Δ.isConstant ⟨.int, toString n⟩) {findings : List Finding}
    (h : Fails m findings) (hm : m.Typed Δ τs) (hτs : ∀ τ ∈ τs, Δ.Inhabited τ) :
    Missed Δ m τs findings := by
  induction h generalizing τs with
  | here hrows =>
    obtain ⟨vs, hvs⟩ := exists_haveTypes hτs
    exact ⟨vs, hvs, by simp [hrows, hits], by simp [Agrees]⟩
  | guarded hexpands hrows hwild hguarded _ ih =>
    obtain ⟨τs', hpasses⟩ := hexpands.passes hm hτs
    obtain ⟨ws, hws, hhits, hagrees⟩ := ih (hpasses.typed.rest hrows) hpasses.inhabited
    refine hpasses.missed ⟨ws, hws, ?_, hagrees⟩
    rw [hits_wild hpasses.typed hrows hwild hws]
    exact List.forall_mem_cons.mpr ⟨hguarded, hhits⟩
  | @case m m' opened findings col path tags tag hexpands hbranches htag _ ih =>
    obtain ⟨τs', hpasses⟩ := hexpands.passes hm hτs
    obtain ⟨σs, hcase⟩ := hbranches.passes_case hpasses.typed hpasses.inhabited
      (Normalizes.plain_pat ⟨_, hexpands⟩ hm.rect col) htag
    exact hpasses.missed (hcase.missed (ih hcase.typed hcase.inhabited))
  | @default m m' opened findings col path tags hexpands hbranches hcomplete _ ih =>
    obtain ⟨τs', hpasses⟩ := hexpands.passes hm hτs
    obtain ⟨σs, hdefault⟩ := hbranches.passes_default hpasses.typed hpasses.inhabited
      (Normalizes.plain_pat ⟨_, hexpands⟩ hm.rect col) hinfinite hnumerals hcomplete
    exact hpasses.missed (hdefault.missed (ih hdefault.typed hdefault.inhabited))

/-! ## The examples of a list of clauses -/

/-- Texts are shown if there are examples. -/
theorem missing_ne_nil_iff {r : Result} : r.missing ≠ [] ↔ r.witnesses ≠ [] := by
  cases hr : r.witnesses with
  | nil => simp [Result.missing, hr]
  | cons w ws => simp [Result.missing, hr, List.eraseDups_cons]

/-- There are examples exactly if the clauses are not exhaustive.  Each of them can be put
together and describes a value of the type that no unguarded clause accepts. -/
theorem missing_genuine (Δ : Signature) (t : Ty) (clauses : List (Clause α))
    (h : WellTyped Δ clauses (Δ.store.resolve t)) (ht : Δ.Inhabited (Δ.store.resolve t))
    (hinfinite : ∀ k, {text | Δ.isConstant ⟨k, text⟩}.Infinite)
    (hnumerals : ∀ n : Nat, Δ.isConstant ⟨.int, toString n⟩)
    (hdots : ∀ c ∈ clauses, c.pattern.Dotless) :
    ∃ r, compile Δ.store clauses (some t) = .ok r ∧
      (r.missing ≠ [] ↔ r.exhaustive = false) ∧
      ∀ w ∈ r.witnesses, ∃ v, Δ.HasType v (Δ.store.resolve t) ∧ w.Describes Val.view v ∧
        ∀ c ∈ clauses, c.guarded = false → c.pattern.accepts v = false := by
  obtain ⟨r, hr, -, -, hiff, hwitnesses⟩ := h.describes hdots Δ.store t
  refine ⟨r, hr, missing_ne_nil_iff.trans hiff, ?_⟩
  intro w hw
  obtain ⟨findings, hfails, hdescribes⟩ := hwitnesses w hw
  obtain ⟨vs, hvs, hhits, hagrees⟩ :=
    hfails.missed hinfinite hnumerals h.matrix (by simpa using ht)
  match vs, hvs with
  | [v], hvs =>
    have hroot : Located v (Matrix.ofClauses clauses).paths [v] := .cons (Val.at?_nil v) .nil
    refine ⟨v, hvs.1, (hagrees v hroot).describes Val.view_functional hdescribes, ?_⟩
    intro c hc hguarded
    by_contra haccepts
    obtain ⟨i, hi, rfl⟩ := List.mem_iff_getElem.mp hc
    have hrow : ⟨i, clauses[i].guarded, [], [clauses[i].pattern]⟩ ∈
        (Matrix.ofClauses clauses).rows :=
      List.mem_map.mpr ⟨(clauses[i], i), List.mk_mem_zipIdx_iff_getElem?.mpr (by simp), rfl⟩
    have hhit := hhits _ (List.mem_map.mpr ⟨_, List.mem_filter.mpr ⟨hrow,
      by simpa [Pattern.acceptsAll] using haccepts⟩, rfl⟩)
    simp [hguarded] at hhit

/-- The clauses `SOME 1` and `NONE if …`. -/
def optionGaps : List (Clause Unit) :=
  [⟨.con () someCon (some (.literal () ⟨.int, "1"⟩)), false⟩, ⟨.con () noneCon none, true⟩]

theorem optionGaps_wellTyped :
    WellTyped optionSignature optionGaps (optionSignature.store.resolve intOption) := by
  refine ⟨by simp [optionGaps], by simp [optionGaps], ?_⟩
  intro c hc
  simp only [optionGaps, List.mem_cons, List.not_mem_nil, or_false] at hc
  rcases hc with rfl | rfl
  · exact ⟨_, offers_someCon, form_int, trivial⟩
  · exact ⟨_, offers_noneCon⟩

theorem missing_genuine_gaps :
    (∀ c ∈ optionGaps, c.pattern.Dotless) ∧
    ∃ r, compile optionSignature.store optionGaps (some intOption) = .ok r ∧
      (r.missing ≠ [] ↔ r.exhaustive = false) ∧
      ∀ w ∈ r.witnesses, ∃ v,
        optionSignature.HasType v (optionSignature.store.resolve intOption) ∧
        w.Describes Val.view v ∧
        ∀ c ∈ optionGaps, c.guarded = false → c.pattern.accepts v = false :=
  have hdots : ∀ c ∈ optionGaps, c.pattern.Dotless := by decide
  ⟨hdots, missing_genuine _ _ _ optionGaps_wellTyped intOption_inhabited optionSignature_infinite
    (fun _ => trivial) hdots⟩

example : (compile optionSignature.store optionGaps (some intOption)).map Result.missing =
    .ok ["SOME 0", "NONE"] := by rfl

/-- If no label and no constructor name holds a dot, all examples can be put together, and
each describes the type: its tuples have as many components as the type says. -/
theorem witnesses_fit (Δ : Signature) (t : Ty) (clauses : List (Clause α))
    (h : WellTyped Δ clauses (Δ.store.resolve t)) (hdots : ∀ c ∈ clauses, c.pattern.Dotless) :
    ∃ r, compile Δ.store clauses (some t) = .ok r ∧
      ∀ w ∈ r.witnesses, w.Describes Δ.view (Δ.store.resolve t) := by
  obtain ⟨r, hr, -, -, -, hwitnesses⟩ := h.describes hdots Δ.store t
  refine ⟨r, hr, ?_⟩
  intro w hw
  obtain ⟨findings, hfails, hdescribes⟩ := hwitnesses w hw
  have hroot : List.Forall₂ (Δ.view.At (Δ.store.resolve t)) [[]] [Δ.store.resolve t] :=
    .cons rfl .nil
  exact (hfails.agrees_type h.matrix hroot).describes Δ.view_functional hdescribes

theorem witnesses_fit_nested :
    (∀ c ∈ nestedClauses "c" [one, .wildcard ()] 3, c.pattern.Dotless) ∧
    ∃ r, compile optionSignature.store (nestedClauses "c" [one, .wildcard ()] 3)
        (some (nestedType "c" 2 3)) = .ok r ∧
      ∀ w ∈ r.witnesses, w.Describes optionSignature.view
        (optionSignature.store.resolve (nestedType "c" 2 3)) :=
  have hdots : ∀ c ∈ nestedClauses "c" [one, .wildcard ()] 3, c.pattern.Dotless := by decide
  ⟨hdots, witnesses_fit _ _ _ (shortNested_wellTyped (by decide)) hdots⟩

/-- With dots, the example shows three components where the type has two.  If the other
tuple is the shorter one, the example cannot be put together. -/
theorem dotted_witnesses_unfit :
    (WellTyped optionSignature (nestedClauses "a.b" [one, .wildcard ()] 3)
        (optionSignature.store.resolve (nestedType "a.b" 2 3)) ∧
      ∃ r w, compile optionSignature.store (nestedClauses "a.b" [one, .wildcard ()] 3)
          (some (nestedType "a.b" 2 3)) = .ok r ∧ w ∈ r.witnesses ∧
        ¬ w.Describes optionSignature.view
          (optionSignature.store.resolve (nestedType "a.b" 2 3))) ∧
    (WellTyped optionSignature (nestedClauses "a.b" [one, .wildcard (), one] 2)
        (optionSignature.store.resolve (nestedType "a.b" 3 2)) ∧
      compile optionSignature.store (nestedClauses "a.b" [one, .wildcard (), one] 2)
        (some (nestedType "a.b" 3 2)) = .error .outOfRange) := by
  constructor
  · let zero : Witness := .mk "0" false none [] []
    let inner : Witness := .mk "" false none [zero, .blank, .blank] []
    let outer : Witness := .mk "" false none [] [("b", inner)]
    refine ⟨shortNested_wellTyped (by decide), _,
      .mk "" false none [] [("a", outer), ("a.b", .blank)], rfl, List.mem_singleton.mpr rfl, ?_⟩
    rw [resolve_nestedType]
    rintro ⟨-, -, -, -, ⟨⟨τ, ⟨fields, others, hform, ha⟩, houter⟩, -⟩⟩
    cases hform
    cases ha
    obtain ⟨-, -, -, -, ⟨⟨σ, ⟨fields, others, hform, hb⟩, hinner⟩, -⟩⟩ := houter
    cases hform
    cases hb
    obtain ⟨-, -, harity, -⟩ := hinner
    obtain ⟨σs, hform, hlen⟩ := harity (by simp)
    cases hform
    simp at hlen
  · refine ⟨longNested_wellTyped (by decide), ?_⟩
    rfl

end Match

end Typecase
