import Typecase.Proofs.Match.Typing
import Mathlib.Logic.Relation
set_option autoImplicit false

/-!
# Taking values apart

A column of a pattern matrix is replaced by columns for the parts of its values: the
components of a tuple or record, or the value that a constructor carries.  Here this is
done to one type, one value and one pattern at a time.  A value of the type falls into
parts of the types of the parts, a pattern accepts the value exactly if its parts accept
the parts, and, as long as no type involved is empty, any parts make up a value.
-/

namespace Typecase

/-- The steps lead from a value to the given parts. -/
def Val.HasParts (v : Val) (steps : List Step) (ws : List Val) : Prop :=
  List.Forall₂ (fun step w => v.step? step = some w) steps ws

/-- The steps to the value that a tag carries. -/
def Tag.steps : Tag → List Step
  | .con c => if c.hasArg then [.arg c] else []
  | .literal _ => []

/-- Whether a pattern binds no name to the whole value. -/
def Pattern.isBare {α : Type} : Pattern α → Bool
  | .var _ _ => false
  | .layered _ _ _ => false
  | _ => true

/-- The labels of a shape are all labels that a pattern looks at. -/
def Match.Covers {α : Type} : Shape → Pattern α → Prop
  | .record ls, .record _ fs _ => ∀ l ∈ fs.map (·.1), l ∈ ls
  | _, _ => True

/-- The patterns for the values that a tag carries, in a pattern that may match it. -/
def Match.carried {α : Type} (tag : Tag) : Pattern α → List (Pattern α)
  | .con _ _ (some arg) => if tag.hasArg then [arg] else []
  | _ => Match.wilds (if tag.hasArg then 1 else 0)

/-- A pattern that tests for another tag does not accept a value. -/
theorem Pattern.accepts_of_headTag_ne {α : Type} {p : Pattern α} {tag tag' : Tag} {v : Val}
    (hp : Match.headTag p = some tag) (hv : v.tag? = some tag') (hne : tag ≠ tag') :
    p.accepts v = false := by
  cases p with
  | literal note l =>
    cases hp
    simpa [Pattern.accepts, hv] using fun h => hne h.symm
  | con note c arg =>
    cases hp
    cases arg with
    | none => simpa [Pattern.accepts, hv] using fun h => hne h.symm
    | some p =>
      cases v with
      | con d w =>
        cases hv
        have hcd : c ≠ d := fun h => hne (h ▸ rfl)
        cases w <;> simp [Pattern.accepts, hcd]
      | _ => simp [Pattern.accepts]
  | _ => simp [Match.headTag] at hp

namespace Signature

variable {Δ : Signature} {α : Type} {τ σ : Tree} {σs : List Tree} {v : Val} {tag : Tag}
  {ws : List Val} {sh : Shape} {p : Pattern α} {fields : List (String × Tree)}

/-! ## Types that are involved in a type -/

/-- The type of a part of the values of a type. -/
inductive Component (Δ : Signature) (τ : Tree) : Tree → Prop
  | elem {σs : List Tree} {σ : Tree} : Δ.form τ = .tuple σs → σ ∈ σs → Component Δ τ σ
  | field {fields : List (String × Tree)} {others : Bool} {l : String} {σ : Tree} :
      Δ.form τ = .record fields others → fields.lookup l = some σ → Component Δ τ σ
  | arg {c : Con} {σ : Tree} : (Δ.form τ).Offers c (some σ) → Component Δ τ σ

/-- Every type involved in `τ` has a value. -/
def Inhabited (Δ : Signature) (τ : Tree) : Prop :=
  ∀ σ, Relation.ReflTransGen Δ.Component τ σ → ∃ v, Δ.HasType v σ

theorem Inhabited.value (h : Δ.Inhabited τ) : ∃ v, Δ.HasType v τ := h τ .refl

theorem Inhabited.component (h : Δ.Inhabited τ) (hσ : Δ.Component τ σ) : Δ.Inhabited σ :=
  fun ρ hρ => h ρ (.head hσ hρ)

theorem inhabited_of_components (hτ : ∃ v, Δ.HasType v τ)
    (h : ∀ σ, Δ.Component τ σ → Δ.Inhabited σ) : Δ.Inhabited τ := by
  intro ρ hρ
  rcases hρ.cases_head with rfl | ⟨σ, hσ, hrest⟩
  · exact hτ
  · exact h σ hσ ρ hrest

/-! ## Tuples and records -/

/-- The values of type `τ` have components as `sh` says, of types `σs`. -/
inductive Splits (Δ : Signature) (τ : Tree) : Shape → List Tree → Prop
  | tuple {σs : List Tree} : Δ.form τ = .tuple σs → Splits Δ τ (.tuple σs.length) σs
  | record {fields : List (String × Tree)} {others : Bool} {ls : List String} {σs : List Tree} :
      Δ.form τ = .record fields others → ls.Nodup →
      List.Forall₂ (fun l σ => fields.lookup l = some σ) ls σs → Splits Δ τ (.record ls) σs

theorem HasType.tuple (h : Δ.HasType v τ) (hτ : Δ.form τ = .tuple σs) :
    ∃ ws, v = .tuple ws ∧ Δ.HaveTypes ws σs := by
  cases v with
  | tuple ws => simpa [HasType, hτ] using h
  | con c arg => cases arg <;> simp [HasType, hτ, Form.Offers] at h
  | _ => simp [HasType, hτ] at h

theorem HasType.record {others : Bool} (h : Δ.HasType v τ) (hτ : Δ.form τ = .record fields others) :
    ∃ fs, v = .record fs ∧ Δ.FieldsHaveTypes fields others fs ∧
      ∀ l ∈ fields.map (·.1), l ∈ fs.map (·.1) := by
  cases v with
  | record fs =>
    simp only [HasType, hτ, reduceCtorEq, Form.record.injEq, false_or] at h
    obtain ⟨fields', others', ⟨rfl, rfl⟩, hfs, hall⟩ := h
    exact ⟨fs, rfl, hfs, hall⟩
  | con c arg => cases arg <;> simp [HasType, hτ, Form.Offers] at h
  | _ => simp [HasType, hτ] at h

/-- The steps into a tuple lead to its components in order. -/
theorem hasParts_tuple (ws : List Val) :
    (Val.tuple ws).HasParts ((List.range ws.length).map .component) ws := by
  refine List.forall₂_iff_get.mpr ⟨by simp, ?_⟩
  intro i hi hi'
  simp [Val.step?]

/-- A value of a type with components has components of their types. -/
theorem Splits.parts (h : Δ.Splits τ sh σs) (hv : Δ.HasType v τ) :
    ∃ ws, v.HasParts (Match.Shape.steps sh) ws ∧ Δ.HaveTypes ws σs := by
  cases h with
  | tuple hτ =>
    obtain ⟨ws, rfl, hws⟩ := hv.tuple hτ
    refine ⟨ws, ?_, hws⟩
    have hlen : ws.length = σs.length := (haveTypes_iff.mp hws).length_eq
    rw [Match.Shape.steps, ← hlen]
    exact hasParts_tuple ws
  | @record fields others ls σs hτ hnodup hls =>
    obtain ⟨fs, rfl, hfs, hall⟩ := hv.record hτ
    clear hnodup
    induction hls with
    | nil => exact ⟨[], .nil, by simp [HaveTypes]⟩
    | @cons l σ ls σs hl _ ih =>
      obtain ⟨ws, hparts, hws⟩ := ih
      obtain ⟨w, hw⟩ := LabelMap.exists_lookup (hall l (LabelMap.mem_labels_of_lookup hl))
      have htyped := fieldsHaveTypes_iff.mp hfs l w (LabelMap.mem_of_lookup hw)
      exact ⟨w :: ws, .cons hw hparts, htyped.1 σ hl, hws⟩

/-- Values for all fields of a record type, among them the given ones. -/
theorem exists_fields (hfields : ∀ l τ, fields.lookup l = some τ → ∃ v, Δ.HasType v τ)
    {ls : List String} (hnodup : ls.Nodup)
    (hls : List.Forall₂ (fun l σ => fields.lookup l = some σ) ls σs) (hws : Δ.HaveTypes ws σs) :
    ∃ f : String → Val, (∀ l τ, fields.lookup l = some τ → Δ.HasType (f l) τ) ∧
      List.Forall₂ (fun l w => f l = w) ls ws := by
  induction hls generalizing ws with
  | nil =>
    have hall : ∀ l, ∃ v, ∀ τ, fields.lookup l = some τ → Δ.HasType v τ := by
      intro l
      cases hl : fields.lookup l with
      | none => exact ⟨default, fun τ hτ => nomatch hτ⟩
      | some σ =>
        obtain ⟨v, hv⟩ := hfields l σ hl
        exact ⟨v, fun τ hτ => Option.some.inj hτ ▸ hv⟩
    choose f hf using hall
    cases ws with
    | nil => exact ⟨f, hf, .nil⟩
    | cons w ws => exact absurd hws (by simp [HaveTypes])
  | @cons l σ ls σs hl _ ih =>
    cases ws with
    | nil => exact absurd hws (by simp [HaveTypes])
    | cons w ws =>
      obtain ⟨hnotin, hnodup⟩ := List.nodup_cons.mp hnodup
      obtain ⟨f, hf, hfls⟩ := ih hnodup hws.2
      -- the labels are different, so the values chosen so far stay
      refine ⟨Function.update f l w, ?_, .cons (Function.update_self ..) ?_⟩
      · intro k τ hk
        by_cases heq : k = l
        · subst heq
          rw [Function.update_self]
          exact Option.some.inj (hl.symm.trans hk) ▸ hws.1
        · rw [Function.update_of_ne heq]
          exact hf k τ hk
      · refine List.forall₂_iff_zip.mpr ⟨hfls.length_eq, ?_⟩
        intro k u hmem
        have hne : k ≠ l := fun heq => hnotin (heq ▸ (List.of_mem_zip hmem).1)
        rw [Function.update_of_ne hne]
        exact (List.forall₂_iff_zip.mp hfls).2 hmem

theorem lookup_map_labels (f : String → Val) {l : String} (h : fields.lookup l = some τ) :
    (fields.map fun e => (e.1, f e.1)).lookup l = some (f l) := by
  obtain ⟨before, after, rfl, hbefore⟩ := List.lookup_eq_some_iff.mp h
  refine List.lookup_eq_some_iff.mpr
    ⟨before.map fun e => (e.1, f e.1), after.map fun e => (e.1, f e.1), by simp, ?_⟩
  intro e he
  obtain ⟨entry, hentry, rfl⟩ := List.mem_map.mp he
  exact hbefore entry hentry

/-- Components of the right types make up a value. -/
theorem Splits.join (h : Δ.Splits τ sh σs) (hτ : Δ.Inhabited τ) (hws : Δ.HaveTypes ws σs) :
    ∃ v, Δ.HasType v τ ∧ v.HasParts (Match.Shape.steps sh) ws := by
  cases h with
  | tuple hform =>
    have hlen : ws.length = σs.length := (haveTypes_iff.mp hws).length_eq
    refine ⟨.tuple ws, Or.inr ⟨σs, hform, hws⟩, ?_⟩
    rw [Match.Shape.steps, ← hlen]
    exact hasParts_tuple ws
  | @record fields others ls σs hform hnodup hls =>
    obtain ⟨f, hf, hfls⟩ :=
      exists_fields (fun l σ hl => (hτ.component (.field hform hl)).value) hnodup hls hws
    refine ⟨.record (fields.map fun e => (e.1, f e.1)), Or.inr ⟨fields, others, hform, ?_, ?_⟩, ?_⟩
    · refine fieldsHaveTypes_iff.mpr ?_
      intro l v hmem
      obtain ⟨e, he, heq⟩ := List.mem_map.mp hmem
      cases heq
      refine ⟨hf e.1, ?_⟩
      intro hnone
      exact absurd (List.mem_map.mpr ⟨e, he, rfl⟩) (LabelMap.lookup_eq_none.mp hnone)
    · simp
    · rw [Match.Shape.steps]
      refine List.forall₂_map_left_iff.mpr (List.forall₂_iff_zip.mpr ⟨hfls.length_eq, ?_⟩)
      intro l w hmem
      obtain ⟨hl, -⟩ := List.of_mem_zip hmem
      obtain ⟨i, hi, rfl⟩ := List.mem_iff_getElem.mp hl
      have hσ : fields.lookup ls[i] = some (σs.get ⟨i, hls.length_eq ▸ hi⟩) :=
        (List.forall₂_iff_get.mp hls).2 i hi (hls.length_eq ▸ hi)
      rw [Val.step?, lookup_map_labels f hσ, (List.forall₂_iff_zip.mp hfls).2 hmem]

theorem admitsAll_wilds {n : Nat} {τs : List Tree} (h : τs.length = n) :
    Δ.AdmitsAll (Match.wilds n : List (Pattern α)) τs := by
  subst h
  induction τs with
  | nil => simp [Match.wilds, AdmitsAll]
  | cons τ τs ih => simpa [Match.wilds, List.replicate_succ, AdmitsAll, Admits] using ih

/-- The components of a pattern may be matched against the components of the values. -/
theorem Splits.admits (h : Δ.Splits τ sh σs) (hp : Δ.Admits p τ) :
    Δ.AdmitsAll (Match.components sh p) σs := by
  cases h with
  | tuple hform =>
    cases p with
    | tuple note ps =>
      obtain ⟨σs', hform', hps⟩ := hp
      rw [hform] at hform'
      cases hform'
      exact hps
    | _ => exact admitsAll_wilds rfl
  | @record fields others ls σs hform hnodup hls =>
    cases p with
    | record note fs flexible =>
      obtain ⟨fields', others', hform', hfs, hadmits, -⟩ := hp
      rw [hform] at hform'
      cases hform'
      refine admitsAll_iff.mpr (List.forall₂_map_left_iff.mpr (hls.imp ?_))
      intro l σ hl
      rw [LabelMap.lookup_reverse hfs]
      cases hlookup : fs.lookup l with
      | none => simp [Admits]
      | some p =>
        obtain ⟨ρ, hρ, hp⟩ := admitsFields_iff.mp hadmits l p (LabelMap.mem_of_lookup hlookup)
        exact Option.some.inj (hl.symm.trans hρ) ▸ hp
    | _ => exact admitsAll_wilds hls.length_eq.symm

/-- The parts that steps lead to are determined. -/
theorem hasParts_unique {steps : List Step} {ws' : List Val} (h : v.HasParts steps ws)
    (h' : v.HasParts steps ws') : ws = ws' := by
  induction h generalizing ws' with
  | nil =>
    cases h'
    rfl
  | cons hw _ ih =>
    cases h' with
    | cons hw' hrest =>
      rw [Option.some.inj (hw.symm.trans hw'), ih hrest]

/-- A record pattern accepts a record exactly if its fields accept the fields at the
given labels, as long as these are all labels of the pattern. -/
theorem acceptsFields_iff_parts {fs : List (String × Pattern α)} (hfs : (fs.map (·.1)).Nodup)
    {ls : List String} (hcovers : ∀ l ∈ fs.map (·.1), l ∈ ls)
    (hws : List.Forall₂ (fun l w => v.step? (.field l) = some w) ls ws) :
    Pattern.acceptsFields fs v = true ↔
      List.Forall₂ (fun l w => ((fs.lookup l).getD .omitted).accepts w = true) ls ws := by
  rw [Pattern.acceptsFields_iff]
  constructor
  · intro h
    refine List.forall₂_iff_zip.mpr ⟨hws.length_eq, ?_⟩
    intro l w hmem
    have hw := (List.forall₂_iff_zip.mp hws).2 hmem
    cases hlookup : fs.lookup l with
    | none => exact Pattern.accepts_of_isWild rfl w
    | some p =>
      obtain ⟨w', hw', hp⟩ := h l p (LabelMap.mem_of_lookup hlookup)
      exact Option.some.inj (hw'.symm.trans hw) ▸ hp
  · intro h l p hmem
    have hl := hcovers l (List.mem_map.mpr ⟨(l, p), hmem, rfl⟩)
    obtain ⟨i, hi, rfl⟩ := List.mem_iff_getElem.mp hl
    have hi' : i < ws.length := hws.length_eq ▸ hi
    have hw : v.step? (.field ls[i]) = some ws[i] := (List.forall₂_iff_get.mp hws).2 i hi hi'
    have hp : ((fs.lookup ls[i]).getD .omitted).accepts ws[i] = true :=
      (List.forall₂_iff_get.mp h).2 i hi hi'
    rw [LabelMap.lookup_of_mem hfs hmem] at hp
    exact ⟨ws[i], hw, hp⟩

/-- A pattern of a type that splits into components accepts everything, or splits as well. -/
theorem Splits.pattern (h : Δ.Splits τ sh σs) (hp : Δ.Admits p τ) (hbare : p.isBare = true)
    (hv : Δ.HasType v τ) (hws : v.HasParts (Match.Shape.steps sh) ws) :
    (p.isWild = true ∧ Match.components sh p = Match.wilds ws.length) ∨
      (∃ note ps, p = .tuple note ps ∧ v = .tuple ws ∧ Match.components sh p = ps) ∨
      ∃ note fs flexible ls vs, p = .record note fs flexible ∧ sh = .record ls ∧ v = .record vs ∧
        ls.Nodup ∧ (fs.map (·.1)).Nodup := by
  have hlen : (Match.Shape.steps sh).length = ws.length := hws.length_eq
  cases h with
  | tuple hform =>
    obtain ⟨vs, rfl, hvs⟩ := hv.tuple hform
    have hwilds : σs.length = ws.length := by simpa [Match.Shape.steps] using hlen
    cases p with
    | tuple note ps =>
      rw [Match.Shape.steps, ← (haveTypes_iff.mp hvs).length_eq] at hws
      exact .inr (.inl ⟨note, ps, rfl, by rw [hasParts_unique hws (hasParts_tuple vs)], rfl⟩)
    | wildcard | omitted => exact .inl ⟨rfl, congrArg Match.wilds hwilds⟩
    | literal => simp [Admits, hform] at hp
    | con note c arg => cases arg <;> simp [Admits, hform, Form.Offers] at hp
    | record => simp [Admits, hform] at hp
    | _ => simp [Pattern.isBare] at hbare
  | @record fields others ls σs hform hnodup hls =>
    obtain ⟨vs, rfl, hvs⟩ := hv.record hform
    have hwilds : ls.length = ws.length := by simpa [Match.Shape.steps] using hlen
    cases p with
    | record note fs flexible =>
      obtain ⟨fields', others', -, hfs, -⟩ := hp
      exact .inr (.inr ⟨note, fs, flexible, ls, vs, rfl, rfl, rfl, hnodup, hfs⟩)
    | wildcard | omitted => exact .inl ⟨rfl, congrArg Match.wilds hwilds⟩
    | literal => simp [Admits, hform] at hp
    | con note c arg => cases arg <;> simp [Admits, hform, Form.Offers] at hp
    | tuple => simp [Admits, hform] at hp
    | _ => simp [Pattern.isBare] at hbare

/-- A pattern accepts a tuple or record exactly if its components accept the components. -/
theorem Splits.accepts (h : Δ.Splits τ sh σs) (hp : Δ.Admits p τ) (hbare : p.isBare = true)
    (hcovers : Match.Covers sh p) (hv : Δ.HasType v τ)
    (hws : v.HasParts (Match.Shape.steps sh) ws) :
    p.accepts v = Pattern.acceptsAll (Match.components sh p) ws := by
  rcases h.pattern hp hbare hv hws with ⟨hwild, hwilds⟩ | ⟨note, ps, rfl, rfl, hps⟩ |
    ⟨note, fs, flexible, ls, vs, rfl, rfl, rfl, -, hfs⟩
  · rw [hwilds, Pattern.accepts_of_isWild hwild, Pattern.acceptsAll_wilds rfl]
  · rw [hps]
    rfl
  · have hparts := List.forall₂_map_left_iff.mp hws
    rw [Bool.eq_iff_iff, Pattern.accepts, acceptsFields_iff_parts hfs hcovers hparts,
      Match.components, Pattern.acceptsAll_iff, List.forall₂_map_left_iff]
    simp only [LabelMap.lookup_reverse hfs]

/-- The types of components are inhabited if the type is. -/
theorem Splits.inhabited (hsplits : Δ.Splits τ sh σs) (hτ : Δ.Inhabited τ) (hσ : σ ∈ σs) :
    Δ.Inhabited σ := by
  cases hsplits with
  | tuple hform => exact hτ.component (.elem hform hσ)
  | record hform hnodup hls =>
    obtain ⟨i, hi, rfl⟩ := List.mem_iff_getElem.mp hσ
    exact hτ.component (.field hform
      ((List.forall₂_iff_get.mp hls).2 i (hls.length_eq ▸ hi) hi))

/-! ## Constructors and constants -/

/-- Values of type `τ` may have the tag, which then carries values of types `σs`. -/
inductive Opens (Δ : Signature) (τ : Tree) : Tag → List Tree → Prop
  | constant {l : Literal} : Δ.form τ = .constant l.kind → Δ.isConstant l → Opens Δ τ (.literal l) []
  | con {c : Con} {arg : Option Tree} : (Δ.form τ).Offers c arg → Opens Δ τ (.con c) arg.toList

theorem Opens.steps_length (h : Δ.Opens τ tag σs) :
    tag.steps.length = σs.length ∧ σs.length = if tag.hasArg then 1 else 0 := by
  cases h with
  | constant => simp [Tag.steps, Tag.hasArg]
  | @con c arg hoffers =>
    have harg := offers_hasArg hoffers
    cases arg <;> simp_all [Tag.steps, Tag.hasArg]

theorem Opens.inhabited (h : Δ.Opens τ tag σs) (hτ : Δ.Inhabited τ) (hσ : σ ∈ σs) :
    Δ.Inhabited σ := by
  cases h with
  | constant => cases hσ
  | con hoffers =>
    have hσ := Option.mem_toList.mp hσ
    exact hτ.component (.arg (hσ ▸ hoffers))

/-- Tags of one type can stand in one test. -/
theorem Opens.compatible {tag' : Tag} {σs' : List Tree} (h : Δ.Opens τ tag σs)
    (h' : Δ.Opens τ tag' σs') : tag.compatible tag' = true := by
  cases h with
  | constant hform =>
    cases h' with
    | constant hform' =>
      rw [hform] at hform'
      simpa [Tag.compatible] using hform'
    | con hoffers => simp [hform, Form.Offers] at hoffers
  | con hoffers =>
    cases h' with
    | constant hform => simp [hform, Form.Offers] at hoffers
    | con hoffers' => simp [Tag.compatible, offers_datatype hoffers hoffers']

/-- A tested pattern tells which tag its values may have. -/
theorem Admits.opens (hp : Δ.Admits p τ) (htag : Match.headTag p = some tag) :
    ∃ σs, Δ.Opens τ tag σs := by
  cases p with
  | literal note l =>
    cases htag
    exact ⟨[], .constant hp.1 hp.2⟩
  | con note c arg =>
    cases htag
    cases arg with
    | none =>
      obtain ⟨arg, hoffers⟩ := hp
      exact ⟨arg.toList, .con hoffers⟩
    | some p =>
      obtain ⟨σ, hoffers, -⟩ := hp
      exact ⟨[σ], .con hoffers⟩
  | _ => simp [Match.headTag] at htag

section Opens

variable (h : Δ.Opens τ tag σs)
include h

theorem Opens.tagged : (Δ.form τ).tagged = true := by
  cases h with
  | constant hconstant => rw [hconstant, Form.tagged]
  | con hoffers => cases hform : Δ.form τ <;> simp_all [Form.Offers, Form.tagged]

theorem Opens.known : Δ.form τ ≠ .unknown := by
  intro hform
  have htagged := h.tagged
  simp [hform, Form.tagged] at htagged

/-- Where one tag is possible, every value has a tag. -/
theorem Opens.exists_tag (hv : Δ.HasType v τ) :
    ∃ tag' σs', v.tag? = some tag' ∧ Δ.Opens τ tag' σs' := by
  have htagged := h.tagged
  cases v with
  | literal l =>
    have hl := hv.resolve_left h.known
    exact ⟨.literal l, [], rfl, .constant hl.1 hl.2⟩
  | con c arg =>
    cases arg with
    | none => exact ⟨.con c, [], rfl, .con (hv.resolve_left h.known)⟩
    | some w =>
      obtain ⟨σ, hoffers, -⟩ := hv.resolve_left h.known
      exact ⟨.con c, [σ], rfl, .con hoffers⟩
  | tuple ws =>
    obtain ⟨ρs, hform, -⟩ := hv.resolve_left h.known
    simp [hform, Form.tagged] at htagged
  | record fs =>
    obtain ⟨fields, others, hform, -⟩ := hv.resolve_left h.known
    simp [hform, Form.tagged] at htagged
  | atom n => simp [hv.resolve_left h.known, Form.tagged] at htagged

/-- A value with a tag carries values of the types that the tag carries. -/
theorem Opens.parts (hv : Δ.HasType v τ) (htag : v.tag? = some tag) :
    ∃ ws, v.HasParts tag.steps ws ∧ Δ.HaveTypes ws σs := by
  have hknown := h.known
  cases h with
  | constant => exact ⟨[], .nil, by simp [HaveTypes]⟩
  | @con c arg hoffers =>
    have harg := offers_hasArg hoffers
    cases v with
    | con d w =>
      cases htag
      cases w with
      | none =>
        cases offers_unique hoffers (hv.resolve_left hknown)
        exact ⟨[], by simp [Tag.steps, harg, Val.HasParts], by simp [HaveTypes]⟩
      | some w =>
        obtain ⟨σ, hoffers', hw⟩ := hv.resolve_left hknown
        cases offers_unique hoffers hoffers'
        exact ⟨[w], by simp [Tag.steps, harg, Val.HasParts, Val.step?], by simp [HaveTypes, hw]⟩
    | _ => simp [Val.tag?] at htag

/-- A tag and values of the types that it carries make up a value. -/
theorem Opens.join (hws : Δ.HaveTypes ws σs) :
    ∃ v, Δ.HasType v τ ∧ v.tag? = some tag ∧ v.HasParts tag.steps ws := by
  cases h with
  | @constant l hform hl =>
    cases ws with
    | nil => exact ⟨.literal l, Or.inr ⟨hform, hl⟩, rfl, .nil⟩
    | cons w ws => simp [HaveTypes] at hws
  | @con c arg hoffers =>
    have harg := offers_hasArg hoffers
    cases arg with
    | none =>
      cases ws with
      | nil => exact ⟨.con c none, Or.inr hoffers, rfl, by simp [Tag.steps, harg, Val.HasParts]⟩
      | cons w ws => simp [HaveTypes] at hws
    | some σ =>
      cases ws with
      | nil => simp [HaveTypes] at hws
      | cons w ws =>
        cases ws with
        | nil =>
          exact ⟨.con c (some w), Or.inr ⟨σ, hoffers, hws.1⟩, rfl,
            by simp [Tag.steps, harg, Val.HasParts, Val.step?]⟩
        | cons w' ws => simp [HaveTypes] at hws

/-- The patterns for the values that a tag carries may be matched against them. -/
theorem Opens.admits (hp : Δ.Admits p τ) (hmay : p.isWild = true ∨ Match.headTag p = some tag) :
    Δ.AdmitsAll (Match.carried tag p) σs := by
  have hwilds : Δ.AdmitsAll (Match.wilds (if tag.hasArg then 1 else 0) : List (Pattern α)) σs :=
    admitsAll_wilds h.steps_length.2
  cases p with
  | con note c arg =>
    cases arg with
    | none => exact hwilds
    | some p =>
      obtain ⟨σ, hoffers, hp⟩ := hp
      have htag : Tag.con c = tag := by simpa [Pattern.isWild, Match.headTag] using hmay
      subst htag
      cases h with
      | con hoffers' =>
        cases offers_unique hoffers' hoffers
        simp [Match.carried, Tag.hasArg, offers_hasArg hoffers, AdmitsAll, hp]
  | _ => exact hwilds

end Opens

theorem hasParts_arg {c : Con} (hc : c.hasArg = true) (htag : v.tag? = some (.con c))
    (hws : v.HasParts (Tag.con c).steps ws) : ∃ w, v = .con c (some w) ∧ ws = [w] := by
  simp only [Tag.steps, hc, if_true] at hws
  cases v with
  | con d w =>
    cases htag
    cases hws with
    | cons hw hrest =>
      cases hrest
      cases w with
      | none => simp [Val.step?] at hw
      | some w =>
        simp only [Val.step?, if_true, Option.some.injEq] at hw
        exact ⟨w, rfl, by rw [hw]⟩
  | _ => simp [Val.tag?] at htag

/-- A pattern that may match a tag accepts a value with the tag exactly if it accepts
the values that the tag carries. -/
theorem Opens.accepts (h : Δ.Opens τ tag σs) (hp : Δ.Admits p τ)
    (hmay : p.isWild = true ∨ Match.headTag p = some tag) (htag : v.tag? = some tag)
    (hws : v.HasParts tag.steps ws) :
    p.accepts v = Pattern.acceptsAll (Match.carried tag p) ws := by
  have hlen : ws.length = if tag.hasArg then 1 else 0 := by
    rw [← hws.length_eq, h.steps_length.1, h.steps_length.2]
  have hwilds := Pattern.acceptsAll_wilds (α := α) hlen
  rcases hmay with hwild | hhead
  · rw [Pattern.accepts_of_isWild hwild]
    cases p <;> simp_all [Pattern.isWild, Match.carried]
  · cases p with
    | literal note l =>
      cases hhead
      simp [Pattern.accepts, htag, Match.carried, hwilds]
    | con note c arg =>
      cases hhead
      cases arg with
      | none => simp [Pattern.accepts, htag, Match.carried, hwilds]
      | some p =>
        obtain ⟨σ, hoffers, -⟩ := hp
        have harg := offers_hasArg hoffers
        obtain ⟨w, rfl, rfl⟩ := hasParts_arg harg htag hws
        simp [Pattern.accepts, Match.carried, Tag.hasArg, harg, Pattern.acceptsAll]
    | _ => simp [Match.headTag] at hhead

end Signature

end Typecase
