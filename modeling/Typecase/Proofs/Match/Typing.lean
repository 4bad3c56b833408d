import Typecase.Proofs.LabelMap
import Typecase.Proofs.Match.Value
import Typecase.Types.Datatype
import Mathlib.Data.Set.Finite.Basic
set_option autoImplicit false

/-!
# Typed values and patterns

Which values a type has, and which patterns may be matched against them.  Types are
resolved types; a type constructor means the datatype that a signature gives for its
name.  Everything below looks at a type through its form: what the values of the type
are made of.
-/

namespace Typecase

mutual

/-- Replace variables of a type. -/
def Tree.subst (σ : List (Var × Tree)) : Tree → Tree
  | .var v id generic => (σ.lookup v).getD (.var v id generic)
  | .con name args => .con name (substList σ args)
  | .arrow a r => .arrow (subst σ a) (subst σ r)
  | .tuple es => .tuple (substList σ es)
  | .record fields rest => .record (substFields σ fields) rest
  | .invalidRecord => .invalidRecord
  | .lost => .lost

/-- Replace variables of a list of types. -/
def Tree.substList (σ : List (Var × Tree)) : List Tree → List Tree
  | [] => []
  | t :: ts => subst σ t :: substList σ ts

/-- Replace variables of labelled types. -/
def Tree.substFields (σ : List (Var × Tree)) : List (String × Tree) → List (String × Tree)
  | [] => []
  | (l, t) :: ts => (l, subst σ t) :: substFields σ ts

end

/-- The kind of literal that a type name stands for. -/
def LiteralKind.ofName? (name : String) : Option LiteralKind :=
  [.int, .real, .string, .char].find? fun k => k.name = name

namespace Datatype

/-- The constructors are numbered by their places, as `add` numbers them. -/
def Numbered (d : Datatype) : Prop :=
  d.constructors.map (·.tag) = List.range d.constructors.length

instance (d : Datatype) : Decidable d.Numbered := inferInstanceAs (Decidable (_ = _))

end Datatype

/-- What the type constructors and literals of a program mean. -/
structure Signature where
  /-- The variables that types are written over. -/
  store : Store
  /-- The datatype that a type name stands for. -/
  datatype? : String → Option Datatype
  /-- The type of the value that a constructor of an open datatype carries. -/
  carried : Con → Ty
  /-- The literals that are constants of their kind. -/
  isConstant : Literal → Prop
  /-- Constructors are numbered by their places. -/
  numbered : ∀ name d, datatype? name = some d → d.Numbered

/-- What the values of a type are made of. -/
inductive Form where
  /-- The constants of one kind. -/
  | constant (kind : LiteralKind)
  | tuple (elems : List Tree)
  /-- Records.  Where the fields are not all known, there may be others. -/
  | record (fields : List (String × Tree)) (others : Bool)
  /-- A closed datatype: its constructors with the types of the values they carry. -/
  | closed (constructors : List (Con × Option Tree))
  /-- An open datatype: its number, and the type of the value that a constructor carries
  if it carries any. -/
  | extensible (datatype : Nat) (carried : Con → Tree)
  /-- Values that no pattern looks into. -/
  | abstract
  /-- A type that is not known: any value is possible. -/
  | unknown

namespace Signature

variable (Δ : Signature)

/-- The type of a value carried by a constructor of `d`, where `d` is applied to `args`. -/
def argument (d : Datatype) (args : List Tree) (t : Ty) : Tree :=
  (Δ.store.resolve t).subst (d.params.zip args)

/-- The constructors of a closed datatype that is applied to `args`. -/
def constructors (d : Datatype) (args : List Tree) : List (Con × Option Tree) :=
  d.constructors.map fun k => (d.con k false, k.arg.map (Δ.argument d args))

/-- What the values of a type are made of. -/
def form : Tree → Form
  | .var _ _ _ => .unknown
  | .con name args =>
    match Δ.datatype? name with
    | some d =>
      if d.isOpen then .extensible d.id fun c => Δ.argument d args (Δ.carried c)
      else .closed (Δ.constructors d args)
    | none => (LiteralKind.ofName? name).elim .abstract .constant
  | .arrow _ _ => .abstract
  | .tuple ts => .tuple ts
  | .record fields rest => .record fields (rest ≠ .rigid)
  | .invalidRecord => .abstract
  | .lost => .abstract

end Signature

/-- Whether the values of a form have tags. -/
def Form.tagged : Form → Bool
  | .constant _ | .closed _ | .extensible _ _ => true
  | .tuple _ | .record _ _ | .abstract | .unknown => false

/-- The constructors of a type, with the types of the values they carry. -/
def Form.Offers : Form → Con → Option Tree → Prop
  | .closed cons, c, arg => (c, arg) ∈ cons
  | .extensible d carried, c, arg =>
    c.datatype = d ∧ c.siblings = none ∧ arg = if c.hasArg then some (carried c) else none
  | _, _, _ => False

namespace Signature

variable (Δ : Signature) {α : Type} {τ : Tree} {c : Con} {arg : Option Tree}

mutual

/-- Whether a value has a type. -/
def HasType : Val → Tree → Prop
  | .literal l, τ => Δ.form τ = .unknown ∨ Δ.form τ = .constant l.kind ∧ Δ.isConstant l
  | .con c none, τ => Δ.form τ = .unknown ∨ (Δ.form τ).Offers c none
  | .con c (some v), τ =>
    Δ.form τ = .unknown ∨ ∃ σ, (Δ.form τ).Offers c (some σ) ∧ HasType v σ
  | .tuple vs, τ => Δ.form τ = .unknown ∨ ∃ σs, Δ.form τ = .tuple σs ∧ HaveTypes vs σs
  | .record fs, τ =>
    Δ.form τ = .unknown ∨ ∃ fields others, Δ.form τ = .record fields others ∧
      FieldsHaveTypes fields others fs ∧ ∀ l ∈ fields.map (·.1), l ∈ fs.map (·.1)
  | .atom _, τ => Δ.form τ = .unknown ∨ Δ.form τ = .abstract

/-- Whether values have types, place by place. -/
def HaveTypes : List Val → List Tree → Prop
  | [], [] => True
  | v :: vs, τ :: τs => HasType v τ ∧ HaveTypes vs τs
  | _, _ => False

/-- Whether the fields of a record value have the types of the fields of a record type. -/
def FieldsHaveTypes (fields : List (String × Tree)) (others : Bool) :
    List (String × Val) → Prop
  | [] => True
  | (l, v) :: fs =>
    (match fields.lookup l with
      | some τ => HasType v τ
      | none => others = true) ∧ FieldsHaveTypes fields others fs

end

mutual

/-- Whether a pattern may be matched against the values of a type.  A record pattern
names no field twice, and names all fields unless it is flexible. -/
def Admits : Pattern α → Tree → Prop
  | .wildcard _, _ => True
  | .var _ _, _ => True
  | .omitted, _ => True
  | .layered _ _ p, τ => Admits p τ
  | .literal _ l, τ => Δ.form τ = .constant l.kind ∧ Δ.isConstant l
  | .con _ c none, τ => ∃ arg, (Δ.form τ).Offers c arg
  | .con _ c (some p), τ => ∃ σ, (Δ.form τ).Offers c (some σ) ∧ Admits p σ
  | .tuple _ ps, τ => ∃ σs, Δ.form τ = .tuple σs ∧ AdmitsAll ps σs
  | .record _ fs flexible, τ =>
    ∃ fields others, Δ.form τ = .record fields others ∧ (fs.map (·.1)).Nodup ∧
      AdmitsFields fields fs ∧
      (flexible = false → others = false ∧ ∀ l ∈ fields.map (·.1), l ∈ fs.map (·.1))

/-- Whether patterns may be matched against values of the given types, place by place. -/
def AdmitsAll : List (Pattern α) → List Tree → Prop
  | [], [] => True
  | p :: ps, τ :: τs => Admits p τ ∧ AdmitsAll ps τs
  | _, _ => False

/-- Whether the fields of a record pattern may be matched against those of a type. -/
def AdmitsFields (fields : List (String × Tree)) : List (String × Pattern α) → Prop
  | [] => True
  | (l, p) :: fs => (∃ τ, fields.lookup l = some τ ∧ Admits p τ) ∧ AdmitsFields fields fs

end

variable {Δ}

theorem haveTypes_iff {vs : List Val} {τs : List Tree} :
    Δ.HaveTypes vs τs ↔ List.Forall₂ Δ.HasType vs τs := by
  induction vs generalizing τs with
  | nil => cases τs <;> simp [HaveTypes]
  | cons v vs ih => cases τs <;> simp [HaveTypes, ih]

theorem admitsAll_iff {ps : List (Pattern α)} {τs : List Tree} :
    Δ.AdmitsAll ps τs ↔ List.Forall₂ Δ.Admits ps τs := by
  induction ps generalizing τs with
  | nil => cases τs <;> simp [AdmitsAll]
  | cons p ps ih => cases τs <;> simp [AdmitsAll, ih]

theorem admitsFields_iff {fields : List (String × Tree)} {fs : List (String × Pattern α)} :
    Δ.AdmitsFields fields fs ↔
      ∀ l p, (l, p) ∈ fs → ∃ τ, fields.lookup l = some τ ∧ Δ.Admits p τ := by
  induction fs with
  | nil => simp [AdmitsFields]
  | cons f fs ih =>
    obtain ⟨l, p⟩ := f
    rw [AdmitsFields, ih]
    constructor
    · rintro ⟨hhead, hrest⟩ l' p' hmem
      rcases List.mem_cons.mp hmem with heq | hmem
      · cases heq
        exact hhead
      · exact hrest l' p' hmem
    · intro h
      exact ⟨h l p List.mem_cons_self, fun l' p' hmem => h l' p' (List.mem_cons_of_mem _ hmem)⟩

theorem fieldsHaveTypes_iff {fields : List (String × Tree)} {others : Bool}
    {fs : List (String × Val)} :
    Δ.FieldsHaveTypes fields others fs ↔
      ∀ l v, (l, v) ∈ fs → (∀ τ, fields.lookup l = some τ → Δ.HasType v τ) ∧
        (fields.lookup l = none → others = true) := by
  induction fs with
  | nil => simp [FieldsHaveTypes]
  | cons f fs ih =>
    obtain ⟨k, w⟩ := f
    rw [FieldsHaveTypes, ih]
    constructor
    · rintro ⟨hhead, hrest⟩ l v hmem
      rcases List.mem_cons.mp hmem with heq | hmem
      · obtain ⟨rfl, rfl⟩ := Prod.mk.inj heq
        cases hk : fields.lookup l with
        | none =>
          rw [hk] at hhead
          exact ⟨nofun, fun _ => hhead⟩
        | some σ =>
          rw [hk] at hhead
          exact ⟨fun τ hτ => Option.some.inj hτ ▸ hhead, nofun⟩
      · exact hrest l v hmem
    · intro h
      refine ⟨?_, fun l v hmem => h l v (List.mem_cons_of_mem _ hmem)⟩
      have hk := h k w List.mem_cons_self
      cases hlookup : fields.lookup k with
      | none => exact hk.2 hlookup
      | some σ => exact hk.1 σ hlookup

/-! ## The constructors of a type -/

/-- A closed form lists the constructors of a datatype. -/
theorem form_closed {cons : List (Con × Option Tree)} (h : Δ.form τ = .closed cons) :
    ∃ name args d, Δ.datatype? name = some d ∧ d.isOpen = false ∧ cons = Δ.constructors d args := by
  cases τ with
  | con name args =>
    simp only [form] at h
    cases hd : Δ.datatype? name with
    | none =>
      rw [hd] at h
      cases hk : LiteralKind.ofName? name <;> simp [hk] at h
    | some d =>
      rw [hd] at h
      cases ho : d.isOpen with
      | true => simp [ho] at h
      | false => exact ⟨name, args, d, hd, ho, by simpa [ho] using h.symm⟩
  | _ => simp [form] at h

/-- Constructors of one datatype differ in their numbers. -/
theorem constructors_nodup {d : Datatype} (h : d.Numbered) (args : List Tree) :
    ((Δ.constructors d args).map (·.1)).Nodup := by
  have htags : (((Δ.constructors d args).map (·.1)).map Con.tag).Nodup := by
    have heq : ((Δ.constructors d args).map (·.1)).map Con.tag = d.constructors.map (·.tag) := by
      simp [constructors, Datatype.con, Function.comp_def]
    rw [heq, h]
    exact List.nodup_range
  exact List.Nodup.of_map _ htags

theorem mem_constructors {d : Datatype} {args : List Tree} (hopen : d.isOpen = false)
    (h : (c, arg) ∈ Δ.constructors d args) :
    c.datatype = d.id ∧ c.hasArg = arg.isSome ∧
      c.siblings.map List.length = some (Δ.constructors d args).length := by
  obtain ⟨k, hk, heq⟩ := List.mem_map.mp h
  cases heq
  simp [Datatype.con, hopen, constructors]

/-- A constructor carries a value exactly if its type says so. -/
theorem offers_hasArg (h : (Δ.form τ).Offers c arg) : c.hasArg = arg.isSome := by
  cases hf : Δ.form τ with
  | closed cons =>
    rw [hf] at h
    obtain ⟨name, args, d, hd, ho, rfl⟩ := form_closed hf
    exact (mem_constructors ho h).2.1
  | extensible d carried =>
    rw [hf] at h
    obtain ⟨-, -, rfl⟩ := h
    cases c.hasArg <;> simp
  | _ =>
    rw [hf] at h
    exact absurd h (by simp [Form.Offers])

/-- The type of the value that a constructor carries is determined. -/
theorem offers_unique {arg' : Option Tree} (h : (Δ.form τ).Offers c arg)
    (h' : (Δ.form τ).Offers c arg') : arg = arg' := by
  cases hf : Δ.form τ with
  | closed cons =>
    rw [hf] at h h'
    obtain ⟨name, args, d, hd, ho, rfl⟩ := form_closed hf
    have hnodup := constructors_nodup (Δ := Δ) (Δ.numbered name d hd) args
    have heq := List.inj_on_of_nodup_map hnodup h h' rfl
    exact congrArg Prod.snd heq
  | extensible d carried =>
    rw [hf] at h h'
    exact h.2.2.trans h'.2.2.symm
  | _ =>
    rw [hf] at h
    exact absurd h (by simp [Form.Offers])

/-- Constructors of one type belong to one datatype. -/
theorem offers_datatype {c' : Con} {arg' : Option Tree} (h : (Δ.form τ).Offers c arg)
    (h' : (Δ.form τ).Offers c' arg') : c.datatype = c'.datatype := by
  cases hf : Δ.form τ with
  | closed cons =>
    rw [hf] at h h'
    obtain ⟨name, args, d, hd, ho, rfl⟩ := form_closed hf
    rw [(mem_constructors ho h).1, (mem_constructors ho h').1]
  | extensible d carried =>
    rw [hf] at h h'
    rw [h.1, h'.1]
  | _ =>
    rw [hf] at h
    exact absurd h (by simp [Form.Offers])

end Signature

end Typecase
