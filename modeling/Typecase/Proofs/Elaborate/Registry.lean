import Typecase.Proofs.Elaborate.Runs
import Typecase.Proofs.Environment
set_option autoImplicit false

/-!
# Constructors and their datatypes

Every constructor of a closed datatype that is in scope belongs to one of the datatypes that were
declared, and has the type that this datatype gives it.  A pattern that tests a constructor has a
type that is made by the datatype of the constructor.

The list patterns and the conditionals of a program use constructors of the prelude by name, so
the second part needs that these names keep their meaning.
-/

namespace Typecase

/-- The constructors that programs use without naming them, with the datatypes that they are
expected to belong to. -/
def standard : LabelMap String :=
  [("nil", "list"), ("::", "list"), ("true", "bool"), ("false", "bool")]

/-- If an identifier stands for a constructor of a closed datatype, it is a constructor of one
of the datatypes `R`. -/
def ValueEntry.Registered (R : List Datatype) (v : ValueEntry) : Prop :=
  ∀ con, v.con? = some con → con.isOpen = false →
    ∃ d ∈ R, ∃ c ∈ d.constructors, con = d.con c false ∧ v.scheme = d.scheme c

/-- If programs use the name `x` without naming it, it stands for the constructor that they
expect. -/
def ValueEntry.Standard (x : String) (v : ValueEntry) : Prop :=
  ∀ t, standard.lookup x = some t →
    ∃ con, v.con? = some con ∧ con.isOpen = false ∧ con.datatypeName = t

theorem ValueEntry.Registered.mono {R R' : List Datatype} {v : ValueEntry} (h : v.Registered R)
    (hsub : R ⊆ R') : v.Registered R' := by
  intro con hcon hclosed
  obtain ⟨d, hd, hrest⟩ := h con hcon hclosed
  exact ⟨d, hsub hd, hrest⟩

/-- An identifier that stands for a value is no constructor at all. -/
theorem ValueEntry.registered_value (R : List Datatype) (σ : Scheme) :
    ValueEntry.Registered R { scheme := σ } := nofun

/-- The constructors in scope belong to the datatypes `R`, exceptions to an open datatype, and
in case of `strict` the standard names are those of the standard constructors. -/
structure Env.Registered (strict : Prop) (R : List Datatype) (env : Env) : Prop where
  entries : env.All (fun x v => v.Registered R ∧ (strict → v.Standard x))
    fun x t => x = "exn" → ∀ d, t.datatype? = some d → d.isOpen = true
  present : strict → ∀ x t, standard.lookup x = some t → (env.value? x).isSome = true

namespace Env

variable {strict : Prop} {R R' : List Datatype} {env other : Env} {name : String}

section Registered

variable (h : env.Registered strict R)
include h

theorem Registered.mono (hsub : R ⊆ R') : env.Registered strict R' :=
  ⟨h.entries.mono (fun _ _ hv => ⟨hv.1.mono hsub, hv.2⟩) fun _ _ ht => ht, h.present⟩

theorem Registered.scope : env.scope.Registered strict R :=
  ⟨h.entries.scope, h.present⟩

theorem Registered.bindValue {v : ValueEntry} (hv : v.Registered R)
    (hname : strict → v.Standard name) : (env.bindValue name v).Registered strict R := by
  refine ⟨h.entries.bindValue ⟨hv, hname⟩, ?_⟩
  intro hstrict x t hx
  rw [value?_bindValue]
  split
  · rfl
  · exact h.present hstrict x t hx

theorem Registered.bindType {t : TypeEntry}
    (ht : name = "exn" → ∀ d, t.datatype? = some d → d.isOpen = true) :
    (env.bindType name t).Registered strict R :=
  ⟨h.entries.bindType ht, h.present⟩

theorem Registered.adopt (h' : other.Registered strict R) : (env.adopt other).Registered strict R :=
  ⟨h.entries.adopt h'.entries, fun hstrict x t hx =>
    isSome_value?_adopt (h.present hstrict x t hx) _⟩

/-- The standard names are names of constructors. -/
theorem Registered.standard_isConstructor (hstrict : strict) {x t : String}
    (hx : standard.lookup x = some t) : env.isConstructor x = true := by
  obtain ⟨v, hv⟩ := Option.isSome_iff_exists.mp (h.present hstrict x t hx)
  obtain ⟨con, hcon, -⟩ := (h.entries.value? hv).2 hstrict t hx
  unfold isConstructor
  rw [hv]
  show v.isConstructor = true
  unfold ValueEntry.isConstructor
  rw [hcon]
  rfl

/-- What is no constructor may be bound to a value. -/
theorem Registered.bind {σ : Scheme} (hname : strict → standard.lookup name = none) :
    (env.bind name σ).Registered strict R := by
  refine h.bindValue (ValueEntry.registered_value R σ) ?_
  intro hstrict t ht
  rw [hname hstrict] at ht
  cases ht

theorem Registered.not_standard (hname : env.isConstructor name = false) (hstrict : strict) :
    standard.lookup name = none := by
  cases hx : standard.lookup name with
  | none => rfl
  | some t =>
    rw [h.standard_isConstructor hstrict hx] at hname
    cases hname

end Registered

end Env

/-! ## Tests -/

/-- A test of a constructor at a type: if the datatype is closed, it is one of `R`, and makes the
type. -/
def Tested (R : List Datatype) (x : Ty × Con) : Prop :=
  x.2.isOpen = false →
    ∃ d ∈ R, ∃ c ∈ d.constructors, x.2 = d.con c false ∧ ∃ m args, x.1 = .con m d.name args

theorem Tested.mono {R R' : List Datatype} {x : Ty × Con} (h : Tested R x) (hsub : R ⊆ R') :
    Tested R' x := by
  intro hclosed
  obtain ⟨d, hd, hrest⟩ := h hclosed
  exact ⟨d, hsub hd, hrest⟩

namespace Pattern

mutual

/-- The constructors that a pattern tests, with the types at which it tests them. -/
def conTests : Pattern Note → List (Ty × Con)
  | .wildcard _ | .var _ _ | .literal _ _ | .omitted => []
  | .con note c none => [(note.type, c)]
  | .con note c (some p) => (note.type, c) :: conTests p
  | .tuple _ ps => conTestsList ps
  | .record _ fs _ => conTestsFields fs
  | .layered _ _ p => conTests p

def conTestsList : List (Pattern Note) → List (Ty × Con)
  | [] => []
  | p :: ps => conTests p ++ conTestsList ps

def conTestsFields : List (String × Pattern Note) → List (Ty × Con)
  | [] => []
  | (_, p) :: fs => conTests p ++ conTestsFields fs

end

mutual

/-- The names that a pattern binds, with the types of the nodes that bind them. -/
def vars : Pattern Note → List (String × Ty)
  | .wildcard _ | .literal _ _ | .con _ _ none | .omitted => []
  | .var note x => [(x, note.type)]
  | .con _ _ (some p) => vars p
  | .tuple _ ps => varsList ps
  | .record _ fs _ => varsFields fs
  | .layered note x p => (x, note.type) :: vars p

def varsList : List (Pattern Note) → List (String × Ty)
  | [] => []
  | p :: ps => vars p ++ varsList ps

def varsFields : List (String × Pattern Note) → List (String × Ty)
  | [] => []
  | (_, p) :: fs => vars p ++ varsFields fs

end

mutual

theorem map_vars : (p : Pattern Note) → p.vars.map (·.1) = p.names
  | .wildcard _ | .literal _ _ | .con _ _ none | .omitted | .var _ _ => rfl
  | .con _ _ (some p) => map_vars p
  | .tuple _ ps => map_varsList ps
  | .record _ fs _ => map_varsFields fs
  | .layered _ x p => congrArg (x :: ·) (map_vars p)

theorem map_varsList :
    (ps : List (Pattern Note)) → (varsList ps).map (·.1) = namesList ps
  | [] => rfl
  | p :: ps => List.map_append.trans (congrArg₂ _ (map_vars p) (map_varsList ps))

theorem map_varsFields :
    (fs : List (String × Pattern Note)) → (varsFields fs).map (·.1) = namesFields fs
  | [] => rfl
  | (_, p) :: fs => List.map_append.trans (congrArg₂ _ (map_vars p) (map_varsFields fs))

end

theorem varsFields_append (fs : List (String × Pattern Note)) (f : String × Pattern Note) :
    varsFields (fs ++ [f]) = varsFields fs ++ f.2.vars := by
  induction fs with
  | nil => exact List.append_nil _
  | cons f' fs ih => exact (congrArg _ ih).trans (List.append_assoc ..).symm

end Pattern

/-! ## Instances of the types of constructors -/

namespace Store

variable {s : Store} (level : Int) (follow : Ty → InstanceM Ty) {ρ : Renaming}

theorem copyWith_con (m : Mark) (name : String) (args : List Ty) :
    ∃ m' args', (copyWith level follow (.con m name args) ρ s).1.1 = .con m' name args' := by
  simp only [copyWith]
  show ∃ m' args', ((if s.isMarked m then _ else _ : InstanceM Ty) ρ s).1.1 = _
  split
  · exact ⟨_, _, rfl⟩
  · exact ⟨_, _, rfl⟩

theorem copyWith_arrow_con (m m' : Mark) (a : Ty) (name : String) (args : List Ty) :
    ∃ m₁ b m₂ args', (copyWith level follow (.arrow m a (.con m' name args)) ρ s).1.1 =
      .arrow m₁ b (.con m₂ name args') := by
  rw [copyWith]
  show ∃ m₁ b m₂ args', ((if s.isMarked m then _ else _ : InstanceM Ty) ρ s).1.1 = _
  split
  · obtain ⟨m₂, args', hcon⟩ := copyWith_con level follow
      (s := (copyWith level follow a ρ s).2) (ρ := (copyWith level follow a ρ s).1.2) m' name args
    exact ⟨_, _, m₂, args', congrArg (Ty.arrow _ _) hcon⟩
  · exact ⟨_, _, _, _, rfl⟩

/-- An instance of a type that is no variable is a copy of it or the type itself. -/
theorem instantiate_cases {P : Ty → Prop} (σ : Scheme) (hσ : P σ.type)
    (hhead : ∀ s : Store, s.head σ.type = σ.type)
    (hcopy : ∀ level follow ρ s, P (copyWith level follow σ.type ρ s).1.1) (s : Store) :
    P (instantiate level σ s).1 := by
  unfold instantiate
  split
  · exact hσ
  · show P (instantiateFrom level [] σ.type s).1
    rw [instantiateFrom_eq, hhead]
    split
    · cases s.size with
      | zero => exact hcopy _ _ _ _
      | succ n => exact hcopy _ _ _ _
    · exact hσ

theorem head_con (s : Store) (m : Mark) (name : String) (args : List Ty) :
    s.head (.con m name args) = .con m name args := by
  unfold head
  cases s.size <;> rfl

theorem head_arrow (s : Store) (m : Mark) (a r : Ty) : s.head (.arrow m a r) = .arrow m a r := by
  unfold head
  cases s.size <;> rfl

end Store

/-- The datatype applied to its parameters is made by its name. -/
theorem Datatype.exists_type (d : Datatype) : ∃ m args, d.type = .con m d.name args := by
  unfold Datatype.type
  split
  · exact ⟨_, _, rfl⟩
  · exact ⟨_, _, rfl⟩

/-- An instance of the type of a constructor leads to a type that is made by the datatype. -/
theorem Datatype.instantiate_scheme (d : Datatype) (c : Constructor) (level : Int) (s : Store) :
    match c.arg with
    | none => ∃ m args, (Store.instantiate level (d.scheme c) s).1 = .con m d.name args
    | some _ => ∃ m a m' args,
        (Store.instantiate level (d.scheme c) s).1 = .arrow m a (.con m' d.name args) := by
  obtain ⟨m, args, htype⟩ := d.exists_type
  cases harg : c.arg with
  | none =>
    have hσ : d.scheme c = ⟨d.params, .con m d.name args⟩ := by
      unfold Datatype.scheme
      rw [harg, htype]
    rw [hσ]
    exact Store.instantiate_cases level (P := fun t => ∃ m args, t = .con m d.name args) _
      ⟨_, _, rfl⟩ (fun s => s.head_con _ _ _) (fun _ _ _ _ => Store.copyWith_con _ _ _ _ _) s
  | some t =>
    have hσ : ∃ m', d.scheme c = ⟨d.params, .arrow m' t (.con m d.name args)⟩ := by
      unfold Datatype.scheme
      rw [harg, htype]
      exact ⟨_, rfl⟩
    obtain ⟨m', hσ⟩ := hσ
    rw [hσ]
    exact Store.instantiate_cases level
      (P := fun t => ∃ m a m' args, t = .arrow m a (.con m' d.name args)) _ ⟨_, _, _, _, rfl⟩
      (fun s => s.head_arrow _ _ _)
      (fun _ _ _ _ => Store.copyWith_arrow_con _ _ _ _ _ _ _) s

namespace Elaborate

variable {α β : Type} {cfg : Config} {strict : Prop} {R : List Datatype} {env : Env} {level : Int}
  {pos : Pos} {v : ValueEntry} {con : Con}

/-! ## Results -/

/-- Whatever `m` is run in, its result has the property `P` if it succeeds. -/
def Yields (cfg : Config) (m : ElaborateM α) (P : α → Prop) : Prop :=
  ∀ s a s', m cfg s = (.ok a, s') → P a

section Yields

variable {m : ElaborateM α} {k : α → ElaborateM β} {P : α → Prop} {P' : β → Prop}

theorem bind_run_ok {s s' : State} {b : β} :
    (m >>= k) cfg s = (.ok b, s') ↔
      ∃ a s₁, m cfg s = (.ok a, s₁) ∧ k a cfg s₁ = (.ok b, s') := by
  rw [bind_run]
  rcases m cfg s with ⟨r, s₁⟩
  cases r with
  | error e =>
    constructor
    · intro h
      cases h
    · rintro ⟨_, _, h, _⟩
      cases h
  | ok a =>
    constructor
    · intro h
      exact ⟨a, s₁, rfl, h⟩
    · rintro ⟨_, _, heq, h⟩
      cases heq
      exact h

theorem Yields.pure {a : α} (ha : P a) : Yields cfg (pure a) P := by
  intro s b s' h
  cases h
  exact ha

theorem Yields.fail {p : Problem} : Yields cfg (fail pos p : ElaborateM α) P := by
  intro s b s' h
  cases h

theorem Yields.bind (hm : Yields cfg m P) (hk : ∀ a, P a → Yields cfg (k a) P') :
    Yields cfg (m >>= k) P' := by
  intro s b s' h
  obtain ⟨a, s₁, ha, hb⟩ := bind_run_ok.mp h
  exact hk a (hm s a s₁ ha) s₁ b s' hb

/-- A computation whose result does not matter. -/
theorem Yields.then (hk : ∀ a, Yields cfg (k a) P') : Yields cfg (m >>= k) P' :=
  .bind (P := fun _ => True) (fun _ _ _ _ => trivial) fun a _ => hk a

theorem Yields.fail_bind {p : Problem} : Yields cfg (Elaborate.fail pos p >>= k) P' :=
  .bind (P := fun _ => False) .fail fun _ hfalse => hfalse.elim

theorem Yields.ite {c : Prop} [Decidable c] {m' : ElaborateM α} (h : c → Yields cfg m P)
    (h' : ¬ c → Yields cfg m' P) : Yields cfg (if c then m else m') P := by
  split
  · rename_i hc
    exact h hc
  · rename_i hc
    exact h' hc

theorem Yields.liftStore {act : StoreM α} (h : ∀ s, P (act s).1) :
    Yields cfg (liftStore act) P := by
  intro s a s' hrun
  cases hrun
  exact h s.store

end Yields

/-! ## Patterns -/

/-- The variables that are added to `vars` are no constructors, and no name comes twice. -/
def Variables (env : Env) (vars new : PatternVars) : Prop :=
  (∀ v ∈ new, env.isConstructor v.1 = false) ∧
    ((vars.map (·.1)).Nodup → ((vars ++ new).map (·.1)).Nodup)

theorem Variables.nil {vars : PatternVars} : Variables env vars [] :=
  ⟨nofun, fun h => by rwa [List.append_nil]⟩

theorem Variables.append {vars new new' : PatternVars} (h : Variables env vars new)
    (h' : Variables env (vars ++ new) new') : Variables env vars (new ++ new') :=
  ⟨List.forall_mem_append.mpr ⟨h.1, h'.1⟩, fun hvars => List.append_assoc .. ▸ h'.2 (h.2 hvars)⟩

/-- A computation that collects variables; the property `P` holds of its result and of the
variables that it adds. -/
def Collects (cfg : Config) (env : Env) (m : PatternM α) (P : α → PatternVars → Prop) : Prop :=
  ∀ vars, Yields cfg (m vars) fun r => ∃ new, r.2 = vars ++ new ∧ Variables env vars new ∧ P r.1 new

section Collects

variable {m : PatternM α} {k : α → PatternM β} {P : α → PatternVars → Prop}
  {P' : β → PatternVars → Prop}

theorem Collects.pure {a : α} (ha : P a []) : Collects cfg env (pure a) P :=
  fun vars => .pure ⟨[], (List.append_nil vars).symm, .nil, ha⟩

theorem Collects.bind (hm : Collects cfg env m P)
    (hk : ∀ a new, P a new → Collects cfg env (k a) fun b new' => P' b (new ++ new')) :
    Collects cfg env (m >>= k) P' := by
  intro vars
  refine .bind (hm vars) ?_
  rintro ⟨a, _⟩ ⟨new, rfl, hnew, ha⟩ s b s' hb
  obtain ⟨new', hvars, hnew', hP⟩ := hk a new ha (vars ++ new) s b s' hb
  exact ⟨new ++ new', by rw [hvars, List.append_assoc], hnew.append hnew', hP⟩

/-- A first computation that has nothing to do with variables. -/
theorem Collects.first {m : ElaborateM α} {Q : α → Prop} (hm : Yields cfg m Q)
    (hk : ∀ a, Q a → Collects cfg env (k a) P') : Collects cfg env (liftM m >>= k) P' :=
  .bind (P := fun a new => Q a ∧ new = []) (fun vars => .bind hm fun _ ha =>
    .pure ⟨[], (List.append_nil vars).symm, .nil, ha, rfl⟩) fun _ _ ⟨ha, hnew⟩ => hnew ▸ hk _ ha

/-- A computation whose result does not matter. -/
theorem Collects.then {m : ElaborateM α} (hk : ∀ a, Collects cfg env (k a) P') :
    Collects cfg env (liftM m >>= k) P' :=
  .first (Q := fun _ => True) (fun _ _ _ _ => trivial) fun a _ => hk a

theorem Collects.fail_bind {p : Problem} :
    Collects cfg env ((failPattern pos p : PatternM α) >>= k) P' :=
  .first (Q := fun _ => False) .fail fun _ hfalse => hfalse.elim

theorem collects_bindVar {name : String} {t : Ty} (hname : env.isConstructor name = false) :
    Collects cfg env (bindVar pos name t) fun _ new => new = [(name, t)] := by
  intro vars
  have hstop : Collects cfg env (do
      failPattern pos (.repeatedVariable name)
      set (vars ++ [(name, t)]) : PatternM Unit) fun _ new => new = [(name, t)] := .fail_bind
  show Yields cfg ((if LabelMap.has vars name = true then
      (do
        failPattern pos (.repeatedVariable name)
        set (vars ++ [(name, t)]) : PatternM Unit)
    else set (vars ++ [(name, t)])) vars) _
  split
  · exact hstop vars
  · rename_i hnew
    refine Yields.pure ⟨_, rfl, ⟨List.forall_mem_singleton.mpr hname, fun hvars => ?_⟩, rfl⟩
    rw [List.map_append]
    refine List.nodup_append.mpr ⟨hvars, List.nodup_singleton _, ?_⟩
    intro x hx y hy hxy
    obtain ⟨v, hv, rfl⟩ := List.mem_map.mp hx
    rw [List.eq_of_mem_singleton hy] at hxy
    exact hnew (List.lookup_isSome_iff.mpr ⟨v, hv, by simp [hxy]⟩)

end Collects

/-- All tests of a pattern are tests of constructors of the datatypes `R`. -/
def PatternTested (strict : Prop) (R : List Datatype) (p : Pattern Note) : Prop :=
  strict → ∀ x ∈ p.conTests, Tested R x

theorem yields_constructor (name : String) :
    Yields cfg (constructor env pos name) fun r =>
      ∃ v, env.value? name = some v ∧ v.con? = some r.1 ∧ v.scheme = r.2 := by
  unfold constructor
  cases hvalue : env.value? name with
  | none => exact .fail
  | some v =>
    dsimp only
    cases hcon : v.con? with
    | none => exact .fail
    | some con => exact .pure ⟨v, rfl, hcon, rfl⟩

/-- A constructor is used at an instance of its type. -/
def UsedAt (R : List Datatype) (con : Con) (t : Ty) : Prop :=
  con.isOpen = false → ∃ d ∈ R, ∃ c ∈ d.constructors, con = d.con c false ∧
    match c.arg with
    | none => ∃ m args, t = .con m d.name args
    | some _ => ∃ m a m' args, t = .arrow m a (.con m' d.name args)

theorem yields_instantiate (hcon : v.con? = some con) (hv : strict → v.Registered R) :
    Yields cfg (instantiate level v.scheme) fun t => strict → UsedAt R con t := by
  refine .then fun _ => .liftStore ?_
  intro s hstrict hclosed
  obtain ⟨d, hd, c, hc, rfl, hscheme⟩ := hv hstrict con hcon hclosed
  rw [hscheme]
  exact ⟨d, hd, c, hc, rfl, d.instantiate_scheme c level s⟩

theorem yields_conPattern {t : Ty} (ht : strict → UsedAt R con t) {arg : Option (Pattern Note)}
    (harg : ∀ p, arg = some p → PatternTested strict R p) :
    Yields cfg (conPattern pos con t arg) fun q =>
      PatternTested strict R q ∧ q.vars = arg.elim [] Pattern.vars := by
  unfold conPattern
  split
  · exact .fail
  · exact .fail
  · rename_i hnone
    refine .pure ⟨fun hstrict => List.forall_mem_singleton.mpr ?_, rfl⟩
    intro hclosed
    obtain ⟨d, hd, c, hc, rfl, hform⟩ := ht hstrict hclosed
    have harg : c.arg = none := Option.not_isSome_iff_eq_none.mp (Bool.not_eq_true _ ▸ hnone)
    rw [harg] at hform
    exact ⟨d, hd, c, hc, rfl, hform⟩
  · rename_i p hsome
    have hfinal : ∀ r, (strict → Tested R (r, con)) →
        PatternTested strict R (.con ⟨pos, r⟩ con (some p)) := fun r hr hstrict =>
      List.forall_mem_cons.mpr ⟨hr hstrict, harg p rfl hstrict⟩
    refine .then fun s => ?_
    split
    · rename_i m a r hhead
      refine .then fun _ => .pure ⟨hfinal r ?_, rfl⟩
      intro hstrict hclosed
      obtain ⟨d, hd, c, hc, rfl, hform⟩ := ht hstrict hclosed
      obtain ⟨b, hb⟩ := Option.isSome_iff_exists.mp hsome
      rw [hb] at hform
      obtain ⟨m₁, a₁, m₂, args, rfl⟩ := hform
      rw [Store.head_arrow] at hhead
      cases hhead
      exact ⟨d, hd, c, hc, rfl, m₂, args, rfl⟩
    · rename_i hhead
      refine .pure ⟨hfinal _ ?_, rfl⟩
      intro hstrict hclosed
      obtain ⟨d, hd, c, hc, rfl, hform⟩ := ht hstrict hclosed
      obtain ⟨b, hb⟩ := Option.isSome_iff_exists.mp hsome
      rw [hb] at hform
      obtain ⟨m₁, a₁, m₂, args, rfl⟩ := hform
      exact absurd (Store.head_arrow s m₁ a₁ _) (hhead _ _ _)

/-- The standard constructors are tested at the types that programs expect. -/
theorem tested_standard {x t : String} {m : Mark} {args : List Ty} (hcon : v.con? = some con)
    (hv : v.Registered R) (hx : standard.lookup x = some t) (hstandard : v.Standard x) :
    Tested R (.con m t args, con) := by
  intro hclosed
  obtain ⟨con', hcon', -, hname⟩ := hstandard t hx
  rw [hcon] at hcon'
  cases hcon'
  obtain ⟨d, hd, c, hc, rfl, -⟩ := hv con hcon hclosed
  exact ⟨d, hd, c, hc, rfl, m, args, by rw [← hname]; rfl⟩

theorem yields_listPattern {nil cons : Con} {elem list : Ty} (hnil : strict → Tested R (list, nil))
    (hcons : strict → Tested R (list, cons)) (ps : List (Pattern Note))
    (hps : ∀ p ∈ ps, PatternTested strict R p) :
    Yields cfg (listPattern pos nil cons elem list ps) fun q =>
      PatternTested strict R q ∧ q.vars = Pattern.varsList ps := by
  induction ps with
  | nil => exact .pure ⟨fun hstrict => List.forall_mem_singleton.mpr (hnil hstrict), rfl⟩
  | cons p ps ih =>
    rw [List.forall_mem_cons] at hps
    refine .bind (ih hps.2) ?_
    rintro tail ⟨htail, hvars⟩
    refine .then fun pair => .pure ⟨fun hstrict => ?_, ?_⟩
    on_goal 2 => simp [Pattern.vars, Pattern.varsList, hvars]
    refine List.forall_mem_cons.mpr ⟨hcons hstrict, ?_⟩
    show ∀ x ∈ p.conTests ++ (tail.conTests ++ []), Tested R x
    rw [List.append_nil]
    exact List.forall_mem_append.mpr ⟨hps.1 hstrict, htail hstrict⟩

theorem conTestsList_tested {ps : List (Pattern Note)} (h : ∀ p ∈ ps, PatternTested strict R p)
    (hstrict : strict) : ∀ x ∈ Pattern.conTestsList ps, Tested R x := by
  induction ps with
  | nil => exact fun _ hx => absurd hx List.not_mem_nil
  | cons p ps ih =>
    rw [List.forall_mem_cons] at h
    exact List.forall_mem_append.mpr ⟨h.1 hstrict, ih h.2⟩

theorem conTestsFields_tested {fs : List (String × Pattern Note)}
    (h : ∀ f ∈ fs, PatternTested strict R f.2) (hstrict : strict) :
    ∀ x ∈ Pattern.conTestsFields fs, Tested R x := by
  induction fs with
  | nil => exact fun _ hx => absurd hx List.not_mem_nil
  | cons f fs ih =>
    rw [List.forall_mem_cons] at h
    exact List.forall_mem_append.mpr ⟨h.1 hstrict, ih h.2⟩

theorem isConstructor_of_value? {name : String} (hv : env.value? name = some v)
    (hcon : v.con? = none) : env.isConstructor name = false := by
  unfold Env.isConstructor
  rw [hv]
  show v.isConstructor = false
  unfold ValueEntry.isConstructor
  rw [hcon]
  rfl

/-- What a pattern comes to: tests of constructors of `R`, and its names as variables. -/
def PatternMade (strict : Prop) (R : List Datatype) (names : List String) (p : Pattern Note)
    (new : PatternVars) : Prop :=
  PatternTested strict R p ∧ (new.map (·.1)).Perm names ∧ new.Perm p.vars

/-- A pattern that is put together after the variables `new` were collected. -/
theorem collects_made {m : ElaborateM (Pattern Note)} {names : List String} (new : PatternVars)
    {vs : PatternVars} (hm : Yields cfg m fun p => PatternTested strict R p ∧ p.vars = vs)
    (hnames : (new.map (·.1)).Perm names ∧ new.Perm vs) :
    Collects cfg env (liftM m) fun p new' => PatternMade strict R names p (new ++ new') :=
  fun vars => .bind hm fun _ hp =>
    .pure ⟨[], (List.append_nil vars).symm, .nil, hp.1, by rwa [List.append_nil, hp.2]⟩

/-- What several patterns come to. -/
def PatternsMade (strict : Prop) (R : List Datatype) (names : List String)
    (ps : List (Pattern Note)) (new : PatternVars) : Prop :=
  (∀ p ∈ ps, PatternTested strict R p) ∧ (new.map (·.1)).Perm names ∧
    new.Perm (Pattern.varsList ps)

theorem PatternsMade.cons {p : Pattern Note} {ps : List (Pattern Note)} {names names' : List String}
    {new new' : PatternVars} (hp : PatternMade strict R names p new)
    (hps : PatternsMade strict R names' ps new') :
    PatternsMade strict R (names ++ names') (p :: ps) (new ++ new') :=
  ⟨List.forall_mem_cons.mpr ⟨hp.1, hps.1⟩,
    by rw [List.map_append]; exact hp.2.1.append hps.2.1, hp.2.2.append hps.2.2⟩

mutual

theorem collects_elaboratePattern (henv : strict → env.Registered strict R) :
    (p : Source.Pattern) → Collects cfg env (elaboratePattern env level p)
      (PatternMade strict R (p.names env.isConstructor))
  | .wildcard pos => by
    unfold elaboratePattern
    exact .then fun t => .pure ⟨fun _ _ hx => absurd hx List.not_mem_nil, .nil, .nil⟩
  | .var pos name => by
    unfold elaboratePattern Source.Pattern.names
    have hvar : env.isConstructor name = false → Collects cfg env (do
        let t ← freshType level
        bindVar pos name t
        return .var ⟨pos, t⟩ name) (PatternMade strict R (if env.isConstructor name then [] else
          [name])) := by
      intro hname
      refine .then fun t => .bind (collects_bindVar hname) ?_
      rintro _ _ rfl
      rw [hname]
      exact .pure ⟨fun _ _ hx => absurd hx List.not_mem_nil, .refl _, .refl _⟩
    cases hvalue : env.value? name with
    | none =>
      refine hvar ?_
      unfold Env.isConstructor
      rw [hvalue]
      rfl
    | some entry =>
      cases hcon : entry.con? with
      | none =>
        simp only [Option.bind_some, hcon, Option.map_none]
        exact hvar (isConstructor_of_value? hvalue hcon)
      | some con =>
        have hname : env.isConstructor name = true := by
          simp [Env.isConstructor, ValueEntry.isConstructor, hvalue, hcon]
        simp only [Option.bind_some, hcon, Option.map_some, hname, if_true]
        refine .first (yields_instantiate hcon fun h => ((henv h).entries.value? hvalue).1) ?_
        exact fun t ht => collects_made [] (yields_conPattern ht nofun) ⟨.nil, .nil⟩
  | .literal pos lit => by
    unfold elaboratePattern
    split
    · exact .fail_bind
    · exact .pure ⟨fun _ _ hx => absurd hx List.not_mem_nil, .nil, .nil⟩
  | .con pos name none => by
    unfold elaboratePattern
    refine .first (yields_constructor name) ?_
    rintro ⟨con, σ⟩ ⟨v, hv, hcon, rfl⟩
    refine .first (yields_instantiate hcon fun h => ((henv h).entries.value? hv).1) ?_
    exact fun t ht => collects_made [] (yields_conPattern ht nofun) ⟨.nil, .nil⟩
  | .con pos name (some arg) => by
    unfold elaboratePattern
    refine .first (yields_constructor name) ?_
    rintro ⟨con, σ⟩ ⟨v, hv, hcon, rfl⟩
    refine .first (yields_instantiate hcon fun h => ((henv h).entries.value? hv).1) ?_
    intro t ht
    refine .bind (collects_elaboratePattern henv arg) ?_
    rintro p new ⟨hp, hnames⟩
    refine collects_made new (yields_conPattern ht ?_) hnames
    rintro p' ⟨⟩
    exact hp
  | .tuple pos elems => by
    unfold elaboratePattern
    refine .bind (collects_elaboratePatterns henv elems) ?_
    rintro ps new ⟨hps, hnames⟩
    rw [← List.append_nil new] at hnames
    split
    · exact .pure ⟨hps _ List.mem_cons_self, by
        simpa [Source.Pattern.names, Pattern.varsList] using hnames⟩
    · exact .then fun t => .pure ⟨fun hstrict => conTestsList_tested hps hstrict, hnames⟩
  | .record pos fields flexible => by
    unfold elaboratePattern
    refine .bind (collects_elaboratePatternFields henv pos [] fields fun _ he =>
      absurd he List.not_mem_nil) ?_
    rintro fs new ⟨hfs, hnames⟩
    rw [← List.append_nil new] at hnames
    have hrecord : ∀ row, Collects cfg env (do
        let t ← liftStore (Ty.mkRecord (fs.map fun f => (f.1, f.2.type)) row)
        return .record ⟨pos, t⟩ fs flexible : PatternM (Pattern Note)) fun p new' =>
          PatternMade strict R (Source.Pattern.namesFields env.isConstructor fields) p
            (new ++ new') :=
      fun row => .then fun t => .pure ⟨fun hstrict => conTestsFields_tested hfs hstrict, hnames⟩
    split
    · exact .then hrecord
    · rw [pure_bind]
      exact hrecord _
  | .layered pos name pattern => by
    unfold elaboratePattern
    split
    · exact .fail_bind
    · rename_i hname
      refine .bind (collects_elaboratePattern henv pattern) ?_
      rintro p new ⟨hp, hnames, hvars⟩
      refine .bind (collects_bindVar (Bool.not_eq_true _ ▸ hname)) ?_
      rintro _ _ rfl
      refine .pure ⟨fun hstrict => hp hstrict, ?_⟩
      rw [List.append_nil, List.map_append]
      exact ⟨(List.perm_append_singleton name _).trans (hnames.cons name),
        (List.perm_append_singleton _ _).trans (hvars.cons _)⟩
  | .list pos elems => by
    unfold elaboratePattern
    refine .first (yields_constructor "nil") ?_
    rintro ⟨nil, _⟩ ⟨v, hv, hnil, -⟩
    refine .first (yields_constructor "::") ?_
    rintro ⟨cons, _⟩ ⟨w, hw, hcons, -⟩
    refine .then fun elem => ?_
    refine .first (Q := fun t => ∃ m args, t = .con m "list" args)
      (.liftStore fun s => ⟨_, _, rfl⟩) ?_
    rintro list ⟨m, args, rfl⟩
    refine .bind (collects_elaborateElements henv elem elems) ?_
    rintro ps new ⟨hps, hnames⟩
    have htested : ∀ {x con v}, env.value? x = some v → v.con? = some con →
        standard.lookup x = some "list" → strict → Tested R (.con m "list" args, con) := by
      intro x con v hv hcon hx hstrict
      obtain ⟨hregistered, hstandard⟩ := (henv hstrict).entries.value? hv
      exact tested_standard hcon hregistered hx (hstandard hstrict)
    exact collects_made new (yields_listPattern (htested hv hnil rfl) (htested hw hcons rfl) ps hps)
      hnames
  | .annot pos pattern type => by
    unfold elaboratePattern
    refine .bind (collects_elaboratePattern henv pattern) ?_
    rintro p new ⟨hp, hnames⟩
    rw [← List.append_nil new] at hnames
    exact .then fun t => .then fun _ => .pure ⟨hp, hnames⟩

theorem collects_elaboratePatterns (henv : strict → env.Registered strict R) :
    (ps : List Source.Pattern) → Collects cfg env (elaboratePatterns env level ps)
      (PatternsMade strict R (Source.Pattern.namesList env.isConstructor ps))
  | [] => by
    unfold elaboratePatterns
    exact .pure ⟨fun _ hp => absurd hp List.not_mem_nil, .nil, .nil⟩
  | p :: ps => by
    unfold elaboratePatterns
    refine .bind (collects_elaboratePattern henv p) fun p' new hp => ?_
    refine .bind (collects_elaboratePatterns henv ps) fun ps' new' hps => .pure ?_
    rw [List.append_nil]
    exact .cons hp hps

theorem collects_elaborateElements (henv : strict → env.Registered strict R) (elem : Ty) :
    (ps : List Source.Pattern) → Collects cfg env (elaborateElements env level elem ps)
      (PatternsMade strict R (Source.Pattern.namesList env.isConstructor ps))
  | [] => by
    unfold elaborateElements
    exact .pure ⟨fun _ hp => absurd hp List.not_mem_nil, .nil, .nil⟩
  | p :: ps => by
    unfold elaborateElements
    refine .bind (collects_elaboratePattern henv p) fun p' new hp => .then fun _ => ?_
    refine .bind (collects_elaborateElements henv elem ps) fun ps' new' hps => .pure ?_
    rw [List.append_nil]
    exact .cons hp hps

theorem collects_elaboratePatternFields (henv : strict → env.Registered strict R) (pos : Pos)
    (done : List (String × Pattern Note)) : (fields : List (String × Source.Pattern)) →
    (∀ f ∈ done, PatternTested strict R f.2) →
    Collects cfg env (elaboratePatternFields env level pos done fields) fun fs new =>
      (∀ f ∈ fs, PatternTested strict R f.2) ∧
        (new.map (·.1)).Perm (Source.Pattern.namesFields env.isConstructor fields) ∧
        (Pattern.varsFields done ++ new).Perm (Pattern.varsFields fs)
  | [], hdone => by
    unfold elaboratePatternFields
    exact .pure ⟨hdone, .nil, .of_eq (List.append_nil _)⟩
  | (label, p) :: fields, hdone => by
    unfold elaboratePatternFields
    split
    · exact .fail_bind
    · refine .bind (collects_elaboratePattern henv p) ?_
      rintro p' new ⟨hp, hnames, hvs⟩ vars s r s' hr
      have hdone' : ∀ f ∈ done ++ [(label, p')], PatternTested strict R f.2 :=
        List.forall_mem_append.mpr ⟨hdone, List.forall_mem_singleton.mpr hp⟩
      obtain ⟨new', hvars, hnew', hfs, hnames', hvs'⟩ :=
        collects_elaboratePatternFields henv pos (done ++ [(label, p')]) fields hdone' vars s r s' hr
      refine ⟨new', hvars, hnew', hfs, ?_, .trans ?_ hvs'⟩
      · rw [List.map_append]
        exact hnames.append hnames'
      · rw [Pattern.varsFields_append, ← List.append_assoc]
        exact (hvs.append_left _).append_right _

end

/-- A pattern collects each name that it binds once, with the type of the node that binds it, and
these are the names of the source pattern. -/
theorem elaboratePattern_vars {p : Source.Pattern} {s s' : State} {q : Pattern Note}
    {vars : PatternVars} (hrun : elaboratePattern env level p [] cfg s = (.ok (q, vars), s')) :
    (vars.map (·.1)).Nodup ∧ (vars.map (·.1)).Perm (p.names env.isConstructor) ∧
      (vars.map (·.1)).Perm q.names ∧ vars.Perm q.vars := by
  have hcollects : Collects cfg env (elaboratePattern env level p)
      (PatternMade False [] (p.names env.isConstructor)) := collects_elaboratePattern nofun p
  obtain ⟨new, rfl, hnew, -, hnames, hvars⟩ := hcollects [] s (q, vars) s' hrun
  exact ⟨hnew.2 .nil, hnames, q.map_vars ▸ hvars.map _, hvars⟩

/-- The pattern `{a = x, b = y as z, ...}`. -/
def nestedNames : Source.Pattern :=
  .record ⟨1, 1⟩ [("a", .var ⟨1, 6⟩ "x"), ("b", .layered ⟨1, 13⟩ "y" (.var ⟨1, 18⟩ "z"))] true

theorem elaboratePattern_vars_nested :
    ∃ q vars s', elaboratePattern {} 1 nestedNames [] {} {} = (.ok (q, vars), s') ∧
      vars.map (·.1) = ["x", "z", "y"] ∧ q.names = ["x", "y", "z"] ∧ vars.Perm q.vars :=
  ⟨_, _, _, rfl, rfl, rfl, (@elaboratePattern_vars {} {} 1 nestedNames {} _ _ _ rfl).2.2.2⟩

/-! ## The prelude -/

/-- The datatypes that an environment has names for. -/
def datatypesOf (env : Env) : List Datatype :=
  env.frames.flatMap fun f => f.types.filterMap fun t => t.2.datatype?

/-- The closed datatypes of the prelude. -/
def preludeClosed : List Datatype :=
  (datatypesOf (Env.initial {}).1).filter fun d => !d.isOpen

/-- The exceptions that an environment has names for. -/
def exceptionsOf (env : Env) : List Con :=
  env.frames.flatMap fun f => f.values.filterMap fun e =>
    match e.2.status with
    | .exception con => some con
    | _ => none

theorem prelude_entries :
    (∀ f ∈ (Env.initial {}).1.frames,
      (∀ e ∈ f.values,
        (∀ con ∈ e.2.con?.toList, con.isOpen = false → ∃ d ∈ preludeClosed, ∃ c ∈ d.constructors,
          con = d.con c false ∧ e.2.scheme = d.scheme c) ∧
        ∀ t ∈ (standard.lookup e.1).toList, ∃ con ∈ e.2.con?.toList,
          con.isOpen = false ∧ con.datatypeName = t) ∧
      ∀ e ∈ f.types, e.1 = "exn" → ∀ d ∈ e.2.datatype?.toList, d.isOpen = true) ∧
    (∀ e ∈ standard, ((Env.initial {}).1.value? e.1).isSome = true) ∧
    "exn" ∈ (datatypesOf (Env.initial {}).1).map (·.name) ∧
    ((exceptionsOf (Env.initial {}).1).map (·.tag)).Nodup ∧
    ∀ con ∈ exceptionsOf (Env.initial {}).1, con.tag ≤ 3 := by
  decide +kernel

theorem registered_prelude (strict : Prop) :
    (Env.initial {}).1.Registered strict preludeClosed := by
  obtain ⟨hframes, hstandard, -⟩ := prelude_entries
  refine ⟨⟨?_, ?_⟩, ?_⟩
  · intro f hf e he
    obtain ⟨hconstructors, hnames⟩ := (hframes f hf).1 e he
    refine ⟨?_, fun _ => ?_⟩
    · intro con hcon hclosed
      exact hconstructors con (Option.mem_toList.mpr hcon) hclosed
    · intro t ht
      obtain ⟨con, hcon, hrest⟩ := hnames t (Option.mem_toList.mpr ht)
      exact ⟨con, Option.mem_toList.mp hcon, hrest⟩
  · intro f hf e he hname d hd
    exact (hframes f hf).2 e he hname d (Option.mem_toList.mpr hd)
  · intro _ x t hx
    exact hstandard (x, t) (LabelMap.mem_of_lookup hx)

end Elaborate

end Typecase
