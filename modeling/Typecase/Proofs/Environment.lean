import Typecase.Environment
import Typecase.Proofs.LabelMap
set_option autoImplicit false

/-!
# Environments whose entries have a property

A property of all entries of an environment, hidden ones included, is kept by every way to
extend the environment with entries that have it.
-/

namespace Typecase.Env

variable {P P' : String → ValueEntry → Prop} {Q Q' : String → TypeEntry → Prop} {env other : Env}

/-! ## Looking up -/

theorem value?_eq (env : Env) (x : String) : env.value? x =
    (env.current.values.lookup x).or
      (env.outer.findSome? fun f => LabelMap.find? f.values x) := by
  unfold value? frames
  rw [List.findSome?_cons]
  cases h : LabelMap.find? env.current.values x with
  | none => simp [show env.current.values.lookup x = none from h]
  | some v => simp [show env.current.values.lookup x = some v from h]

theorem value?_bindValue (env : Env) (name x : String) (v : ValueEntry) :
    (env.bindValue name v).value? x = if x = name then some v else env.value? x := by
  rw [value?_eq, value?_eq]
  show ((LabelMap.set env.current.values name v).lookup x).or _ = _
  rw [LabelMap.lookup_set]
  split
  · rfl
  · rfl

theorem type?_eq (env : Env) (x : String) : env.type? x =
    (env.current.types.lookup x).or
      (env.outer.findSome? fun f => LabelMap.find? f.types x) := by
  unfold type? frames
  rw [List.findSome?_cons]
  cases h : LabelMap.find? env.current.types x with
  | none => simp [show env.current.types.lookup x = none from h]
  | some t => simp [show env.current.types.lookup x = some t from h]

theorem type?_bindType (env : Env) (name x : String) (t : TypeEntry) :
    (env.bindType name t).type? x = if x = name then some t else env.type? x := by
  rw [type?_eq, type?_eq]
  show ((LabelMap.set env.current.types name t).lookup x).or _ = _
  rw [LabelMap.lookup_set]
  split
  · rfl
  · rfl

theorem value?_adopt (env other : Env) (x : String) : (env.adopt other).value? x =
    (other.current.values.reverse.lookup x).or (env.value? x) := by
  rw [value?_eq, value?_eq, ← Option.or_assoc, ← LabelMap.lookup_extend]
  rfl

theorem type?_adopt (env other : Env) (x : String) : (env.adopt other).type? x =
    (other.current.types.reverse.lookup x).or (env.type? x) := by
  rw [type?_eq, type?_eq, ← Option.or_assoc, ← LabelMap.lookup_extend]
  rfl

theorem isSome_value?_adopt {x : String} (h : (env.value? x).isSome = true) (other : Env) :
    ((env.adopt other).value? x).isSome = true := by
  rw [value?_adopt, Option.isSome_or, h, Bool.or_true]

/-! ## Environments that mean the same -/

/-- Every name means the same in `env'` as in `env`.  If `exact`, their current frames are the
same. -/
structure Alike (exact : Bool) (env env' : Env) : Prop where
  value? : ∀ x, env'.value? x = env.value? x
  type? : ∀ x, env'.type? x = env.type? x
  current : exact = true → env'.current = env.current

namespace Alike

variable {exact : Bool} {env env' other other' : Env}

theorem refl (env : Env) : Alike exact env env := ⟨fun _ => rfl, fun _ => rfl, fun _ => rfl⟩

/-- A new frame hides nothing. -/
theorem scope (h : Alike exact env env') : Alike true env.scope env'.scope :=
  ⟨h.value?, h.type?, fun _ => rfl⟩

theorem inner (env : Env) : Alike false env env.scope := ⟨fun _ => rfl, fun _ => rfl, nofun⟩

theorem isConstructor (h : Alike exact env env') (x : String) :
    env'.isConstructor x = env.isConstructor x := by
  unfold Env.isConstructor
  rw [h.value?]

theorem bindValue (h : Alike exact env env') (name : String) (v : ValueEntry) :
    Alike exact (env.bindValue name v) (env'.bindValue name v) where
  value? := fun x => by rw [value?_bindValue, value?_bindValue, h.value?]
  type? := h.type?
  current := fun hexact => by
    unfold Env.bindValue
    rw [h.current hexact]

theorem bind (h : Alike exact env env') (name : String) (σ : Scheme) :
    Alike exact (env.bind name σ) (env'.bind name σ) := h.bindValue name _

theorem bindType (h : Alike exact env env') (name : String) (t : TypeEntry) :
    Alike exact (env.bindType name t) (env'.bindType name t) where
  value? := h.value?
  type? := fun x => by rw [type?_bindType, type?_bindType, h.type?]
  current := fun hexact => by
    unfold Env.bindType
    rw [h.current hexact]

theorem adopt (h : Alike exact env env') (hother : Alike true other other') :
    Alike exact (env.adopt other) (env'.adopt other') where
  value? := fun x => by rw [value?_adopt, value?_adopt, h.value?, hother.current rfl]
  type? := fun x => by rw [type?_adopt, type?_adopt, h.type?, hother.current rfl]
  current := fun hexact => by
    unfold Env.adopt
    rw [h.current hexact, hother.current rfl]

theorem foldl {α : Type} {f : Env → α → Env}
    (hf : ∀ a env env', Alike exact env env' → Alike exact (f env a) (f env' a)) (as : List α)
    (h : Alike exact env env') : Alike exact (as.foldl f env) (as.foldl f env') := by
  induction as generalizing env env' with
  | nil => exact h
  | cons a as ih => exact ih (hf a _ _ h)

end Alike

/-! ## Properties of all entries -/

/-- All identifiers have the property `P`, and all type names have the property `Q`. -/
structure All (P : String → ValueEntry → Prop) (Q : String → TypeEntry → Prop) (env : Env) :
    Prop where
  values : ∀ f ∈ env.frames, ∀ e ∈ f.values, P e.1 e.2
  types : ∀ f ∈ env.frames, ∀ e ∈ f.types, Q e.1 e.2

namespace All

variable {name : String}

section All

variable (h : env.All P Q)
include h

theorem mono (hP : ∀ x v, P x v → P' x v) (hQ : ∀ x t, Q x t → Q' x t) : env.All P' Q' :=
  ⟨fun f hf e he => hP _ _ (h.values f hf e he), fun f hf e he => hQ _ _ (h.types f hf e he)⟩

theorem scope : env.scope.All P Q where
  values := List.forall_mem_cons.mpr ⟨fun _ he => absurd he List.not_mem_nil, h.values⟩
  types := List.forall_mem_cons.mpr ⟨fun _ he => absurd he List.not_mem_nil, h.types⟩

theorem bindValue {v : ValueEntry} (hv : P name v) : (env.bindValue name v).All P Q := by
  obtain ⟨hcurrent, houter⟩ := List.forall_mem_cons.mp h.values
  refine ⟨List.forall_mem_cons.mpr ⟨?_, houter⟩,
    List.forall_mem_cons.mpr (List.forall_mem_cons.mp h.types)⟩
  intro e he
  rcases LabelMap.mem_set he with he | rfl
  · exact hcurrent e he
  · exact hv

theorem bind {σ : Scheme} (hσ : P name { scheme := σ }) : (env.bind name σ).All P Q :=
  h.bindValue hσ

theorem bindType {t : TypeEntry} (ht : Q name t) : (env.bindType name t).All P Q := by
  obtain ⟨hcurrent, houter⟩ := List.forall_mem_cons.mp h.types
  refine ⟨List.forall_mem_cons.mpr (List.forall_mem_cons.mp h.values),
    List.forall_mem_cons.mpr ⟨?_, houter⟩⟩
  intro e he
  rcases LabelMap.mem_set he with he | rfl
  · exact hcurrent e he
  · exact ht

theorem adopt (h' : other.All P Q) : (env.adopt other).All P Q := by
  obtain ⟨hvalues, houterValues⟩ := List.forall_mem_cons.mp h.values
  obtain ⟨htypes, houterTypes⟩ := List.forall_mem_cons.mp h.types
  have hvalues' := (List.forall_mem_cons.mp h'.values).1
  have htypes' := (List.forall_mem_cons.mp h'.types).1
  refine ⟨List.forall_mem_cons.mpr ⟨?_, houterValues⟩, List.forall_mem_cons.mpr ⟨?_, houterTypes⟩⟩
  · exact fun e he => (LabelMap.mem_extend he).elim (hvalues e) (hvalues' e)
  · exact fun e he => (LabelMap.mem_extend he).elim (htypes e) (htypes' e)

theorem value? {v : ValueEntry} (hv : env.value? name = some v) : P name v := by
  obtain ⟨f, hf, hfind⟩ := List.exists_of_findSome?_eq_some hv
  exact h.values f hf _ (LabelMap.mem_of_lookup hfind)

theorem type? {t : TypeEntry} (ht : env.type? name = some t) : Q name t := by
  obtain ⟨f, hf, hfind⟩ := List.exists_of_findSome?_eq_some ht
  exact h.types f hf _ (LabelMap.mem_of_lookup hfind)

end All

end All

end Typecase.Env
