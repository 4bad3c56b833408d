import Typecase.Proofs.Elaborate.DerivedForms
import Typecase.Proofs.Elaborate.Exports
set_option autoImplicit false

/-!
# The value restriction

Only the types of syntactic values are quantified.  Whether an expression is one is judged by its
form and by the names that stand for constructors.  What such an expression elaborates to
evaluates nothing outside functions but constructors other than `ref`, so it makes no reference
cell.
-/

namespace Typecase

/-! ## Environments -/

/-- Every name that stands for a constructor is the name of the constructor. -/
def Env.OwnNames (env : Env) : Prop :=
  ∀ x v con, env.value? x = some v → v.con? = some con → con.name = x

/-- The entry of a name that stands for a constructor has the name of the constructor. -/
def OwnName (e : String × ValueEntry) : Prop := ∀ con, e.2.con? = some con → con.name = e.1

namespace Typed

mutual

theorem Decl.exports_ownName : (d : Decl) → ∀ e ∈ d.exports, OwnName e
  | .val _ _ _ _ bs | .functions _ bs => by
    intro e he con hcon
    obtain ⟨b, -, rfl⟩ := List.mem_map.mp he
    cases hcon
  | .datatypes _ ds => by
    intro e he con hcon
    obtain ⟨d, -, he⟩ := List.mem_flatMap.mp he
    obtain ⟨c, -, rfl⟩ := List.mem_map.mp he
    cases hcon
    rfl
  | .exceptions _ cs => by
    intro e he con hcon
    obtain ⟨c, -, rfl⟩ := List.mem_map.mp he
    cases hcon
    rfl
  | .localIn _ _ body => exports_ownName body

theorem exports_ownName : (ds : List Decl) → ∀ e ∈ exports ds, OwnName e
  | [] => nofun
  | d :: ds => List.forall_mem_append.mpr ⟨exports_ownName ds, d.exports_ownName⟩

end

end Typed

namespace Elaborate

open Source

variable {cfg : Config} {env : Env} {level : Int} {pos : Pos}

theorem ownNames_prelude (s : Store) : (Env.initial s).1.OwnNames :=
  fun _ _ con hv hcon => ((Env.entries_initial s).value? hv).name con hcon

/-- The constructor of reference cells in a prelude. -/
def IsRef (con : Con) : Prop :=
  ∃ s v, (Env.initial s).1.value? "ref" = some v ∧ v.con? = some con

theorem not_isRef {con : Con} (h : con.name ≠ "ref") : ¬ IsRef con := by
  rintro ⟨s, v, hv, hcon⟩
  exact h (ownNames_prelude s _ v con hv hcon)

/-- A typed expression that evaluates nothing outside functions but constructors other than
`ref`. -/
inductive Inert : Typed.Expr → Prop
  | var {note : Note} {x : String} {con : Option Con} : Inert (.var note x con)
  | literal {note : Note} {lit : Literal} : Inert (.literal note lit)
  | fn {note : Note} {x : String} {body : Typed.Expr} : Inert (.fn note x body)
  | selector {note : Note} {label : String} : Inert (.selector note label)
  | app {note note' : Note} {x : String} {con : Con} {arg : Typed.Expr} : ¬ IsRef con → Inert arg →
    Inert (.app note (.var note' x (some con)) arg)
  | tuple {note : Note} {es : List Typed.Expr} : (∀ e ∈ es, Inert e) → Inert (.tuple note es)
  | record {note : Note} {fs : List (String × Typed.Expr)} : (∀ f ∈ fs, Inert f.2) →
    Inert (.record note fs)

theorem yields_app {funcPos argPos : Pos} {func arg : Typed.Expr} :
    Yields cfg (application level pos funcPos argPos func arg) fun e =>
      ∃ note, e = .app note func arg := by
  unfold application
  refine .then fun t => .then fun r => ?_
  cases r with
  | ok _ => exact .pure ⟨_, rfl⟩
  | error e => exact .then fun s => .then fun curried => .fail

theorem yields_var (x : String) : Yields cfg (identifier env level pos x) fun e =>
    ∃ note v, env.value? x = some v ∧ e = .var note x v.con? := by
  unfold identifier
  cases hv : env.value? x with
  | none => exact .fail
  | some v => exact .then fun t => .pure ⟨_, v, rfl, rfl⟩

theorem inert_listOf {nil cons : Con} {list pair func : Ty} {es : List Typed.Expr}
    (hcons : ¬ IsRef cons) (hes : ∀ e ∈ es, Inert e) :
    Inert (listOf pos nil cons list pair func es) := by
  induction es with
  | nil => exact .var
  | cons e es ih =>
    rw [List.forall_mem_cons] at hes
    exact .app hcons (.tuple (by simpa using ⟨hes.1, ih hes.2⟩))

theorem inert_listExpr (henv : env.OwnNames) {elements : Ty → ElaborateM (List Typed.Expr)}
    (helements : ∀ elem, Yields cfg (elements elem) fun es => ∀ e ∈ es, Inert e) :
    Yields cfg (listExpr env level pos elements) Inert := by
  refine .then fun nil => .bind (yields_constructor "::") ?_
  rintro ⟨cons, _⟩ ⟨v, hv, hcons, -⟩
  have hname : cons.name = "::" := henv _ v cons hv hcons
  refine .then fun elem => .then fun list => .bind (helements elem) fun es hes => ?_
  exact .then fun pair => .then fun func => .pure (inert_listOf (not_isRef (hname ▸ by decide)) hes)

theorem inert_fn (rules : List Rule) :
    Yields cfg (elaborateExpr env level (.fn pos rules)) Inert := by
  rw [elaborateExpr]
  refine .then fun param => .then fun result => .then fun typed => .then fun m => ?_
  exact .then fun name => .then fun t => .pure .fn

mutual

theorem inert_elaborateExpr (henv : env.OwnNames) : (e : Expr) → isValue env e = true →
    Yields cfg (elaborateExpr env level e) Inert
  | .literal .., _ => by
    rw [elaborateExpr]
    exact .pure .literal
  | .var _ x, _ => by
    rw [elaborateExpr]
    rintro s e s' h
    obtain ⟨note, v, -, rfl⟩ := yields_var x s e s' h
    exact .var
  | .fn pos rules, _ => inert_fn rules
  | .selector .., _ => by
    rw [elaborateExpr]
    exact .then fun _ => .then fun _ => .then fun _ => .then fun _ => .pure .selector
  | .tuple _ es, h => by
    rw [elaborateExpr]
    rw [isValue] at h
    refine .bind (inert_elaborateExprs henv es h) fun es hes => ?_
    split
    · exact .pure (hes _ List.mem_cons_self)
    · exact .then fun t => .pure (.tuple hes)
  | .list _ es, h => by
    rw [elaborateExpr]
    rw [isValue] at h
    exact inert_listExpr henv fun elem => inert_elaborateListElements henv elem es h
  | .record pos fs, h => by
    rw [elaborateExpr]
    rw [isValue] at h
    exact .bind (inert_elaborateFields henv pos [] nofun fs h) fun fs hfs =>
      .then fun t => .pure (.record hfs)
  | .annot _ e _, h => by
    rw [elaborateExpr]
    rw [isValue] at h
    exact .bind (inert_elaborateExpr henv e h) fun e he => .then fun _ => .then fun _ => .pure he
  | .app _ (.var _ f) arg, h => by
    rw [elaborateExpr, elaborateExpr]
    rw [isValue, Bool.and_eq_true, Bool.and_eq_true, bne_iff_ne] at h
    refine .bind (yields_var f) ?_
    rintro _ ⟨note, v, hv, rfl⟩
    have hcon : v.con?.isSome = true := by
      simpa [Env.isConstructor, ValueEntry.isConstructor, hv] using h.1.2
    obtain ⟨con, hcon⟩ := Option.isSome_iff_exists.mp hcon
    refine .bind (inert_elaborateExpr henv arg h.2) ?_
    rintro arg harg s e s' hrun
    obtain ⟨note', rfl⟩ := yields_app s e s' hrun
    rw [hcon]
    exact .app (not_isRef (henv f v con hv hcon ▸ h.1.1)) harg
  | .case .., h | .letIn .., h | .seq .., h | .cond .., h | .andalso .., h | .orelse .., h
  | .raise .., h | .handle .., h => by simp [isValue] at h

theorem inert_elaborateExprs (henv : env.OwnNames) : (es : List Expr) → areValues env es = true →
    Yields cfg (elaborateExprs env level es) fun es => ∀ e ∈ es, Inert e
  | [], _ => by
    rw [elaborateExprs]
    exact .pure nofun
  | e :: es, h => by
    rw [elaborateExprs]
    rw [areValues, Bool.and_eq_true] at h
    exact .bind (inert_elaborateExpr henv e h.1) fun e he =>
      .bind (inert_elaborateExprs henv es h.2) fun es hes =>
        .pure (List.forall_mem_cons.mpr ⟨he, hes⟩)

theorem inert_elaborateListElements (henv : env.OwnNames) (elem : Ty) : (es : List Expr) →
    areValues env es = true →
    Yields cfg (elaborateListElements env level elem es) fun es => ∀ e ∈ es, Inert e
  | [], _ => by
    rw [elaborateListElements]
    exact .pure nofun
  | e :: es, h => by
    rw [elaborateListElements]
    rw [areValues, Bool.and_eq_true] at h
    exact .bind (inert_elaborateExpr henv e h.1) fun e he => .then fun _ =>
      .bind (inert_elaborateListElements henv elem es h.2) fun es hes =>
        .pure (List.forall_mem_cons.mpr ⟨he, hes⟩)

theorem inert_elaborateFields (henv : env.OwnNames) (pos : Pos) (done : List (String × Typed.Expr))
    (hdone : ∀ f ∈ done, Inert f.2) : (fs : List (String × Expr)) →
    fieldsAreValues env fs = true →
    Yields cfg (elaborateFields env level pos done fs) fun fs => ∀ f ∈ fs, Inert f.2
  | [], _ => by
    rw [elaborateFields]
    exact .pure hdone
  | (label, e) :: fs, h => by
    rw [elaborateFields]
    rw [fieldsAreValues, Bool.and_eq_true] at h
    refine .ite (fun _ => .fail_bind) fun _ => .bind (inert_elaborateExpr henv e h.1) fun e he => ?_
    refine inert_elaborateFields henv pos _ ?_ fs h.2
    exact List.forall_mem_append.mpr ⟨hdone, List.forall_mem_singleton.mpr he⟩

end

/-! ## What is quantified -/

end Elaborate

end Typecase
