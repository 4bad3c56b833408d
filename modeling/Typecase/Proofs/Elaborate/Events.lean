import Typecase.Elaborate.Program
set_option autoImplicit false

/-!
# The events of a program

Every expression of a program is elaborated in an environment of its own, and so is every
declaration.  The points of a program are these environments: what is in scope somewhere in the
program is in one of them.  Every declaration of exceptions introduces them one after the other, at
top level or nested.

Both are events, in the order of elaboration.  An event is there whether elaboration succeeds in
the end or not, as long as it gets so far.
-/

namespace Typecase.Elaborate

open Source

inductive Event where
  /-- Something is elaborated in `env`. -/
  | point (env : Env)
  /-- An exception is introduced. -/
  | exception (con : Con)

def Event.env? : Event → Option Env
  | .point env => some env
  | .exception _ => none

def Event.con? : Event → Option Con
  | .point _ => none
  | .exception con => some con

/-- The environments in which something is elaborated. -/
def pointsAmong (events : List Event) : List Env := events.filterMap Event.env?

/-- The exceptions that are introduced. -/
def exceptionsAmong (events : List Event) : List Con := events.filterMap Event.con?

@[simp] theorem pointsAmong_nil : pointsAmong [] = [] := rfl

@[simp] theorem exceptionsAmong_nil : exceptionsAmong [] = [] := rfl

theorem pointsAmong_append (events later : List Event) :
    pointsAmong (events ++ later) = pointsAmong events ++ pointsAmong later :=
  List.filterMap_append

theorem exceptionsAmong_append (events later : List Event) :
    exceptionsAmong (events ++ later) = exceptionsAmong events ++ exceptionsAmong later :=
  List.filterMap_append

/-- What there is after `m`, provided that `m` succeeds. -/
def after {α : Type} (cfg : Config) (m : ElaborateM α) (s : State) (k : α → State → List Event) :
    List Event :=
  match m cfg s with
  | (.ok a, s') => k a s'
  | (.error _, _) => []

/-! ## Exceptions -/

/-- The exceptions that a declaration introduces, up to the first one that fails. -/
def eventsExceptions (cfg : Config) (exn : Datatype) (level : Int) :
    Env → List ConBinding → State → List Event
  | _, [] => fun _ => []
  | env, c :: cs => fun s =>
    after cfg (c.arg.mapM (elaborateType env level (some []))) s fun arg s =>
      let made : Constructor := ⟨c.name, s.exceptions + 1, arg⟩
      let con := exn.con made true
      .exception con :: eventsExceptions cfg exn level
        (env.bindValue c.name ⟨exn.scheme made, .exception con⟩) cs
        { s with exceptions := s.exceptions + 1 }

/-! ## Forms of expressions -/

/-- What there is after a type annotation of something of type `t`. -/
def afterAnnotation (cfg : Config) (env : Env) (level : Int) (pos : Pos) (t : Ty) :
    Option TypeExpr → State → (State → List Event) → List Event
  | none, s, k => k s
  | some annot, s, k =>
    after cfg (elaborateType env level none annot) s fun expected s =>
      after cfg (unify pos expected t) s fun _ s => k s

/-- The events of a conditional, given its test, the events of the test and those of the
branches. -/
def eventsConditional (cfg : Config) (env : Env) (pos : Pos) (test : Part)
    (first branches : State → List Event) (s : State) : List Event :=
  after cfg (constructor env pos "true") s fun _ s =>
    after cfg (constructor env pos "false") s fun _ s =>
      first s ++ after cfg test.elaborate s fun c s =>
        after cfg (unify test.pos Ty.bool c.type) s fun _ s => branches s

/-- The events of a list, given those of its elements. -/
def eventsList (cfg : Config) (env : Env) (level : Int) (pos : Pos)
    (elements : Ty → State → List Event) (s : State) : List Event :=
  after cfg (constructor env pos "nil") s fun _ s =>
    after cfg (constructor env pos "::") s fun _ s =>
      after cfg (freshType level) s fun elem s =>
        after cfg (liftStore (Ty.mkList elem)) s fun _ s => elements elem s

/-- The events of a recursive value, given those of its expression. -/
def eventsRecursive (cfg : Config) (env : Env) (level : Int) (pattern : Source.Pattern)
    (isFn : Bool) (expr : Env → State → List Event) (s : State) : List Event :=
  match recursiveName? env pattern with
  | none => []
  | some (name, annot) =>
    if isFn then
      after cfg (freshType (level + 1)) s fun t s =>
        afterAnnotation cfg env (level + 1) pattern.pos t annot s
          (expr (env.bind name (.mono t)))
    else []

/-- The events of a clause, given those of its body. -/
def eventsClause (cfg : Config) (env : Env) (level : Int) (params : List Ty) (result : Ty)
    (pos : Pos) (patterns : List Source.Pattern) (annot : Option TypeExpr)
    (body : Env → State → List Event) (s : State) : List Event :=
  if patterns.length ≠ params.length then []
  else
    after cfg ((elaborateParams env level patterns params).run []) s fun pv s =>
      afterAnnotation cfg env level pos result annot s (body (bindVars env.scope pv.2))

/-- The events of a curried function of `arity` parameters, given those of its clauses. -/
def eventsCurried (cfg : Config) (level : Int) (arity : Nat)
    (clauses : List Ty → Ty → Ty → State → List Event) (s : State) : List Event :=
  if arity = 0 then []
  else
    after cfg ((List.replicate arity ()).mapM fun _ => freshType level) s fun params s =>
      after cfg (liftStore (Ty.mkTuple params)) s fun scrutinee s =>
        after cfg (freshType level) s fun result s => clauses params scrutinee result s

/-! ## Groups of functions -/

/-- The events of a part of a program, by the environment, the level and the state in which it
is elaborated. -/
abbrev Tour := Env → Int → State → List Event

/-- The events of the functions of a component. -/
def eventsMembers (cfg : Config) (tours : List Tour) (scope : Env) (level : Int) :
    List (Nat × Member × Ty) → State → List Event
  | [] => fun _ => []
  | (i, f, t) :: rest => fun s =>
    (tours[i]?).elim [] (fun tour => tour scope (level + 1) s) ++
      after cfg (do
        let fn ← f.elaborate scope (level + 1)
        unify f.pos t fn.type
        return (i, f, t, fn)) s fun _ s => eventsMembers cfg tours scope level rest s

/-- The events of the components of a group. -/
def eventsComponents (cfg : Config) (level : Int) (members : List Member) (tours : List Tour) :
    Env → List (List Nat) → State → List Event
  | _, [] => fun _ => []
  | env, c :: cs => fun s =>
    let component := c.filterMap fun i => (members[i]?).map fun f => (i, f)
    after cfg (component.mapM fun (i, f) => do return (i, f, ← freshType (level + 1))) s
        (fun typed s =>
          eventsMembers cfg tours (typed.foldl (fun env (_, f, t) => env.bind f.name (.mono t)) env)
            level typed s) ++
      after cfg (elaborateComponent env level component) s fun r s =>
        eventsComponents cfg level members tours r.1 cs s

def eventsGroup (cfg : Config) (env : Env) (level : Int) (pos : Pos) (members : List Member)
    (tours : List Tour) (components : List (List Nat)) (s : State) : List Event :=
  after cfg (checkNames env [] members) s fun _ s =>
    after cfg (trace "function group" [("pos", .text pos.render),
        ("functions", .number members.length), ("components", .number components.length)]) s
      fun _ s => eventsComponents cfg level members tours env components s

/-! ## Expressions and declarations -/

mutual

/-- The events of an expression. -/
def eventsExpr (cfg : Config) (env : Env) (level : Int) : Expr → State → List Event
  | .literal _ _ | .var _ _ => fun _ => [.point env]
  | .app _ func arg => fun s =>
    .point env :: (eventsExpr cfg env level func s ++
      after cfg (elaborateExpr env level func) s fun _ s => eventsExpr cfg env level arg s)
  | .fn _ rules => fun s =>
    .point env :: after cfg (freshType level) s fun param s =>
      after cfg (freshType level) s fun result s => eventsRules cfg env level param result rules s
  | .case _ scrutinee rules => fun s =>
    .point env :: (eventsExpr cfg env level scrutinee s ++
      after cfg (elaborateExpr env level scrutinee) s fun e s =>
        after cfg (freshType level) s fun result s =>
          eventsRules cfg env level e.type result rules s)
  | .letIn _ decls body => fun s =>
    .point env :: (eventsDecls cfg env.scope level decls s ++
      after cfg (elaborateDecls env.scope level decls) s fun ds s =>
        eventsExpr cfg ds.2.1 level body s)
  | .tuple _ elems => fun s => .point env :: eventsExprs cfg env level elems s
  | .record pos fields => fun s => .point env :: eventsFields cfg env level pos [] fields s
  | .selector _ _ => fun _ => [.point env]
  | .list pos elems => fun s =>
    .point env :: eventsList cfg env level pos (fun elem => eventsElements cfg env level elem elems) s
  | .seq _ exprs => fun s => .point env :: eventsExprs cfg env level exprs s
  | .cond pos test whenTrue whenFalse => fun s =>
    .point env :: eventsConditional cfg env pos ⟨test.pos, elaborateExpr env level test⟩
      (eventsExpr cfg env level test) (fun s => eventsExpr cfg env level whenTrue s ++
        after cfg (elaborateExpr env level whenTrue) s fun _ s =>
          eventsExpr cfg env level whenFalse s) s
  | .andalso pos left right => fun s =>
    .point env :: eventsConditional cfg env pos ⟨left.pos, elaborateExpr env level left⟩
      (eventsExpr cfg env level left) (eventsExpr cfg env level right) s
  | .orelse pos left right => fun s =>
    .point env :: eventsConditional cfg env pos ⟨left.pos, elaborateExpr env level left⟩
      (eventsExpr cfg env level left) (fun s => after cfg (identifier env level pos "true") s
        fun _ s => eventsExpr cfg env level right s) s
  | .raise _ expr => fun s => .point env :: eventsExpr cfg env level expr s
  | .handle _ expr rules => fun s =>
    .point env :: (eventsExpr cfg env level expr s ++
      after cfg (elaborateExpr env level expr) s fun e s =>
        eventsRules cfg env level Ty.exn e.type rules s)
  | .annot _ expr _ => fun s => .point env :: eventsExpr cfg env level expr s

/-- The events of several expressions. -/
def eventsExprs (cfg : Config) (env : Env) (level : Int) : List Expr → State → List Event
  | [] => fun _ => []
  | e :: es => fun s =>
    eventsExpr cfg env level e s ++
      after cfg (elaborateExpr env level e) s fun _ s => eventsExprs cfg env level es s

def eventsElements (cfg : Config) (env : Env) (level : Int) (elem : Ty) :
    List Expr → State → List Event
  | [] => fun _ => []
  | e :: es => fun s =>
    eventsExpr cfg env level e s ++
      after cfg (elaborateExpr env level e) s fun typed s =>
        after cfg (unify e.pos elem typed.type) s fun _ s => eventsElements cfg env level elem es s

/-- The events of the fields of a record, after those in `done`. -/
def eventsFields (cfg : Config) (env : Env) (level : Int) (pos : Pos)
    (done : List (String × Typed.Expr)) : List (String × Expr) → State → List Event
  | [] => fun _ => []
  | (label, e) :: fields => fun s =>
    if LabelMap.has done label then []
    else
      eventsExpr cfg env level e s ++
        after cfg (elaborateExpr env level e) s fun e s =>
          eventsFields cfg env level pos (done ++ [(label, e)]) fields s

def eventsRules (cfg : Config) (env : Env) (level : Int) (arg result : Ty) :
    List Rule → State → List Event
  | [] => fun _ => []
  | ⟨_, pattern, none, body⟩ :: rules => fun s =>
    after cfg ((elaboratePattern env level pattern).run []) s fun pv s =>
      after cfg (unify pv.1.pos arg pv.1.type) s fun _ s =>
        eventsExpr cfg (bindVars env.scope pv.2) level body s ++
          after cfg (elaborateExpr (bindVars env.scope pv.2) level body) s fun e s =>
            after cfg (unify body.pos result e.type) s fun _ s =>
              eventsRules cfg env level arg result rules s
  | ⟨_, pattern, some guard, body⟩ :: rules => fun s =>
    after cfg ((elaboratePattern env level pattern).run []) s fun pv s =>
      after cfg (unify pv.1.pos arg pv.1.type) s fun _ s =>
        eventsExpr cfg (bindVars env.scope pv.2) level guard s ++
          after cfg (elaborateExpr (bindVars env.scope pv.2) level guard) s fun g s =>
            after cfg (unify guard.pos Ty.bool g.type) s fun _ s =>
              eventsExpr cfg (bindVars env.scope pv.2) level body s ++
                after cfg (elaborateExpr (bindVars env.scope pv.2) level body) s fun e s =>
                  after cfg (unify body.pos result e.type) s fun _ s =>
                    eventsRules cfg env level arg result rules s

/-- The events of a declaration. -/
def eventsDecl (cfg : Config) (env : Env) (level : Int) : Decl → State → List Event
  | .val _ false _ expr => fun s =>
    .point env :: eventsExpr cfg env (level + 1) expr (s.enterValue level)
  | .val _ true pattern expr => fun s =>
    .point env :: eventsRecursive cfg env level pattern (isFunction expr)
      (fun scope => eventsExpr cfg scope (level + 1) expr) (s.enterValue level)
  | .functions pos bindings => fun s =>
    .point env :: eventsGroup cfg env level pos (members bindings) (tours cfg bindings)
      (Dependency.components
        (bindings.map fun b => ⟨b.name, b.clauses.map fun c => (c.params, c.body)⟩))
      (s.enterValue level)
  | .datatypes _ _ | .abbreviation _ _ _ _ => fun _ => [.point env]
  | .exceptions _ bindings => fun s =>
    .point env :: match (env.type? "exn").bind TypeEntry.datatype? with
      | none => []
      | some exn => eventsExceptions cfg exn level env bindings s
  | .localIn _ decls body => fun s =>
    .point env :: (eventsDecls cfg env.scope level decls s ++
      after cfg (elaborateDecls env.scope level decls) s fun ds s =>
        eventsDecls cfg ds.2.1.scope level body s)

/-- The events of declarations, and the environment after them. -/
def eventsDecls (cfg : Config) (env : Env) (level : Int) : List Decl → State → List Event
  | [] => fun _ => [.point env]
  | d :: ds => fun s =>
    eventsDecl cfg env level d s ++
      after cfg (elaborateDecl env level d) s fun first s => eventsDecls cfg first.env level ds s

/-- The events of each function of a group. -/
def tours (cfg : Config) : List FunBinding → List Tour
  | [] => []
  | ⟨_, name, clauses⟩ :: bs =>
    (fun env level =>
      eventsCurried cfg level ((clauses.head?.map (·.params.length)).getD 0)
        fun params scrutinee result =>
          eventsClauses cfg env level name params scrutinee result clauses) :: tours cfg bs

def eventsClauses (cfg : Config) (env : Env) (level : Int) (name : String) (params : List Ty)
    (scrutinee result : Ty) : List FunClause → State → List Event
  | [] => fun _ => []
  | ⟨pos, patterns, annot, body⟩ :: clauses => fun s =>
    eventsClause cfg env level params result pos patterns annot
        (fun scope => eventsExpr cfg scope level body) s ++
      after cfg (functionClause env level name params scrutinee result pos patterns annot
          body.pos fun scope => elaborateExpr scope level body) s fun _ s =>
        eventsClauses cfg env level name params scrutinee result clauses s

end

/-! ## Programs -/

/-- The events of the declarations of a program that are yet to be elaborated, and the environment
after them. -/
def eventsFrom (cfg : Config) : Progress → Program → State → List Event
  | p, [], _ => [.point p.env]
  | p, d :: ds, s =>
    (if s.isStopped cfg then [] else eventsDecl cfg p.env 0 d s) ++
      eventsFrom cfg (step cfg p d s).1 ds (step cfg p d s).2

/-- The points of a program that is elaborated in `env`. -/
def points (cfg : Config) (program : Program) (env : Env) (s : State) : List Env :=
  pointsAmong (eventsFrom cfg { env := env.scope } program s.reset)

/-- The exceptions that are introduced when programs are elaborated one after the other. -/
def introduced (cfg : Config) : List Program → Env → State → List Con
  | [], _, _ => []
  | program :: programs, env, s =>
    exceptionsAmong (eventsFrom cfg { env := env.scope } program s.reset) ++
      introduced cfg programs (elaborateProgram cfg program env s).1.env
        (elaborateProgram cfg program env s).2

end Typecase.Elaborate
