import Typecase.Source.Basic
import Typecase.Text.Integer
import Typecase.Text.Quoted
import Typecase.Yaml.Value
set_option autoImplicit false

/-!
# Reading program dumps

A program dump is a document that holds a source tree.  Every node is a mapping with a
`kind`.  Scalars are a shorthand: an integer is a literal, `_` is the wildcard, a name
that starts with a quote is a type variable, and any other name is a variable, a
constructor or a type constructor.

The position of a node is given by its keys `line` and `col`, and otherwise by the
place of the node in the document.
-/

namespace Typecase.Dump

open Source Yaml

/-- What kind of tree a node should hold. -/
inductive TreeSort where
  | declaration
  | expression
  | pattern
  | type
  deriving DecidableEq, Repr, Inhabited

/-- The word for a kind of tree. -/
def TreeSort.word : TreeSort → String
  | .declaration => "declaration"
  | .expression => "expression"
  | .pattern => "pattern"
  | .type => "type"

/-- What is wrong with a node. -/
inductive Problem where
  | noKind
  | missing (key : String)
  /-- The `kind` is not one of those expected here. -/
  | unknownKind (sort : TreeSort) (kind : String)
  | noArgument
  /-- A function type without its two parts. -/
  | incompleteArrow
  /-- Something other than a list of declarations. -/
  | notDeclarations
  deriving DecidableEq, Repr, Inhabited

/-- The wording of a problem. -/
def Problem.message : Problem → String
  | .noKind => "node has no kind"
  | .missing key => "missing " ++ key
  | .unknownKind sort kind => "unknown " ++ sort.word ++ " kind " ++ Text.quote kind
  | .noArgument => "application has no argument"
  | .incompleteArrow => "arrow type requires arg and return"
  | .notDeclarations => "expected a sequence of declarations"

/-- Why a dump cannot be read. -/
inductive Fault where
  /-- A node is not as it should be. -/
  | node (pos : Pos) (problem : Problem)
  | emptyDocument
  deriving DecidableEq, Repr, Inhabited

/-- The wording of a fault, with its position. -/
def Fault.message : Fault → String
  | .node pos problem =>
    "line " ++ toString pos.line ++ ", column " ++ toString pos.col ++ ": " ++ problem.message
  | .emptyDocument => "empty document"

/-- Results of reading a node. -/
abbrev Result := Except Fault

/-! ## Parts of nodes -/

/-- Stop at a node. -/
def fail {α : Type} (n : Node) (problem : Problem) : Result α := .error (.node n.pos problem)

/-- The `kind` of a node. -/
def kindOf (n : Node) : Result String :=
  match (n.field? "kind").bind Node.scalar? with
  | some k => .ok k
  | none => fail n .noKind

/-- The text under a key, which must be there. -/
def textAt (n : Node) (key : String) : Result String :=
  match (n.field? key).bind Node.scalar? with
  | some s => .ok s
  | none => fail n (.missing key)

/-- The text under a key, empty if there is none. -/
def textOrEmpty (n : Node) (key : String) : String :=
  ((n.field? key).bind Node.scalar?).getD ""

/-- The items under a key.  A value that is no sequence counts as a single item. -/
def itemsAt (n : Node) (key : String) : List Node :=
  match n.field? key with
  | none => []
  | some (.sequence _ items) => items
  | some v => [v]

/-- The texts of the items under a key. -/
def textsAt (n : Node) (key : String) : List String := (itemsAt n key).map Node.text

/-- The value under a key, which must be there. -/
def valueAt (n : Node) (key : String) : Result Node :=
  match n.field? key with
  | some v => .ok v
  | none => fail n (.missing key)

/-- The position of a node in the source. -/
def posOf (n : Node) : Pos :=
  let pos := match n.field? "line" with
    | some line => ⟨Text.toIntegerOrZero line.text, 1⟩
    | none => n.pos
  match n.field? "col" with
  | some col => { pos with col := Text.toIntegerOrZero col.text }
  | none => pos

/-- Read a labelled part, given its key and how to read it. -/
def decodeField {α : Type} (key : String) (value : Node → Result α) (n : Node) :
    Result (String × α) := do
  let label ← textAt n "label"
  return (label, ← value (← valueAt n key))

/-! ## Type expressions

Every decoder is bounded by the depth of the node that it reads. -/

/-- Read a type expression. -/
def decodeType : Nat → Node → Result TypeExpr
  | _, .scalar p name _ =>
    if name.toList.head? == some '\'' then .ok (.var p name) else .ok (.con p name [])
  | 0, n => fail n .noKind
  | d + 1, n => do
    let kind ← kindOf n
    let pos := posOf n
    match kind with
    | "var" => return .var pos (← textAt n "name")
    | "con" =>
      let name ← textAt n "name"
      return .con pos name (← (itemsAt n "args").mapM (decodeType d))
    | "arrow" =>
      match n.field? "arg", n.field? "return" with
      | some arg, some result => return .arrow pos (← decodeType d arg) (← decodeType d result)
      | _, _ => fail n .incompleteArrow
    | "tuple" => return .tuple pos (← (itemsAt n "elems").mapM (decodeType d))
    | "record" => return .record pos (← (itemsAt n "fields").mapM (decodeField "type" (decodeType d)))
    | _ => fail n (.unknownKind .type kind)

/-! ## Patterns

What stands for truth is up to those who read a document. -/

variable (isTrue : Node → Bool)

/-- Whether the value under a key stands for truth. -/
def flag (n : Node) (key : String) : Bool := (n.field? key).any isTrue

/-- Read a field of a record pattern.  A label alone is a variable of that name. -/
def decodePatternField (pattern : Node → Result Source.Pattern) (n : Node) :
    Result (String × Source.Pattern) := do
  let label ← textAt n "label"
  match n.field? "pattern" with
  | some p => return (label, ← pattern p)
  | none => return (label, .var (posOf n) label)

/-- Read a pattern. -/
def decodePattern : Nat → Node → Result Source.Pattern
  | _, .scalar p name _ =>
    if name = "_" then .ok (.wildcard p)
    else if Text.isInteger name then .ok (.literal p ⟨.int, name⟩)
    else .ok (.var p name)
  | 0, n => fail n .noKind
  | d + 1, n => do
    let kind ← kindOf n
    let pos := posOf n
    match kind with
    | "wild" => return .wildcard pos
    | "var" => return .var pos (← textAt n "name")
    | "int" => return .literal pos ⟨.int, textOrEmpty n "value"⟩
    | "string" => return .literal pos ⟨.string, textOrEmpty n "value"⟩
    | "char" => return .literal pos ⟨.char, textOrEmpty n "value"⟩
    | "con" =>
      let name ← textAt n "name"
      match n.field? "arg" with
      | some arg => return .con pos name (some (← decodePattern d arg))
      | none => return .con pos name none
    | "tuple" => return .tuple pos (← (itemsAt n "elems").mapM (decodePattern d))
    | "unit" => return .tuple pos (← (itemsAt n "elems").mapM (decodePattern d))
    | "list" => return .list pos (← (itemsAt n "elems").mapM (decodePattern d))
    | "record" =>
      let fields ← (itemsAt n "fields").mapM (decodePatternField (decodePattern d))
      return .record pos fields (flag isTrue n "flexible")
    | "as" =>
      let name ← textAt n "name"
      return .layered pos name (← decodePattern d (← valueAt n "pattern"))
    | "annot" =>
      let p ← decodePattern d (← valueAt n "pattern")
      return .annot pos p (← decodeType d (← valueAt n "type"))
    | _ => fail n (.unknownKind .pattern kind)

/-! ## Expressions and declarations -/

/-- Read a constructor of a datatype or an exception. -/
def decodeConBinding (d : Nat) (n : Node) : Result ConBinding :=
  match n with
  | .scalar p name _ => .ok ⟨p, name, none⟩
  | _ => do
    let name ← textAt n "name"
    match n.field? "arg" with
    | some arg => return ⟨posOf n, name, some (← decodeType d arg)⟩
    | none => return ⟨posOf n, name, none⟩

/-- Read one datatype of a declaration. -/
def decodeDatatype (d : Nat) (n : Node) : Result DatatypeBinding := do
  let name ← textAt n "name"
  let constructors ← (itemsAt n "constructors").mapM (decodeConBinding d)
  return ⟨posOf n, textsAt n "params", name, constructors⟩

/-- The items of a sequence of declarations. -/
def declItems (n : Node) : Result (List Node) :=
  match n with
  | .sequence _ items => .ok items
  | _ => fail n .notDeclarations

/-- Read a rule, given how to read its expressions. -/
def decodeRule (d : Nat) (expr : Node → Result Expr) (n : Node) : Result Rule := do
  let p ← decodePattern isTrue d (← valueAt n "pattern")
  let guard ← (n.field? "guard").mapM expr
  return ⟨posOf n, p, guard, ← expr (← valueAt n "body")⟩

/-- Read a clause of a function, given how to read its body. -/
def decodeClause (d : Nat) (expr : Node → Result Expr) (n : Node) : Result FunClause := do
  let params ← (itemsAt n "params").mapM (decodePattern isTrue d)
  let result ← (n.field? "result").mapM (decodeType d)
  return ⟨posOf n, params, result, ← expr (← valueAt n "body")⟩

/-- Read one function of a declaration, given how to read expressions. -/
def decodeFunction (d : Nat) (expr : Node → Result Expr) (n : Node) : Result FunBinding := do
  let name ← textAt n "name"
  return ⟨posOf n, name, ← (itemsAt n "clauses").mapM (decodeClause isTrue d expr)⟩

mutual

/-- Read an expression. -/
def decodeExpr : Nat → Node → Result Expr
  | _, .scalar p name _ =>
    if Text.isInteger name then .ok (.literal p ⟨.int, name⟩) else .ok (.var p name)
  | 0, n => fail n .noKind
  | d + 1, n => do
    let kind ← kindOf n
    let pos := posOf n
    let exprAt (key : String) : Result Expr := do decodeExpr d (← valueAt n key)
    let rules : Result (List Rule) := (itemsAt n "rules").mapM (decodeRule isTrue d (decodeExpr d))
    match kind with
    | "int" => return .literal pos ⟨.int, textOrEmpty n "value"⟩
    | "real" => return .literal pos ⟨.real, textOrEmpty n "value"⟩
    | "string" => return .literal pos ⟨.string, textOrEmpty n "value"⟩
    | "char" => return .literal pos ⟨.char, textOrEmpty n "value"⟩
    | "var" => return .var pos (← textAt n "name")
    | "app" =>
      let func ← exprAt "func"
      let args := match n.field? "arg" with
        | some arg => [arg]
        | none => itemsAt n "args"
      if args.isEmpty then fail n .noArgument
      else return (← args.mapM (decodeExpr d)).foldl (.app pos) func
    | "fn" => return .fn pos (← rules)
    | "case" =>
      let e ← exprAt "expr"
      return .case pos e (← rules)
    | "let" =>
      let decls ← match n.field? "decls" with
        | some v => decodeDecls d v
        | none => pure []
      return .letIn pos decls (← exprAt "body")
    | "tuple" => return .tuple pos (← (itemsAt n "elems").mapM (decodeExpr d))
    | "unit" => return .tuple pos (← (itemsAt n "elems").mapM (decodeExpr d))
    | "record" =>
      return .record pos (← (itemsAt n "fields").mapM (decodeField "value" (decodeExpr d)))
    | "select" => return .selector pos (← textAt n "label")
    | "list" => return .list pos (← (itemsAt n "elems").mapM (decodeExpr d))
    | "seq" => return .seq pos (← (itemsAt n "exprs").mapM (decodeExpr d))
    | "if" =>
      let test ← exprAt "cond"
      let whenTrue ← exprAt "then"
      return .cond pos test whenTrue (← exprAt "else")
    | "andalso" =>
      let left ← exprAt "left"
      return .andalso pos left (← exprAt "right")
    | "orelse" =>
      let left ← exprAt "left"
      return .orelse pos left (← exprAt "right")
    | "raise" => return .raise pos (← exprAt "expr")
    | "handle" =>
      let e ← exprAt "expr"
      return .handle pos e (← rules)
    | "annot" =>
      let e ← exprAt "expr"
      return .annot pos e (← decodeType d (← valueAt n "type"))
    | _ => fail n (.unknownKind .expression kind)

/-- Read a declaration. -/
def decodeDecl : Nat → Node → Result Decl
  | 0, n => fail n .noKind
  | d + 1, n => do
    let kind ← kindOf n
    let pos := posOf n
    match kind with
    | "val" =>
      let p ← decodePattern isTrue d (← valueAt n "pattern")
      let e ← decodeExpr d (← valueAt n "expr")
      return .val pos (flag isTrue n "rec") p e
    | "fun" =>
      return .functions pos (← (itemsAt n "bindings").mapM (decodeFunction isTrue d (decodeExpr d)))
    | "datatype" => return .datatypes pos (← (itemsAt n "bindings").mapM (decodeDatatype d))
    | "type" =>
      let name ← textAt n "name"
      let body ← decodeType d (← valueAt n "type")
      return .abbreviation pos (textsAt n "params") name body
    | "exception" =>
      return .exceptions pos (← (itemsAt n "constructors").mapM (decodeConBinding d))
    | "local" =>
      let decls ← match n.field? "decls" with
        | some v => decodeDecls d v
        | none => pure []
      let body ← match n.field? "body" with
        | some v => decodeDecls d v
        | none => pure []
      return .localIn pos decls body
    | _ => fail n (.unknownKind .declaration kind)

/-- Read a sequence of declarations. -/
def decodeDecls : Nat → Node → Result (List Decl)
  | 0, n => fail n .notDeclarations
  | d + 1, n => do (← declItems n).mapM (decodeDecl d)

end

/-! ## Documents -/

/-- Read a program: a sequence of declarations, or a mapping that has one under
`decls`. -/
def decodeProgram : Option Node → Result Program
  | none => .error (.node .none .notDeclarations)
  | some (.mapping p entries) =>
    match (Node.mapping p entries).field? "decls" with
    | some n => decodeDecls isTrue n.depth n
    | none => .ok []
  | some n => decodeDecls isTrue n.depth n

/-- Read an expression from a document. -/
def decodeExpression : Option Node → Result Expr
  | none => .error .emptyDocument
  | some n => decodeExpr isTrue n.depth n

end Typecase.Dump
