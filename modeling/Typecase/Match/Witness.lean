import Typecase.Match.Decision
set_option autoImplicit false

/-!
# Witnesses

A witness is a value of which only some parts are known.  It is put together from the
facts along a branch of a decision tree and shows an example of the values that take
the branch; unknown parts are shown as `_`.
-/

namespace Typecase

/-- The components of a tuple or record. -/
inductive Shape where
  /-- A tuple with the given number of components. -/
  | tuple (arity : Nat)
  | record (labels : List String)
  deriving DecidableEq, Repr, Inhabited

/-- What a branch knows about the value at a path: its constructor or literal, and
whether that carries a value.  Where nothing is known the head is empty. -/
structure Fact where
  path : Path
  head : String
  hasArg : Bool
  deriving DecidableEq, Repr, Inhabited

/-- A partially known value.  An empty head, list of components or list of fields says
that nothing is known of them. -/
inductive Witness where
  | mk (head : String) (hasArg : Bool) (arg : Option Witness) (elems : List Witness)
    (fields : List (String × Witness))
  deriving Repr

namespace Witness

/-- A value of which nothing is known. -/
def blank : Witness := .mk "" false none [] []

instance : Inhabited Witness := ⟨blank⟩

/-- The value that a constructor carries, unknown unless there is one. -/
def argOrBlank : Option Witness → Witness
  | some w => w
  | none => blank

/-- Change the component with the given number.  There is none behind the last one. -/
def modifyElem (f : Witness → Option Witness) : Nat → List Witness → Option (List Witness)
  | _, [] => none
  | 0, w :: ws => (f w).map (· :: ws)
  | i + 1, w :: ws => (modifyElem f i ws).map (w :: ·)

def modifyField (f : Witness → Option Witness) (label : String) :
    List (String × Witness) → Option (List (String × Witness))
  | [] => some []
  | (l, w) :: fs =>
    if l = label then (f w).map fun w => (l, w) :: fs
    else (modifyField f label fs).map ((l, w) :: ·)

/-- Note a fact about the part at `rest` of a witness that itself stands at `before`.
`shapeAt` gives the components of tuples and records; a tuple is laid out when one of its
components is looked at for the first time.  There is no result if a component that is
looked at later lies outside. -/
def note (shapeAt : Path → Option Shape) (head : String) (hasArg : Bool) :
    (before rest : Path) → Witness → Option Witness
  | _, [], .mk _ _ arg elems fields => some (.mk head hasArg arg elems fields)
  | before, step :: rest, .mk h a arg elems fields =>
    let deeper := note shapeAt head hasArg (before ++ [step]) rest
    match step with
    | .component i =>
      let arity := match shapeAt before with
        | some (.tuple n) => n
        | _ => 0
      let elems := if elems.isEmpty then List.replicate (max arity (i + 1)) blank else elems
      (modifyElem deeper i elems).map fun elems => .mk h a arg elems fields
    | .field label =>
      let labels := match shapeAt before with
        | some (.record ls) => ls
        | _ => []
      let fields := if fields.isEmpty then labels.map (·, blank) else fields
      let fields := if fields.any (·.1 == label) then fields else fields ++ [(label, blank)]
      (modifyField deeper label fields).map fun fields => .mk h a arg elems fields
    | .arg _ => (deeper (argOrBlank arg)).map fun w => .mk h a (some w) elems fields

/-- The witness of a list of facts, if all of them can be noted. -/
def ofFacts (shapeAt : Path → Option Shape) (facts : List Fact) : Option Witness :=
  facts.foldlM (fun w f => note shapeAt f.head f.hasArg [] f.path w) blank

mutual

/-- A witness as text.  With `operand`, a constructor with a value is put in
parentheses. -/
def render (operand : Bool) : Witness → String
  | .mk head hasArg arg elems fields =>
    if head ≠ "" then
      if !hasArg then head
      else
        let text := if head = "::" then renderCons arg else head ++ " " ++ renderArg arg
        if operand then "(" ++ text ++ ")" else text
    else if !elems.isEmpty then "(" ++ ", ".intercalate (renderElems elems) ++ ")"
    else if !fields.isEmpty then "\x7b" ++ ", ".intercalate (renderFields fields) ++ "\x7d"
    else "_"

/-- The value that a constructor carries. -/
def renderArg : Option Witness → String
  | some w => render true w
  | none => "_"

/-- A list cell, given the pair that it carries. -/
def renderCons : Option Witness → String
  | some (.mk _ _ _ [x, y] _) => render true x ++ " :: " ++ render false y
  | _ => "_ :: _"

/-- The components of a tuple. -/
def renderElems : List Witness → List String
  | [] => []
  | w :: ws => render false w :: renderElems ws

def renderFields : List (String × Witness) → List String
  | [] => []
  | (l, w) :: fs => (l ++ " = " ++ render false w) :: renderFields fs

end

end Witness

end Typecase
