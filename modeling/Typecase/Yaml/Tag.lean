import Typecase.Yaml.Scalar
set_option autoImplicit false

/-!
# Tags and directives

A tag in front of a node is written `!suffix`, `!handle!suffix` or `!<suffix>`.  What a
handle stands for is declared by `%TAG` directives before the start of a document;
`!!` stands for the tags of the language itself.
-/

namespace Typecase.Yaml

/-- Whether a character may occur in the name of an anchor, a handle or a directive. -/
def isNameChar (c : Char) : Bool := c.isAlphanum || c == '_' || c == '-'

/-- Whether a character may occur in the suffix of a tag. -/
def isTagChar (c : Char) : Bool := isNameChar c || ";/?:@&=+$,.!~*'()[]%".toList.contains c

def byteCount? (n : Nat) : Option Nat :=
  if n < 0x80 then some 1
  else if n < 0xC0 then none
  else if n < 0xE0 then some 2
  else if n < 0xF0 then some 3
  else if n < 0xF8 then some 4
  else none

/-- The byte that is written by a percent sign and two digits. -/
def escapedByte? : List Char → Option Nat
  | '%' :: a :: b :: _ => do return 16 * (← hexDigit? a) + (← hexDigit? b)
  | _ => none

/-- Read further bytes of an escaped character with the code so far. -/
def escapedMore : Nat → (code : Nat) → Cursor → Except Fault (Nat × Cursor)
  | 0, code, c => .ok (code, c)
  | n + 1, code, c =>
    match escapedByte? c.rest with
    | some b =>
      if 0x80 ≤ b && b < 0xC0 then escapedMore n (64 * code + (b - 0x80)) (c.skip 3)
      else .error .badTag
    | none => .error .badTag

/-- Read a character that is written by its bytes. -/
def escapedChar (c : Cursor) : Except Fault (Char × Cursor) := do
  match escapedByte? c.rest with
  | none => throw .badTag
  | some b =>
    match byteCount? b with
    | none => throw .badTag
    | some 1 => return (Char.ofNat b, c.skip 3)
    | some n =>
      let (code, c) ← escapedMore (n - 1) (b % Nat.pow 2 (7 - n)) (c.skip 3)
      return (Char.ofNat code, c)

/-- Read the suffix of a tag.  The first argument bounds the number of characters. -/
def tagSuffix : Nat → (text : List Char) → Cursor → Except Fault (List Char × Cursor)
  | 0, text, c => .ok (text, c)
  | n + 1, text, c =>
    match c.rest with
    | [] => .ok (text, c)
    | x :: _ =>
      if x == '%' then
        match escapedChar c with
        | .ok (y, c) => tagSuffix n (text ++ [y]) c
        | .error e => .error e
      else if isTagChar x then tagSuffix n (text ++ [x]) c.next
      else .ok (text, c)

/-- Read the suffix of a tag, which must not be empty. -/
def someTagSuffix (c : Cursor) : Except Fault (List Char × Cursor) := do
  let (text, after) ← tagSuffix (c.rest.length + 1) [] c
  if after.mark.index == c.mark.index then throw .badTag
  return (text, after)

/-- Read a handle: an exclamation mark, a name, and perhaps a closing mark. -/
def tagHandle (c : Cursor) : Except Fault (List Char × Cursor) := do
  if c.peek 0 != some '!' then throw .badTag
  let (name, c) := c.next.span isNameChar
  if c.peek 0 == some '!' then return ('!' :: name ++ ['!'], c.next)
  else return ('!' :: name, c)

def isClosedHandle (handle : List Char) : Bool :=
  handle.length > 1 && handle.getLast? == some '!'

/-- Read a tag: its handle, which may be empty, and its suffix. -/
def tag (c : Cursor) : Except Fault (String × String × Cursor) := do
  let (handle, suffix, c) ←
    if c.peek 1 == some '<' then do
      let (suffix, c) ← someTagSuffix (c.skip 2)
      if c.peek 0 != some '>' then throw .badTag
      pure ([], suffix, c.next)
    else do
      let (handle, c) ← tagHandle c
      if isClosedHandle handle then do
        let (suffix, c) ← someTagSuffix c
        pure (handle, suffix, c)
      else do
        let (suffix, c) ← tagSuffix (c.rest.length + 1) handle.tail c
        if suffix.isEmpty then pure ([], handle, c) else pure (['!'], suffix, c)
  if !c.blankAt 0 then throw .badTag
  return (String.ofList handle, String.ofList suffix, c)

/-! ## Directives -/

/-- Directives before the start of a document. -/
inductive Directive where
  | version (major minor : Nat)
  | tag (handle : String) (meaning : String)
  deriving DecidableEq, Repr, Inhabited

/-- Read one of the two numbers of a version.  It has at most two digits. -/
def versionNumber (c : Cursor) : Except Fault (Nat × Cursor) :=
  let (digits, c) := c.span Char.isDigit
  if digits.isEmpty || digits.length > 2 then .error .badDirective
  else .ok (digits.foldl (fun n d => 10 * n + (d.toNat - 48)) 0, c)

def versionDirective (c : Cursor) : Except Fault (Directive × Cursor) := do
  let (major, c) ← versionNumber (c.span isBlank).2
  if c.peek 0 != some '.' then throw .badDirective
  let (minor, c) ← versionNumber c.next
  return (.version major minor, c)

def tagDirective (c : Cursor) : Except Fault (Directive × Cursor) := do
  let (handle, c) ← tagHandle (c.span isBlank).2
  if handle != ['!'] && !isClosedHandle handle then throw .badDirective
  if !(c.peek 0).any isBlank then throw .badDirective
  let (meaning, c) ← someTagSuffix (c.span isBlank).2
  if !c.blankAt 0 then throw .badDirective
  return (.tag (String.ofList handle) (String.ofList meaning), c)

/-- Read a directive up to the end of its line. -/
def directive (c : Cursor) : Except Fault (Directive × Cursor) := do
  let (name, c) := c.next.span isNameChar
  if name.isEmpty || !c.blankAt 0 then throw .badDirective
  let (directive, c) ←
    if String.ofList name == "YAML" then versionDirective c
    else if String.ofList name == "TAG" then tagDirective c
    else throw .badDirective
  let c := (c.span isBlank).2
  let c := if c.peek 0 == some '#' then (c.span fun x => !isBreak x).2 else c
  if !(c.peek 0).all isBreak then throw .badDirective
  return (directive, c.next)

end Typecase.Yaml
