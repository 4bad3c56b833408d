import Typecase.Yaml.Node
import Typecase.Yaml.Number
set_option autoImplicit false

/-!
# What scalars mean

A scalar in quotes is a text.  A plain scalar is nothing at all, a truth value, a number or
a text, depending on how it is written.  A tag says which of these it has to be.

Where a truth value is expected, the texts `yes`, `on`, `no`, `off` and their short forms
count as well.
-/

/-! ## Text in base 64

Bytes as text: each character stands for six bits, and four characters for three bytes.
The last group is filled up with equals signs.  Ends of lines do not count. -/

namespace Typecase.Text

/-- The six bits of a character. -/
def sextet? (c : Char) : Option Nat :=
  if 'A' ≤ c && c ≤ 'Z' then some (c.toNat - 65)
  else if 'a' ≤ c && c ≤ 'z' then some (c.toNat - 71)
  else if c.isDigit then some (c.toNat + 4)
  else if c == '+' then some 62
  else if c == '/' then some 63
  else none

/-- The bytes of groups of four characters. -/
def base64Bytes? : List Char → Option (List UInt8)
  | [] => some []
  | [a, b, '=', '='] => do
    let n := 64 * (← sextet? a) + (← sextet? b)
    return [UInt8.ofNat (n / 16)]
  | [a, b, c, '='] => do
    let n := 4096 * (← sextet? a) + 64 * (← sextet? b) + (← sextet? c)
    return [UInt8.ofNat (n / 1024), UInt8.ofNat (n / 4 % 256)]
  | a :: b :: c :: d :: more => do
    let n := 262144 * (← sextet? a) + 4096 * (← sextet? b) + 64 * (← sextet? c) + (← sextet? d)
    let bytes := [UInt8.ofNat (n / 65536), UInt8.ofNat (n / 256 % 256), UInt8.ofNat (n % 256)]
    return bytes ++ (← base64Bytes? more)
  | _ => none

def decodeBase64? (s : String) : Option String := do
  let bytes ← base64Bytes? (s.toList.filter fun c => c != '\n' && c != '\r')
  String.fromUTF8? ⟨bytes.toArray⟩

end Typecase.Text

/-! ## Values -/

namespace Typecase.Yaml

/-- What a scalar stands for. -/
inductive Value where
  | null
  | truth (b : Bool)
  | number (n : Number)
  | text (s : String)
  deriving DecidableEq, Repr, Inhabited

namespace Value

/-- What a plain scalar stands for. -/
def ofPlain (text : String) : Value :=
  if ["", "~", "null", "Null", "NULL"].contains text then .null
  else if ["true", "True", "TRUE"].contains text then .truth true
  else if ["false", "False", "FALSE"].contains text then .truth false
  else match number? text with
    | some n => .number n
    | none => .text text

def shortTag (tag : String) : String :=
  if tag.startsWith "tag:yaml.org,2002:" then "!!" ++ (tag.drop 18).toString else tag

/-- What a scalar with a tag stands for, if the tag fits. -/
def ofTagged? (tag text : String) : Option Value :=
  match shortTag tag, ofPlain text with
  | "!!str", _ => some (.text text)
  | "!!binary", _ => (Text.decodeBase64? text).map .text
  | "!!null", .null => some .null
  | "!!bool", .truth b => some (.truth b)
  | "!!int", .number (.integer n) => some (.number (.integer n))
  | "!!float", .number (.real r) => some (.number (.real r))
  | "!!float", .number (.integer n) =>
    if n ≤ Text.greatest then some (.number (.real (.ofInteger n))) else none
  | "!!merge", .text "<<" => some (.text "<<")
  | _, _ => none

/-- What a scalar stands for, if its tag fits. -/
def ofScalar? (text : String) : Style → Option Value
  | .plain => some (ofPlain text)
  | .quoted => some (.text text)
  | .tagged tag => ofTagged? tag text

def toTruth? : Value → Option Bool
  | .null => some false
  | .truth b => some b
  | .text s =>
    if ["y", "Y", "yes", "Yes", "YES", "on", "On", "ON"].contains s then some true
    else if ["n", "N", "no", "No", "NO", "off", "Off", "OFF"].contains s then some false
    else none
  | .number _ => none

/-- The integer that is meant where one is expected. -/
def toInteger? : Value → Option Int
  | .null => some 0
  | .number n => n.toInteger?
  | _ => none

end Value

namespace Node

def field? (n : Node) (key : String) : Option Node :=
  match n with
  | .mapping _ entries => (entries.find? fun e => e.1.text == key).map (·.2)
  | _ => none

def scalar? : Node → Option String
  | .scalar _ text _ => some text
  | _ => none

def isMapping : Node → Bool
  | .mapping .. => true
  | _ => false

def target : Node → Node
  | .reference p name anchor (some n) =>
    match n with
    | .reference .. => .reference p name anchor (some n)
    | n => n
  | n => n

/-- Whether a node is a scalar for truth. -/
def isTrue (n : Node) : Bool :=
  match n.target with
  | .scalar _ text style => (Value.ofScalar? text style).bind Value.toTruth? == some true
  | _ => false

end Node

end Typecase.Yaml
