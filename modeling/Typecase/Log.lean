import Typecase.Text.Quoted
set_option autoImplicit false

/-!
# Log records

A record has a level, a message and named values.  It is written on one line, as
`key=value` pairs or as an object of the JSON format.
-/

namespace Typecase.Log

/-- How important a record is. -/
inductive Level where
  | debug
  | info
  | warn
  | error
  deriving DecidableEq, Repr, Inhabited

namespace Level

/-- Levels in ascending order. -/
def rank : Level → Nat
  | .debug => 0
  | .info => 1
  | .warn => 2
  | .error => 3

def name : Level → String
  | .debug => "DEBUG"
  | .info => "INFO"
  | .warn => "WARN"
  | .error => "ERROR"

/-- A letter in lower case.  The capital I with a dot counts as a plain one. -/
def lowerChar (c : Char) : Char := if c = '\u0130' then 'i' else c.toLower

/-- The level that a text names, in letters of either case. -/
def ofText? (text : String) : Option Level :=
  match text.map lowerChar with
  | "debug" => some .debug
  | "info" => some .info
  | "warn" | "warning" => some .warn
  | "error" => some .error
  | _ => none

/-- Whether records of a level are kept when those from `threshold` on are. -/
def enabled (threshold : Option Level) (level : Level) : Bool :=
  threshold.any fun t => t.rank ≤ level.rank

end Level

/-- A value in the log. -/
inductive Value where
  | text (s : String)
  | number (n : Nat)
  | truth (b : Bool)
  deriving DecidableEq, Repr, Inhabited

/-- A value without quotes. -/
def Value.plain : Value → String
  | .text s => s
  | .number n => toString n
  | .truth b => if b then "true" else "false"

/-- An entry of the log. -/
structure Record where
  level : Level
  message : String
  values : List (String × Value)
  deriving DecidableEq, Repr, Inhabited

/-! ## Lines of pairs -/

/-- Whether a character can stand in a value without quotes. -/
def isBare (c : Char) : Bool :=
  if c.toNat < 0x80 then
    0x20 < c.toNat && c != '"' && c != '='
  else Text.isPrintable c && c != '\uFFFD'

/-- A text as a value of a pair, in quotes if it is empty or has characters that would
be read as something else. -/
def pairText (s : String) : String :=
  if s.isEmpty || !s.toList.all isBare then Text.quote s else s

def Value.inPair : Value → String
  | .text s => pairText s
  | v => v.plain

/-- An entry as pairs of keys and values. -/
def Record.pairs (r : Record) : String :=
  "level=" ++ r.level.name ++ " msg=" ++ pairText r.message ++
    String.join (r.values.map fun kv => " " ++ kv.1 ++ "=" ++ kv.2.inPair) ++ "\n"

/-! ## Lines of objects -/

/-- A character of a text in an object. -/
def jsonChar (c : Char) : List Char :=
  match c with
  | '"' => ['\\', '"']
  | '\\' => ['\\', '\\']
  | '\n' => ['\\', 'n']
  | '\r' => ['\\', 'r']
  | '\t' => ['\\', 't']
  | c =>
    if c.toNat < 0x20 || c == '\u2028' || c == '\u2029' then '\\' :: 'u' :: Text.hex 4 c.toNat
    else [c]

def jsonText (s : String) : String :=
  String.ofList ('"' :: s.toList.flatMap jsonChar ++ ['"'])

def Value.json : Value → String
  | .text s => jsonText s
  | v => v.plain

/-- A record as an object on one line. -/
def Record.json (r : Record) : String :=
  "\x7b\"level\":" ++ jsonText r.level.name ++ ",\"msg\":" ++ jsonText r.message ++
    String.join (r.values.map fun kv => "," ++ jsonText kv.1 ++ ":" ++ kv.2.json) ++ "\x7d\n"

/-- How records are written. -/
inductive Format where
  | text
  | json
  deriving DecidableEq, Repr, Inhabited

def Format.name : Format → String
  | .text => "text"
  | .json => "json"

/-- The lines of the records that reach a threshold. -/
def render (threshold : Option Level) (format : Format) (rs : List Record) : String :=
  let rs := rs.filter fun r => Level.enabled threshold r.level
  String.join (rs.map fun r => match format with
    | .text => r.pairs
    | .json => r.json)

end Typecase.Log
