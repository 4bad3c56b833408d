set_option autoImplicit false

/-!
# Reading positions in a YAML text

A cursor is the rest of a text together with the place where that rest starts.  Lines
and columns are counted from zero, columns in characters.
-/

namespace Typecase.Yaml

/-- Why a text is not YAML, or not of the part of YAML that is read here. -/
inductive Fault where
  /-- A character that must not occur in a text. -/
  | forbiddenCharacter
  /-- A character that starts no token. -/
  | unexpectedCharacter
  /-- A tab where indentation is expected. -/
  | tab
  | unclosedQuote
  /-- A backslash followed by something that is no escape. -/
  | unknownEscape
  /-- An anchor or alias without a name. -/
  | badName
  /-- A list item, a key or a value where none is allowed. -/
  | misplacedIndicator
  /-- A line that has to be a key but is not followed by a colon. -/
  | missingColon
  /-- Something else stands where a node is expected. -/
  | missingNode
  | unclosedCollection
  | unknownAnchor
  /-- A tag that is malformed, or whose handle is not declared. -/
  | badTag
  /-- A directive that is malformed, unknown or given twice. -/
  | badDirective
  /-- The head of a block scalar has something other than its indicators. -/
  | badBlockHead
  /-- The text is nested too deeply. -/
  | tooDeep
  deriving DecidableEq, Repr, Inhabited

/-- A place in a text. -/
structure Mark where
  line : Nat
  col : Nat
  /-- Number of characters before the place. -/
  index : Nat
  deriving DecidableEq, Repr, Inhabited

/-- Whether a character separates words. -/
def isBlank (c : Char) : Bool := c == ' ' || c == '\t'

/-- Whether a character ends a line. -/
def isBreak (c : Char) : Bool :=
  c == '\n' || c == '\u0085' || c == '\u2028' || c == '\u2029'

/-- The end of a line as it stands in the text of a scalar. -/
def breakText (c : Char) : Char := if c == '\u0085' then '\n' else c

/-- Whether a character may occur in a text. -/
def isAllowed (c : Char) : Bool :=
  let n := c.toNat
  n == 0x09 || n == 0x0A || n == 0x0D || (0x20 ≤ n && n ≤ 0x7E) || n == 0x85 ||
    (0xA0 ≤ n && n ≤ 0xFFFD) || 0x10000 ≤ n

/-- Write a carriage return, with or without a line feed behind it, as a line feed. -/
def unifyBreaks : List Char → List Char
  | '\r' :: '\n' :: cs => '\n' :: unifyBreaks cs
  | c :: cs => (if c == '\r' then '\n' else c) :: unifyBreaks cs
  | [] => []

/-- The place behind a character. -/
def Mark.step (m : Mark) (c : Char) : Mark :=
  if isBreak c then ⟨m.line + 1, 0, m.index + 1⟩ else ⟨m.line, m.col + 1, m.index + 1⟩

/-- The rest of a text. -/
structure Cursor where
  rest : List Char
  mark : Mark
  deriving DecidableEq, Repr, Inhabited

namespace Cursor

def start (text : List Char) : Cursor := ⟨text, ⟨0, 0, 0⟩⟩

/-- The character `n` places ahead. -/
def peek (c : Cursor) (n : Nat) : Option Char := c.rest[n]?

/-- Whether a blank, the end of a line or the end of the text is `n` places ahead. -/
def blankAt (c : Cursor) (n : Nat) : Bool := (c.peek n).all fun x => isBlank x || isBreak x

/-- Go past one character. -/
def next (c : Cursor) : Cursor :=
  match c.rest with
  | [] => c
  | x :: xs => ⟨xs, c.mark.step x⟩

/-- Go past `n` characters. -/
def skip : Nat → Cursor → Cursor
  | 0, c => c
  | n + 1, c => skip n c.next

/-- Go past one character as if it did not end a line. -/
def pass (c : Cursor) : Cursor :=
  ⟨c.rest.tail, ⟨c.mark.line, c.mark.col + 1, c.mark.index + 1⟩⟩

/-- Go past the longest run of characters for which `p` holds. -/
def span (p : Char → Bool) (c : Cursor) : List Char × Cursor :=
  go c.rest c.mark
where
  /-- The run at the start of the given characters. -/
  go : List Char → Mark → List Char × Cursor
    | [], m => ([], ⟨[], m⟩)
    | x :: xs, m =>
      if p x then
        let (run, c) := go xs (m.step x)
        (x :: run, c)
      else ([], ⟨x :: xs, m⟩)

/-- Whether the three characters `x` stand at the start of a line, followed by a blank:
a marker between documents. -/
def isMarker (c : Cursor) (x : Char) : Bool :=
  c.mark.col == 0 && c.rest.take 3 == [x, x, x] && c.blankAt 3

/-- Whether a marker between documents follows. -/
def atMarker (c : Cursor) : Bool := c.isMarker '-' || c.isMarker '.'

end Cursor

end Typecase.Yaml
