import Typecase.Yaml.Block
import Typecase.Yaml.Tag
set_option autoImplicit false

/-!
# Tokens

The tokens of a YAML text.  Indentation becomes visible as tokens that start and end
block collections.

A key is recognized only at the colon behind it.  Until then the place of every node
that may turn out to be a key is remembered; at the colon, a key token and if need be
the start of a block mapping are put in front of that node.  A key has to stand on one
line with its colon and within 1024 characters of it.

Tokens are read as they are needed.  A token is handed out when two more tokens have
been read and it can no longer turn out to be a key.
-/

namespace Typecase.Yaml

/-- What a token is. -/
inductive TokenKind where
  | streamEnd
  | directive (d : Directive)
  | documentStart
  | documentEnd
  | blockSequenceStart
  | blockMappingStart
  | blockEnd
  | flowSequenceStart
  | flowSequenceEnd
  | flowMappingStart
  | flowMappingEnd
  | blockEntry
  | flowEntry
  | key
  | value
  | reference (name : String)
  | anchor (name : String)
  | tag (handle : String) (suffix : String)
  | scalar (text : String) (plain : Bool)
  deriving DecidableEq, Repr, Inhabited

/-- A token with the place where it starts and the place behind it. -/
structure Token where
  kind : TokenKind
  start : Mark
  stop : Mark
  deriving DecidableEq, Repr, Inhabited

/-- A node that may turn out to be a key. -/
structure Candidate where
  number : Nat
  mark : Mark
  /-- Whether the node has to be a key, because it starts at the indentation of a block
  collection. -/
  required : Bool
  /-- Whether the node may still turn out to be a key. -/
  possible : Bool
  deriving DecidableEq, Repr, Inhabited

/-- The state of the scanner. -/
structure Scanner where
  cursor : Cursor
  length : Nat
  /-- Whether every line is taken to start with a byte order mark. -/
  lineMarks : Bool := false
  queue : List Token := []
  taken : Nat := 0
  /-- The column of the innermost block collection, `-1` outside all of them. -/
  indent : Int := -1
  /-- The columns of the enclosing block collections. -/
  indents : List Int := []
  keyAllowed : Bool := true
  /-- The candidates for a key, one for every flow collection and one outside of them,
  innermost first. -/
  candidates : List Candidate := [default]
  /-- The tokens that have to wait for their candidates: the number of the token, and the
  number of flow collections around the candidate. -/
  waiting : List (Nat × Nat) := []
  deriving DecidableEq, Repr, Inhabited

namespace Scanner

def start (text : List Char) : Scanner :=
  { cursor := .start text, length := text.length, lineMarks := text.head? == some '\uFEFF' }

def flowLevel (s : Scanner) : Nat := s.candidates.length - 1

def inFlow (s : Scanner) : Bool :=
  match s.candidates with
  | _ :: _ :: _ => true
  | _ => false

def mark (s : Scanner) : Mark := s.cursor.mark

def nextNumber (s : Scanner) : Nat := s.taken + s.queue.length

def push (s : Scanner) (kind : TokenKind) (start stop : Mark) : Scanner :=
  { s with queue := s.queue ++ [⟨kind, start, stop⟩] }

/-- Put a token without extent in front of the token with the given number.  If that has
been taken already, the token goes to the end. -/
def insert (s : Scanner) (number : Nat) (kind : TokenKind) (m : Mark) : Scanner :=
  if number < s.taken then s.push kind m m
  else
    let ahead := number - s.taken
    { s with queue := s.queue.take ahead ++ ⟨kind, m, m⟩ :: s.queue.drop ahead }

/-- Append the token of an indicator of `n` characters and go past it. -/
def indicator (s : Scanner) (kind : TokenKind) (n : Nat) : Scanner :=
  let after := s.cursor.skip n
  { s.push kind s.mark after.mark with cursor := after }

/-! ## Keys -/

/-- The token with the given number need not wait any longer. -/
def release (s : Scanner) (number : Nat) : Scanner :=
  { s with waiting := s.waiting.filter (·.1 != number) }

def dropCandidate (s : Scanner) : Except Fault Scanner :=
  match s.candidates with
  | c :: outer =>
    if !c.possible then .ok s
    else if c.required then .error .missingColon
    else .ok ({ s with candidates := { c with possible := false } :: outer }.release c.number)
  | [] => .ok s

/-- Remember that a key may start here. -/
def saveCandidate (s : Scanner) : Except Fault Scanner :=
  if s.keyAllowed then do
    let required := !s.inFlow && s.indent == s.mark.col
    let number := s.nextNumber
    let s := (← s.dropCandidate).release number
    return { s with
      candidates := ⟨number, s.mark, required, true⟩ :: s.candidates.tail
      waiting := (number, s.flowLevel) :: s.waiting }
  else .ok s

/-- Whether a candidate cannot be a key any longer, because the scanner has left its line
or is too far behind it. -/
def isStale (s : Scanner) (c : Candidate) : Bool :=
  c.mark.line < s.mark.line || c.mark.index + 1024 < s.mark.index

/-- Whether the candidate with `level` flow collections around it may still be a key.  One
that cannot is given up. -/
def checkCandidate (s : Scanner) (level : Nat) : Except Fault (Bool × Scanner) :=
  if s.flowLevel < level then .ok (false, s)
  else
    let depth := s.flowLevel - level
    match s.candidates[depth]? with
    | some c =>
      if !c.possible then .ok (false, s)
      else if !s.isStale c then .ok (true, s)
      else if c.required then .error .missingColon
      else .ok (false, { s with candidates := s.candidates.set depth { c with possible := false } })
    | none => .ok (false, s)

/-! ## Indentation -/

def nestingLimit : Nat := 10000

/-- Start a block collection at column `col` if it is deeper than the innermost one.
Its token goes in front of the token with the given number. -/
def indentTo (s : Scanner) (col : Nat) (number : Nat) (kind : TokenKind) (m : Mark) :
    Except Fault Scanner :=
  if s.inFlow || col ≤ s.indent then .ok s
  else if s.indents.length ≥ nestingLimit then .error .tooDeep
  else .ok ({ s with indents := s.indent :: s.indents, indent := col }.insert number kind m)

/-- End the block collections that are deeper than `col`. -/
def endDeeper (col : Int) (m : Mark) : Int → List Int → Scanner → Scanner
  | indent, outer :: indents, s =>
    if indent > col then endDeeper col m outer indents (s.push .blockEnd m m)
    else { s with indent, indents := outer :: indents }
  | indent, [], s => { s with indent, indents := [] }

/-- Go back to column `col`.  The block collections end at `m`. -/
def unindentTo (s : Scanner) (col : Int) (m : Mark) : Scanner :=
  if s.inFlow then s else endDeeper col m s.indent s.indents s

/-! ## Blanks and comments -/

/-- Go past a comment, and past the comments in the lines below it.  Empty lines and
blanks of any kind may stand between them, up to 510 characters.  The first argument
bounds the number of comments. -/
def comments : Nat → Cursor → Cursor
  | 0, c => c
  | n + 1, c =>
    let c := (c.span fun x => !isBreak x).2
    let (gap, next) := c.next.span fun x => isBlank x || x == '\n'
    if c.peek 0 == some '\n' && gap.length ≤ 510 && next.peek 0 == some '#' then comments n next
    else c

def lineComment (s : Scanner) : Scanner :=
  let (blanks, c) := s.cursor.span isBlank
  if blanks.length < 512 && c.peek 0 == some '#' then
    { s with cursor := (c.span fun x => !isBreak x).2 }
  else s

/-- Go past the byte order mark of a line.  Below the first line there has to be some text
behind it. -/
def skipLineMark (s : Scanner) : Scanner :=
  if s.lineMarks && s.mark.col == 0 && (s.mark.index == 0 || 4 ≤ s.cursor.rest.length) then
    { s with cursor := s.cursor.pass }
  else s

/-- Go past blanks, comments and ends of lines.  Outside flow collections a key may
start on a new line.  The first argument bounds the number of lines. -/
def skipBlanks : Nat → Scanner → Scanner
  | 0, s => s
  | n + 1, s =>
    let s := s.skipLineMark
    let (_, c) := s.cursor.span fun x => x == ' ' || ((s.inFlow || !s.keyAllowed) && x == '\t')
    let c := if c.peek 0 == some '#' then comments (s.length + 1) c else c
    match c.peek 0 with
    | some x =>
      if isBreak x then
        skipBlanks n { s with cursor := c.next, keyAllowed := s.keyAllowed || !s.inFlow }
      else { s with cursor := c }
    | none => { s with cursor := c }

/-! ## Tokens -/

/-- The end of the text, which counts as the start of a new line. -/
def endOfText (s : Scanner) : Except Fault Scanner := do
  let m := s.mark
  let m := if m.col = 0 then m else ⟨m.line + 1, 0, m.index⟩
  let s ← ({ s with cursor := ⟨[], m⟩ }.unindentTo (-1) m).dropCandidate
  return { s.push .streamEnd m m with keyAllowed := false }

/-- A marker between documents. -/
def marker (s : Scanner) (kind : TokenKind) : Except Fault Scanner := do
  let s ← (s.unindentTo (-1) s.mark).dropCandidate
  return { s with keyAllowed := false }.indicator kind 3

def directiveLine (s : Scanner) : Except Fault Scanner := do
  let s ← (s.unindentTo (-1) s.mark).dropCandidate
  let (d, c) ← directive s.cursor
  return { s.push (.directive d) s.mark c.mark with cursor := c, keyAllowed := false }

def flowStart (s : Scanner) (kind : TokenKind) : Except Fault Scanner := do
  let s ← s.saveCandidate
  if s.flowLevel ≥ nestingLimit then throw .tooDeep
  return { s with
    candidates := ⟨s.nextNumber, s.mark, false, false⟩ :: s.candidates
    keyAllowed := true }.indicator kind 1

/-- The end of a flow collection.  If no candidate was found inside, the collection itself
need not wait any longer. -/
def flowEnd (s : Scanner) (kind : TokenKind) : Except Fault Scanner := do
  let s ← s.dropCandidate
  let s := match s.candidates with
    | c :: outer :: more => { s with candidates := outer :: more }.release c.number
    | _ => s
  return { s with keyAllowed := false }.indicator kind 1

/-- A comma in a flow collection. -/
def flowEntry (s : Scanner) : Except Fault Scanner := do
  let s ← s.dropCandidate
  return { s with keyAllowed := true }.indicator .flowEntry 1

/-- The dash of a list item. -/
def blockEntry (s : Scanner) : Except Fault Scanner := do
  if !s.inFlow && !s.keyAllowed then throw .misplacedIndicator
  let s ← (← s.indentTo s.mark.col s.nextNumber .blockSequenceStart s.mark).dropCandidate
  return { s with keyAllowed := true }.indicator .blockEntry 1

def explicitKey (s : Scanner) : Except Fault Scanner := do
  if !s.inFlow && !s.keyAllowed then throw .misplacedIndicator
  let s ← (← s.indentTo s.mark.col s.nextNumber .blockMappingStart s.mark).dropCandidate
  return { s with keyAllowed := !s.inFlow }.indicator .key 1

/-- The colon behind a key that is not marked as such. -/
def valueOf (s : Scanner) (c : Candidate) : Except Fault Scanner := do
  let s ← (s.insert c.number .key c.mark).indentTo c.mark.col c.number .blockMappingStart c.mark
  return { s.release c.number with
    candidates := { c with possible := false } :: s.candidates.tail
    keyAllowed := false }.indicator .value 1

/-- The colon behind an explicit key, or without a key. -/
def bareValue (s : Scanner) : Except Fault Scanner := do
  if !s.inFlow && !s.keyAllowed then throw .misplacedIndicator
  let s ← s.indentTo s.mark.col s.nextNumber .blockMappingStart s.mark
  return { s with keyAllowed := !s.inFlow }.indicator .value 1

/-- A colon. -/
def value (s : Scanner) : Except Fault Scanner := do
  let (isKey, s) ← s.checkCandidate s.flowLevel
  match s.candidates with
  | c :: _ => if isKey then s.valueOf c else s.bareValue
  | [] => s.bareValue

/-- An anchor or a reference to one. -/
def named (s : Scanner) (kind : String → TokenKind) : Except Fault Scanner := do
  let s ← s.saveCandidate
  let (name, c) := s.cursor.next.span isNameChar
  let closed := c.blankAt 0 || (c.peek 0).any fun x => "?:,]\x7d%@`".toList.contains x
  if name.isEmpty || !closed then throw .badName
  return { s.push (kind (String.ofList name)) s.mark c.mark with cursor := c, keyAllowed := false }

/-- A tag. -/
def tagged (s : Scanner) : Except Fault Scanner := do
  let s ← s.saveCandidate
  let (handle, suffix, c) ← tag s.cursor
  return { s.push (.tag handle suffix) s.mark c.mark with cursor := c, keyAllowed := false }

def blockText (s : Scanner) (literal : Bool) : Except Fault Scanner := do
  let s ← s.dropCandidate
  let (text, c) ← blockScalar literal s.indent s.cursor
  return { s.push (.scalar (String.ofList text) false) s.mark c.mark with
    cursor := c, keyAllowed := true }

def quotedText (s : Scanner) (single : Bool) : Except Fault Scanner := do
  let s ← s.saveCandidate
  let (text, c) ← quoted single s.length s.cursor
  return { s.push (.scalar (String.ofList text) false) s.mark c.mark with
    cursor := c, keyAllowed := false }

/-- A plain scalar, and a comment behind it. -/
def plainText (s : Scanner) : Except Fault Scanner := do
  let s ← s.saveCandidate
  let (text, c, broken) ← plain s.inFlow (s.indent + 1) s.length s.cursor
  let s := { s.push (.scalar (String.ofList text) true) s.mark c.mark with
    cursor := c, keyAllowed := broken }
  return if broken then s else s.lineComment

/-- Whether a plain scalar may start with `x` at the present place. -/
def startsPlain (s : Scanner) (x : Char) : Bool :=
  if x == '-' then !(s.cursor.peek 1).any isBlank
  else if x == '?' || x == ':' then !s.inFlow && !s.cursor.blankAt 1
  else !",[]\x7b\x7d#&*!|>'\"%@`".toList.contains x && !isBlank x && !isBreak x

/-- Scan a token that starts with `x`. -/
def token (s : Scanner) (x : Char) : Except Fault Scanner :=
  if s.mark.col == 0 && x == '%' then s.directiveLine
  else if s.cursor.isMarker '-' then s.marker .documentStart
  else if s.cursor.isMarker '.' then s.marker .documentEnd
  else if x == '[' then lineComment <$> s.flowStart .flowSequenceStart
  else if x == '\x7b' then lineComment <$> s.flowStart .flowMappingStart
  else if x == ']' then lineComment <$> s.flowEnd .flowSequenceEnd
  else if x == '\x7d' then lineComment <$> s.flowEnd .flowMappingEnd
  else if x == ',' then lineComment <$> s.flowEntry
  else if x == '-' && s.cursor.blankAt 1 then s.blockEntry
  else if x == '?' && (s.inFlow || s.cursor.blankAt 1) then lineComment <$> s.explicitKey
  else if x == ':' && (s.inFlow || s.cursor.blankAt 1) then lineComment <$> s.value
  else if x == '*' then lineComment <$> s.named .reference
  else if x == '&' then lineComment <$> s.named .anchor
  else if x == '!' then lineComment <$> s.tagged
  else if x == '|' && !s.inFlow then s.blockText true
  else if x == '>' && !s.inFlow then s.blockText false
  else if x == '\'' then lineComment <$> s.quotedText true
  else if x == '"' then lineComment <$> s.quotedText false
  else if s.startsPlain x then s.plainText
  else .error (if x == '\t' then .tab else .unexpectedCharacter)

/-- Scan up to the end of the next token. -/
def step (s : Scanner) : Except Fault Scanner :=
  let m := s.mark
  let s := skipBlanks (s.length + 1) s
  let s := s.unindentTo s.mark.col m
  match s.cursor.rest with
  | [] => s.endOfText
  | x :: _ => s.token x

/-- Read tokens until the first one in the queue can be handed out.  Every token but the
end of the text takes up some characters, so that the length of the text bounds the number
of steps. -/
def fill : Nat → Scanner → Except Fault Scanner
  | 0, s => .ok s
  | n + 1, s => do
    if s.queue.length < 3 then fill n (← s.step)
    else
      match s.waiting.lookup s.taken with
      | none => return s
      | some level =>
        let (waits, s) ← s.checkCandidate level
        if waits then fill n (← s.step) else return s

/-- The next token, which stays in the queue. -/
def peek (s : Scanner) : Except Fault (Token × Scanner) := do
  let s ← s.fill (s.length + 4)
  match s.queue with
  | t :: _ => return (t, s)
  | [] => throw .missingNode

/-- Take the next token from the queue. -/
def skip (s : Scanner) : Scanner :=
  { s with
    queue := s.queue.tail
    taken := s.taken + 1
    waiting := s.waiting.filter (s.taken < ·.1) }

end Scanner

end Typecase.Yaml
