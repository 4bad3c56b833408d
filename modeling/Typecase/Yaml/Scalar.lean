import Typecase.Yaml.Cursor
set_option autoImplicit false

/-!
# Scalars

A plain scalar ends before a comment, before a colon that is followed by a blank, and
in flow collections also before their punctuation.  A quoted scalar ends with its quote.

A scalar may go on over several lines.  A single end of a line then counts as a blank;
of several, all but the first are kept.
-/

namespace Typecase.Yaml

/-- What a run of blanks and line ends inside a scalar stands for. -/
def foldBlanks (run : List Char) : List Char :=
  match (run.filter isBreak).map breakText with
  | [] => run
  | first :: more =>
    if first == '\n' then (if more.isEmpty then [' '] else more) else first :: more

/-! ## Plain scalars -/

def endsPlain (c : Char) : Bool :=
  c == ',' || c == '?' || c == '[' || c == ']' || c == '\x7b' || c == '\x7d'

/-- The run of characters of a plain scalar up to a blank or to its end. -/
def plainRun (flow : Bool) : List Char → Mark → List Char × Cursor
  | [], m => ([], ⟨[], m⟩)
  | c :: cs, m =>
    let ends := isBlank c || isBreak c || (flow && endsPlain c) ||
      (c == ':' && cs.head?.all fun x => isBlank x || isBreak x)
    if ends then ([], ⟨c :: cs, m⟩)
    else
      let (run, rest) := plainRun flow cs (m.step c)
      (c :: run, rest)

/-- Whether a tab stands before column `indent` in one of the lines after the first. -/
def tabsIndent (indent : Int) : Bool → List Char → Mark → Bool
  | _, [], _ => false
  | later, c :: cs, m =>
    (later && c == '\t' && m.col < indent) || tabsIndent indent (later || isBreak c) cs (m.step c)

/-- Read a plain scalar: its text, the cursor behind it and the blanks that follow, and
whether these blanks contain the end of a line.  The first argument bounds the number of
runs, `pending` are the blanks before the next run. -/
def plainAt (flow : Bool) (indent : Int) :
    Nat → (pending text : List Char) → Bool → Cursor → Except Fault (List Char × Cursor × Bool)
  | 0, _, text, broken, c => .ok (text, c, broken)
  | n + 1, pending, text, broken, c =>
    if c.atMarker || c.peek 0 == some '#' then .ok (text, c, broken)
    else
      let (run, after) := plainRun flow c.rest c.mark
      if run.isEmpty then .ok (text, c, broken)
      else
        let text := text ++ foldBlanks pending ++ run
        let (blanks, next) := after.span fun x => isBlank x || isBreak x
        let broken := blanks.any isBreak
        if blanks.isEmpty then .ok (text, after, false)
        else if tabsIndent indent false blanks after.mark then .error .tab
        else if !flow && next.mark.col < indent then .ok (text, next, broken)
        else plainAt flow indent n blanks text broken next

/-- Read a plain scalar whose further lines are indented by at least `indent`.  It has at
most `bound` characters. -/
def plain (flow : Bool) (indent : Int) (bound : Nat) (c : Cursor) :
    Except Fault (List Char × Cursor × Bool) :=
  plainAt flow indent (bound + 1) [] [] false c

/-! ## Quoted scalars -/

/-- The value of a hexadecimal digit. -/
def hexDigit? (c : Char) : Option Nat :=
  if '0' ≤ c && c ≤ '9' then some (c.toNat - 48)
  else if 'a' ≤ c && c ≤ 'f' then some (c.toNat - 87)
  else if 'A' ≤ c && c ≤ 'F' then some (c.toNat - 55)
  else none

/-- The character with the code written by `digits`. -/
def codePoint? (digits : List Char) : Option Char := do
  let n ← digits.foldlM (fun n c => (hexDigit? c).map (16 * n + ·)) 0
  if h : n.isValidChar then some (Char.ofNatAux n h) else none

/-- What a one-letter escape stands for. -/
def simpleEscape? : Char → Option Char
  | '0' => some '\x00'
  | 'a' => some '\x07'
  | 'b' => some '\x08'
  | 't' => some '\t'
  | '\t' => some '\t'
  | 'n' => some '\n'
  | 'v' => some '\x0b'
  | 'f' => some '\x0c'
  | 'r' => some '\r'
  | 'e' => some '\x1b'
  | ' ' => some ' '
  | '"' => some '"'
  | '\'' => some '\''
  | '\\' => some '\\'
  | 'N' => some '\u0085'
  | '_' => some '\u00a0'
  | 'L' => some '\u2028'
  | 'P' => some '\u2029'
  | _ => none

/-- Number of digits behind an escape by code. -/
def codeLength? : Char → Option Nat
  | 'x' => some 2
  | 'u' => some 4
  | 'U' => some 8
  | _ => none

/-- Read the escape behind a backslash. -/
def escape (c : Cursor) : Except Fault (Char × Cursor) :=
  match c.rest with
  | [] => .error .unclosedQuote
  | x :: rest =>
    match simpleEscape? x, codeLength? x with
    | some y, _ => .ok (y, c.next)
    | none, some n =>
      if (rest.take n).length < n then .error .unknownEscape
      else match codePoint? (rest.take n) with
        | some y => .ok (y, c.skip (n + 1))
        | none => .error .unknownEscape
    | none, none => .error .unknownEscape

/-- Read the rest of a quoted scalar.  The first argument bounds the number of steps;
`single` tells the two kinds of quotes apart. -/
def quotedAt (single : Bool) : Nat → (text : List Char) → Cursor → Except Fault (List Char × Cursor)
  | 0, _, _ => .error .unclosedQuote
  | n + 1, text, c =>
    if c.atMarker then .error .unclosedQuote
    else match c.rest with
      | [] => .error .unclosedQuote
      | x :: rest =>
        if isBlank x || isBreak x then
          let (blanks, next) := c.span fun y => isBlank y || isBreak y
          quotedAt single n (text ++ foldBlanks blanks) next
        else if single && x == '\'' then
          if rest.head? == some '\'' then quotedAt single n (text ++ ['\'']) (c.skip 2)
          else .ok (text, c.next)
        else if !single && x == '"' then .ok (text, c.next)
        else if !single && x == '\\' then
          if rest.head?.any isBreak then
            let (blanks, next) := (c.skip 2).span fun y => isBlank y || isBreak y
            quotedAt single n (text ++ (blanks.filter isBreak).map breakText) next
          else
            match escape c.next with
            | .ok (y, next) => quotedAt single n (text ++ [y]) next
            | .error e => .error e
        else
          let (run, next) := c.span fun y =>
            !(isBlank y || isBreak y || y == '\'' || y == '"' || y == '\\')
          if run.isEmpty then quotedAt single n (text ++ [x]) c.next
          else quotedAt single n (text ++ run) next

/-- Read a quoted scalar from its opening quote on.  It has at most `bound` characters. -/
def quoted (single : Bool) (bound : Nat) (c : Cursor) : Except Fault (List Char × Cursor) :=
  quotedAt single (bound + 1) [] c.next

end Typecase.Yaml
