import Typecase.Yaml.Scalar
set_option autoImplicit false

/-!
# Block scalars

A block scalar starts with `|` or `>` and consists of the indented lines below.  After
`|` the ends of lines are kept; after `>` a single end of a line between two lines that
do not start with a blank counts as a blank.

The head may say how many columns the lines are indented, and whether the ends of lines
behind the text are dropped (`-`) or all kept (`+`); otherwise one of them is kept.
-/

namespace Typecase.Yaml

/-- What happens to the ends of lines behind the text of a block scalar. -/
inductive Chomping where
  /-- Only the first one is kept. -/
  | clip
  /-- All are dropped. -/
  | strip
  /-- All are kept. -/
  | keep
  deriving DecidableEq, Repr, Inhabited

structure BlockHead where
  chomping : Chomping := .clip
  /-- How much deeper than its surroundings the text is indented, zero if this is not
  given. -/
  increment : Nat := 0
  deriving DecidableEq, Repr, Inhabited

/-- The chomping that a character stands for. -/
def chomping? : Char → Option Chomping
  | '+' => some .keep
  | '-' => some .strip
  | _ => none

/-- The indentation that a character stands for.  Zero is refused. -/
def increment? (c : Char) : Except Fault (Option Nat) :=
  if c == '0' then .error .badBlockHead
  else if c.isDigit then .ok (some (c.toNat - 48))
  else .ok none

/-- Read the indicators behind `|` or `>`, in either order. -/
def blockHead (c : Cursor) : Except Fault (BlockHead × Cursor) :=
  match c.rest with
  | [] => .ok ({}, c)
  | x :: xs => do
    match chomping? x with
    | some chomping =>
      match ← (xs.head?.map increment?).getD (.ok none) with
      | some increment => return (⟨chomping, increment⟩, c.skip 2)
      | none => return (⟨chomping, 0⟩, c.next)
    | none =>
      match ← increment? x with
      | some increment =>
        match xs.head?.bind chomping? with
        | some chomping => return (⟨chomping, increment⟩, c.skip 2)
        | none => return (⟨.clip, increment⟩, c.next)
      | none => return ({}, c)

/-- Go past the blanks and the comment behind the head, and past the end of its line. -/
def blockHeadEnd (c : Cursor) : Except Fault Cursor :=
  let c := (c.span isBlank).2
  let c := if c.peek 0 == some '#' then (c.span fun x => !isBreak x).2 else c
  match c.rest with
  | [] => .ok c
  | x :: _ => if isBreak x then .ok c.next else .error .badBlockHead

/-- Go past empty lines and past the indentation of the next line: the ends of the empty
lines, the deepest column reached and the cursor.  Without a given indentation `indent` is
zero, and all spaces count.  The first argument bounds the number of lines. -/
def blockBreaks (indent : Nat) : Nat → (breaks : List Char) → (deepest : Nat) → Cursor →
    Except Fault (List Char × Nat × Cursor)
  | 0, breaks, deepest, c => .ok (breaks, deepest, c)
  | n + 1, breaks, deepest, c =>
    let c := indentation c.rest c.mark
    let deepest := max deepest c.mark.col
    if (indent == 0 || c.mark.col < indent) && c.peek 0 == some '\t' then .error .tab
    else match c.rest with
      | x :: _ =>
        if isBreak x then blockBreaks indent n (breaks ++ [breakText x]) deepest c.next
        else .ok (breaks, deepest, c)
      | [] => .ok (breaks, deepest, c)
where
  /-- The spaces that belong to the indentation. -/
  indentation : List Char → Mark → Cursor
    | ' ' :: xs, m =>
      if indent == 0 || m.col < indent then indentation xs (m.step ' ') else ⟨' ' :: xs, m⟩
    | xs, m => ⟨xs, m⟩

/-- What stands between a line and the next one.  `first` is the end of the line, `more`
are the ends of empty lines below. -/
def joinLines (folded : Bool) (first more : List Char) : List Char :=
  if folded && first.head? == some '\n' then (if more.isEmpty then [' '] else more)
  else first ++ more

/-- Read the lines of a block scalar that are indented to column `indent`: the text, the
end of its last line, the ends of the empty lines below, and the cursor.  `first` and
`more` are the ends of lines before the present line, `blank` tells whether the line
before starts with a blank. -/
def blockLines (literal : Bool) (indent : Nat) : Nat → (text first more : List Char) → (blank : Bool) →
    Cursor → Except Fault (List Char × List Char × List Char × Cursor)
  | 0, text, first, more, _, c => .ok (text, first, more, c)
  | n + 1, text, first, more, blank, c =>
    match c.rest with
    | [] => .ok (text, first, more, c)
    | x :: _ =>
      if c.mark.col != indent then .ok (text, first, more, c)
      else do
        let startsBlank := isBlank x
        let text := text ++ joinLines (!literal && !blank && !startsBlank) first more
        let (line, c) := c.span fun y => !isBreak y
        let first := (c.peek 0).toList.map breakText
        let (more, _, c) ← blockBreaks indent (c.rest.length + 1) [] 0 c.next
        blockLines literal indent n (text ++ line) first more startsBlank c

/-- The text of a block scalar, given the ends of lines behind it. -/
def Chomping.apply (text first more : List Char) : Chomping → List Char
  | .strip => text
  | .clip => text ++ first
  | .keep => text ++ first ++ more

/-- Read a block scalar from its indicator on, inside a block collection at column
`outer`. -/
def blockScalar (literal : Bool) (outer : Int) (c : Cursor) : Except Fault (List Char × Cursor) := do
  let (head, c) ← blockHead c.next
  let c ← blockHeadEnd c
  let given := if head.increment == 0 then 0 else (max outer 0).toNat + head.increment
  let bound := c.rest.length + 1
  let (more, deepest, c) ← blockBreaks given bound [] 0 c
  let indent := if given == 0 then max deepest (max (outer + 1) 1).toNat else given
  let (text, first, more, c) ← blockLines literal indent bound [] [] more false c
  return (head.chomping.apply text first more, c)

end Typecase.Yaml
