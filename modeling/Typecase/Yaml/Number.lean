import Typecase.Text.Integer
import Typecase.Yaml.Real
set_option autoImplicit false

/-!
# Numbers of plain scalars

A plain scalar is an integer if it is written in decimal, or after `0x`, `0o` or `0b` in
another base; a leading zero means base eight as well.  Underscores do not count.  A
number with a point or an exponent, or too large for 64 bits, is a real number.
-/

namespace Typecase.Yaml

inductive Number where
  | integer (n : Int)
  | real (r : Real)
  deriving DecidableEq, Repr, Inhabited

inductive Sign where
  | none
  | plus
  | minus
  deriving DecidableEq, Repr, Inhabited

/-- The sign of a text, and what follows. -/
def splitSign : List Char → Sign × List Char
  | '+' :: cs => (.plus, cs)
  | '-' :: cs => (.minus, cs)
  | cs => (.none, cs)

/-! ## Integers -/

def digitValue? (c : Char) : Option Nat :=
  if c.isDigit then some (c.toNat - 48)
  else if 'a' ≤ c && c ≤ 'f' then some (c.toNat - 87)
  else if 'A' ≤ c && c ≤ 'F' then some (c.toNat - 55)
  else none

def based? (base : Nat) (cs : List Char) : Option Nat :=
  if cs.isEmpty then none
  else cs.foldlM (fun n c => do
    let d ← digitValue? c
    if d < base then some (base * n + d) else none) 0

/-- The number of a text without sign. -/
def natural? : List Char → Option Nat
  | '0' :: 'x' :: cs | '0' :: 'X' :: cs => based? 16 cs
  | '0' :: 'o' :: cs | '0' :: 'O' :: cs => based? 8 cs
  | '0' :: 'b' :: cs | '0' :: 'B' :: cs => based? 2 cs
  | ['0'] => some 0
  | '0' :: cs => based? 8 cs
  | cs => based? 10 cs

/-- An integer with a sign, if it fits into 64 bits.  Without any sign it may be twice as
large. -/
def ranged? (sign : Sign) (n : Nat) : Option Int :=
  match sign with
  | .none => if n < 18446744073709551616 then some n else none
  | .plus => if (n : Int) ≤ Text.greatest then some n else none
  | .minus => if Text.least ≤ -(n : Int) then some (-(n : Int)) else none

def integer? (cs : List Char) : Option Int := do
  let (sign, cs) := splitSign cs
  ranged? sign (← natural? cs)

/-- An integer whose sign stands behind the mark of its base. -/
def lateSigned? : List Char → Option Int
  | '0' :: 'b' :: cs => signed? 2 cs
  | '0' :: 'o' :: cs => signed? 8 cs
  | _ => none
where
  signed? (base : Nat) (cs : List Char) : Option Int := do
    let (sign, cs) := splitSign cs
    ranged? sign (← based? base cs)

/-! ## Real numbers -/

/-- The digits of a text up to the first other character, and what follows. -/
def leadingDigits (cs : List Char) : List Char × List Char :=
  (cs.takeWhile Char.isDigit, cs.dropWhile Char.isDigit)

/-- The exponent at the end of a number; there may be none. -/
def exponent? : List Char → Option Int
  | [] => some 0
  | c :: cs =>
    if c == 'e' || c == 'E' then
      match splitSign cs with
      | (.minus, cs) => (Text.digits? cs).map fun n => -(n : Int)
      | (_, cs) => (Text.digits? cs).map Int.ofNat
    else none

/-- The number `± m · 10 ^ e`.  A number with its highest digit at position 310 or above
is too large, and one with its highest digit below position -330 counts as zero. -/
def scaled? (negative : Bool) (m : Nat) (e : Int) : Option Real :=
  let top : Int := (toString m).length + e
  if m = 0 || top < -330 then Real.nearest? negative 0 1
  else if 310 < top then none
  else if 0 ≤ e then Real.nearest? negative (m * Nat.pow 10 e.toNat) 1
  else Real.nearest? negative m (Nat.pow 10 e.natAbs)

/-- The number of a text with an optional sign, point and exponent. -/
def decimal? (cs : List Char) : Option Real :=
  let (sign, cs) := splitSign cs
  let (whole, rest) := leadingDigits cs
  let (fraction, rest) := match rest with
    | '.' :: rest => leadingDigits rest
    | rest => ([], rest)
  if whole.isEmpty && fraction.isEmpty then none
  else do
    let e ← exponent? rest
    let m ← Text.digits? (whole ++ fraction)
    scaled? (sign == .minus) m (e - fraction.length)

def underscoresSeparate : (digitBefore : Bool) → List Char → Bool
  | _, [] => true
  | before, c :: cs =>
    (c != '_' || (before && cs.head?.any Char.isDigit)) && underscoresSeparate c.isDigit cs

/-! ## Plain scalars -/

/-- Numbers that are written as words. -/
def namedReals : List (String × Real) :=
  [(".nan", .undefined), (".NaN", .undefined), (".NAN", .undefined),
   (".inf", .infinite false), (".Inf", .infinite false), (".INF", .infinite false),
   ("+.inf", .infinite false), ("+.Inf", .infinite false), ("+.INF", .infinite false),
   ("-.inf", .infinite true), ("-.Inf", .infinite true), ("-.INF", .infinite true)]

/-- The number that a plain scalar stands for.  In a number that starts with a point,
underscores have to stand between digits. -/
def number? (text : String) : Option Number :=
  match namedReals.lookup text, text.toList with
  | some r, _ => some (.real r)
  | none, [] => none
  | none, c :: cs =>
    let digits := (c :: cs).filter (· != '_')
    if c == '.' then
      if underscoresSeparate false (c :: cs) then (decimal? digits).map .real else none
    else if c.isDigit || c == '+' || c == '-' then
      ((integer? digits).map .integer <|> (decimal? digits).map .real) <|>
        (lateSigned? digits).map .integer
    else none

/-- The integer that a number is read as where one of 64 bits is expected. -/
def Number.toInteger? : Number → Option Int
  | .integer n => if n ≤ Text.greatest then some n else none
  | .real r => r.toInteger?

end Typecase.Yaml
