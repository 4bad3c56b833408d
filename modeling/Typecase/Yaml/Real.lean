set_option autoImplicit false

/-!
# Real numbers

Real numbers are kept as binary fractions of at most 53 digits.  A number that is no such
fraction is replaced by the nearest one, and by the one with even last digit if two are
equally near.
-/

namespace Typecase.Yaml

/-- A quotient rounded to the nearest number, a half to the even one. -/
def roundDiv (num den : Nat) : Nat :=
  let q := num / den
  let twice := 2 * (num % den)
  if twice < den || (twice == den && q % 2 == 0) then q else q + 1

/-- Multiply a quotient by a power of two. -/
def scaleByTwo (num den : Nat) (e : Int) : Nat × Nat :=
  if 0 ≤ e then (num * Nat.pow 2 e.toNat, den) else (num, den * Nat.pow 2 e.natAbs)

/-- The position of the highest binary digit of a positive quotient. -/
def highestDigit (num den : Nat) : Int :=
  let e : Int := (num.log2 : Int) - den.log2
  let (n, d) := scaleByTwo num den (-e)
  if n < d then e - 1 else e

/-- A binary fraction `± mantissa · 2 ^ exponent`, or one of the numbers beyond. -/
inductive Real where
  | finite (negative : Bool) (mantissa : Nat) (exponent : Int)
  | infinite (negative : Bool)
  /-- No number at all. -/
  | undefined
  deriving DecidableEq, Repr, Inhabited

namespace Real

/-- The number of binary digits of a fraction. -/
def precision : Int := 53

/-- The least position of a digit. -/
def leastExponent : Int := -1074

/-- The magnitude from which on numbers are too large. -/
def limit : Nat := Nat.pow 2 1024

def wholePart (mantissa : Nat) (exponent : Int) : Nat :=
  if 0 ≤ exponent then mantissa * Nat.pow 2 exponent.toNat else mantissa / Nat.pow 2 exponent.natAbs

/-- The fraction nearest to a quotient, if that is not too large. -/
def nearest? (negative : Bool) (num den : Nat) : Option Real :=
  if num = 0 then some (.finite negative 0 0)
  else
    let e := max (highestDigit num den - (precision - 1)) leastExponent
    let (n, d) := scaleByTwo num den (-e)
    let m := roundDiv n d
    if limit ≤ wholePart m e then none else some (.finite negative m e)

/-- The integer to which a number is cut off, if the number is at most two to the power of
63.  Numbers whose integer would not fit into 64 bits become the least one that does. -/
def toInteger? : Real → Option Int
  | .finite negative m e =>
    let n : Int := wholePart m e
    let n := if negative then -n else n
    if 9223372036854775808 < n then none
    else if n < -9223372036854775808 || n = 9223372036854775808 then some (-9223372036854775808)
    else some n
  | .infinite negative => if negative then some (-9223372036854775808) else none
  | .undefined => none

def ofInteger (n : Int) : Real := (nearest? (n < 0) n.natAbs 1).getD .undefined

end Real

end Typecase.Yaml
