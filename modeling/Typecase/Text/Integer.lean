set_option autoImplicit false

/-!
# Integers as text

A decimal integer is an optional sign followed by digits.  It is read as a 64-bit
number; a number beyond that range is replaced by the nearest number within.
-/

namespace Typecase.Text

inductive Reading where
  | exact (n : Int)
  /-- The text is an integer out of range, and this is the nearest one in range. -/
  | nearest (n : Int)
  | malformed
  deriving DecidableEq, Repr, Inhabited

/-- The number written by decimal digits. -/
def digits? (cs : List Char) : Option Nat :=
  if cs.isEmpty then none
  else cs.foldlM (fun n c => if c.isDigit then some (10 * n + (c.toNat - 48)) else none) 0

def least : Int := -9223372036854775808

def greatest : Int := 9223372036854775807

/-- Bring an integer into range. -/
def clamp (n : Int) : Reading :=
  if n < least then .nearest least
  else if greatest < n then .nearest greatest
  else .exact n

def readInteger (s : String) : Reading :=
  match s.toList with
  | '-' :: cs => (digits? cs).elim .malformed fun n => clamp (-n)
  | '+' :: cs => (digits? cs).elim .malformed fun n => clamp n
  | cs => (digits? cs).elim .malformed fun n => clamp n

def isInteger (s : String) : Bool :=
  match readInteger s with
  | .exact _ => true
  | _ => false

/-- The integer that a text comes closest to, `0` if it is none. -/
def toIntegerOrZero (s : String) : Int :=
  match readInteger s with
  | .exact n | .nearest n => n
  | .malformed => 0

end Typecase.Text
