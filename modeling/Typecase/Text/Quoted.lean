set_option autoImplicit false

/-!
# Quoted text

Text between double quotes, with escapes for the quote, the backslash and everything
that is not printable.
-/

namespace Typecase.Text

/-- Ranges of characters that are not printable, in ascending order. -/
def hiddenRanges : List (Nat × Nat) := [
  (0x00, 0x1F), (0x7F, 0xA0), (0xAD, 0xAD), (0x600, 0x605), (0x61C, 0x61C), (0x6DD, 0x6DD),
  (0x70F, 0x70F), (0x890, 0x891), (0x8E2, 0x8E2), (0x1680, 0x1680), (0x180E, 0x180E),
  (0x2000, 0x200F), (0x2028, 0x202F), (0x205F, 0x206F), (0x3000, 0x3000), (0xD800, 0xF8FF),
  (0xFEFF, 0xFEFF), (0xFFF0, 0xFFFB), (0xFFFE, 0xFFFF), (0x110BD, 0x110BD), (0x110CD, 0x110CD),
  (0x13430, 0x1343F), (0x1BCA0, 0x1BCA3), (0x1D173, 0x1D17A), (0xE0000, 0xE00FF),
  (0xE01F0, 0x10FFFF)]

/-- Letters, marks, numbers, punctuation and symbols are printable, and so is the blank. -/
def isPrintable (c : Char) : Bool :=
  !hiddenRanges.any fun r => r.1 ≤ c.toNat && c.toNat ≤ r.2

/-- A hexadecimal digit in lower case. -/
def hexDigit (n : Nat) : Char := (Nat.toDigits 16 (n % 16)).headD '0'

/-- The number `n` in `width` hexadecimal digits. -/
def hex : (width : Nat) → (n : Nat) → List Char
  | 0, _ => []
  | width + 1, n => hex width (n / 16) ++ [hexDigit n]

def escapeChar (c : Char) : List Char :=
  match c with
  | '"' => ['\\', '"']
  | '\\' => ['\\', '\\']
  | '\x07' => ['\\', 'a']
  | '\x08' => ['\\', 'b']
  | '\x0c' => ['\\', 'f']
  | '\n' => ['\\', 'n']
  | '\r' => ['\\', 'r']
  | '\t' => ['\\', 't']
  | '\x0b' => ['\\', 'v']
  | c =>
    if isPrintable c then [c]
    else if c.toNat < 0x80 then '\\' :: 'x' :: hex 2 c.toNat
    else if c.toNat < 0x10000 then '\\' :: 'u' :: hex 4 c.toNat
    else '\\' :: 'U' :: hex 8 c.toNat

def quote (s : String) : String :=
  String.ofList ('"' :: s.toList.flatMap escapeChar ++ ['"'])

end Typecase.Text
