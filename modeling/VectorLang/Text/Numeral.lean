/-!
# Decimal numerals

Integers are written in decimal with a leading minus sign where they are negative.
Numerals of more than `maxDigits` digits are neither read nor written; the arithmetic on
integers has no such bound.
-/

namespace VectorLang.Numeral

/-- The largest number of digits that a numeral may have, leading zeros included and the
    sign not counted. -/
def maxDigits : Nat := 4300

/-- The number that a row of digits denotes. -/
def ofDigits (digits : List Char) : Nat :=
  digits.foldl (fun n c => 10 * n + (c.toNat - '0'.toNat)) 0

/-- The digits of a numeral, without its sign. -/
def digits : List Char → List Char
  | '-' :: cs => cs
  | cs => cs

/-- The integer that a row of digits, with a minus sign or without, denotes. -/
def value : List Char → Int
  | '-' :: cs => -(ofDigits cs : Int)
  | cs => ofDigits cs

/-- Reads a numeral.  A numeral that is too long gives its number of digits. -/
def read (cs : List Char) : Except Nat Int :=
  if (digits cs).length ≤ maxDigits then .ok (value cs) else .error (digits cs).length

/-- The least natural number that has too many digits. -/
def bound : Nat := Nat.pow 10 maxDigits

/-- The decimal text of an integer, whatever its size. -/
def text : Int → String
  | .ofNat n => n.repr
  | .negSucc n => "-" ++ (n + 1).repr

/-- Writes an integer, unless it has too many digits. -/
def write? (z : Int) : Option String :=
  if z.natAbs < bound then some (text z) else none

/-- Digits with zeros in front, up to at least `width` of them. -/
def padded (width : Nat) (ds : List Char) : List Char :=
  List.replicate (width - ds.length) '0' ++ ds

/-- A number in hexadecimal, in at least `width` lower-case digits. -/
def hex (width n : Nat) : List Char :=
  padded width (Nat.toDigits 16 n)

end VectorLang.Numeral
