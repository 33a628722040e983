import ScriptOutline.Number.Binary64

/-!
Numbers written in decimal: with the fewest digits that read back as the same
number, and of these the nearest ones.
-/

namespace ScriptOutline

/-- The number `digits · 10 ^ exponent`. -/
structure Decimal where
  digits : Nat
  exponent : Int
deriving DecidableEq, Repr

namespace Decimal

/-- The nearest number with 53 bits. -/
def toBinary64 (d : Decimal) : Binary64 :=
  match d.exponent with
  | .ofNat k => Binary64.nearest (d.digits * Nat.pow 10 k) 1
  | .negSucc k => Binary64.nearest d.digits (Nat.pow 10 (k + 1))

end Decimal

namespace Binary64

/-- Steps of `10 ^ -324` are finer than any two numbers are apart. -/
def finest : Nat := 324

/-- The decimals next to a number in steps of `10 ^ (place - finest)`, the
nearest first. -/
def neighbours (x : Binary64) (place : Nat) : List Decimal :=
  let n := x.units * Nat.pow 10 finest
  let d := one * Nat.pow 10 place
  [roundDiv n d, n / d, n / d + 1].map fun digits =>
    { digits, exponent := (place : Int) - (finest : Int) }

/-- The nearest decimal that reads back, if one in these steps does. -/
def decimalAt? (x : Binary64) (place : Nat) : Option Decimal :=
  (x.neighbours place).find? (·.toBinary64 == x)

theorem toBinary64_of_decimalAt? {x : Binary64} {place : Nat} {d : Decimal}
    (h : x.decimalAt? place = some d) : d.toBinary64 = x := by
  simpa using List.find?_some h

/-- The places of a number in steps of `10 ^ -finest`. -/
def places (x : Binary64) : Nat := (Nat.toDigits 10 (x.units * Nat.pow 10 finest / one)).length

def maxDigits : Nat := 17

def shortest (x : Binary64) : Decimal :=
  (((List.range maxDigits).map (x.places - 1 - ·)).findSome? x.decimalAt?).getD
    { digits := x.units * Nat.pow 10 finest / one, exponent := -(finest : Int) }

end Binary64

namespace Decimal

/-- The digits up to the last one that is not zero. -/
def significant (d : Decimal) : List Char :=
  ((Nat.toDigits 10 d.digits).reverse.dropWhile (· == '0')).reverse

/-- The exponent of the first digit. -/
def leading (d : Decimal) : Int := d.exponent + (Nat.toDigits 10 d.digits).length - 1

/-- Digits with a point behind the first `whole`, and at least one digit behind
the point. -/
def pointed (digits : List Char) (whole : Nat) : List Char :=
  let after := digits.drop whole
  (digits.take whole).rightpad whole '0' ++ '.' :: (if after.isEmpty then ['0'] else after)

/-- Digits with a point in front and zeros between. -/
def pointedBefore (digits : List Char) (zeros : Nat) : List Char :=
  ['0', '.'] ++ List.replicate zeros '0' ++ digits

/-- One digit in front of the point, if more follow, and the exponent with its
sign. -/
def scientific (digits : List Char) (exponent : Int) : List Char :=
  let mantissa := if digits.length ≤ 1 then digits else pointed digits 1
  let sign := if exponent < 0 then '-' else '+'
  mantissa ++ 'e' :: sign :: Nat.toDigits 10 exponent.natAbs

/-- From a hundred thousandth up to `10 ^ 16` a decimal is written with a point,
otherwise with an exponent. -/
def text (d : Decimal) : String :=
  String.ofList <|
    if d.digits == 0 then ['0', '.', '0']
    else if d.leading < -5 || 16 ≤ d.leading then scientific d.significant d.leading
    else if d.leading < 0 then pointedBefore d.significant (d.leading.natAbs - 1)
    else pointed d.significant (d.leading.toNat + 1)

end Decimal

def Binary64.text (x : Binary64) : String := x.shortest.text

end ScriptOutline
