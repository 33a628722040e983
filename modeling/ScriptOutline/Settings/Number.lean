import ScriptOutline.Settings.Fault

/-!
Numbers in the text of settings.  No setting is a number, but the text may hold
one, and then its value is told.
-/

namespace ScriptOutline

/-- A number as it is written, without its sign. -/
structure WrittenNumber where
  whole : List Char
  /-- The digits behind a point. -/
  fraction : List Char := []
  exponent : Int := 0
  /-- There is neither a point nor an exponent. -/
  isWhole : Bool := true
deriving Repr

namespace WrittenNumber

open Text

def someDigits (cs : List Char) : Except SettingsFault (List Char × List Char) :=
  match cs with
  | [] => .error .ended
  | c :: _ => if isDigit c then .ok (cs.span isDigit) else .error .malformed

def digitValue (c : Char) : Nat := c.toNat - '0'.toNat

def decimalNumber (digits : List Char) : Nat := digits.foldl (fun n c => 10 * n + digitValue c) 0

def exponentRest (cs : List Char) : Except SettingsFault Int :=
  match cs with
  | '-' :: rest => do return -(decimalNumber (← someDigits rest).1 : Int)
  | '+' :: rest => do return decimalNumber (← someDigits rest).1
  | _ => do return decimalNumber (← someDigits cs).1

def isExponentLetter (c : Char) : Bool := c == 'e' || c == 'E'

/-- The exponent, if one follows the digits of `w`. -/
def withExponent (w : WrittenNumber) (cs : List Char) : Except SettingsFault WrittenNumber :=
  match cs with
  | [] => .ok w
  | c :: rest =>
    if isExponentLetter c then do
      return { w with exponent := ← exponentRest rest, isWhole := false }
    else .ok w

/-- The digits behind a point, if a point follows the digits of `w`, and then
the exponent. -/
def withFraction (w : WrittenNumber) (cs : List Char) : Except SettingsFault WrittenNumber :=
  match cs with
  | '.' :: rest => do
    let (digits, rest) ← someDigits rest
    withExponent { w with fraction := digits, isWhole := false } rest
  | _ => w.withExponent cs

/-- Only zero begins with a zero. -/
def written (cs : List Char) : Except SettingsFault WrittenNumber := do
  let (digits, rest) ← someDigits cs
  if digits.head? == some '0' && 1 < digits.length then .error .malformed
  else withFraction { whole := digits } rest

/-- Append digits to a number as long as it has 64 bits.  The digits from the
first that does not fit are left. -/
def absorb (n : Nat) : List Char → Nat × List Char
  | [] => (n, [])
  | c :: cs =>
    let m := 10 * n + digitValue c
    if m < Nat.pow 2 64 then absorb m cs else (n, c :: cs)

theorem absorb_lt {n : Nat} (h : n < Nat.pow 2 64) (cs : List Char) : (absorb n cs).1 < Nat.pow 2 64 := by
  induction cs generalizing n with
  | nil => exact h
  | cons c cs ih =>
    unfold absorb
    dsimp only
    split
    · next hm => exact ih hm
    · exact h

/-- The first digits as a whole number of 64 bits, and the power of ten that
belongs to it.  A digit of the whole part that is left counts as a zero. -/
def scientific (w : WrittenNumber) : Nat × Int :=
  let (n, zeros) := absorb 0 w.whole
  let (m, dropped) := absorb n w.fraction
  (m, zeros.length - (w.fraction.length - dropped.length : Nat) + w.exponent)

/-- The value as a whole number, if it is one of 64 bits. -/
def integer? (w : WrittenNumber) (negative : Bool) : Option Int :=
  let n := decimalNumber w.whole
  if !w.isWhole then none
  else if negative then (if 0 < n && n ≤ Nat.pow 2 63 then some (-(n : Int)) else none)
  else if n < Nat.pow 2 64 then some n
  else none

/-- The value; a number may be too large to have one. -/
def value? (w : WrittenNumber) (negative : Bool) : Option JsonValue :=
  match w.integer? negative with
  | some n => some (.integer n)
  | none => (Binary64.ofScientific? w.scientific.1 w.scientific.2).map (.real negative)

def read (negative : Bool) (cs : List Char) : Except SettingsFault JsonValue := do
  match (← written cs).value? negative with
  | some value => return value
  | none => .error .malformed

end WrittenNumber

end ScriptOutline
