/-!
Numbers with a binary point and 53 significant bits.

Each is a multiple of `2 ^ -1074`, so a number is kept as the count of these
units, and the exact product or quotient of two numbers is a quotient of whole
numbers.  It is rounded once, to the nearest number with 53 bits.
-/

namespace ScriptOutline

/-- The quotient rounded to the nearest whole number, halves to the even one. -/
def roundDiv (n d : Nat) : Nat :=
  if 2 * (n % d) < d || (2 * (n % d) == d && n / d % 2 == 0) then n / d else n / d + 1

/-- The rounded quotient is at most half the divisor away. -/
theorem roundDiv_near (n : Nat) {d : Nat} (h : 0 < d) :
    2 * n ≤ 2 * (d * roundDiv n d) + d ∧ 2 * (d * roundDiv n d) ≤ 2 * n + d := by
  have hdiv := Nat.div_add_mod n d
  have hmod := Nat.mod_lt n h
  unfold roundDiv
  split
  · next hr =>
    simp only [Bool.or_eq_true, decide_eq_true_eq, Bool.and_eq_true, beq_iff_eq] at hr
    omega
  · next hr =>
    simp only [Bool.or_eq_true, decide_eq_true_eq, not_or] at hr
    rw [Nat.mul_add, Nat.mul_one]
    omega

/-- What has no remainder stays. -/
theorem roundDiv_mul_right (n : Nat) {d : Nat} (h : 0 < d) : roundDiv (n * d) d = n := by
  simp [roundDiv, Nat.mul_mod_left, Nat.mul_div_cancel n h, h]

/-- The size of a number, in units of `2 ^ -1074`. -/
structure Binary64 where
  units : Nat
deriving DecidableEq, Repr

namespace Binary64

def one : Nat := Nat.pow 2 1074

/-- The distance of the numbers of the size of `units`. -/
def spacing (units : Nat) : Nat := Nat.pow 2 (units.log2 - 52)

def nearest (n d : Nat) : Binary64 :=
  let step := spacing (n * one / d)
  { units := roundDiv (n * one) (d * step) * step }

def ofNat (n : Nat) : Binary64 := nearest n 1

def mul (x y : Binary64) : Binary64 := nearest (x.units * y.units) (one * one)

def div (x y : Binary64) : Binary64 := nearest x.units y.units

def isZero (x : Binary64) : Bool := x.units == 0

/-- Numbers end below `2 ^ 1024`. -/
def isFinite (x : Binary64) : Bool := x.units < Nat.pow 2 1024 * one

/-- Powers of ten are finite up to this one. -/
def maxPower : Nat := 308

def powerOfTen (k : Nat) : Binary64 := ofNat (Nat.pow 10 k)

/-- A number divided by a power of ten, in as many steps as powers of ten are
needed. -/
def scaleDown (x : Binary64) (k : Nat) : Binary64 :=
  if k ≤ maxPower then x.div (powerOfTen k)
  else if x.isZero then x
  else scaleDown (x.div (powerOfTen maxPower)) (k - maxPower)
termination_by k
decreasing_by
  simp only [maxPower] at *
  omega

/-- A number times a power of ten, unless that is too large. -/
def scaleUp? (x : Binary64) (k : Nat) : Option Binary64 :=
  if k ≤ maxPower then
    let y := x.mul (powerOfTen k)
    if y.isFinite then some y else none
  else if x.isZero then some x
  else none

/-- `digits · 10 ^ exponent`, rounded first to a number and then by each scaling. -/
def ofScientific? (digits : Nat) : Int → Option Binary64
  | .ofNat k => (ofNat digits).scaleUp? k
  | .negSucc k => some ((ofNat digits).scaleDown (k + 1))

end Binary64

end ScriptOutline
