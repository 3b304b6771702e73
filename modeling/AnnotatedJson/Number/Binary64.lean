/-
  Double-precision binary numbers, kept as sign, significand and exponent.

  Arithmetic is exact on fractions of naturals and rounds once, to the nearest
  double and on a tie to the even one.

  * `ofRatio` rounds a fraction, `ofDecimal` a decimal;
  * `toBits` is the 64-bit interchange form;
  * `toInt?` is the integer a double equals, if any.
-/

namespace AnnotatedJson

/-- A double: `± significand · 2 ^ exponent`, or an infinity.  The significand is
    below `2 ^ 53`, and at least `2 ^ 52` unless the exponent is the least one,
    `-1074`. -/
inductive Binary64 where
  | finite (negative : Bool) (significand : Nat) (exponent : Int)
  | infinite (negative : Bool)
deriving DecidableEq, Repr, Inhabited

namespace Binary64

/-- The least significand of full precision, `2 ^ 52`; the interchange form leaves
    its top bit out. -/
def hiddenBit : Nat := 0x10000000000000

/-- The place of the sign in the interchange form, `2 ^ 63`. -/
def signBit : Nat := 0x8000000000000000

/-- Zero with a sign. -/
def zero (negative : Bool) : Binary64 := .finite negative 0 (-1074)

/-- The quotient rounded to the nearest integer, a half going to the even one. -/
def roundDiv (num den : Nat) : Nat :=
  let q := num / den
  let r := num % den
  if den < 2 * r || (2 * r == den && q % 2 == 1) then q + 1 else q

/-- The fraction `num / (den · 2 ^ e)` as a numerator and a denominator. -/
def scale (num den : Nat) (e : Int) : Nat × Nat :=
  if 0 ≤ e then (num, den * Nat.pow 2 e.toNat) else (num * Nat.pow 2 (-e).toNat, den)

/-- The exponent that brings the fraction between `2 ^ 52` and `2 ^ 53`, but not
    below the least exponent. -/
def exponentOf (num den : Nat) : Int :=
  let guess : Int := (Nat.log2 num : Int) - (Nat.log2 den : Int) - 52
  -- The guess is right or one too large.
  let (n, d) := scale num den guess
  let e := if n < hiddenBit * d then guess - 1 else guess
  max e (-1074)

/-- The double nearest to `num / den`, for a denominator that is not zero. -/
def ofRatio (negative : Bool) (num den : Nat) : Binary64 :=
  if num = 0 then zero negative
  else
    let e := exponentOf num den
    let (n, d) := scale num den e
    let m := roundDiv n d
    let (m, e) := if m = 2 * hiddenBit then (hiddenBit, e + 1) else (m, e)
    if 971 < e then .infinite negative else .finite negative m e

/-- The number of decimal digits; zero has none. -/
def decimalLength (n : Nat) : Nat := if n = 0 then 0 else (Nat.toDigits 10 n).length

/-- The double nearest to `± digits · 10 ^ exponent`. -/
def ofDecimal (negative : Bool) (digits : Nat) (exponent : Int) : Binary64 :=
  -- The decimal exponent of the leading digit, plus one.
  let magnitude := exponent + decimalLength digits
  if digits = 0 || magnitude < -330 then zero negative
  else if 310 < magnitude then .infinite negative
  else if 0 ≤ exponent then ofRatio negative (digits * Nat.pow 10 exponent.toNat) 1
  else ofRatio negative digits (Nat.pow 10 (-exponent).toNat)

/-- The double nearest to an integer. -/
def ofInt (n : Int) : Binary64 := ofRatio (n < 0) n.natAbs 1

/-- The magnitude as a fraction, for a finite double. -/
def ratio (m : Nat) (e : Int) : Nat × Nat :=
  if 0 ≤ e then (m * Nat.pow 2 e.toNat, 1) else (m, Nat.pow 2 (-e).toNat)

/-- The product, rounded.  Only finite factors are multiplied. -/
def mul : Binary64 → Binary64 → Binary64
  | .finite s m e, .finite t n f =>
    let (a, b) := ratio m e
    let (c, d) := ratio n f
    ofRatio (s != t) (a * c) (b * d)
  | .infinite s, .finite t _ _ | .finite s _ _, .infinite t | .infinite s, .infinite t =>
    .infinite (s != t)

/-- The quotient, rounded.  Only finite numbers are divided, and not by zero. -/
def div : Binary64 → Binary64 → Binary64
  | .finite s m e, .finite t n f =>
    let (a, b) := ratio m e
    let (c, d) := ratio n f
    ofRatio (s != t) (a * d) (b * c)
  | .infinite s, .finite t _ _ | .infinite s, .infinite t => .infinite (s != t)
  | .finite s _ _, .infinite t => zero (s != t)

/-- The number with the opposite sign. -/
def neg : Binary64 → Binary64
  | .finite s m e => .finite (!s) m e
  | .infinite s => .infinite (!s)

/-- Whether the number is a zero of either sign. -/
def isZero : Binary64 → Bool
  | .finite _ m _ => m == 0
  | .infinite _ => false

/-- Whether the number is finite. -/
def isFinite : Binary64 → Bool
  | .finite .. => true
  | .infinite _ => false

/-- Numeric equality: zeros are equal whatever their signs. -/
def same (a b : Binary64) : Bool := a == b || (a.isZero && b.isZero)

/-- The integer that the number equals, if there is one. -/
def toInt? : Binary64 → Option Int
  | .finite s m e =>
    let (a, b) := ratio m e
    if a % b = 0 then some (if s then -((a / b : Nat) : Int) else ((a / b : Nat) : Int)) else none
  | .infinite _ => none

/-- The interchange form: sign, biased exponent and trailing significand. -/
def toBits : Binary64 → Nat
  | .finite s m e =>
    (if s then signBit else 0) +
      (if m < hiddenBit then m else (e + 1075).toNat * hiddenBit + (m - hiddenBit))
  | .infinite s => (if s then signBit else 0) + 2047 * hiddenBit

end Binary64

end AnnotatedJson
