/-
  The shortest decimal that names a double.

  The decimals that round to a double form an interval.  For one digit, two
  digits and so on up to seventeen, the two decimals of that many digits next
  to the double are tried; the first length at which one lies in the interval
  wins, and of two the nearer.

  * `Shortest.decimal` finds digits and exponent;
  * `DecimalLayout` says how a decimal is laid out, and `Binary64.text?` writes
    a double with it.
-/
import AnnotatedJson.Number.Binary64

namespace AnnotatedJson

/-- A positive decimal: the digits as a natural number, and the exponent of the
    last digit. -/
structure Decimal where
  digits : Nat
  exponent : Int
deriving DecidableEq, Repr, Inhabited

namespace Shortest

/-- The ends of the interval of reals that round to `m · 2 ^ e`, all as
    fractions over one denominator, with the number itself in the middle. -/
structure Interval where
  low : Nat
  value : Nat
  high : Nat
  den : Nat
  /-- The ends belong to the interval. -/
  closed : Bool

/-- The rounding interval of a positive finite double.  Below a power of two
    the doubles are twice as dense. -/
def interval (m : Nat) (e : Int) : Interval :=
  let up := Nat.pow 2 e.toNat
  let den := 4 * Nat.pow 2 (-e).toNat
  let low := if m = Binary64.hiddenBit ∧ -1074 < e then 4 * m - 1 else 4 * m - 2
  ⟨low * up, 4 * m * up, (4 * m + 2) * up, den, m % 2 = 0⟩

/-- The fraction over `10 ^ k`, as a numerator and a denominator. -/
def overPower (num den : Nat) (k : Int) : Nat × Nat :=
  if 0 ≤ k then (num, den * Nat.pow 10 k.toNat) else (num * Nat.pow 10 (-k).toNat, den)

/-- The decimal exponent of the leading digit of `num / den < 1`, negated: the
    least `j` with `1 ≤ num · 10 ^ j / den`. -/
def leadingBelowOne (den : Nat) : Nat → Nat → Nat → Nat
  | 0, _, j => j
  | fuel + 1, num, j => if den ≤ num then j else leadingBelowOne den fuel (num * 10) (j + 1)

/-- The decimal exponent of the leading digit of a positive fraction. -/
def leadingExponent (num den : Nat) : Int :=
  if den ≤ num then (Binary64.decimalLength (num / den) : Int) - 1
  else -((leadingBelowOne den 400 num 0 : Nat) : Int)

/-- Whether `d · 10 ^ k` lies in the interval. -/
def Interval.holds (i : Interval) (d : Nat) (k : Int) : Bool :=
  let (low, den) := overPower i.low i.den k
  let (high, _) := overPower i.high i.den k
  if i.closed then low ≤ d * den && d * den ≤ high else low < d * den && d * den < high

/-- The best decimal with last digit at `10 ^ k`, if one names the number: the
    nearer of the two neighbours that do, an even digit on a tie. -/
def Interval.candidate? (i : Interval) (k : Int) : Option Nat :=
  let (value, den) := overPower i.value i.den k
  let d := value / den
  let r := value % den
  match i.holds d k, i.holds (d + 1) k with
  | true, true =>
    if 2 * r < den || (2 * r == den && d % 2 == 0) then some d else some (d + 1)
  | true, false => some d
  | false, true => some (d + 1)
  | false, false => none

/-- The first decimal found when going to more and more digits. -/
def Interval.search (i : Interval) : Nat → Int → Decimal
  | 0, k => ⟨i.value / i.den, k⟩
  | fuel + 1, k =>
    match i.candidate? k with
    | some d => ⟨d, k⟩
    | none => i.search fuel (k - 1)

/-- The decimal without its trailing zeros. -/
def dropZeros : Nat → Decimal → Decimal
  | 0, d => d
  | fuel + 1, d =>
    if d.digits ≠ 0 ∧ d.digits % 10 = 0 then dropZeros fuel ⟨d.digits / 10, d.exponent + 1⟩ else d

/-- The shortest decimal that names the positive double `m · 2 ^ e`. -/
def decimal (m : Nat) (e : Int) : Decimal :=
  let i := interval m e
  dropZeros 20 (i.search 18 (leadingExponent i.value i.den))

end Shortest

/-- How a decimal is laid out. -/
structure DecimalLayout where
  /-- The least exponent of the leading digit that is written without an
      exponent part. -/
  least : Int
  /-- The greatest such exponent. -/
  greatest : Int
  /-- The sign in front of an exponent that is not negative. -/
  plus : String
deriving Repr

/-- Doubles are written plainly from `1e-5` to below `1e16`, and with a signed
    exponent otherwise. -/
def DecimalLayout.json : DecimalLayout := ⟨-5, 15, "+"⟩

/-- The decimal as text, laid out as told.  A plain number always has a
    fractional part. -/
def Decimal.text (layout : DecimalLayout) (d : Decimal) : List Char :=
  let ds := Nat.toDigits 10 d.digits
  let lead := d.exponent + (ds.length : Int) - 1
  if layout.least ≤ lead ∧ lead ≤ layout.greatest then
    if 0 ≤ d.exponent then ds ++ List.replicate d.exponent.toNat '0' ++ ['.', '0']
    else if 0 ≤ lead then ds.take (lead + 1).toNat ++ '.' :: ds.drop (lead + 1).toNat
    else '0' :: '.' :: List.replicate (-lead - 1).toNat '0' ++ ds
  else
    let fraction := if ds.length = 1 then [] else '.' :: ds.drop 1
    let power := Nat.toDigits 10 lead.natAbs
    ds.take 1 ++ fraction ++ 'e' :: (if lead < 0 then ['-'] else layout.plus.toList) ++ power

/-- The text of a finite double; an infinity has none. -/
def Binary64.text? : Binary64 → Option (List Char)
  | .finite s m e =>
    let sign := if s then ['-'] else []
    if m = 0 then some (sign ++ ['0', '.', '0'])
    else some (sign ++ (Shortest.decimal m e).text .json)
  | .infinite _ => none

end AnnotatedJson
