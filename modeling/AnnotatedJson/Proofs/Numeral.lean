/-
  Numbers that can be read.

  * `Cursor.readNumber?_isSome`: a numeral can be read, whatever its sign, fraction
    and exponent, if its exponent has digits;
  * `Token.Scans.readable`: a scanned number without a fault is such a numeral.
-/
import Mathlib
import AnnotatedJson.Literal.Parse
import AnnotatedJson.Proofs.Scan

namespace AnnotatedJson

namespace Text

/-- No digit comes first. -/
def NoDigit (cs : Text) : Prop := ∀ c ∈ cs.head?, isDigit c = false

theorem takeWhile_digits {ds rest : Text} (hd : ∀ c ∈ ds, isDigit c = true) (hr : NoDigit rest) :
    (ds ++ rest).takeWhile isDigit = ds := by
  rw [List.takeWhile_append_of_pos hd]
  cases rest with
  | nil => simp
  | cons c rest => simp [hr c rfl]

theorem dropWhile_digits {ds rest : Text} (hd : ∀ c ∈ ds, isDigit c = true) (hr : NoDigit rest) :
    (ds ++ rest).dropWhile isDigit = rest := by
  rw [List.dropWhile_append_of_pos hd]
  cases rest with
  | nil => simp
  | cons c rest => simp [hr c rfl]

theorem takeWhile_all_digits (cs : Text) : ∀ c ∈ cs.takeWhile isDigit, isDigit c = true :=
  fun _ h => List.mem_takeWhile_imp h

end Text

namespace Cursor

open Text

/-! ## The parts of a numeral -/

/-- The sign and what follows it. -/
def signPart : Text → Bool × Text
  | '-' :: rest => (true, rest)
  | rest => (false, rest)

/-- The digits after a point, and what follows them. -/
def pointPart : Text → Text × Text
  | '.' :: rest => (rest.takeWhile isDigit, rest.dropWhile isDigit)
  | rest => ([], rest)

/-- The sign of an exponent, and its digits. -/
def powerSign : Text → Bool × Text
  | '-' :: rest => (true, rest)
  | '+' :: rest => (false, rest)
  | rest => (false, rest)

/-- The exponent, if it has digits. -/
def power? : Text → Option Int
  | [] => some 0
  | _ :: rest =>
    if (powerSign rest).2.isEmpty then none
    else
      some (if (powerSign rest).1 then -(natOfDigits (powerSign rest).2 : Int)
        else (natOfDigits (powerSign rest).2 : Int))

/-- The number after its sign. -/
def unsigned? (negative : Bool) (cs : Text) : Option Binary64 :=
  (power? (pointPart (cs.dropWhile isDigit)).2).map fun e =>
    .ofDecimal negative (natOfDigits (cs.takeWhile isDigit ++ (pointPart (cs.dropWhile isDigit)).1))
      (e - ((pointPart (cs.dropWhile isDigit)).1.length : Int))

theorem readNumber?_eq (source : Text) :
    readNumber? source = unsigned? (signPart source).1 (signPart source).2 := rfl

theorem signPart_digit {c : Char} (h : isDigit c = true) (cs : Text) :
    signPart (c :: cs) = (false, c :: cs) := by
  unfold signPart
  split
  · next heq =>
    cases heq
    exact absurd h (by decide)
  · rfl

/-! ## Numerals -/

/-- The digits after a point, with the point. -/
inductive Fraction : Text → Prop
  | none : Fraction []
  | digits {ds} : (∀ c ∈ ds, isDigit c = true) → Fraction ('.' :: ds)

/-- An exponent that has digits. -/
inductive Power : Text → Prop
  | none : Power []
  | digits {c sign ds} : c = 'e' ∨ c = 'E' → sign = [] ∨ sign = ['+'] ∨ sign = ['-'] → ds ≠ [] →
      (∀ c ∈ ds, isDigit c = true) → Power (c :: sign ++ ds)

theorem Power.noDigit {cs : Text} (h : Power cs) : NoDigit cs := by
  cases h with
  | none => simp [NoDigit]
  | @digits c sign ds hc _ _ _ => rcases hc with rfl | rfl <;> simp [NoDigit] <;> decide

theorem Fraction.noDigit {cs power : Text} (h : Fraction cs) (hp : Power power) :
    NoDigit (cs ++ power) := by
  cases h with
  | none => exact hp.noDigit
  | digits _ => simp [NoDigit]; decide

/-- A numeral is a sign, digits, a fraction and an exponent. -/
inductive Numeral : Text → Prop
  | minus {whole fraction power} : (∀ c ∈ whole, isDigit c = true) → Fraction fraction → Power power →
      Numeral ('-' :: (whole ++ (fraction ++ power)))
  | plain {whole fraction power} : whole ≠ [] → (∀ c ∈ whole, isDigit c = true) → Fraction fraction →
      Power power → Numeral (whole ++ (fraction ++ power))

theorem Power.isSome {cs : Text} (h : Power cs) : (power? cs).isSome = true := by
  cases h with
  | none => rfl
  | @digits c sign ds _ hs hne hd =>
    have hsign : (powerSign (sign ++ ds)).2 = ds := by
      obtain ⟨d, ds, rfl⟩ := List.exists_cons_of_ne_nil hne
      have h1 := hd d (List.mem_cons_self ..)
      rcases hs with rfl | rfl | rfl
      · unfold powerSign
        split <;> simp_all
        all_goals revert h1; decide
      · rfl
      · rfl
    simp [power?, hsign, hne]

theorem Fraction.pointPart {cs power : Text} (h : Fraction cs) (hp : Power power) :
    (pointPart (cs ++ power)).2 = power := by
  cases h with
  | none =>
    cases hp with
    | none => rfl
    | digits hc _ _ _ => rcases hc with rfl | rfl <;> rfl
  | digits hd => exact dropWhile_digits hd hp.noDigit

theorem unsigned?_isSome {whole fraction power : Text} (negative : Bool)
    (hw : ∀ c ∈ whole, isDigit c = true) (hf : Fraction fraction) (hp : Power power) :
    (unsigned? negative (whole ++ (fraction ++ power))).isSome = true := by
  rw [unsigned?, Option.isSome_map, dropWhile_digits hw (hf.noDigit hp), hf.pointPart hp]
  exact hp.isSome

/-- **A numeral can be read.** -/
theorem readNumber?_isSome {cs : Text} (h : Numeral cs) : (readNumber? cs).isSome = true := by
  rw [readNumber?_eq]
  cases h with
  | minus hw hf hp => exact unsigned?_isSome true hw hf hp
  | @plain whole _ _ hne hw hf hp =>
    obtain ⟨d, ws, rfl⟩ := List.exists_cons_of_ne_nil hne
    rw [List.cons_append, signPart_digit (hw d (List.mem_cons_self ..))]
    exact unsigned?_isSome false hw hf hp

end Cursor

/-! ## Scanned numbers -/

namespace Lexeme

open Text Cursor

theorem integerPart_digits (cs : Text) : ∀ c ∈ (integerPart cs).1, isDigit c = true := by
  unfold integerPart
  split
  · simp; decide
  · exact takeWhile_all_digits _

theorem fractionPart_fraction (cs : Text) : Fraction (fractionPart cs).1 := by
  unfold fractionPart
  split
  · exact .digits (takeWhile_all_digits _)
  · exact .none

theorem exponentSign_cases (cs : Text) : (exponentSign cs).1 = [] ∨ (exponentSign cs).1 = ['+'] ∨
    (exponentSign cs).1 = ['-'] := by
  unfold exponentSign
  split <;> simp

theorem exponentPart_power {cs : Text} (h : (exponentPart cs).2.1 = false) :
    Power (exponentPart cs).1 := by
  unfold exponentPart at h ⊢
  split
  · next c rest =>
    dsimp only at h ⊢
    split
    · next hc =>
      rw [if_pos hc] at h
      exact .digits hc (exponentSign_cases rest) (by simpa using h) (takeWhile_all_digits _)
    · exact .none
  · exact .none

/-- A number without a fault is a numeral. -/
theorem number_numeral {sign cs : Text} (hs : sign = [] ∨ sign = ['-'])
    (hc : cs.head?.any isDigit = true) (h : (number sign cs).1.fault = none) :
    Numeral (number sign cs).1.value := by
  have hp : Power (exponentPart (fractionPart (integerPart cs).2).2.2).1 := by
    refine exponentPart_power ?_
    simp only [number, ite_eq_right_iff, reduceCtorEq, imp_false, Bool.or_eq_true, not_or,
      Bool.not_eq_true] at h
    exact h.2
  have hv : (number sign cs).1.value = sign ++ ((integerPart cs).1 ++
      ((fractionPart (integerPart cs).2).1 ++
        (exponentPart (fractionPart (integerPart cs).2).2.2).1)) := by
    simp [number, plain]
  have hw := integerPart_digits cs
  have hf := fractionPart_fraction (integerPart cs).2
  rcases hs with rfl | rfl
  · rw [hv, List.nil_append]
    exact .plain (integerPart_ne_nil hc) hw hf hp
  · rw [hv, List.cons_append, List.nil_append]
    exact .minus hw hf hp

theorem Rule.numeral {c : Char} {cs : Text} {r : Lexeme × Text} (h : Rule c cs r)
    (hk : r.1.kind = .number) (hf : r.1.fault = none) : Numeral r.1.value := by
  cases h with
  | single hs => exact absurd hk (single?_kind hs).2.2
  | string _ => simp at hk
  | blockComment _ _ => simp at hk
  | digits hd => exact number_numeral (Or.inl rfl) hd hf
  | minus _ hd => exact number_numeral (Or.inr rfl) hd hf
  | word =>
    rcases word_kind_cases c cs with h | h | h | h <;> rw [h] at hk <;> cases hk
  | lineComment _ _ => cases hk
  | slash _ => cases hk

end Lexeme

/-- **A scanned number without a fault can be read.** -/
theorem Token.Scans.readable {seen cs : Text} {ts : List Token} (h : Scans seen cs ts) :
    ∀ t ∈ ts, t.kind = .number → t.fault = none → (Cursor.readNumber? t.value).isSome = true := by
  induction h with
  | eof _ =>
    intro t ht hk
    rw [List.mem_singleton.1 ht] at hk
    cases hk
  | token _ _ _ ih =>
    intro t ht hk hf
    rcases List.mem_cons.1 ht with rfl | ht
    · exact Cursor.readNumber?_isSome ((Lexeme.rule_read _ _).numeral hk hf)
    · exact ih t ht hk hf

end AnnotatedJson
