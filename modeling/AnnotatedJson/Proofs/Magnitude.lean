/-
  The numbers of a literal.

  An integer of more than 53 bits may be rounded when it is read, but up to 2^62 it stays an integer
  below 2^63, and its value is an integer too.

  * `Binary64.exists_toInt?_ofDecimal`: the double nearest to such an integer;
  * `Lexeme.Rule.integer`: a scanned number without a point and an exponent is a sign and digits;
  * `Literal.Measured`: the texts whose numbers keep their kind;
  * `Literal.Measured.kept`: a number of such a text is an integer iff it is written as one.
-/
import Mathlib
import AnnotatedJson.Proofs.Origins
import AnnotatedJson.Proofs.Rounding

namespace AnnotatedJson

namespace Binary64

/-- **An integer up to 2^62 is read as an integer below 2^63.** -/
theorem exists_toInt?_ofDecimal (negative : Bool) {n : Nat} (h : n ≤ 2 ^ 62) :
    ∃ v, (ofDecimal negative n 0).toInt? = some v ∧ v.natAbs < 2 ^ 63 := by
  obtain ⟨v, hint, hnear⟩ := toInt?_ofDecimal_nearest negative (h.trans (by norm_num))
  have habs : (if negative then -(v : Int) else (v : Int)).natAbs = v := by
    cases negative <;> simp
  have hlog : n.log2 < 63 := by
    by_cases h0 : n = 0
    · simp [h0]
    · exact (Nat.log2_lt h0).2 (by omega)
  have hunit : unit n ≤ 2 ^ 10 := Nat.pow_le_pow_right (by omega) (by omega)
  have hdist := hnear.near
  exact ⟨_, hint, by rw [habs]; omega⟩

end Binary64

/-! ## Numbers written as integers -/

namespace Cursor

open Text

/-- A sign and digits. -/
inductive Integer : Text → Prop
  | minus {ds} : (∀ c ∈ ds, isDigit c = true) → Integer ('-' :: ds)
  | plain {ds} : ds ≠ [] → (∀ c ∈ ds, isDigit c = true) → Integer ds

/-- The number that the digits after the sign write. -/
def magnitude (source : Text) : Nat := natOfDigits (signPart source).2

/-- **A sign and digits are read as the number they write.** -/
theorem readNumber?_integer {source : Text} (h : Integer source) :
    ∃ negative, readNumber? source = some (.ofDecimal negative (magnitude source) 0) := by
  rw [readNumber?_eq, magnitude]
  cases h with
  | minus hd => exact ⟨true, unsigned?_digits true hd⟩
  | plain hne hd =>
    obtain ⟨d, ds, rfl⟩ := List.exists_cons_of_ne_nil hne
    rw [signPart_digit (hd d List.mem_cons_self)]
    exact ⟨false, unsigned?_digits false hd⟩

theorem isIntegral_append (a b : Text) : isIntegral (a ++ b) = (isIntegral a && isIntegral b) := by
  simp [isIntegral]

theorem Fraction.eq_nil {cs : Text} (h : Fraction cs) (hi : isIntegral cs = true) : cs = [] := by
  cases h with
  | none => rfl
  | digits => simp [isIntegral] at hi

end Cursor

namespace Lexeme

open Text Cursor

theorem exponentPart_eq_nil {cs : Text} (hi : isIntegral (exponentPart cs).1 = true) :
    (exponentPart cs).1 = [] := by
  unfold exponentPart at hi ⊢
  split
  · next c rest =>
    dsimp only at hi ⊢
    split
    · next hc =>
      rw [if_pos hc] at hi
      rcases hc with rfl | rfl <;> simp [isIntegral] at hi
    · rfl
  · rfl

theorem number_integer {sign cs : Text} (hs : sign = [] ∨ sign = ['-'])
    (hc : cs.head?.any isDigit = true) (hi : isIntegral (number sign cs).1.value = true) :
    Integer (number sign cs).1.value := by
  have hv : (number sign cs).1.value = sign ++ ((integerPart cs).1 ++
      ((fractionPart (integerPart cs).2).1 ++
        (exponentPart (fractionPart (integerPart cs).2).2.2).1)) := by
    simp [number, plain]
  rw [hv] at hi ⊢
  simp only [isIntegral_append, Bool.and_eq_true] at hi
  rw [(fractionPart_fraction _).eq_nil hi.2.2.1, exponentPart_eq_nil hi.2.2.2]
  have hw := integerPart_digits cs
  simp only [List.append_nil]
  rcases hs with rfl | rfl
  · exact .plain (integerPart_ne_nil hc) hw
  · exact .minus hw

/-- A scanned number without a point and an exponent is a sign and digits. -/
theorem Rule.integer {c : Char} {cs : Text} {r : Lexeme × Text} (h : Rule c cs r)
    (hk : r.1.kind = .number) (hi : isIntegral r.1.value = true) : Integer r.1.value := by
  cases h with
  | single hs => exact absurd hk (single?_kind hs).2.2
  | string _ => simp at hk
  | blockComment _ _ => simp at hk
  | digits hd => exact number_integer (Or.inl rfl) hd hi
  | minus _ hd => exact number_integer (Or.inr rfl) hd hi
  | word =>
    rcases word_kind_cases c cs with h | h | h | h <;> rw [h] at hk <;> cases hk
  | lineComment _ _ => cases hk
  | slash _ => cases hk

end Lexeme

theorem Token.scan_integer {cs : Text} {t : Token} (ht : t ∈ Token.scan cs) (hk : t.kind = .number)
    (hi : Cursor.isIntegral t.value = true) : Cursor.Integer t.value := by
  obtain ⟨_, c, rest, r, _, hrule, _, hkind, hvalue⟩ :=
    (Token.scans_scan cs).exists_rule ht (by rw [hk]; simp)
  rw [hvalue] at hi ⊢
  exact hrule.integer (hkind.symm.trans hk) hi

/-! ## Numbers in a tree -/

namespace Cursor

/-- A number was written by the token at which it is read; one that cannot be read counts as zero. -/
theorem Reads.number {ctx : ParseContext} {p q : Cursor} {mark : Mark} {x : Binary64}
    {integral : Bool} (h : Reads ctx .value p [.atom mark (.number x integral)] q) :
    p.kind = .number ∧ integral = isIntegral p.current.value ∧
      x = (readNumber? p.current.value).getD (.zero false) := by
  cases h with
  | atom h =>
    unfold atom? at h
    split at h
    case h_2 hk =>
      split at h
      · next hx =>
        cases h
        exact ⟨hk, rfl, by rw [hx, Option.getD_some]⟩
      · next hx =>
        cases h
        exact ⟨hk, rfl, by rw [hx, Option.getD_none]⟩
    all_goals cases h

end Cursor

namespace Literal

/-- The tokens of the numbers in the literal of a text. -/
def numerals (cs : Text) (allow : Bool) : List Token :=
  (Token.scan cs).filter fun t =>
    t.kind = .number ∧ ∃ e ∈ (parse cs allow).arena, e.2.offset = t.span.start

/-- A text whose objects repeat no key and whose numbers keep their kind: they are finite, and those
    written as integers are at most 2^62 in size. -/
structure Measured (cs : Text) (allow : Bool) : Prop where
  keys : ∀ e ∈ (parse cs allow).arena, e.2.DistinctKeys
  finite : ∀ t ∈ numerals cs allow, (Cursor.readNumber? t.value).all Binary64.isFinite = true
  small : ∀ t ∈ numerals cs allow, Cursor.isIntegral t.value = true → Cursor.magnitude t.value ≤ 2 ^ 62

variable {cs : Text} {allow : Bool}

/-- A number of a measured text is finite, and an integer below 2^63 if it is written as one. -/
theorem Measured.number (h : Measured cs allow) {t : Token} (ht : t ∈ numerals cs allow) :
    ((Cursor.readNumber? t.value).getD (.zero false)).isFinite = true ∧
    (Cursor.isIntegral t.value = true →
      ∃ v, ((Cursor.readNumber? t.value).getD (.zero false)).toInt? = some v ∧ v.natAbs < 2 ^ 63) := by
  constructor
  · have hfinite := h.finite t ht
    cases hread : Cursor.readNumber? t.value with
    | none => rfl
    | some x => simpa [hread] using hfinite
  · intro hi
    obtain ⟨hscan, hk⟩ := List.mem_filter.1 ht
    have hinteger := Token.scan_integer hscan (of_decide_eq_true hk).1 hi
    obtain ⟨negative, hread⟩ := Cursor.readNumber?_integer hinteger
    rw [hread, Option.getD_some]
    exact Binary64.exists_toInt?_ofDecimal negative (h.small t ht hi)

/-- **A number of a measured text is an integer iff it is written as one.** -/
theorem Measured.kept (h : Measured cs allow) {e : Option Nat × Node} (he : e ∈ (parse cs allow).arena)
    {mark : Mark} {x : Binary64} {integral : Bool} (hn : e.2 = .atom mark (.number x integral)) :
    (∃ v, Node.numberJson x integral = .number (.int v) ∧ integral = true) ∨
      (Node.numberJson x integral = .number (.float x) ∧ integral = false) := by
  have horigin := parse_origin cs allow e he (by rw [hn]; rfl)
  cases horigin with
  | key hm => rw [hn] at hm; cases hm
  | @value p' q' hread hready hsuffix =>
    have hscan : p'.current ∈ Token.scan cs :=
      opening_subset cs allow (hsuffix.subset List.mem_cons_self)
    have hoffset : e.2.offset = p'.current.span.start := hread.value_offset
    rw [hn] at hread
    obtain ⟨hk, rfl, rfl⟩ := hread.number
    have ht : p'.current ∈ numerals cs allow :=
      List.mem_filter.2 ⟨hscan, decide_eq_true ⟨hk, e, he, hoffset⟩⟩
    obtain ⟨hfinite, hint⟩ := h.number ht
    cases hi : Cursor.isIntegral p'.current.value with
    | true =>
      obtain ⟨v, hv, hsmall⟩ := hint hi
      refine .inl ⟨v, ?_, rfl⟩
      simp only [Node.numberJson, hv]
      exact if_pos hsmall
    | false =>
      refine .inr ⟨?_, rfl⟩
      simp only [Node.numberJson]
      exact if_pos hfinite

end Literal

end AnnotatedJson
