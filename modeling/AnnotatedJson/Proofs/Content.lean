/-
  What tokens stand for.

  * `Binary64.toInt?_ofRatio`: an integer of at most 53 bits is its own double;
  * `Cursor.readNumber?_decimal`: such an integer, written in digits, is read as itself;
  * `Lexeme.Decodes` says what the text between two quotes stands for, and
    `Lexeme.string_decodes` that scanning finds it;
  * `Token.value_eq_source`, `Token.value_eq_content`: what a token of a text holds, told
    from the text it covers.
-/
import Mathlib
import AnnotatedJson.Literal.Path
import AnnotatedJson.Proofs.Numeral

namespace AnnotatedJson

namespace Binary64

/-! ## Integers as doubles -/

theorem scale_neg (num den k : Nat) : scale num den (-(k : Int)) = (num * 2 ^ k, den) := by
  unfold scale
  split
  · have hk : k = 0 := by omega
    subst hk
    simp
  · simp

theorem ratio_neg (m k : Nat) : ratio m (-(k : Int)) = (m, 2 ^ k) := by
  unfold ratio
  split
  · have hk : k = 0 := by omega
    subst hk
    simp
  · simp

theorem toInt?_zero (negative : Bool) : (zero negative).toInt? = some 0 := by
  show toInt? (.finite negative 0 (-((1074 : Nat) : Int))) = some 0
  simp only [toInt?, ratio_neg, Nat.zero_mod, Nat.zero_div, if_true]
  cases negative <;> rfl

theorem roundDiv_one (n : Nat) : roundDiv n 1 = n := by simp [roundDiv, Nat.mod_one]

/-- The exponent brings a smaller integer up to 53 bits. -/
theorem exponentOf_one {n : Nat} (h0 : n ≠ 0) (h : n < 2 ^ 53) :
    exponentOf n 1 = -((52 - n.log2 : Nat) : Int) := by
  have hlog : n.log2 < 53 := (Nat.log2_lt h0).2 h
  have hguess : (n.log2 : Int) - (Nat.log2 1 : Int) - 52 = -((52 - n.log2 : Nat) : Int) := by
    have : Nat.log2 1 = 0 := rfl
    omega
  have hfull : ¬ n * 2 ^ (52 - n.log2) < hiddenBit * 1 := by
    have hle : 2 ^ n.log2 * 2 ^ (52 - n.log2) ≤ n * 2 ^ (52 - n.log2) :=
      Nat.mul_le_mul_right _ (Nat.log2_self_le h0)
    rw [← Nat.pow_add, Nat.add_sub_cancel' (by omega)] at hle
    simpa [hiddenBit] using hle
  unfold exponentOf
  dsimp only
  rw [hguess, scale_neg, if_neg hfull]
  omega

/-- **An integer of at most 53 bits is its own double.** -/
theorem toInt?_ofRatio (negative : Bool) {n : Nat} (h : n ≤ 2 ^ 53) :
    (ofRatio negative n 1).toInt? = some (if negative then -(n : Int) else n) := by
  rcases Nat.eq_zero_or_pos n with rfl | hpos
  · rw [ofRatio, if_pos rfl, toInt?_zero]
    cases negative <;> rfl
  have h0 : n ≠ 0 := hpos.ne'
  rcases h.eq_or_lt with rfl | hlt
  · cases negative <;> rfl
  have hsmall : n * 2 ^ (52 - n.log2) ≠ 2 * hiddenBit := by
    have hlog : n.log2 < 53 := (Nat.log2_lt h0).2 hlt
    have hup : n * 2 ^ (52 - n.log2) < 2 ^ (n.log2 + 1) * 2 ^ (52 - n.log2) :=
      Nat.mul_lt_mul_of_pos_right Nat.lt_log2_self (by positivity)
    rw [← Nat.pow_add, show n.log2 + 1 + (52 - n.log2) = 53 by omega] at hup
    exact (hup.trans_eq rfl).ne
  have hfinite : ¬ (971 : Int) < -((52 - n.log2 : Nat) : Int) := by omega
  simp only [ofRatio, if_neg h0, exponentOf_one h0 hlt, scale_neg, roundDiv_one, if_neg hsmall,
    if_neg hfinite, toInt?, ratio_neg, Nat.mul_mod_left, if_true,
    Nat.mul_div_cancel _ (Nat.two_pow_pos _)]

theorem ofDecimal_eq_ofRatio (negative : Bool) {n : Nat} (h : n ≤ 2 ^ 64) :
    ofDecimal negative n 0 = ofRatio negative n 1 := by
  have hlen : decimalLength n ≤ 20 := by
    unfold decimalLength
    split
    · omega
    · refine (Nat.length_toDigits_le_iff (by omega) (by omega)).2 (h.trans_lt (by norm_num))
  unfold ofDecimal
  dsimp only
  rcases Nat.eq_zero_or_pos n with rfl | hpos
  · rfl
  · rw [if_neg (by simp; omega), if_neg (by omega), if_pos le_rfl]
    simp

end Binary64

/-! ## Integers in digits -/

namespace Text

/-- The digits of an integer, after a minus sign if it is negative. -/
def decimal (n : Int) : Text :=
  if n < 0 then '-' :: Nat.toDigits 10 n.natAbs else Nat.toDigits 10 n.natAbs

theorem natOfDigits_toDigits (n : Nat) : natOfDigits (Nat.toDigits 10 n) = n := by
  have h := @Nat.ofDigitChars_ten_toDigits n
  rw [Nat.ofDigitChars_eq_foldl] at h
  simp only [Nat.mul_comm 10] at h
  exact h

theorem isDigit_toDigits (n : Nat) : ∀ c ∈ Nat.toDigits 10 n, isDigit c = true := by
  intro c hc
  have h := Nat.isDigit_of_mem_toDigits (by omega) (by omega) hc
  simpa [Char.isDigit, isDigit, Char.le_def] using h

end Text

namespace Cursor

open Text

theorem unsigned?_digits (negative : Bool) {ds : Text} (hd : ∀ c ∈ ds, isDigit c = true) :
    unsigned? negative ds = some (.ofDecimal negative (natOfDigits ds) 0) := by
  have hnone : NoDigit [] := by simp [NoDigit]
  have htake := takeWhile_digits hd hnone
  have hdrop := dropWhile_digits hd hnone
  rw [List.append_nil] at htake hdrop
  rw [unsigned?, htake, hdrop]
  simp [pointPart, power?]

theorem unsigned?_toDigits (negative : Bool) (n : Nat) :
    unsigned? negative (Nat.toDigits 10 n) = some (.ofDecimal negative n 0) := by
  rw [unsigned?_digits negative (isDigit_toDigits n), natOfDigits_toDigits]

theorem readNumber?_decimal (n : Int) :
    readNumber? (decimal n) = some (.ofDecimal (decide (n < 0)) n.natAbs 0) := by
  rw [readNumber?_eq]
  unfold decimal
  split
  · next hn => simpa [signPart, hn] using unsigned?_toDigits true n.natAbs
  · next hn =>
    obtain ⟨d, ds, hds⟩ := List.exists_cons_of_ne_nil (Nat.toDigits_ne_nil (n := n.natAbs) (b := 10))
    have hd : isDigit d = true := isDigit_toDigits n.natAbs d (hds ▸ List.mem_cons_self ..)
    have hsign : signPart (Nat.toDigits 10 n.natAbs) = (false, Nat.toDigits 10 n.natAbs) := by
      rw [hds]
      exact signPart_digit hd ds
    rw [hsign]
    simpa [hn] using unsigned?_toDigits false n.natAbs

theorem isIntegral_decimal (n : Int) : isIntegral (decimal n) = true := by
  have hdigits : ∀ c ∈ Nat.toDigits 10 n.natAbs, ¬ ((c = '.' ∨ c = 'e') ∨ c = 'E') := by
    intro c hc h
    have := isDigit_toDigits _ c hc
    rcases h with (rfl | rfl) | rfl <;> revert this <;> decide
  unfold isIntegral decimal
  split <;> simpa using hdigits

/-- **An integer of at most 53 bits is read as itself.** -/
theorem numberJson_decimal {n : Int} (h : n.natAbs ≤ 2 ^ 53) :
    Node.numberJson (.ofDecimal (decide (n < 0)) n.natAbs 0) true = .number (.int n) := by
  have hint : (Binary64.ofDecimal (decide (n < 0)) n.natAbs 0).toInt? = some n := by
    rw [Binary64.ofDecimal_eq_ofRatio _ (h.trans (by norm_num)), Binary64.toInt?_ofRatio _ h]
    congr 1
    split <;> rw [decide_eq_true_eq] at * <;> omega
  simp only [Node.numberJson, hint]
  rw [if_pos (h.trans_lt (by norm_num))]

end Cursor

/-! ## Strings -/

namespace Lexeme

/-- The letters that may follow a backslash, and the characters they stand for. -/
def escapes : List (Char × Char) :=
  [('"', '"'), ('\\', '\\'), ('/', '/'), ('b', Char.ofNat 8), ('f', Char.ofNat 12), ('n', '\n'),
    ('r', '\r'), ('t', '\t')]

/-- What the text between two quotes stands for.  The code of a Unicode escape is no
    surrogate. -/
inductive Decodes : Text → Text → Prop
  | nil : Decodes [] []
  | char {c cs content} : c ≠ '"' → c ≠ '\\' → (Text.isControl c = true → c = '\t') →
      Decodes cs content → Decodes (c :: cs) (c :: content)
  | escape {c e cs content} : (c, e) ∈ escapes → Decodes cs content →
      Decodes ('\\' :: c :: cs) (e :: content)
  | unicode {a b c d w x y z code cs content} : Text.hexValue? a = some w → Text.hexValue? b = some x →
      Text.hexValue? c = some y → Text.hexValue? d = some z →
      code = ((w * 16 + x) * 16 + y) * 16 + z → code < 0xD800 ∨ 0xDFFF < code → Decodes cs content →
      Decodes ('\\' :: 'u' :: a :: b :: c :: d :: cs) (Char.ofNat code :: content)

theorem simpleEscape?_of_mem {c e : Char} (h : (c, e) ∈ escapes) :
    simpleEscape? c = some e ∧ c ≠ 'u' := by
  simp only [escapes, List.mem_cons, Prod.mk.injEq, List.not_mem_nil, or_false] at h
  rcases h with ⟨rfl, rfl⟩ | ⟨rfl, rfl⟩ | ⟨rfl, rfl⟩ | ⟨rfl, rfl⟩ | ⟨rfl, rfl⟩ | ⟨rfl, rfl⟩ |
    ⟨rfl, rfl⟩ | ⟨rfl, rfl⟩ <;> exact ⟨rfl, by decide⟩

section
variable (source value : Text) (fault : Option Fault) (rest : Text)

/-- A character that stands for itself. -/
theorem string_raw {c : Char} (hq : c ≠ '"') (hb : c ≠ '\\') (hc : Text.isControl c = true → c = '\t') :
    string .plain source value fault (c :: rest) =
      string .plain (c :: source) (c :: value) fault rest := by
  have hline : ¬ (c = '\n' ∨ c = '\r') := by
    rintro (rfl | rfl) <;> exact absurd (hc rfl) (by decide)
  have hctrl : ¬ (Text.isControl c = true ∧ c ≠ '\t') := fun h => h.2 (hc h.1)
  rw [string, if_neg hq, if_neg hb, if_neg hline, if_neg hctrl]

/-- An escape of one letter. -/
theorem string_letter {c e : Char} (h : (c, e) ∈ escapes) :
    string .plain source value fault ('\\' :: c :: rest) =
      string .plain (c :: '\\' :: source) (e :: value) fault rest := by
  obtain ⟨hs, hu⟩ := simpleEscape?_of_mem h
  simp [string, hu, hs]

/-- A Unicode escape, whatever its code. -/
theorem string_unicode {a b c d : Char} {code : Nat} (h : Text.hexCode? [a, b, c, d] = some code) :
    string .plain source value fault ('\\' :: 'u' :: a :: b :: c :: d :: rest) =
      string .plain (d :: c :: b :: a :: 'u' :: '\\' :: source)
        (scalarOf code :: value) fault rest := by
  have hhex : Text.hexCode? (a :: b :: c :: d :: rest) = some code := h
  simp [string, hhex]

end

/-- **Scanning a string finds what it stands for.** -/
theorem string_decodes {body content : Text} (h : Decodes body content) (source value rest : Text) :
    (string .plain source value none (body ++ '"' :: rest)).1.value = value.reverse ++ content := by
  induction h generalizing source value with
  | nil => simp [string]
  | @char c cs content hq hb hc _ ih =>
    rw [List.cons_append, string_raw _ _ _ _ hq hb hc, ih]
    simp
  | @escape c e cs content he _ ih =>
    rw [List.cons_append, List.cons_append, string_letter _ _ _ _ he, ih]
    simp
  | @unicode a b c d w x y z code cs content ha hb hc hd hcode hs _ ih =>
    have hhex : Text.hexCode? [a, b, c, d] = some code := by
      simp [Text.hexCode?, ha, hb, hc, hd, hcode]
    have hscalar : scalarOf code = Char.ofNat code := if_neg (by omega)
    simp only [List.cons_append]
    rw [string_unicode _ _ _ _ hhex, hscalar, ih]
    simp

theorem Rule.eq_string {c : Char} {cs : Text} {r : Lexeme × Text} (h : Rule c cs r)
    (hk : r.1.kind = .string) : r = Lexeme.string .plain ['"'] [] none cs := by
  cases h with
  | single hs => exact absurd hk (single?_kind hs).2.1
  | string hc => rw [hc]
  | blockComment _ _ => simp at hk
  | word => rcases word_kind_cases c cs with h | h | h | h <;> rw [h] at hk <;> cases hk
  | lineComment _ _ | slash _ | digits _ | minus _ _ => cases hk

end Lexeme

/-! ## Tokens of a text -/

namespace Token

open Lexeme

/-- A token is read from the text it covers. -/
theorem Scans.exists_rule {seen cs : Text} {ts : List Token} (h : Scans seen cs ts) {t : Token}
    (ht : t ∈ ts) (hk : t.kind ≠ .eof) : ∃ a c rest r, seen ++ cs = a ++ r.1.source ++ r.2 ∧
      Rule c rest r ∧ t.span = ⟨Text.bytes a, Text.bytes (a ++ r.1.source)⟩ ∧ t.kind = r.1.kind ∧
      t.value = r.1.value := by
  induction h with
  | eof _ => exact absurd (List.mem_singleton.1 ht ▸ rfl) hk
  | @token seen gap c rest ts _ _ _ ih =>
    have hrule := rule_read c rest
    have htext : seen ++ (gap ++ c :: rest) =
        seen ++ gap ++ (read c rest).1.source ++ (read c rest).2 := by
      rw [← hrule.append]; simp
    rcases List.mem_cons.1 ht with rfl | ht
    · exact ⟨seen ++ gap, c, rest, read c rest, htext, hrule, rfl, rfl, rfl⟩
    · rw [htext]
      exact ih ht

/-- The text of a token and the rule that it was read by. -/
theorem exists_rule_of_slice {cs source : Text} {t : Token} (ht : t ∈ scan cs) (hk : t.kind ≠ .eof)
    (hs : Text.slice? cs t.span = some source) : ∃ c rest r, Rule c rest r ∧ r.1.source = source ∧
      t.kind = r.1.kind ∧ t.value = r.1.value := by
  obtain ⟨a, c, rest, r, htext, hrule, hspan, hkind, hvalue⟩ := (scans_scan cs).exists_rule ht hk
  have hsource : Text.slice? cs t.span = some r.1.source :=
    Text.slice?_eq_some_iff.2 ⟨a, r.2, htext, by rw [hspan], by rw [hspan, Text.bytes_append]⟩
  exact ⟨c, rest, r, hrule, Option.some.inj (hsource.symm.trans hs), hkind, hvalue⟩

/-- A token that is no string holds its source text. -/
theorem value_eq_source {cs source : Text} {t : Token} (ht : t ∈ scan cs) (hk : t.kind ≠ .eof)
    (hk' : t.kind ≠ .string) (hs : Text.slice? cs t.span = some source) : t.value = source := by
  obtain ⟨c, rest, r, hrule, rfl, hkind, hvalue⟩ := exists_rule_of_slice ht hk hs
  rw [hvalue, hrule.value_eq (hkind ▸ hk')]

/-- A string holds what the text between its quotes stands for. -/
theorem value_eq_content {cs body content : Text} {t : Token} (ht : t ∈ scan cs)
    (hk : t.kind = .string) (hs : Text.slice? cs t.span = some ('"' :: body ++ ['"']))
    (hd : Decodes body content) : t.value = content := by
  obtain ⟨c, rest, r, hrule, hsource, hkind, hvalue⟩ :=
    exists_rule_of_slice ht (by rw [hk]; simp) hs
  have hstring := hrule.eq_string (hkind.symm.trans hk)
  have hrest : rest = body ++ '"' :: r.2 := by
    have h := hrule.append
    rw [hsource] at h
    simpa using (List.cons.inj h).2.symm
  rw [hvalue, hstring, hrest, string_decodes hd]
  rfl

end Token

end AnnotatedJson
