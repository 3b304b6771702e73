/-
  Printed doubles, read again.

  A double is printed with the fewest digits that name it.  Strict reading rounds these digits and
  the power of ten on their own, so that it may find a neighbour of the double; but it always finds
  a number.

  * `Json.ReadAs`: a text is read as a significand and a power of ten;
  * `Json.readAs_plain`, `Json.readAs_power`: the two layouts of a decimal;
  * `Json.readAs_text`: a decimal is read with its own digits and exponent, or with a power that is
    not positive;
  * `Json.scaled?_decimal`: the digits of a double are not too large for a double;
  * `Json.legible_of_stored`: every number that strict reading makes is read again from its text.
-/
import Mathlib
import AnnotatedJson.Proofs.Overflow
import AnnotatedJson.Proofs.ShortestDecimal
import AnnotatedJson.Proofs.StrictReading

namespace AnnotatedJson.Json

open Text Lexeme Binary64 Shortest

/-! ## Digits -/

section
variable {m : Nat} {ds fs rest : Text}

theorem digitsFrom_append (m : Nat) (ds fs : Text) :
    digitsFrom m (ds ++ fs) = digitsFrom (digitsFrom m ds) fs := List.foldl_append

theorem digitsFrom_lt (hd : ∀ c ∈ ds, isDigit c = true) :
    digitsFrom m ds < (m + 1) * 10 ^ ds.length := by
  induction ds generalizing m with
  | nil => simp [digitsFrom]
  | cons c ds ih =>
    obtain ⟨hc, hds⟩ := List.forall_mem_cons.1 hd
    simp only [isDigit, Bool.and_eq_true, decide_eq_true_eq, Char.le_def, UInt32.le_iff_toNat_le] at hc
    have hdigit : c.toNat - 48 < 10 := by
      have : c.toNat ≤ 57 := hc.2
      omega
    calc digitsFrom (m * 10 + (c.toNat - 48)) ds
        < (m * 10 + (c.toNat - 48) + 1) * 10 ^ ds.length := ih hds
      _ ≤ (m + 1) * 10 * 10 ^ ds.length := Nat.mul_le_mul_right _ (by omega)
      _ = (m + 1) * 10 ^ (c :: ds).length := by rw [List.length_cons, pow_succ', mul_assoc]

/-- Up to nineteen digits fit 64 bits. -/
theorem digitsFrom_fits (hd : ∀ c ∈ ds, isDigit c = true) (hlen : ds.length ≤ 19) :
    digitsFrom 0 ds < 2 ^ 64 := by
  have hlt := digitsFrom_lt (m := 0) hd
  have hpow : 10 ^ ds.length ≤ 10 ^ 19 := Nat.pow_le_pow_right (by norm_num) hlen
  omega

/-! ## The parts of a number -/

/-- Digits at the start of a number, without a zero in front of others. -/
structure Leading (ds : Text) : Prop where
  digits : ∀ c ∈ ds, isDigit c = true
  lead : ds.length = 1 ∨ ds ≠ [] ∧ ds.head? ≠ some '0'
  fits : digitsFrom 0 ds < 2 ^ 64

theorem Leading.unsigned? (h : Leading ds) (hr : NoDigit rest) (negative : Bool) :
    unsigned? negative (ds ++ rest) = (fractionOf? (digitsFrom 0 ds) 0 rest).bind fun p =>
      closing? negative 0 p.1 p.2.1 p.2.2.2 p.2.2.1 := by
  have hguard : (!ds.isEmpty && (ds.length == 1 || ds.head? != some '0')) = true := by
    rcases h.lead with hone | ⟨hne, hhead⟩
    · have hne : ds ≠ [] := List.ne_nil_of_length_pos (by omega)
      simp [hone, hne]
    · simp [hne, hhead]
  rw [unsigned?_eq, takeWhile_digits h.digits hr, dropWhile_digits h.digits hr, if_pos hguard,
    significand_eq h.fits]

theorem fractionOf?_point (hf : ∀ c ∈ fs, isDigit c = true) (hne : fs ≠ []) (hr : NoDigit rest) :
    fractionOf? m 0 ('.' :: (fs ++ rest)) = some ((significand m fs).1,
      ((0 : Nat) : Int) - ((fs.length - (significand m fs).2 : Nat) : Int), rest, true) := by
  rw [fractionOf?, takeWhile_digits hf hr, dropWhile_digits hf hr, if_neg (by simpa using hne)]

theorem closing?_closes (hr : Closes rest) (negative : Bool) (dropped : Nat) (k : Int) :
    closing? negative dropped m k true rest = (float? negative m k).map fun n => (n, rest) := by
  have hrest : closing? negative dropped m k true rest =
      (float? negative m k).bind fun n => some (n, rest) := by
    cases rest with
    | nil => rfl
    | cons c rest => rcases hr c rfl with rfl | rfl | rfl <;> rfl
  rw [hrest]
  cases float? negative m k <;> rfl

/-- The power that is read from its digits. -/
def powerRead (n : Nat) : Nat := natOfDigits (((Nat.toDigits 10 n).dropWhile (· = '0')).take 11)

theorem powerRead_eq {n : Nat} (hpos : 0 < n) (hn : n < 10 ^ 11) : powerRead n = n := by
  have hhead : (Nat.toDigits 10 n).dropWhile (· = '0') = Nat.toDigits 10 n := by
    have hne := head_toDigits hpos
    cases hds : Nat.toDigits 10 n with
    | nil => rfl
    | cons c ds =>
      rw [hds, List.head?_cons, ne_eq, Option.some_inj] at hne
      rw [List.dropWhile_cons_of_neg (by simpa using hne)]
  have hlen : (Nat.toDigits 10 n).length ≤ 11 :=
    (Nat.length_toDigits_le_iff (by norm_num) (by norm_num)).2 hn
  rw [powerRead, hhead, List.take_of_length_le hlen, natOfDigits_toDigits]

/-- The sign of a power, as it is printed. -/
def powerSign (lead : Int) : Char := if lead < 0 then '-' else '+'

/-- The power that is read, with its sign. -/
def signedPower (lead : Int) : Int :=
  if lead < 0 then -(powerRead lead.natAbs : Int) else powerRead lead.natAbs

theorem exponent?_signed (lead : Int) (cs : Text) (hd : (cs.takeWhile isDigit).isEmpty = false) :
    exponent? (powerSign lead :: cs) = some (if lead < 0
      then -(natOfDigits (((cs.takeWhile isDigit).dropWhile (· = '0')).take 11) : Int)
      else natOfDigits (((cs.takeWhile isDigit).dropWhile (· = '0')).take 11),
        cs.dropWhile isDigit) := by
  have hsome : ¬ (cs.takeWhile isDigit).isEmpty = true := by simp [hd]
  unfold powerSign
  by_cases h : lead < 0
  · rw [if_pos h, if_pos h]
    exact if_neg hsome
  · rw [if_neg h, if_neg h]
    exact if_neg hsome

theorem closing?_power (hr : Closes rest) (negative : Bool) (dropped : Nat) (k lead : Int)
    (fraction : Bool) :
    closing? negative dropped m k fraction
        ('e' :: powerSign lead :: (Nat.toDigits 10 lead.natAbs ++ rest)) =
      (float? negative m (k + signedPower lead)).map fun n => (n, rest) := by
  have hdigits := isDigit_toDigits lead.natAbs
  have hexponent : exponent? (powerSign lead :: (Nat.toDigits 10 lead.natAbs ++ rest)) =
      some (signedPower lead, rest) := by
    have htake := takeWhile_digits hdigits hr.noDigit
    rw [exponent?_signed lead _ (by simp [htake, Nat.toDigits_ne_nil]), htake,
      dropWhile_digits hdigits hr.noDigit]
    rfl
  have hclosing : closing? negative dropped m k fraction
      ('e' :: powerSign lead :: (Nat.toDigits 10 lead.natAbs ++ rest)) =
        (exponent? (powerSign lead :: (Nat.toDigits 10 lead.natAbs ++ rest))).bind fun x =>
          (float? negative m (k + x.1)).bind fun n => some (n, x.2) := rfl
  rw [hclosing, hexponent, Option.bind_some]
  cases float? negative m (k + signedPower lead) <;> rfl

/-! ## Decimals -/

/-- Where a value ends, the text is read as `m · 10 ^ k`, with any sign. -/
def ReadAs (cs : Text) (m : Nat) (k : Int) : Prop := ∀ (negative : Bool) (rest : Text), Closes rest →
  unsigned? negative (cs ++ rest) = (float? negative m k).map fun n => (n, rest)

/-- A number without a power. -/
theorem readAs_plain (hd : Leading ds) (hf : ∀ c ∈ fs, isDigit c = true) (hne : fs ≠ []) :
    ∃ m k, ReadAs (ds ++ '.' :: fs) m k ∧ m < 2 ^ 64 ∧ k ≤ 0 := by
  refine ⟨(significand (digitsFrom 0 ds) fs).1,
    ((0 : Nat) : Int) - ((fs.length - (significand (digitsFrom 0 ds) fs).2 : Nat) : Int), ?_,
    significand_lt hd.fits fs, by omega⟩
  intro negative rest hr
  rw [List.append_assoc, List.cons_append, hd.unsigned? (by simp [NoDigit, isDigit]),
    fractionOf?_point hf hne hr.noDigit, Option.bind_some, closing?_closes hr]

/-- A number with a power. -/
theorem readAs_power (hd : Leading ds) (hf : ∀ c ∈ fs, isDigit c = true)
    (hfits : digitsFrom 0 (ds ++ fs) < 2 ^ 64) (lead : Int) :
    ReadAs (ds ++ (if fs = [] then [] else '.' :: fs) ++
        'e' :: powerSign lead :: Nat.toDigits 10 lead.natAbs) (digitsFrom 0 (ds ++ fs))
      (signedPower lead - fs.length) := by
  intro negative rest hr
  have hpower : NoDigit ('e' :: powerSign lead :: (Nat.toDigits 10 lead.natAbs ++ rest)) := by
    simp [NoDigit, isDigit]
  rw [digitsFrom_append] at hfits ⊢
  by_cases hne : fs = []
  · subst hne
    rw [if_pos rfl, List.append_nil, List.append_assoc, List.cons_append, List.cons_append,
      hd.unsigned? hpower]
    have hnone : fractionOf? (digitsFrom 0 ds) 0
        ('e' :: powerSign lead :: (Nat.toDigits 10 lead.natAbs ++ rest)) =
          some (digitsFrom 0 ds, ((0 : Nat) : Int),
            'e' :: powerSign lead :: (Nat.toDigits 10 lead.natAbs ++ rest), false) := rfl
    rw [hnone, Option.bind_some, closing?_power hr]
    simp [digitsFrom]
  · rw [if_neg hne, List.append_assoc, List.append_assoc, List.cons_append, List.cons_append,
      List.cons_append, hd.unsigned? (by simp [NoDigit, isDigit]),
      fractionOf?_point hf hne hpower, Option.bind_some, closing?_power hr, significand_eq hfits]
    congr 2
    push_cast
    omega

end

/-- The digits of a positive number have no zero in front; zero is one digit. -/
theorem leading_toDigits {n : Nat} (hn : n < 2 ^ 64) : Leading (Nat.toDigits 10 n) := by
  refine ⟨isDigit_toDigits n, ?_, ?_⟩
  · rcases Nat.eq_zero_or_pos n with rfl | hpos
    · exact .inl rfl
    · exact .inr ⟨Nat.toDigits_ne_nil, head_toDigits hpos⟩
  · rwa [show digitsFrom 0 (Nat.toDigits 10 n) = n from natOfDigits_toDigits n]

theorem leading_take {ds : Text} (h : Leading ds) (hne : ds ≠ []) {k : Nat} (hk : 0 < k)
    (hlen : k ≤ 19) : Leading (ds.take k) := by
  have hdigits : ∀ c ∈ ds.take k, isDigit c = true := fun c hc => h.digits c (List.mem_of_mem_take hc)
  refine ⟨hdigits, ?_, digitsFrom_fits hdigits (by simp; omega)⟩
  rcases h.lead with hone | ⟨-, hhead⟩
  · exact .inl (by simp; omega)
  · refine .inr ⟨by simpa [hne] using hk.ne', ?_⟩
    rw [List.head?_take]
    simpa [hk.ne'] using hhead

section
variable {d : Decimal}

/-- The exponent of the leading digit of a decimal. -/
def leadOf (d : Decimal) : Int := d.exponent + ((Nat.toDigits 10 d.digits).length : Int) - 1

theorem leading_zeros {ds : Text} (h : Leading ds) (hne : ds ≠ []) (j : Nat) (hj : ds ≠ ['0'] ∨ j = 0)
    (hlen : ds.length + j ≤ 19) : Leading (ds ++ List.replicate j '0') := by
  have hdigits : ∀ c ∈ ds ++ List.replicate j '0', isDigit c = true := by
    intro c hc
    rcases List.mem_append.1 hc with hc | hc
    · exact h.digits c hc
    · rw [List.eq_of_mem_replicate hc]
      rfl
  refine ⟨hdigits, ?_, digitsFrom_fits hdigits (by simpa using hlen)⟩
  rcases hj with hzero | rfl
  · refine .inr ⟨by simp [hne], ?_⟩
    rw [List.head?_append_of_ne_nil _ hne]
    rcases h.lead with hone | ⟨-, hhead⟩
    · obtain ⟨c, rfl⟩ := List.length_eq_one_iff.1 hone
      simpa using hzero
    · exact hhead
  · simpa using h.lead

/-- A decimal whose leading digit is near the point is laid out around the point. -/
theorem text_plain (hdigits : d.digits < 2 ^ 64) (hsmall : 0 < d.digits ∨ d.exponent ≤ 0)
    (hlayout : -5 ≤ leadOf d ∧ leadOf d ≤ 15) : ∃ is fs, d.text .json = is ++ '.' :: fs ∧ Leading is ∧
      (∀ c ∈ fs, isDigit c = true) ∧ fs ≠ [] := by
  have hleading := leading_toDigits hdigits
  have hne : Nat.toDigits 10 d.digits ≠ [] := Nat.toDigits_ne_nil
  have hzero : Nat.toDigits 10 d.digits = ['0'] → d.digits = 0 := by
    intro h
    rw [← natOfDigits_toDigits d.digits, h]
    rfl
  have htext : d.text .json =
      if 0 ≤ d.exponent then
        Nat.toDigits 10 d.digits ++ List.replicate d.exponent.toNat '0' ++ ['.', '0']
      else if 0 ≤ leadOf d then
        (Nat.toDigits 10 d.digits).take (leadOf d + 1).toNat ++
          '.' :: (Nat.toDigits 10 d.digits).drop (leadOf d + 1).toNat
      else '0' :: '.' :: List.replicate (-leadOf d - 1).toNat '0' ++ Nat.toDigits 10 d.digits :=
    if_pos hlayout
  rw [leadOf] at hlayout htext
  rw [htext]
  clear htext
  generalize Nat.toDigits 10 d.digits = ds at *
  have hpos : 0 < ds.length := List.length_pos_of_ne_nil hne
  split_ifs with hinteger hfraction
  · refine ⟨_, ['0'], rfl, leading_zeros hleading hne _ ?_ (by omega), by simp [isDigit], by simp⟩
    rcases hsmall with hsmall | hsmall
    · exact .inl fun h => hsmall.ne' (hzero h)
    · exact .inr (by omega)
  · refine ⟨_, _, rfl, leading_take hleading hne (by omega) (by omega), ?_, ?_⟩
    · intro c hc
      exact hleading.digits c (List.mem_of_mem_drop hc)
    · rw [ne_eq, List.drop_eq_nil_iff]
      omega
  · refine ⟨['0'], _, rfl, ⟨by simp [isDigit], .inl rfl, by decide⟩, ?_, by simp [hne]⟩
    intro c hc
    rcases List.mem_append.1 hc with hc | hc
    · rw [List.eq_of_mem_replicate hc]
      rfl
    · exact hleading.digits c hc

/-- Any other decimal is laid out with a power. -/
theorem text_power (hlayout : ¬ (-5 ≤ leadOf d ∧ leadOf d ≤ 15)) :
    d.text .json = (Nat.toDigits 10 d.digits).take 1 ++
      (if (Nat.toDigits 10 d.digits).drop 1 = [] then [] else '.' ::
        (Nat.toDigits 10 d.digits).drop 1) ++
        'e' :: powerSign (leadOf d) :: Nat.toDigits 10 (leadOf d).natAbs := by
  have htext : d.text .json = (Nat.toDigits 10 d.digits).take 1 ++
      (if (Nat.toDigits 10 d.digits).length = 1 then [] else '.' ::
        (Nat.toDigits 10 d.digits).drop 1) ++
        'e' :: (if leadOf d < 0 then ['-'] else ['+']) ++ Nat.toDigits 10 (leadOf d).natAbs :=
    if_neg hlayout
  have hpos : 0 < (Nat.toDigits 10 d.digits).length := Nat.length_toDigits_pos
  have hone : (Nat.toDigits 10 d.digits).drop 1 = [] ↔ (Nat.toDigits 10 d.digits).length = 1 := by
    rw [List.drop_eq_nil_iff]
    omega
  have hsign : (if leadOf d < 0 then ['-'] else ['+']) = [powerSign (leadOf d)] := by
    unfold powerSign
    split <;> rfl
  rw [htext, hsign]
  simp only [hone, List.append_assoc, List.cons_append, List.nil_append]

/-- **How the text of a decimal is read.**  A text with a positive power gives back digits and
    exponent. -/
theorem readAs_text (hdigits : d.digits ≤ 10 ^ 18) (hsmall : 0 < d.digits ∨ d.exponent ≤ 0)
    (hexponent : d.exponent ≤ 308) :
    ∃ m k, ReadAs (d.text .json) m k ∧ m < 2 ^ 64 ∧ (k ≤ 0 ∨ m = d.digits ∧ k = d.exponent) := by
  have hfits : d.digits < 2 ^ 64 := by omega
  by_cases hlayout : -5 ≤ leadOf d ∧ leadOf d ≤ 15
  · obtain ⟨is, fs, htext, his, hfs, hne⟩ := text_plain hfits hsmall hlayout
    obtain ⟨m, k, hread, hm, hk⟩ := readAs_plain his hfs hne
    exact ⟨m, k, htext ▸ hread, hm, .inl hk⟩
  · have hleading := leading_toDigits hfits
    have hvalue :
        digitsFrom 0 ((Nat.toDigits 10 d.digits).take 1 ++ (Nat.toDigits 10 d.digits).drop 1) =
        d.digits := by
      rw [List.take_append_drop]
      exact natOfDigits_toDigits d.digits
    have hlen : (Nat.toDigits 10 d.digits).length ≤ 19 :=
      (Nat.length_toDigits_le_iff (by norm_num) (by norm_num)).2 (by omega)
    have hpos : 0 < (Nat.toDigits 10 d.digits).length := Nat.length_toDigits_pos
    have hread := readAs_power (leading_take hleading Nat.toDigits_ne_nil one_pos (by norm_num))
      (fun c hc => hleading.digits c (List.mem_of_mem_drop hc)) (by rwa [hvalue]) (leadOf d)
    rw [hvalue, ← text_power hlayout, List.length_drop] at hread
    refine ⟨_, _, hread, hfits, ?_⟩
    rw [signedPower]
    by_cases hneg : leadOf d < 0
    · rw [if_pos hneg]
      exact .inl (by omega)
    · rw [if_neg hneg]
      have hlead : leadOf d = d.exponent + ((Nat.toDigits 10 d.digits).length : Int) - 1 := rfl
      rw [powerRead_eq (by omega) (by omega)]
      exact .inr ⟨rfl, by omega⟩

end

/-! ## Doubles -/

theorem float?_isSome {m : Nat} {k : Int} (negative : Bool)
    (h : (scaled? 10 (ofRatio false m 1) (max k (-2000))).isSome = true) :
    ∃ f, float? negative m k = some (.float f) := by
  obtain ⟨f, hf⟩ := Option.isSome_iff_exists.1 h
  exact ⟨if negative then f.neg else f, by rw [float?, hf]; rfl⟩

/-- A power that is not positive makes no number too large. -/
theorem scaled?_isSome_of_nonpos {m : Nat} (hm : m < 2 ^ 64) {k : Int} (hk : k ≤ 0) :
    (scaled? 10 (ofRatio false m 1) (max k (-2000))).isSome = true := by
  rcases hk.lt_or_eq with hneg | rfl
  · exact scaled?_isSome_of_neg (by omega)
  · refine scaled?_isSome (k := 0) hm (by norm_num) ?_
    have hm' : (m : ℚ) < 2 ^ 64 := by exact_mod_cast hm
    have hpow : (2 : ℚ) ^ 65 ≤ 2 ^ 970 := pow_le_pow_right₀ one_le_two (by norm_num)
    have hfactor : (1 + 2⁻¹ ^ 53 : ℚ) ^ 2 ≤ 2 := by norm_num
    calc (m * 10 ^ 0 : ℚ) * (1 + 2⁻¹ ^ 53) ^ 2 ≤ m * 2 := by
          rw [pow_zero, mul_one]
          exact mul_le_mul_of_nonneg_left hfactor m.cast_nonneg
      _ < overflow := by
          rw [overflow]
          generalize (2 : ℚ) ^ 970 = p at hpow
          linarith

section
variable {m : Nat} {e : Int} (hm : 0 < m) (hm' : m < 2 ^ 53) (he : e ≤ 971)
include hm' he

/-- The upper end of the interval of a double is at most `2 ^ 1024`. -/
theorem upper_le : ((m + 1 / 2) * 2 ^ e : ℚ) ≤ 2 ^ 54 * 2 ^ 970 := by
  have hm₁ : (m : ℚ) + 1 ≤ 2 ^ 53 := by exact_mod_cast hm'
  calc ((m + 1 / 2) * 2 ^ e : ℚ) ≤ 2 ^ 53 * (2 * 2 ^ 970) :=
        mul_le_mul (by linarith) (two_zpow_le he) (by positivity) (by positivity)
    _ = 2 ^ 54 * 2 ^ 970 := by
        generalize (2 : ℚ) ^ 970 = p
        ring

/-- Except for the three largest doubles, rounding digits and power does not make the product too
    large. -/
theorem upper_lt_overflow (hexcept : e ≤ 970 ∨ m + 4 ≤ 2 ^ 53) :
    ((m + 1 / 2) * 2 ^ e : ℚ) * (1 + 2⁻¹ ^ 53) ^ 2 < overflow := by
  -- in units of `2 ^ 970`
  have hunits : ((m + 1 / 2) * 2 ^ e : ℚ) ≤ (2 ^ 54 - 7) * 2 ^ 970 := by
    rcases hexcept with hsmall | hsmall
    · have hm₁ : (m : ℚ) + 1 ≤ 2 ^ 53 := by exact_mod_cast hm'
      have hexp : (2 : ℚ) ^ e ≤ 2 ^ 970 :=
        (zpow_le_zpow_right₀ one_le_two hsmall).trans_eq (zpow_natCast 2 970)
      exact mul_le_mul (by linarith) hexp (by positivity) (by norm_num)
    · have hm₁ : (m : ℚ) + 4 ≤ 2 ^ 53 := by exact_mod_cast hsmall
      calc ((m + 1 / 2) * 2 ^ e : ℚ) ≤ (m + 1 / 2) * (2 * 2 ^ 970) :=
            mul_le_mul_of_nonneg_left (two_zpow_le he) (by positivity)
        _ = (2 * m + 1) * 2 ^ 970 := by
            generalize (2 : ℚ) ^ 970 = p
            ring
        _ ≤ (2 ^ 54 - 7) * 2 ^ 970 :=
            mul_le_mul_of_nonneg_right (by linarith only [hm₁]) (by positivity)
  calc ((m + 1 / 2) * 2 ^ e : ℚ) * (1 + 2⁻¹ ^ 53) ^ 2
      ≤ ((2 ^ 54 - 7) * 2 ^ 970) * (1 + 2⁻¹ ^ 53) ^ 2 :=
        mul_le_mul_of_nonneg_right hunits (by norm_num)
    _ < overflow := by
        have hpos : (0 : ℚ) < 2 ^ 970 := by positivity
        rw [overflow]
        generalize (2 : ℚ) ^ 970 = p at hpos
        norm_num
        linarith

include hm

theorem decimal_exponent_le : (decimal m e).exponent ≤ 308 := by
  rcases (decimal_names hm hm' e).small with ⟨-, hexp⟩ | ⟨hpos, hle⟩
  · omega
  · by_contra hlarge
    have hone : (1 : ℚ) ≤ (decimal m e).digits := by exact_mod_cast hpos
    have hpow : (10 : ℚ) ^ 309 ≤ 10 ^ (decimal m e).exponent :=
      (zpow_natCast 10 309).symm.trans_le (zpow_le_zpow_right₀ (by norm_num) (by push_cast; omega))
    have hnat : 2 ^ 54 * 2 ^ 970 < 10 ^ 309 := by decide +kernel
    have hlt : (2 : ℚ) ^ 54 * 2 ^ 970 < 10 ^ 309 := by
      have hcast : ((2 ^ 54 * 2 ^ 970 : Nat) : ℚ) < (10 ^ 309 : Nat) := Nat.cast_lt.2 hnat
      rwa [Nat.cast_mul, Nat.cast_pow, Nat.cast_pow, Nat.cast_pow] at hcast
    have hle' : (10 : ℚ) ^ (decimal m e).exponent ≤ 2 ^ 54 * 2 ^ 970 :=
      (le_mul_of_one_le_left (by positivity) hone).trans (hle.trans (upper_le hm' he))
    exact absurd (hpow.trans hle') (not_le.2 hlt)

/-- **The digits of a double are not too large for a double.** -/
theorem scaled?_decimal (hk : 0 ≤ (decimal m e).exponent) :
    (scaled? 10 (ofRatio false (decimal m e).digits 1) (decimal m e).exponent).isSome = true := by
  by_cases hexcept : e ≤ 970 ∨ m + 4 ≤ 2 ^ 53
  · have hnames := decimal_names hm hm' e
    have hle := decimal_exponent_le hm hm' he
    have hdigits : (decimal m e).digits < 2 ^ 64 := by
      have := hnames.digits_le
      omega
    obtain ⟨k, hk⟩ := Int.eq_ofNat_of_zero_le hk
    rw [hk] at hle ⊢
    refine scaled?_isSome hdigits (by omega) ?_
    rcases hnames.small with ⟨hzero, -⟩ | ⟨-, hsmall⟩
    · rw [hzero, Nat.cast_zero, zero_mul, zero_mul, overflow]
      norm_num
    · rw [hk, zpow_natCast] at hsmall
      refine lt_of_le_of_lt ?_ (upper_lt_overflow hm' he hexcept)
      exact mul_le_mul_of_nonneg_right hsmall (by positivity)
  · -- the three largest doubles
    obtain ⟨rfl, hlarge⟩ : e = 971 ∧ 2 ^ 53 < m + 4 := by omega
    obtain rfl | rfl | rfl : m = 9007199254740991 ∨ m = 9007199254740990 ∨
        m = 9007199254740989 := by omega
    all_goals decide +kernel

end

theorem number?_of_unsigned? {cs : Text} {r : Number × Text} (h : unsigned? false cs = some r) :
    number? cs = some r := by
  unfold number?
  split
  · cases h
  · exact h

/-- The text of a double is a sign and a text that is read as some double. -/
theorem text?_reads (negative : Bool) {m : Nat} {e : Int} (hm : m < 2 ^ 53) (he : e ≤ 971) :
    ∃ cs f, (Binary64.finite negative m e).text? = some ((if negative then ['-'] else []) ++ cs) ∧
      ∀ rest, Closes rest → unsigned? negative (cs ++ rest) = some (.float f, rest) := by
  suffices h : ∃ cs n k,
      (Binary64.finite negative m e).text? = some ((if negative then ['-'] else []) ++ cs) ∧
      ReadAs cs n k ∧ (scaled? 10 (ofRatio false n 1) (max k (-2000))).isSome = true by
    obtain ⟨cs, n, k, htext, hread, hscaled⟩ := h
    obtain ⟨f, hf⟩ := float?_isSome negative hscaled
    refine ⟨cs, f, htext, fun rest hr => ?_⟩
    rw [hread negative rest hr, hf]
    rfl
  rcases Nat.eq_zero_or_pos m with rfl | hpos
  · have hzero : Leading ['0'] := ⟨by simp [isDigit], .inl rfl, by decide⟩
    obtain ⟨n, k, hread, hn, hk⟩ := readAs_plain hzero hzero.digits (by simp)
    exact ⟨['0', '.', '0'], n, k, by simp [Binary64.text?], hread, scaled?_isSome_of_nonpos hn hk⟩
  · have hnames := decimal_names hpos hm e
    have hsmall : 0 < (decimal m e).digits ∨ (decimal m e).exponent ≤ 0 :=
      hnames.small.elim (fun h => .inr h.2) (fun h => .inl h.1)
    obtain ⟨n, k, hread, hn, hk⟩ :=
      readAs_text hnames.digits_le hsmall (decimal_exponent_le hpos hm he)
    refine ⟨(decimal m e).text .json, n, k, by simp [Binary64.text?, hpos.ne'], hread, ?_⟩
    by_cases hnonpos : k ≤ 0
    · exact scaled?_isSome_of_nonpos hn hnonpos
    · obtain ⟨rfl, rfl⟩ := hk.resolve_left hnonpos
      rw [max_eq_left (by omega)]
      exact scaled?_decimal hpos hm he (by omega)

/-- **Every number that strict reading makes is read again from its text.** -/
theorem legible_of_stored {n : Number} (h : n.Stored) : (Json.number n).Legible := by
  cases n with
  | int n => exact legible_number fun rest hr => number?_decimal h hr
  | float f =>
    cases f with
    | infinite => exact h.elim
    | finite negative m e =>
      obtain ⟨cs, f, htext, hread⟩ := text?_reads negative h.1 h.2
      have hnumber : numberText (.float (.finite negative m e)) =
          (if negative then ['-'] else []) ++ cs := by rw [numberText, htext]; rfl
      have hreads : ∀ rest, Closes rest →
          number? (numberText (.float (.finite negative m e)) ++ rest) = some (.float f, rest) := by
        intro rest hr
        rw [hnumber]
        cases negative with
        | true => exact hread rest hr
        | false => exact number?_of_unsigned? (hread rest hr)
      exact legible_number hreads

end AnnotatedJson.Json
