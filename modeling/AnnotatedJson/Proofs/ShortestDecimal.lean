/-
  The decimal that a double is printed as.

  * `Shortest.Interval.search_cases`: the search finds a decimal of the interval, or goes through all
    lengths;
  * `Shortest.leadingExponent_spec`: the place of the leading digit;
  * `Shortest.interval_eq`: the rounding interval of a double;
  * `Shortest.decimal_names`: the decimal has at most eighteen digits and is no larger than the upper
    end of the interval.
-/
import Mathlib
import AnnotatedJson.Number.Shortest

namespace AnnotatedJson.Shortest

/-! ## Decimals of an interval -/

theorem overPower_eq (num : Nat) {den : Nat} (hd : 0 < den) (k : Int) :
    0 < (overPower num den k).2 ∧
      ((overPower num den k).1 / (overPower num den k).2 : ℚ) = num / den / 10 ^ k := by
  unfold overPower
  by_cases hk : 0 ≤ k
  · obtain ⟨j, rfl⟩ := Int.eq_ofNat_of_zero_le hk
    rw [if_pos hk]
    refine ⟨Nat.mul_pos hd (Nat.pow_pos (by norm_num)), ?_⟩
    simp [div_div]
  · obtain ⟨j, rfl⟩ : ∃ j : Nat, k = -(j : Int) := ⟨k.natAbs, by omega⟩
    rw [if_neg hk]
    refine ⟨hd, ?_⟩
    simp [mul_div_right_comm]

theorem overPower_den (num num' den : Nat) (k : Int) :
    (overPower num den k).2 = (overPower num' den k).2 := by
  unfold overPower
  split <;> rfl

namespace Interval

variable {i : Interval} {d : Nat} {k : Int} (hden : 0 < i.den)

theorem holds_eq (i : Interval) (d : Nat) (k : Int) : i.holds d k = true ↔
    if i.closed then
      (overPower i.low i.den k).1 ≤ d * (overPower i.low i.den k).2 ∧
        d * (overPower i.low i.den k).2 ≤ (overPower i.high i.den k).1
    else
      (overPower i.low i.den k).1 < d * (overPower i.low i.den k).2 ∧
        d * (overPower i.low i.den k).2 < (overPower i.high i.den k).1 := by
  unfold holds
  cases i.closed <;> simp

include hden

/-- What lies in the interval is no larger than its upper end. -/
theorem le_high_of_holds (h : i.holds d k = true) : (d * 10 ^ k : ℚ) ≤ i.high / i.den := by
  have hle : d * (overPower i.low i.den k).2 ≤ (overPower i.high i.den k).1 := by
    rw [holds_eq] at h
    split at h
    · exact h.2
    · exact h.2.le
  obtain ⟨hpos, hhigh⟩ := overPower_eq i.high hden k
  rw [overPower_den i.low i.high] at hle
  have hpow : (0 : ℚ) < 10 ^ k := by positivity
  have hpos' : (0 : ℚ) < (overPower i.high i.den k).2 := by exact_mod_cast hpos
  rw [← le_div_iff₀ hpow, ← hhigh, le_div_iff₀ hpos']
  exact_mod_cast hle

theorem pos_of_holds (hlow : 0 < i.low) (h : i.holds d k = true) : 0 < d := by
  have hle : (overPower i.low i.den k).1 ≤ d * (overPower i.low i.den k).2 := by
    rw [holds_eq] at h
    split at h
    · exact h.1
    · exact h.1.le
  obtain ⟨hpos, heq⟩ := overPower_eq i.low hden k
  by_contra hd
  rw [Nat.eq_zero_of_not_pos hd, Nat.zero_mul, Nat.le_zero] at hle
  have hlow' : (0 : ℚ) < i.low := by exact_mod_cast hlow
  have hden' : (0 : ℚ) < i.den := by exact_mod_cast hden
  rw [hle, Nat.cast_zero, zero_div] at heq
  exact absurd heq (by positivity)

/-- What lies between the ends is in the interval. -/
theorem holds_of_between (hlow : (i.low / i.den : ℚ) < d * 10 ^ k)
    (hhigh : (d * 10 ^ k : ℚ) < i.high / i.den) : i.holds d k = true := by
  obtain ⟨hpos, hl⟩ := overPower_eq i.low hden k
  obtain ⟨-, hh⟩ := overPower_eq i.high hden k
  rw [overPower_den i.high i.low] at hh
  have hpow : (0 : ℚ) < 10 ^ k := by positivity
  have hpos' : (0 : ℚ) < (overPower i.low i.den k).2 := by exact_mod_cast hpos
  have h₁ : (overPower i.low i.den k).1 < d * (overPower i.low i.den k).2 := by
    rw [← div_lt_iff₀ hpow, ← hl, div_lt_iff₀ hpos'] at hlow
    exact_mod_cast hlow
  have h₂ : d * (overPower i.low i.den k).2 < (overPower i.high i.den k).1 := by
    rw [← lt_div_iff₀ hpow, ← hh, lt_div_iff₀ hpos'] at hhigh
    exact_mod_cast hhigh
  rw [holds_eq]
  split
  · exact ⟨h₁.le, h₂.le⟩
  · exact ⟨h₁, h₂⟩

/-- A candidate lies in the interval, and at most one step above the value. -/
theorem candidate?_spec (h : i.candidate? k = some d) :
    i.holds d k = true ∧ (d : ℚ) ≤ i.value / i.den / 10 ^ k + 1 := by
  obtain ⟨hpos, hvalue⟩ := overPower_eq i.value hden k
  have hfloor : (((overPower i.value i.den k).1 / (overPower i.value i.den k).2 : Nat) : ℚ) ≤
      i.value / i.den / 10 ^ k := hvalue ▸ Nat.cast_div_le
  unfold candidate? at h
  dsimp only at h
  generalize (overPower i.value i.den k).1 / (overPower i.value i.den k).2 = q at h hfloor
  have hup : ((q + 1 : Nat) : ℚ) ≤ i.value / i.den / 10 ^ k + 1 := by
    push_cast
    linarith
  split at h
  next hthis hnext =>
    split at h
    · cases h
      exact ⟨hthis, by linarith⟩
    · cases h
      exact ⟨hnext, hup⟩
  next hthis _ =>
    cases h
    exact ⟨hthis, by linarith⟩
  next _ hnext =>
    cases h
    exact ⟨hnext, hup⟩
  next => cases h

omit hden in
/-- There is a candidate where the decimal just below the value lies in the interval. -/
theorem candidate?_ne_none
    (h : i.holds ((overPower i.value i.den k).1 / (overPower i.value i.den k).2) k = true) :
    i.candidate? k ≠ none := by
  unfold candidate?
  dsimp only
  rw [h]
  split
  · split <;> simp
  · simp
  · simp
  · next hfalse _ => cases hfalse

omit hden in
/-- By induction on the lengths that are left. -/
theorem search_cases (i : Interval) (fuel : Nat) (k : Int) :
    (∃ j < fuel, ∃ d, i.candidate? (k - j) = some d ∧ i.search fuel k = ⟨d, k - j⟩) ∨
      (∀ j < fuel, i.candidate? (k - j) = none) ∧ i.search fuel k = ⟨i.value / i.den, k - fuel⟩ := by
  induction fuel generalizing k with
  | zero => exact .inr ⟨by simp, by simp [search]⟩
  | succ fuel ih =>
    rw [search]
    cases hcandidate : i.candidate? k with
    | some d => exact .inl ⟨0, Nat.succ_pos _, d, by simpa using hcandidate, by simp⟩
    | none =>
      have hstep : ∀ j : Nat, k - 1 - (j : Int) = k - (j + 1 : Nat) := fun j => by omega
      rcases ih (k - 1) with ⟨j, hj, d, hd, hsearch⟩ | ⟨hnone, hsearch⟩
      · rw [hstep] at hd hsearch
        exact .inl ⟨j + 1, Nat.succ_lt_succ hj, d, hd, hsearch⟩
      · refine .inr ⟨fun j hj => ?_, ?_⟩
        · cases j with
          | zero => simpa using hcandidate
          | succ j =>
            rw [← hstep]
            exact hnone j (Nat.lt_of_succ_lt_succ hj)
        · rw [← hstep]
          exact hsearch

end Interval

/-! ## The leading digit -/

theorem leadingBelowOne_spec (den : Nat) : ∀ (fuel num j : Nat), num < 10 * den →
    j ≤ leadingBelowOne den fuel num j ∧
      num * 10 ^ (leadingBelowOne den fuel num j - j) < 10 * den := by
  intro fuel
  induction fuel with
  | zero =>
    intro num j h
    simpa [leadingBelowOne] using h
  | succ fuel ih =>
    intro num j h
    rw [leadingBelowOne]
    split
    · simpa using h
    next hlt =>
      obtain ⟨hle, hbound⟩ := ih (num * 10) (j + 1) (by omega)
      refine ⟨by omega, ?_⟩
      rw [show leadingBelowOne den fuel (num * 10) (j + 1) - j =
        leadingBelowOne den fuel (num * 10) (j + 1) - (j + 1) + 1 by omega, pow_succ', ← mul_assoc]
      exact hbound

theorem decimalLength_bounds {n : Nat} (h : 0 < n) :
    1 ≤ Binary64.decimalLength n ∧ 10 ^ (Binary64.decimalLength n - 1) ≤ n ∧
      n < 10 ^ Binary64.decimalLength n := by
  rw [Binary64.decimalLength, if_neg h.ne']
  have hpos : 0 < (Nat.toDigits 10 n).length := Nat.length_toDigits_pos
  refine ⟨hpos, ?_, (Nat.length_toDigits_le_iff (by norm_num) hpos).1 le_rfl⟩
  by_contra hlt
  rcases Nat.eq_zero_or_pos ((Nat.toDigits 10 n).length - 1) with hzero | hlen
  · rw [hzero] at hlt
    omega
  · have := (Nat.length_toDigits_le_iff (by norm_num) hlen).2 (not_le.1 hlt)
    omega

/-- A fraction is below the power of ten after its leading digit.  From one on it is not below that
    of the digit, and before that there is no digit in front of the point. -/
theorem leadingExponent_spec (num : Nat) {den : Nat} (hd : 0 < den) :
    (num / den : ℚ) < 10 ^ (leadingExponent num den + 1) ∧
      (den ≤ num → (10 : ℚ) ^ leadingExponent num den ≤ num / den) ∧
      (num < den → leadingExponent num den ≤ 0) := by
  have hpos : (0 : ℚ) < den := by exact_mod_cast hd
  unfold leadingExponent
  by_cases h : den ≤ num
  · rw [if_pos h]
    obtain ⟨hone, hlow, hhigh⟩ := decimalLength_bounds (Nat.div_pos h hd)
    generalize Binary64.decimalLength (num / den) = len at *
    refine ⟨?_, fun _ => ?_, fun hlt => absurd h (not_le.2 hlt)⟩
    · rw [sub_add_cancel, zpow_natCast, div_lt_iff₀ hpos]
      exact_mod_cast (Nat.div_lt_iff_lt_mul hd).1 hhigh
    · rw [show (len : Int) - 1 = (len - 1 : Nat) by omega, zpow_natCast, le_div_iff₀ hpos]
      exact_mod_cast (Nat.le_div_iff_mul_le hd).1 hlow
  · rw [if_neg h]
    obtain ⟨-, hbound⟩ := leadingBelowOne_spec den 400 num 0 (by omega)
    rw [Nat.sub_zero] at hbound
    generalize leadingBelowOne den 400 num 0 = j at *
    refine ⟨?_, fun hle => absurd hle h, fun _ => by omega⟩
    rw [zpow_add₀ (by norm_num), zpow_neg, zpow_natCast, zpow_one, div_lt_iff₀ hpos,
      mul_assoc, ← div_eq_inv_mul, lt_div_iff₀ (by positivity)]
    exact_mod_cast hbound

/-! ## The decimal of a double -/

theorem interval_eq {m : Nat} (hm : 0 < m) (e : Int) :
    0 < (interval m e).den ∧ 0 < (interval m e).low ∧
      ((interval m e).value / (interval m e).den : ℚ) = m * 2 ^ e ∧
      ((interval m e).high / (interval m e).den : ℚ) = (m + 1 / 2) * 2 ^ e ∧
      ((interval m e).low / (interval m e).den : ℚ) ≤ (m - 1 / 4) * 2 ^ e := by
  have htwo : ((2 ^ e.toNat : Nat) / (2 ^ (-e).toNat : Nat) : ℚ) = 2 ^ e := by
    rcases le_total 0 e with he | he
    · obtain ⟨k, rfl⟩ := Int.eq_ofNat_of_zero_le he
      simp
    · obtain ⟨k, rfl⟩ : ∃ k : Nat, e = -(k : Int) := ⟨e.natAbs, by omega⟩
      simp
  have hover : ∀ x : ℚ, x * (2 ^ e.toNat : Nat) / (4 * (2 ^ (-e).toNat : Nat) : Nat) =
      x / 4 * 2 ^ e := by
    intro x
    rw [← htwo, Nat.cast_mul, mul_div_mul_comm]
    norm_num
  have hup : 0 < 2 ^ e.toNat := Nat.two_pow_pos _
  have hdown : 0 < 2 ^ (-e).toNat := Nat.two_pow_pos _
  unfold interval
  dsimp only [Nat.pow_eq]
  refine ⟨by omega, Nat.mul_pos ?_ hup, ?_, ?_, ?_⟩
  · split <;> omega
  · rw [Nat.cast_mul, hover]
    push_cast
    ring
  · rw [Nat.cast_mul, hover]
    push_cast
    ring
  · have hlow : (if m = Binary64.hiddenBit ∧ -1074 < e then 4 * m - 1 else 4 * m - 2) + 1 ≤ 4 * m := by
      split <;> omega
    have hlow' : ((if m = Binary64.hiddenBit ∧ -1074 < e then 4 * m - 1 else 4 * m - 2 : Nat) : ℚ) ≤
        4 * m - 1 := by
      rw [le_sub_iff_add_le]
      exact_mod_cast hlow
    rw [Nat.cast_mul, hover]
    gcongr
    linarith

/-- A decimal that is no larger than the upper end of the interval of a double, or no digit at all. -/
structure Names (m : Nat) (e : Int) (d : Decimal) : Prop where
  digits_le : d.digits ≤ 10 ^ 18
  small : d.digits = 0 ∧ d.exponent ≤ 0 ∨
    0 < d.digits ∧ (d.digits * 10 ^ d.exponent : ℚ) ≤ (m + 1 / 2) * 2 ^ e

theorem Names.dropZeros {m : Nat} {e : Int} {d : Decimal} (h : Names m e d) (fuel : Nat) :
    Names m e (Shortest.dropZeros fuel d) := by
  induction fuel generalizing d with
  | zero => exact h
  | succ fuel ih =>
    rw [Shortest.dropZeros]
    split
    next hzero =>
      refine ih ⟨(Nat.div_le_self _ _).trans h.digits_le, .inr ?_⟩
      rcases h.small with ⟨hdigits, -⟩ | ⟨hpos, hle⟩
      · exact absurd hdigits hzero.1
      · have hten : d.digits = 10 * (d.digits / 10) := by omega
        refine ⟨by dsimp only; omega, le_of_eq_of_le ?_ hle⟩
        have hcast : (d.digits : ℚ) = 10 * (d.digits / 10 : Nat) := by exact_mod_cast hten
        rw [hcast, zpow_add₀ (by norm_num), zpow_one]
        ring
    next => exact h

/-- From one on, some decimal of eighteen digits lies in the interval. -/
theorem candidate?_eighteen {m : Nat} (hm : 0 < m) (hm' : m < 2 ^ 53) (e : Int)
    (hone : (interval m e).den ≤ (interval m e).value) :
    (interval m e).candidate? (leadingExponent (interval m e).value (interval m e).den - 17) ≠
      none := by
  obtain ⟨hden, -, hvalue, hhigh, hlow⟩ := interval_eq hm e
  have hlead := (leadingExponent_spec (interval m e).value hden).2.1 hone
  generalize leadingExponent (interval m e).value (interval m e).den = lead at hlead
  obtain ⟨hpos, hq⟩ := overPower_eq (interval m e).value hden (lead - 17)
  apply Interval.candidate?_ne_none
  have hm₁ : (m : ℚ) < 2 ^ 53 := by exact_mod_cast hm'
  have htwo : (0 : ℚ) < 2 ^ e := by positivity
  have hpow : (0 : ℚ) < 10 ^ (lead - 17) := by positivity
  -- the step is a small part of the width
  have hstep : (10 : ℚ) ^ (lead - 17) < 2 ^ e / 4 := by
    rw [hvalue] at hlead
    rw [zpow_sub₀ (by norm_num), div_lt_iff₀ (by positivity)]
    calc (10 : ℚ) ^ lead ≤ m * 2 ^ e := hlead
      _ < 2 ^ 53 * 2 ^ e := by gcongr
      _ ≤ 2 ^ e / 4 * 10 ^ (17 : Int) := by norm_num; linarith
  set d := (overPower (interval m e).value (interval m e).den (lead - 17)).1 /
    (overPower (interval m e).value (interval m e).den (lead - 17)).2 with hd
  have hbelow : (d * 10 ^ (lead - 17) : ℚ) ≤ m * 2 ^ e := by
    rw [← le_div_iff₀ hpow, ← hvalue, ← hq]
    exact Nat.cast_div_le
  have habove : (m * 2 ^ e : ℚ) < (d + 1) * 10 ^ (lead - 17) := by
    rw [← div_lt_iff₀ hpow, ← hvalue, ← hq, div_lt_iff₀ (by exact_mod_cast hpos)]
    exact_mod_cast (Nat.div_lt_iff_lt_mul hpos).1 (Nat.lt_succ_self d)
  refine Interval.holds_of_between hden (hlow.trans_lt ?_) ?_
  · linarith
  · rw [hhigh]
    linarith

/-- **The decimal of a double is no larger than the upper end of its interval.** -/
theorem decimal_names {m : Nat} (hm : 0 < m) (hm' : m < 2 ^ 53) (e : Int) :
    Names m e (decimal m e) := by
  obtain ⟨hden, hlow, hvalue, hhigh, -⟩ := interval_eq hm e
  obtain ⟨hlead, -, hsmall⟩ := leadingExponent_spec (interval m e).value hden
  refine Names.dropZeros ?_ 20
  rcases (interval m e).search_cases 18 (leadingExponent (interval m e).value (interval m e).den) with
    ⟨j, hj, d, hd, hsearch⟩ | ⟨hnone, hsearch⟩
  · rw [hsearch]
    obtain ⟨hholds, hle⟩ := Interval.candidate?_spec hden hd
    refine ⟨?_, .inr ⟨Interval.pos_of_holds hden hlow hholds, ?_⟩⟩
    · generalize leadingExponent (interval m e).value (interval m e).den = lead at *
      have hlt : (d : ℚ) < (10 ^ 18 + 1 : Nat) := by
        refine hle.trans_lt ?_
        have hquotient : ((interval m e).value / (interval m e).den : ℚ) / 10 ^ (lead - j) <
            10 ^ 18 := by
          rw [div_lt_iff₀ (by positivity), ← zpow_natCast, ← zpow_add₀ (by norm_num)]
          refine hlead.trans_le (zpow_le_zpow_right₀ (by norm_num) ?_)
          push_cast
          omega
        push_cast
        linarith
      exact Nat.lt_succ_iff.1 (by exact_mod_cast hlt)
    · rw [← hhigh]
      exact Interval.le_high_of_holds hden hholds
  · -- all lengths fail only below one, where no digit is left
    have hbelow : (interval m e).value < (interval m e).den := by
      by_contra hone
      exact candidate?_eighteen hm hm' e (not_lt.1 hone) (hnone 17 (by norm_num))
    rw [hsearch, Nat.div_eq_of_lt hbelow]
    have := hsmall hbelow
    exact ⟨Nat.zero_le _, .inl ⟨rfl, by dsimp only; omega⟩⟩

end AnnotatedJson.Shortest
