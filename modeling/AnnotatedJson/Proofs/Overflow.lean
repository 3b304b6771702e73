/-
  Which numbers are too large for a double.

  * `Binary64.overflow`: the least magnitude that is rounded to an infinity;
  * `Binary64.exponentOf_spec`: the exponent of a fraction brings it down to 53 bits;
  * `Binary64.ofRatio_cases`: a fraction is rounded to an infinity from there on, and else to a double
    that is off by at most one part in 2^53;
  * `Json.scaled?_isSome`: a significand and a power of ten whose product stays below are read;
  * `Number.Stored`, `Json.number?_stored`: every number that is read is finite.
-/
import Mathlib
import AnnotatedJson.Json.Reader
import AnnotatedJson.Proofs.Rounding

namespace AnnotatedJson

namespace Binary64

/-! ## The exponent of a fraction -/

section
variable {num den : Nat} (hn : 0 < num) (hd : 0 < den)

theorem scale_eq (num : Nat) {den : Nat} (hd : 0 < den) (e : Int) :
    0 < (scale num den e).2 ∧
      ((scale num den e).1 / (scale num den e).2 : ℚ) = num / den / 2 ^ e := by
  unfold scale
  by_cases he : 0 ≤ e
  · obtain ⟨k, rfl⟩ := Int.eq_ofNat_of_zero_le he
    rw [if_pos he]
    refine ⟨Nat.mul_pos hd (Nat.two_pow_pos _), ?_⟩
    simp [div_div]
  · obtain ⟨k, rfl⟩ : ∃ k : Nat, e = -(k : Int) := ⟨e.natAbs, by omega⟩
    rw [if_neg he]
    refine ⟨hd, ?_⟩
    simp [mul_div_right_comm]

include hn hd

/-- The lengths of numerator and denominator tell the size of a fraction up to a factor of two. -/
theorem ratio_bounds :
    (2 : ℚ) ^ ((num.log2 : Int) - den.log2 - 1) < num / den ∧
      (num / den : ℚ) < 2 ^ ((num.log2 : Int) - den.log2 + 1) := by
  have hnum : ((2 : ℚ) ^ num.log2 ≤ num) ∧ (num : ℚ) < 2 ^ (num.log2 + 1) :=
    ⟨by exact_mod_cast Nat.log2_self_le hn.ne', by exact_mod_cast Nat.lt_log2_self⟩
  have hden : ((2 : ℚ) ^ den.log2 ≤ den) ∧ (den : ℚ) < 2 ^ (den.log2 + 1) :=
    ⟨by exact_mod_cast Nat.log2_self_le hd.ne', by exact_mod_cast Nat.lt_log2_self⟩
  have hpos : (0 : ℚ) < den := by exact_mod_cast hd
  constructor
  · rw [lt_div_iff₀ hpos]
    calc (2 : ℚ) ^ ((num.log2 : Int) - den.log2 - 1) * den
        < 2 ^ ((num.log2 : Int) - den.log2 - 1) * 2 ^ (den.log2 + 1) := by gcongr; exact hden.2
      _ = 2 ^ num.log2 := by
        rw [← zpow_natCast, ← zpow_natCast, ← zpow_add₀ two_ne_zero]
        congr 1
        push_cast
        ring
      _ ≤ num := hnum.1
  · rw [div_lt_iff₀ hpos]
    calc (num : ℚ) < 2 ^ (num.log2 + 1) := hnum.2
      _ = 2 ^ ((num.log2 : Int) - den.log2 + 1) * 2 ^ den.log2 := by
        rw [← zpow_natCast, ← zpow_natCast, ← zpow_add₀ two_ne_zero]
        congr 1
        push_cast
        ring
      _ ≤ 2 ^ ((num.log2 : Int) - den.log2 + 1) * den := by gcongr; exact hden.1

/-- The exponent brings a fraction below `2 ^ 53`, and to `2 ^ 52` or more unless it is the least
    one. -/
theorem exponentOf_spec :
    -1074 ≤ exponentOf num den ∧ (num / den : ℚ) < 2 ^ (exponentOf num den + 53) ∧
      (-1074 < exponentOf num den → (2 : ℚ) ^ (exponentOf num den + 52) ≤ num / den) := by
  obtain ⟨hlow, hhigh⟩ := ratio_bounds hn hd
  unfold exponentOf
  dsimp only
  generalize hguess : (num.log2 : Int) - den.log2 - 52 = guess
  rw [show (num.log2 : Int) - den.log2 - 1 = guess + 51 by omega] at hlow
  rw [show (num.log2 : Int) - den.log2 + 1 = guess + 53 by omega] at hhigh
  obtain ⟨hpos, hscale⟩ := scale_eq num hd guess
  have htest : (scale num den guess).1 < hiddenBit * (scale num den guess).2 ↔
      (num / den : ℚ) < 2 ^ (guess + 52) := by
    have hden : (0 : ℚ) < (scale num den guess).2 := by exact_mod_cast hpos
    have htwo : (0 : ℚ) < 2 ^ guess := by positivity
    rw [zpow_add₀ two_ne_zero, mul_comm ((2 : ℚ) ^ guess), ← div_lt_iff₀ htwo, ← hscale,
      div_lt_iff₀ hden]
    norm_num [hiddenBit]
    exact_mod_cast Iff.rfl
  -- the guess, or the number before it
  obtain ⟨e, he, hbelow, habove⟩ :
      ∃ e, (if (scale num den guess).1 < hiddenBit * (scale num den guess).2
      then guess - 1 else guess) = e ∧ (num / den : ℚ) < 2 ^ (e + 53) ∧
        (2 : ℚ) ^ (e + 52) ≤ num / den := by
    by_cases h : (scale num den guess).1 < hiddenBit * (scale num den guess).2
    · refine ⟨guess - 1, if_pos h, ?_, ?_⟩
      · rw [show guess - 1 + 53 = guess + 52 by ring]
        exact htest.1 h
      · rw [show guess - 1 + 52 = guess + 51 by ring]
        exact hlow.le
    · exact ⟨guess, if_neg h, hhigh, not_lt.1 fun hlt => h (htest.2 hlt)⟩
  rw [he]
  refine ⟨le_max_right _ _, hbelow.trans_le ?_, fun hlt => ?_⟩
  · exact zpow_le_zpow_right₀ one_le_two (by omega)
  · rw [max_eq_left (by omega)]
    exact habove

end

/-! ## Rounding -/

/-- A rounded quotient is off by at most a half. -/
theorem roundDiv_bounds (a : Nat) {b : Nat} (hb : 0 < b) :
    (roundDiv a b : ℚ) ≤ a / b + 1 / 2 ∧ (a / b : ℚ) ≤ roundDiv a b + 1 / 2 := by
  have hnear := (nearest_roundDiv hb a).near
  have hpos : (0 : ℚ) < b := by exact_mod_cast hb
  have hup : 2 * (roundDiv a b * b) ≤ 2 * a + b := by omega
  have hdown : 2 * a ≤ 2 * (roundDiv a b * b) + b := by omega
  have hup' : (2 * (roundDiv a b * b) : ℚ) ≤ 2 * a + b := by exact_mod_cast hup
  have hdown' : (2 * a : ℚ) ≤ 2 * (roundDiv a b * b) + b := by exact_mod_cast hdown
  constructor
  · rw [div_add' _ _ _ hpos.ne', le_div_iff₀ hpos]
    linarith
  · rw [div_le_iff₀ hpos]
    linarith

/-- The least magnitude that is rounded to an infinity. -/
def overflow : ℚ := (2 ^ 54 - 1) * 2 ^ 970

/-- A double of full range: its significand and its exponent are not too large. -/
def Proper : Binary64 → Prop
  | .finite _ m e => m < 2 ^ 53 ∧ e ≤ 971
  | .infinite _ => False

/-- The magnitude `m · 2 ^ e` is `q` rounded to 53 bits. -/
structure RoundedTo (q : ℚ) (m : Nat) (e : Int) : Prop where
  upper : (m * 2 ^ e : ℚ) ≤ q * (1 + 2⁻¹ ^ 53)
  lower : q / 2 ≤ m * 2 ^ e

/-- The largest exponent, in units of `2 ^ 970`. -/
theorem two_zpow_largest : (2 : ℚ) ^ (971 : Int) = 2 * 2 ^ 970 :=
  (zpow_natCast 2 971).trans (pow_succ' 2 970)

section
variable {e : Int}

theorem two_zpow_le (he : e ≤ 971) : (2 : ℚ) ^ e ≤ 2 * 2 ^ 970 :=
  (zpow_le_zpow_right₀ one_le_two he).trans_eq two_zpow_largest

/-- From the largest exponent on, half a unit below `2 ^ 53` is too large. -/
theorem overflow_le_half (he : 971 ≤ e) : overflow ≤ (2 ^ 53 - 1 / 2) * 2 ^ e := by
  have hexp : (2 : ℚ) ^ (971 : Int) ≤ 2 ^ e := zpow_le_zpow_right₀ one_le_two he
  calc overflow = (2 ^ 53 - 1 / 2) * 2 ^ (971 : Int) := by
        rw [two_zpow_largest, overflow]
        generalize (2 : ℚ) ^ 970 = p
        ring
    _ ≤ (2 ^ 53 - 1 / 2) * 2 ^ e := by gcongr

/-- Beyond the largest exponent, all of 53 bits is too large. -/
theorem overflow_le_zpow (he : 971 < e) : overflow ≤ 2 ^ (e + 52) := by
  have hexp : (2 : ℚ) ^ (1024 : Int) ≤ 2 ^ (e + 52) := zpow_le_zpow_right₀ one_le_two (by omega)
  calc overflow ≤ 2 ^ 54 * 2 ^ 970 := by
        rw [overflow]
        gcongr
        linarith
    _ = 2 ^ (1024 : Int) := by
        rw [← pow_add]
        exact (zpow_natCast 2 1024).symm
    _ ≤ 2 ^ (e + 52) := hexp

/-- An error of half a unit, where a unit is at most a part in `2 ^ 52`. -/
theorem roundedTo_of_near {q : ℚ} {m : Nat} (hup : (m : ℚ) ≤ q / 2 ^ e + 1 / 2)
    (hdown : q / 2 ^ e ≤ m + 1 / 2) (hunit : (2 : ℚ) ^ e * 2 ^ 52 ≤ q) : RoundedTo q m e := by
  have htwo : (0 : ℚ) < 2 ^ e := by positivity
  have hq : q = q / 2 ^ e * 2 ^ e := by field_simp
  constructor
  · calc (m * 2 ^ e : ℚ) ≤ (q / 2 ^ e + 1 / 2) * 2 ^ e := by gcongr
      _ = q + 2 ^ e / 2 := by rw [add_mul, ← hq]; ring
      _ ≤ q * (1 + 2⁻¹ ^ 53) := by linarith
  · have hstep : (q / 2 ^ e - 1 / 2) * 2 ^ e ≤ m * 2 ^ e := by
      gcongr
      linarith
    rw [sub_mul, ← hq] at hstep
    linarith

end

/-- A fraction is rounded to an infinity if it is too large, and else to a double nearby; the smallest
    fractions may lose more of their digits. -/
theorem ofRatio_cases (s : Bool) (num : Nat) {den : Nat} (hd : 0 < den) :
    ofRatio s num den = .infinite s ∧ overflow ≤ num / den ∨
      ∃ m e, ofRatio s num den = .finite s m e ∧ m < 2 ^ 53 ∧ e ≤ 971 ∧
        ((1 : ℚ) / 2 ^ 1022 ≤ num / den → RoundedTo (num / den) m e) := by
  by_cases h0 : num = 0
  · refine .inr ⟨0, -1074, by rw [ofRatio, if_pos h0]; rfl, by norm_num, by norm_num, fun hlow => ?_⟩
    rw [h0, Nat.cast_zero, zero_div] at hlow
    exact absurd hlow (not_le.2 (by positivity))
  · obtain ⟨hleast, hbelow, habove⟩ := exponentOf_spec (Nat.pos_of_ne_zero h0) hd
    unfold ofRatio
    rw [if_neg h0]
    dsimp only
    generalize exponentOf num den = e at *
    obtain ⟨hpos, hscale⟩ := scale_eq num hd e
    obtain ⟨hup, hdown⟩ := roundDiv_bounds (scale num den e).1 hpos
    rw [hscale] at hup hdown
    generalize roundDiv (scale num den e).1 (scale num den e).2 = m at *
    generalize (num / den : ℚ) = q at *
    have htwo : (0 : ℚ) < 2 ^ e := by positivity
    have hm : m ≤ 2 ^ 53 := by
      have hsize : q / 2 ^ e < 2 ^ 53 := by
        rw [div_lt_iff₀ htwo, mul_comm, ← zpow_natCast, ← zpow_add₀ two_ne_zero]
        exact hbelow
      have hlt : (m : ℚ) < (2 ^ 53 + 1 : Nat) := by
        push_cast
        linarith
      exact Nat.lt_succ_iff.1 (by exact_mod_cast hlt)
    have hrounded : (1 : ℚ) / 2 ^ 1022 ≤ q → RoundedTo q m e := by
      intro hlow
      refine roundedTo_of_near hup hdown ?_
      rw [← zpow_natCast, ← zpow_add₀ two_ne_zero]
      rcases hleast.lt_or_eq with hlt | rfl
      · exact habove hlt
      · refine le_trans (le_of_eq ?_) hlow
        norm_num
    by_cases hcarry : m = 2 * hiddenBit
    · -- one bit more than there is room for
      rw [if_pos hcarry]
      dsimp only
      by_cases hlarge : 971 < e + 1
      · have hfull : (2 : ℚ) ^ 53 - 1 / 2 ≤ q / 2 ^ e := by
          rw [hcarry] at hup
          norm_num [hiddenBit] at hup ⊢
          linarith
        exact .inl ⟨if_pos hlarge, (overflow_le_half (by omega)).trans ((le_div_iff₀ htwo).1 hfull)⟩
      · have hvalue : ((hiddenBit : Nat) * 2 ^ (e + 1) : ℚ) = m * 2 ^ e := by
          rw [hcarry, zpow_add₀ two_ne_zero]
          push_cast
          ring
        refine .inr ⟨hiddenBit, e + 1, if_neg hlarge, by decide, by omega, fun hlow => ?_⟩
        obtain ⟨hupper, hlower⟩ := hrounded hlow
        exact ⟨hvalue ▸ hupper, hvalue ▸ hlower⟩
    · rw [if_neg hcarry]
      dsimp only
      have hlt : m < 2 ^ 53 := lt_of_le_of_ne hm (by simpa [hiddenBit] using hcarry)
      by_cases hlarge : 971 < e
      · exact .inl ⟨if_pos hlarge, (overflow_le_zpow hlarge).trans (habove (by omega))⟩
      · exact .inr ⟨m, e, if_neg hlarge, hlt, by omega, hrounded⟩

theorem ofRatio_proper {s : Bool} {num den : Nat} (hd : 0 < den) (h : (num / den : ℚ) < overflow) :
    (ofRatio s num den).Proper := by
  rcases ofRatio_cases s num hd with ⟨-, hlarge⟩ | ⟨m, e, heq, hm, he, -⟩
  · exact absurd h (not_lt.2 hlarge)
  · rw [heq]
    exact ⟨hm, he⟩

/-- An integer that is not too large is rounded to a double nearby. -/
theorem ofRatio_nat {n : Nat} (h : (n : ℚ) < overflow) (s : Bool) :
    ∃ m e, ofRatio s n 1 = .finite s m e ∧ m < 2 ^ 53 ∧ e ≤ 971 ∧ RoundedTo n m e := by
  rcases Nat.eq_zero_or_pos n with rfl | hpos
  · exact ⟨0, -1074, rfl, by norm_num, by norm_num, by simp, by simp⟩
  · have hone : (1 : ℚ) ≤ n := by exact_mod_cast hpos
    rcases ofRatio_cases s n one_pos with ⟨-, hlarge⟩ | ⟨m, e, heq, hm, he, hrounded⟩
    · rw [Nat.cast_one, div_one] at hlarge
      exact absurd h (not_lt.2 hlarge)
    · rw [Nat.cast_one, div_one] at hrounded
      refine ⟨m, e, heq, hm, he, hrounded (le_trans ?_ hone)⟩
      exact div_le_one_of_le₀ (one_le_pow₀ one_le_two) (by positivity)

/-! ## Products and quotients -/

theorem ratio_eq (m : Nat) (e : Int) :
    0 < (ratio m e).2 ∧ ((ratio m e).1 / (ratio m e).2 : ℚ) = m * 2 ^ e := by
  unfold ratio
  by_cases he : 0 ≤ e
  · obtain ⟨k, rfl⟩ := Int.eq_ofNat_of_zero_le he
    rw [if_pos he]
    exact ⟨one_pos, by simp⟩
  · obtain ⟨k, rfl⟩ : ∃ k : Nat, e = -(k : Int) := ⟨e.natAbs, by omega⟩
    rw [if_neg he]
    exact ⟨Nat.two_pow_pos _, by simp [div_eq_mul_inv]⟩

theorem Proper.lt_overflow {s : Bool} {m : Nat} {e : Int} (h : (finite s m e).Proper) :
    (m * 2 ^ e : ℚ) < overflow := by
  obtain ⟨hm, he⟩ := h
  have hm' : (m : ℚ) ≤ 2 ^ 53 - 1 := by
    rw [le_sub_iff_add_le]
    exact_mod_cast hm
  calc (m * 2 ^ e : ℚ) ≤ (2 ^ 53 - 1) * (2 * 2 ^ 970) := by
        gcongr
        exact two_zpow_le he
    _ < overflow := by
      have hpos : (0 : ℚ) < 2 ^ 970 := by positivity
      rw [overflow]
      generalize (2 : ℚ) ^ 970 = p at hpos
      linarith

section
variable {s t : Bool} {m n : Nat} {e f : Int}

/-- A product is finite if it is not too large, and proper if it is finite. -/
theorem mul_cases :
    (((m * 2 ^ e) * (n * 2 ^ f) : ℚ) < overflow →
      (mul (.finite s m e) (.finite t n f)).isFinite = true) ∧
    ((mul (.finite s m e) (.finite t n f)).isFinite = true →
      (mul (.finite s m e) (.finite t n f)).Proper) := by
  obtain ⟨hb, hab⟩ := ratio_eq m e
  obtain ⟨hd, hcd⟩ := ratio_eq n f
  rw [mul]
  dsimp only
  have hvalue : (((ratio m e).1 * (ratio n f).1 : Nat) / ((ratio m e).2 * (ratio n f).2 : Nat) : ℚ) =
      (m * 2 ^ e) * (n * 2 ^ f) := by
    rw [← hab, ← hcd, div_mul_div_comm]
    push_cast
    rfl
  rcases ofRatio_cases (s != t) ((ratio m e).1 * (ratio n f).1) (Nat.mul_pos hb hd) with
    ⟨heq, hlarge⟩ | ⟨m', e', heq, hm, he, -⟩
  · rw [heq]
    refine ⟨fun hlt => ?_, fun hfinite => by cases hfinite⟩
    rw [hvalue] at hlarge
    exact absurd hlt (not_lt.2 hlarge)
  · rw [heq]
    exact ⟨fun _ => rfl, fun _ => ⟨hm, he⟩⟩

/-- A quotient by one or more is proper. -/
theorem div_proper (h : (finite s m e).Proper) (hone : (1 : ℚ) ≤ n * 2 ^ f) :
    (div (.finite s m e) (.finite t n f)).Proper := by
  obtain ⟨hb, hab⟩ := ratio_eq m e
  obtain ⟨hd, hcd⟩ := ratio_eq n f
  have hc : 0 < (ratio n f).1 := by
    by_contra hzero
    rw [Nat.eq_zero_of_not_pos hzero, Nat.cast_zero, zero_div] at hcd
    linarith
  have hvalue : (((ratio m e).1 * (ratio n f).2 : Nat) / ((ratio m e).2 * (ratio n f).1 : Nat) : ℚ) =
      (m * 2 ^ e) / (n * 2 ^ f) := by
    rw [← hab, ← hcd, div_div_div_eq]
    push_cast
    rfl
  have hlt : ((m * 2 ^ e) / (n * 2 ^ f) : ℚ) < overflow :=
    (div_le_self (by positivity) hone).trans_lt h.lt_overflow
  rw [← hvalue] at hlt
  exact ofRatio_proper (Nat.mul_pos hb hc) hlt

end

theorem Proper.neg {x : Binary64} (h : x.Proper) : x.neg.Proper := by
  cases x with
  | finite s m e => exact h
  | infinite s => exact h

/-- All numbers of 64 bits, and the powers of ten up to the 308th, are small enough. -/
theorem lt_overflow_of_lt {n : Nat} (h : n < 2 ^ 64) : (n : ℚ) < overflow := by
  have hn : (n : ℚ) < 2 ^ 64 := by exact_mod_cast h
  have hpow : (1 : ℚ) ≤ 2 ^ 970 := one_le_pow₀ one_le_two
  calc (n : ℚ) < 2 ^ 64 := hn
    _ ≤ 2 ^ 970 := pow_le_pow_right₀ one_le_two (by norm_num)
    _ ≤ overflow := by
      rw [overflow]
      generalize (2 : ℚ) ^ 970 = p at hpow
      linarith

theorem power_lt_overflow {k : Nat} (h : k ≤ 308) : ((10 ^ k : Nat) : ℚ) < overflow := by
  have hnat : 10 ^ 308 < 18014398509481983 * 2 ^ 970 := by decide +kernel
  have hcast : (10 : ℚ) ^ 308 < overflow := by
    have hlt : ((10 ^ 308 : Nat) : ℚ) < (18014398509481983 * 2 ^ 970 : Nat) := Nat.cast_lt.2 hnat
    rw [Nat.cast_mul, Nat.cast_pow, Nat.cast_pow] at hlt
    rw [overflow, show (2 : ℚ) ^ 54 - 1 = 18014398509481983 by norm_num]
    exact hlt
  rw [Nat.cast_pow]
  exact (pow_le_pow_right₀ (by norm_num) h).trans_lt hcast

end Binary64

/-- The numbers that strict reading makes: integers of 64 bits and finite doubles. -/
def Number.Stored : Number → Prop
  | .int n => -2 ^ 63 ≤ n ∧ n < 2 ^ 64
  | .float f => f.Proper

namespace Json

open Binary64

/-! ## Scaling by powers of ten -/

section
variable {f g : Binary64} {k : Int} {fuel : Nat}

theorem powerOfTen_eq {k : Nat} (h : k ≤ 308) :
    ∃ m e, powerOfTen k = .finite false m e ∧ RoundedTo (10 ^ k : Nat) m e := by
  obtain ⟨m, e, heq, -, -, hrounded⟩ := ofRatio_nat (power_lt_overflow h) false
  exact ⟨m, e, heq, hrounded⟩

/-- A power of ten besides the first is read as more than one. -/
theorem div_powerOfTen_proper (hf : f.Proper) {k : Nat} (hpos : 0 < k) (hk : k ≤ 308) :
    (f.div (powerOfTen k)).Proper := by
  obtain ⟨m, e, heq, hrounded⟩ := powerOfTen_eq hk
  cases f with
  | infinite s => exact hf.elim
  | finite s n x =>
    rw [heq]
    refine div_proper hf (le_trans ?_ hrounded.lower)
    have hten : 10 ^ 1 ≤ 10 ^ k := Nat.pow_le_pow_right (by norm_num) hpos
    have hten' : (10 : ℚ) ≤ (10 ^ k : Nat) := by exact_mod_cast hten
    linarith

/-- By induction on the steps: a product is tested, and a quotient is smaller. -/
theorem scaled?_proper (hf : f.Proper) (h : scaled? fuel f k = some g) : g.Proper := by
  induction fuel generalizing f k with
  | zero =>
    cases h
    exact hf
  | succ fuel ih =>
    rw [scaled?] at h
    by_cases hk : k.natAbs ≤ 308
    · rw [if_pos hk] at h
      by_cases hnonneg : 0 ≤ k
      · rw [if_pos hnonneg] at h
        dsimp only at h
        obtain ⟨hfinite, h⟩ := Option.ite_none_right_eq_some.1 h
        cases h
        obtain ⟨m, e, heq, -⟩ := powerOfTen_eq hk
        cases f with
        | infinite s => exact hf.elim
        | finite s n x =>
          rw [heq] at hfinite ⊢
          exact mul_cases.2 hfinite
      · rw [if_neg hnonneg] at h
        cases h
        exact div_powerOfTen_proper hf (by omega) hk
    · rw [if_neg hk] at h
      split_ifs at h
      · cases h
        exact hf
      · exact ih (div_powerOfTen_proper hf (by norm_num) le_rfl) h

/-- A negative power only makes a number smaller. -/
theorem scaled?_isSome_of_neg (hk : k < 0) : (scaled? fuel f k).isSome = true := by
  induction fuel generalizing f k with
  | zero => rfl
  | succ fuel ih =>
    rw [scaled?]
    have hneg : ¬ 0 ≤ k := not_le.2 hk
    split_ifs
    · rfl
    · rfl
    · exact ih (by omega)

/-- Significand and power are rounded, and so is their product; what is added by the first two
    roundings must not make it too large. -/
theorem scaled?_isSome {n k : Nat} (hn : n < 2 ^ 64) (hk : k ≤ 308)
    (h : (n * 10 ^ k : ℚ) * (1 + 2⁻¹ ^ 53) ^ 2 < overflow) :
    (scaled? (fuel + 1) (ofRatio false n 1) k).isSome = true := by
  obtain ⟨m, e, hsig, -, -, hm⟩ := ofRatio_nat (lt_overflow_of_lt hn) false
  obtain ⟨m', e', hpow, hm'⟩ := powerOfTen_eq hk
  have hproduct : ((m * 2 ^ e) * (m' * 2 ^ e') : ℚ) < overflow := by
    refine lt_of_le_of_lt ?_ h
    calc ((m * 2 ^ e) * (m' * 2 ^ e') : ℚ)
        ≤ (n * (1 + 2⁻¹ ^ 53)) * ((10 ^ k : Nat) * (1 + 2⁻¹ ^ 53)) := by
          exact mul_le_mul hm.upper hm'.upper (by positivity) (by positivity)
      _ = (n * 10 ^ k) * (1 + 2⁻¹ ^ 53) ^ 2 := by
          push_cast
          ring
  rw [scaled?, Int.natAbs_natCast, if_pos hk, if_pos (Int.natCast_nonneg k), hsig, hpow]
  dsimp only
  rw [if_pos (mul_cases.1 hproduct)]
  rfl

end

/-! ## Numbers that are read -/

theorem significand_lt {m : Nat} (hm : m < 2 ^ 64) (ds : Text) : (significand m ds).1 < 2 ^ 64 := by
  induction ds generalizing m with
  | nil => exact hm
  | cons c ds ih =>
    rw [significand]
    split_ifs with hfits
    · exact ih hfits
    · exact hm

section
variable {negative : Bool} {m : Nat} {x : Number}

theorem float?_stored (hm : m < 2 ^ 64) {k : Int} (h : float? negative m k = some x) : x.Stored := by
  obtain ⟨f, hf, h⟩ := Option.bind_eq_some_iff.1 h
  cases h
  obtain ⟨m', e, heq, hm', he, -⟩ := ofRatio_nat (lt_overflow_of_lt hm) false
  have hproper := scaled?_proper (f := ofRatio false m 1) (heq ▸ ⟨hm', he⟩) hf
  cases negative with
  | false => exact hproper
  | true => exact hproper.neg

theorem integer?_stored (hm : m < 2 ^ 64) {dropped : Nat} (h : integer? negative m dropped = some x) :
    x.Stored := by
  rw [integer?] at h
  split_ifs at h with hdropped hneg hsmall
  · exact float?_stored hm h
  · cases h
    exact ⟨by omega, by omega⟩
  · cases h
    obtain ⟨m', e, heq, hm', he, -⟩ := ofRatio_nat (lt_overflow_of_lt hm) true
    rw [heq]
    exact ⟨hm', he⟩
  · cases h
    exact ⟨by omega, by exact_mod_cast hm⟩

end

/-! ### The parts of a number -/

/-- The significand and the exponent after the fraction, what follows, and whether there is one. -/
def fractionOf? (m dropped : Nat) : Text → Option (Nat × Int × Text × Bool)
  | '.' :: rest =>
    if (rest.takeWhile Text.isDigit).isEmpty then none
    else some ((significand m (rest.takeWhile Text.isDigit)).1,
      (dropped : Int) - ((rest.takeWhile Text.isDigit).length -
        (significand m (rest.takeWhile Text.isDigit)).2 : Nat), rest.dropWhile Text.isDigit, true)
  | rest => some (m, dropped, rest, false)

/-- The number with a significand and an exponent, where an exponent part may follow. -/
def closing? (negative : Bool) (dropped m : Nat) (k : Int) (fraction : Bool) (rest : Text) :
    Option (Number × Text) :=
  match rest with
  | 'e' :: rest | 'E' :: rest => do
    let (x, rest) ← exponent? rest
    some (← float? negative m (k + x), rest)
  | _ => do
    if fraction then some (← float? negative m k, rest)
    else some (← integer? negative m dropped, rest)

/-- Digits without a zero in front, then a fraction, then an exponent part. -/
theorem unsigned?_eq (negative : Bool) (cs : Text) : unsigned? negative cs =
    if !(cs.takeWhile Text.isDigit).isEmpty && ((cs.takeWhile Text.isDigit).length == 1 ||
      (cs.takeWhile Text.isDigit).head? != some '0') then
      (fractionOf? (significand 0 (cs.takeWhile Text.isDigit)).1
        (significand 0 (cs.takeWhile Text.isDigit)).2 (cs.dropWhile Text.isDigit)).bind fun p =>
          closing? negative (significand 0 (cs.takeWhile Text.isDigit)).2 p.1 p.2.1 p.2.2.2 p.2.2.1
    else none := by
  unfold unsigned?
  dsimp only
  generalize (!(cs.takeWhile Text.isDigit).isEmpty && ((cs.takeWhile Text.isDigit).length == 1 ||
      (cs.takeWhile Text.isDigit).head? != some '0')) = good
  cases good with
  | false => rfl
  | true =>
    rw [if_pos rfl]
    generalize cs.dropWhile Text.isDigit = rest
    split
    next rest =>
      rw [fractionOf?]
      by_cases hempty : (rest.takeWhile Text.isDigit).isEmpty = true
      · rw [if_pos hempty, if_pos hempty]
        rfl
      · rw [if_neg hempty, if_neg hempty]
        rfl
    next hpoint =>
      rw [fractionOf?]
      · rfl
      · exact hpoint

section
variable {m dropped : Nat} (hm : m < 2 ^ 64)

include hm

theorem fractionOf?_lt {cs : Text} {p : Nat × Int × Text × Bool}
    (h : fractionOf? m dropped cs = some p) : p.1 < 2 ^ 64 := by
  unfold fractionOf? at h
  split at h
  · obtain ⟨-, h⟩ := Option.ite_none_left_eq_some.1 h
    cases h
    exact significand_lt hm _
  · cases h
    exact hm

theorem closing?_stored {negative fraction : Bool} {k : Int} {cs rest : Text} {x : Number}
    (h : closing? negative dropped m k fraction cs = some (x, rest)) : x.Stored := by
  have hfloat : ∀ {k : Int} {after : Text},
      ((float? negative m k).bind fun n => some (n, after)) = some (x, rest) → x.Stored := by
    intro k after hread
    obtain ⟨y, hy, hread⟩ := Option.bind_eq_some_iff.1 hread
    cases hread
    exact float?_stored hm hy
  unfold closing? at h
  split at h
  · obtain ⟨power, -, h⟩ := Option.bind_eq_some_iff.1 h
    exact hfloat h
  · obtain ⟨power, -, h⟩ := Option.bind_eq_some_iff.1 h
    exact hfloat h
  · split_ifs at h
    · exact hfloat h
    · obtain ⟨y, hy, h⟩ := Option.bind_eq_some_iff.1 h
      cases h
      exact integer?_stored hm hy

end

theorem unsigned?_stored {negative : Bool} {cs rest : Text} {x : Number}
    (h : unsigned? negative cs = some (x, rest)) : x.Stored := by
  rw [unsigned?_eq] at h
  obtain ⟨-, h⟩ := Option.ite_none_right_eq_some.1 h
  have hm := significand_lt (m := 0) (by norm_num) (cs.takeWhile Text.isDigit)
  obtain ⟨parts, hparts, h⟩ := Option.bind_eq_some_iff.1 h
  exact closing?_stored (fractionOf?_lt hm hparts) h

/-- **Every number that is read is an integer of 64 bits or a finite double.** -/
theorem number?_stored {cs rest : Text} {x : Number} (h : number? cs = some (x, rest)) : x.Stored := by
  unfold number? at h
  split at h
  · exact unsigned?_stored h
  · exact unsigned?_stored h

end Json

end AnnotatedJson
