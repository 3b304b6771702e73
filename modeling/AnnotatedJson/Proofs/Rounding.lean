/-
  Integers rounded to doubles.

  * `Binary64.unit`: how far apart the doubles around an integer are;
  * `Binary64.Nearest`: the multiple of a unit that is nearest to an integer, of two the even one, and
    `Binary64.Nearest.unique`: there is only one;
  * `Binary64.toInt?_ofRatio_large`, `Binary64.toInt?_ofDecimal_nearest`: an integer is read as the
    nearest double.
-/
import Mathlib
import AnnotatedJson.Proofs.Content

namespace AnnotatedJson

namespace Binary64

/-! ## The nearest multiple -/

/-- How far apart the doubles around an integer are: 53 bits are kept. -/
def unit (n : Nat) : Nat := 2 ^ (n.log2 - 52)

theorem unit_pos (n : Nat) : 0 < unit n := Nat.two_pow_pos _

/-- Integers of at most 53 bits are all doubles. -/
theorem unit_of_lt {n : Nat} (h : n < 2 ^ 53) : unit n = 1 := by
  have hlog : n.log2 < 53 := by
    by_cases h0 : n = 0
    · simp [h0]
    · exact (Nat.log2_lt h0).2 h
  have hzero : n.log2 - 52 = 0 := by omega
  rw [unit, hzero, pow_zero]

/-- The multiple `n` of a unit is nearest to `m`; of two that are equally near, it is the even one. -/
structure Nearest (u : Nat) (m n : Int) : Prop where
  multiple : (u : Int) ∣ n
  near : 2 * (n - m).natAbs ≤ u
  even : 2 * (n - m).natAbs = u → (2 * u : Int) ∣ n

section
variable {u : Nat} {m n : Int}

theorem Nearest.neg (h : Nearest u m n) : Nearest u (-m) (-n) := by
  have habs : (-n - -m).natAbs = (n - m).natAbs := by omega
  constructor
  · exact h.multiple.neg_right
  · rw [habs]
    exact h.near
  · intro heq
    rw [habs] at heq
    exact (h.even heq).neg_right

/-- There is only one nearest multiple. -/
theorem Nearest.unique (hu : 0 < u) (h : Nearest u m n) {n' : Int} (h' : Nearest u m n') : n = n' := by
  obtain ⟨a, rfl⟩ := h.multiple
  obtain ⟨b, rfl⟩ := h'.multiple
  by_contra hne
  have hab : a ≠ b := fun heq => hne (by rw [heq])
  -- Two multiples are a unit apart or more, so each is half a unit from the integer.
  have hapart : u ≤ (u * a - u * b : Int).natAbs := by
    rw [← mul_sub, Int.natAbs_mul, Int.natAbs_natCast]
    exact Nat.le_mul_of_pos_right u (by omega)
  have hnear := h.near
  have hnear' := h'.near
  have hone : (u * a - u * b : Int).natAbs = u := by omega
  have heven : (2 * u : Int) ∣ u * a - u * b :=
    dvd_sub (h.even (by omega)) (h'.even (by omega))
  have hle := Nat.le_of_dvd (by omega) (Int.natAbs_dvd_natAbs.2 heven)
  have htwice : (2 * u : Int).natAbs = 2 * u := by rw [Int.natAbs_mul]; rfl
  omega

theorem nearest_self_iff (hu : 0 < u) : Nearest u m m ↔ (u : Int) ∣ m := by
  constructor
  · exact Nearest.multiple
  · intro hm
    exact ⟨hm, by simp, by simp; omega⟩

/-- A multiple is nearest to itself only. -/
theorem nearest_iff_of_dvd (hu : 0 < u) (hm : (u : Int) ∣ m) : Nearest u m n ↔ n = m := by
  have hself := (nearest_self_iff hu).2 hm
  constructor
  · intro h
    exact h.unique hu hself
  · rintro rfl
    exact hself

end

/-- Rounding a quotient finds the nearest multiple. -/
theorem nearest_roundDiv {u : Nat} (hu : 0 < u) (m : Nat) : Nearest u m (roundDiv m u * u : Nat) := by
  have hm : u * (m / u) + m % u = m := Nat.div_add_mod m u
  have hlt : m % u < u := Nat.mod_lt m hu
  have hmul : m / u * u = u * (m / u) := Nat.mul_comm _ _
  unfold roundDiv
  dsimp only
  split
  next hup =>
    simp only [Bool.or_eq_true, decide_eq_true_eq, Bool.and_eq_true, beq_iff_eq] at hup
    have hsucc : (m / u + 1) * u = u * (m / u) + u := by ring
    have hdist : (((m / u + 1) * u : Nat) - (m : Int)).natAbs = u - m % u := by
      rw [hsucc]
      omega
    constructor
    · exact_mod_cast Dvd.intro_left _ rfl
    · rw [hdist]
      omega
    · intro htie
      rw [hdist] at htie
      have hodd : m / u % 2 = 1 := by omega
      have hdvd : 2 * u ∣ (m / u + 1) * u := Nat.mul_dvd_mul_right (by omega) u
      exact_mod_cast hdvd
  next hdown =>
    simp only [Bool.or_eq_true, decide_eq_true_eq, Bool.and_eq_true, beq_iff_eq] at hdown
    have hdist : ((m / u * u : Nat) - (m : Int)).natAbs = m % u := by
      rw [hmul]
      omega
    constructor
    · exact_mod_cast Dvd.intro_left _ rfl
    · rw [hdist]
      omega
    · intro htie
      rw [hdist] at htie
      have heven : m / u % 2 = 0 := by omega
      have hdvd : 2 * u ∣ m / u * u := Nat.mul_dvd_mul_right (by omega) u
      exact_mod_cast hdvd

/-! ## Integers as doubles -/

theorem scale_nonneg (num den k : Nat) : scale num den (k : Int) = (num, den * 2 ^ k) := by
  rw [scale, if_pos (Int.natCast_nonneg k)]
  rfl

theorem ratio_nonneg (m k : Nat) : ratio m (k : Int) = (m * 2 ^ k, 1) := by
  rw [ratio, if_pos (Int.natCast_nonneg k)]
  rfl

/-- The exponent brings a larger integer down to 53 bits. -/
theorem exponentOf_large {n : Nat} (h0 : n ≠ 0) (h : 52 ≤ n.log2) :
    exponentOf n 1 = ((n.log2 - 52 : Nat) : Int) := by
  have hguess : (n.log2 : Int) - (Nat.log2 1 : Int) - 52 = ((n.log2 - 52 : Nat) : Int) := by
    have : Nat.log2 1 = 0 := rfl
    omega
  have hfull : ¬ n < hiddenBit * (1 * 2 ^ (n.log2 - 52)) := by
    have hle : 2 ^ (52 + (n.log2 - 52)) ≤ n := by
      rw [Nat.add_sub_cancel' h]
      exact Nat.log2_self_le h0
    rw [Nat.pow_add] at hle
    simpa [hiddenBit] using hle
  unfold exponentOf
  dsimp only
  rw [hguess, scale_nonneg, if_neg hfull]
  omega

/-- An integer that is brought down to 53 bits is rounded to a multiple of its unit. -/
theorem toInt?_ofRatio_large (negative : Bool) {n : Nat} (h0 : n ≠ 0) (h : 52 ≤ n.log2)
    (hlog : n.log2 ≤ 64) : (ofRatio negative n 1).toInt? =
      some (if negative then -((roundDiv n (unit n) * unit n : Nat) : Int)
        else (roundDiv n (unit n) * unit n : Nat)) := by
  simp only [ofRatio, if_neg h0, exponentOf_large h0 h, scale_nonneg, Nat.one_mul, unit]
  generalize hk : n.log2 - 52 = k
  generalize roundDiv n (2 ^ k) = m
  by_cases hm : m = 2 * hiddenBit
  · -- The carry doubles the unit and halves the significand.
    have hvalue : hiddenBit * 2 ^ (k + 1) = m * 2 ^ k := by
      rw [hm, Nat.pow_succ]
      ring
    have hfinite : ¬ (971 : Int) < ((k + 1 : Nat) : Int) := by omega
    rw [if_pos hm, ← Int.natCast_succ]
    simp only [if_neg hfinite, toInt?, ratio_nonneg, hvalue, Nat.mod_one, Nat.div_one, if_true]
  · have hfinite : ¬ (971 : Int) < (k : Int) := by omega
    rw [if_neg hm]
    simp only [if_neg hfinite, toInt?, ratio_nonneg, Nat.mod_one, Nat.div_one, if_true]

/-- **An integer is read as the nearest double.** -/
theorem toInt?_ofDecimal_nearest (negative : Bool) {n : Nat} (h : n ≤ 2 ^ 64) :
    ∃ v : Nat, (ofDecimal negative n 0).toInt? = some (if negative then -(v : Int) else v) ∧
      Nearest (unit n) n v := by
  rw [ofDecimal_eq_ofRatio negative h]
  by_cases hsmall : n < 2 ^ 53
  · refine ⟨n, toInt?_ofRatio negative hsmall.le, (nearest_iff_of_dvd (unit_pos n) ?_).2 rfl⟩
    rw [unit_of_lt hsmall]
    exact one_dvd _
  · have h0 : n ≠ 0 := by omega
    have hlow : 52 ≤ n.log2 := (Nat.le_log2 h0).2 (by omega)
    have hhigh : n.log2 ≤ 64 := Nat.lt_succ_iff.1 ((Nat.log2_lt h0).2 (by omega))
    exact ⟨_, toInt?_ofRatio_large negative h0 hlow hhigh, nearest_roundDiv (unit_pos n) n⟩

end Binary64

end AnnotatedJson
