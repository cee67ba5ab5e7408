import I386Vm.Lib.TwosComplement
import Mathlib.Algebra.Order.Ring.Int
import Mathlib.Data.Nat.ModEq
import Mathlib.Tactic.Linarith

/-!
# Shifted numbers

A shift to the left multiplies by a power of two and cuts, one to the right divides. Past the width
nothing is left but the sign. A shift to the right of two words, one above the other, splices them.
-/

namespace BitShifts

open TwosComplement

variable {n k x : ℕ}

/-- Only zero is found again after a shift to the left. -/
theorem shl_eq_self_iff (hx : x < 2 ^ n) (hk : k ≠ 0) : x * 2 ^ k % 2 ^ n = x ↔ x = 0 := by
  refine ⟨fun h => ?_, fun h => by rw [h, Nat.zero_mul, Nat.zero_mod]⟩
  have hpos := Nat.two_pow_pos k
  have hdvd : 2 ^ n ∣ x * (2 ^ k - 1) := by
    rw [Nat.mul_sub_one]
    have hle : x ≤ x * 2 ^ k := Nat.le_mul_of_pos_right x hpos
    refine (Nat.modEq_iff_dvd' hle).1 ?_
    exact (Nat.mod_eq_of_lt hx).trans h.symm
  have hcop : Nat.Coprime (2 ^ n) (2 ^ k - 1) := by
    refine Nat.Coprime.pow_left n ?_
    have hodd : (2 ^ k - 1) % 2 = 1 := by
      obtain ⟨j, rfl⟩ := Nat.exists_eq_succ_of_ne_zero hk
      rw [Nat.succ_eq_add_one, Nat.pow_succ] at hpos ⊢
      omega
    rw [Nat.Coprime, Nat.gcd_rec, hodd, Nat.gcd_one_left]
  exact Nat.eq_zero_of_dvd_of_lt (hcop.dvd_of_dvd_mul_right hdvd) hx

theorem shl_eq_zero_of_le (h : n ≤ k) : x * 2 ^ k % 2 ^ n = 0 :=
  Nat.mod_eq_zero_of_dvd ((Nat.pow_dvd_pow 2 h).trans (Nat.dvd_mul_left _ _))

theorem shr_eq_self_iff (hk : k ≠ 0) : x / 2 ^ k = x ↔ x = 0 := by
  rw [Nat.div_eq_self]
  exact or_iff_left (Nat.one_lt_two_pow hk).ne'

/-- Only `0` and `-1` are found again after an arithmetic shift to the right. -/
theorem sar_eq_self_iff {z : ℤ} (hk : k ≠ 0) : z / 2 ^ k = z ↔ z = 0 ∨ z = -1 := by
  have hlt : (1 : ℤ) < 2 ^ k := by exact_mod_cast Nat.one_lt_two_pow hk
  rw [Int.ediv_eq_iff_of_pos (by omega)]
  constructor
  · rintro ⟨hle, hge⟩
    have hupper : z ≤ 0 := by
      by_contra hz
      nlinarith
    have hlower : -1 ≤ z := by
      by_contra hz
      nlinarith
    omega
  · rintro (rfl | rfl) <;> omega

/-- An arithmetic shift to the right leaves only the sign of the numbers below the power. -/
theorem sar_eq_sign_iff {z : ℤ} : z / 2 ^ k = (if z < 0 then -1 else 0) ↔ InRange (2 ^ k) z := by
  unfold InRange
  push_cast
  rw [Int.ediv_eq_iff_of_pos (by positivity)]
  split_ifs <;> omega

theorem inRange_sar {h : ℕ} {z : ℤ} (hz : InRange h z) : InRange h (z / 2 ^ k) := by
  unfold InRange at *
  have hpos : (0 : ℤ) < 2 ^ k := by positivity
  have hle : (h : ℤ) ≤ h * 2 ^ k := le_mul_of_one_le_right (by omega) (by omega)
  rw [Int.le_ediv_iff_mul_le hpos, Int.ediv_lt_iff_lt_mul hpos]
  constructor
  · rw [neg_mul]
    omega
  · omega

section Two

variable {y z : ℕ}

/-- A word `y` above a word `x`, shifted to the right. -/
theorem two_shr (hk : k ≤ n) : (y * 2 ^ n + x) / 2 ^ k = y * 2 ^ (n - k) + x / 2 ^ k := by
  have hpow : y * 2 ^ n = 2 ^ k * (y * 2 ^ (n - k)) := by
    rw [Nat.mul_left_comm, ← Nat.pow_add, Nat.add_sub_cancel' hk]
  rw [hpow, Nat.mul_add_div (Nat.two_pow_pos k)]

theorem shr_lt (hx : x < 2 ^ n) (hk : k ≤ n) : x / 2 ^ k < 2 ^ (n - k) := by
  rw [Nat.div_lt_iff_lt_mul (Nat.two_pow_pos k), ← Nat.pow_add, Nat.sub_add_cancel hk]
  exact hx

theorem or_shl_eq (hx : x < 2 ^ n) (hk : k ≤ n) :
    x / 2 ^ k ||| y * 2 ^ (n - k) = (y * 2 ^ n + x) / 2 ^ k := by
  rw [two_shr hk, Nat.mul_comm y, Nat.two_pow_add_eq_or_of_lt (shr_lt hx hk), Nat.or_comm]

/-- Of the upper word only the `k` lowest bits are shifted in. -/
theorem two_shr_mod (hx : x < 2 ^ n) (hk : k ≤ n) :
    (y * 2 ^ n + x) / 2 ^ k % 2 ^ n = y % 2 ^ k * 2 ^ (n - k) + x / 2 ^ k := by
  have hlt := shr_lt hx hk
  have hsplit : 2 ^ n = 2 ^ (n - k) * 2 ^ k := by rw [← Nat.pow_add, Nat.sub_add_cancel hk]
  rw [two_shr hk, hsplit, Nat.mul_comm y, Nat.mod_mul, Nat.mul_add_mod, Nat.mod_eq_of_lt hlt,
    Nat.mul_add_div (Nat.two_pow_pos _), Nat.div_eq_of_lt hlt, Nat.add_zero, Nat.mul_comm,
    Nat.add_comm]

theorem two_shr_congr_iff (hx : x < 2 ^ n) (hk : k ≤ n) : (y * 2 ^ n + x) / 2 ^ k % 2 ^ n =
    (z * 2 ^ n + x) / 2 ^ k % 2 ^ n ↔ y % 2 ^ k = z % 2 ^ k := by
  rw [two_shr_mod hx hk, two_shr_mod hx hk, Nat.add_right_cancel_iff,
    Nat.mul_left_inj (Nat.two_pow_pos _).ne']

theorem two_shr_eq_zero_iff (hx : x < 2 ^ n) (hk : k ≤ n) :
    (y * 2 ^ n + x) / 2 ^ k % 2 ^ n = 0 ↔ y % 2 ^ k = 0 ∧ x < 2 ^ k := by
  rw [two_shr_mod hx hk, Nat.add_eq_zero_iff, Nat.div_eq_zero_iff_lt (Nat.two_pow_pos k),
    Nat.mul_eq_zero]
  exact and_congr_left' (or_iff_left (Nat.two_pow_pos _).ne')

/-- The top bit of the result is the last one that the upper word hands down. -/
theorem two_shr_top_iff (hx : x < 2 ^ n) (hk : k ≤ n) (h0 : k ≠ 0) :
    2 ^ (n - 1) ≤ (y * 2 ^ n + x) / 2 ^ k % 2 ^ n ↔ y.testBit (k - 1) := by
  have hlt : (y * 2 ^ n + x) / 2 ^ k % 2 ^ n < 2 ^ (n - 1 + 1) := by
    rw [Nat.sub_add_cancel (by omega)]
    exact Nat.mod_lt _ (Nat.two_pow_pos n)
  have hbit : ((y * 2 ^ n + x) / 2 ^ k % 2 ^ n).testBit (n - 1) = y.testBit (k - 1) := by
    rw [Nat.testBit_mod_two_pow, decide_eq_true (by omega), Bool.true_and,
      Nat.testBit_div_two_pow, Nat.mul_comm, Nat.testBit_two_pow_mul_add _ hx, if_neg (by omega)]
    congr 1
    omega
  rw [← hbit]
  constructor
  · intro hle
    exact Nat.testBit_of_two_pow_le_and_two_pow_add_one_gt hle hlt
  · intro htop
    by_contra hle
    rw [Nat.testBit_lt_two_pow (not_le.1 hle)] at htop
    exact Bool.false_ne_true htop

end Two

end BitShifts
