import I386Vm.Proofs.Status
import Mathlib.Tactic.NormNum

/-!
# The flags of a subtraction, as arithmetic

The operands `a` and `b` of width `w` are subtracted as 32-bit numbers. `CF` and `ZF` say what they
should: `a < b` and `a = b`. `SF` and `OF` do not, since `overflow` is the test of an addition, and
on 8 and 16 bits `sign` sees the borrow above the operand: `FlagsLess` is the relation that
`SF ≠ OF` decides.
-/

namespace I386Vm

open Bytes

namespace Width

variable (w : Width)

/-- A `w`-bit value as a two's-complement number. -/
def signed (v : BitVec 32) : ℤ := (v.setWidth w.bits).toInt

theorem signed_eq {v : BitVec 32} (h : v.toNat < 2 ^ w.bits) :
    w.signed v = if 2 * v.toNat < 2 ^ w.bits then (v.toNat : ℤ) else v.toNat - 2 ^ w.bits := by
  unfold signed
  rw [BitVec.toInt_eq_toNat_cond, BitVec.toNat_setWidth, Nat.mod_eq_of_lt h]
  push_cast
  rfl

theorem signed_inj {a b : BitVec 32} (ha : a.toNat < 2 ^ w.bits) (hb : b.toNat < 2 ^ w.bits) :
    w.signed a = w.signed b ↔ a = b := by
  refine ⟨fun h => ?_, fun h => by rw [h]⟩
  rw [w.signed_eq ha, w.signed_eq hb] at h
  have hp : ((2 ^ w.bits : ℕ) : ℤ) = 2 ^ w.bits := by push_cast; rfl
  apply BitVec.eq_of_toNat_eq
  split_ifs at h <;> omega

theorem signed_eq_zero_iff {v : BitVec 32} (hv : v.toNat < 2 ^ w.bits) :
    w.signed v = 0 ↔ v = 0 := by
  have hzero : w.signed 0 = 0 := by cases w <;> decide
  rw [← hzero, w.signed_inj hv (Nat.two_pow_pos _)]

theorem toNat_size_mul_eight : (w.size * 8).toNat = w.bits := by
  cases w <;> decide

theorem eight_le_bits : 8 ≤ w.bits := by
  cases w <;> decide

theorem bits_pos : 0 < w.bits := lt_of_lt_of_le (by decide) w.eight_le_bits

theorem dvd_two_pow_bits : 32 ∣ 2 ^ w.bits :=
  Nat.pow_dvd_pow 2 (le_trans (by decide : 5 ≤ 8) w.eight_le_bits)

/-- The words of 32 bits are those of the width, or twice as many at least. -/
theorem two_pow_bits : 2 ^ w.bits = 2 * 2 ^ (w.bits - 1) ∧
    0 < 2 ^ (w.bits - 1) ∧ (2 ^ w.bits = 2 ^ 32 ∨ 2 * 2 ^ w.bits ≤ 2 ^ 32) := by
  cases w <;> decide

end Width

theorem zero_sub_iff (a b : BitVec 32) : zero (a - b) = true ↔ a = b := by
  unfold zero
  rw [decide_eq_true_iff]
  constructor
  · intro h
    have hn : (a - b).toNat = 0 := by
      rw [h]
      rfl
    rw [BitVec.toNat_sub] at hn
    apply BitVec.eq_of_toNat_eq
    omega
  · rintro rfl
    exact BitVec.sub_self a

theorem sign_eq_le (v : BitVec 32) (base : BitVec 8) :
    sign v base = decide (2 ^ (base.toNat - 1) ≤ v.toNat) := by
  have h : v >>> (base.toNat - 1) = 0 ↔ v.toNat < 2 ^ (base.toNat - 1) := by
    rw [← BitVec.toNat_inj, BitVec.toNat_ushiftRight, Nat.shiftRight_eq_div_pow]
    exact Nat.div_eq_zero_iff_lt (Nat.two_pow_pos _)
  unfold sign
  by_cases hv : v.toNat < 2 ^ (base.toNat - 1)
  · simp [h.2 hv, not_le.2 hv]
  · have hne : v >>> (base.toNat - 1) ≠ 0#32 := mt h.1 hv
    simp [hne, not_lt.1 hv]

theorem sign_eq (w : Width) (v : BitVec 32) :
    sign v (w.size * 8) = decide (2 ^ (w.bits - 1) ≤ v.toNat) := by
  rw [sign_eq_le, w.toNat_size_mul_eight]

/-- The tests of the handlers for one bit. -/
theorem shr_and_one_ne_zero (v : BitVec 32) (k : ℕ) :
    decide ((v >>> k) &&& 1 ≠ 0) = v.getLsbD k := by
  have h1 : (1 : BitVec 32) = BitVec.twoPow 32 0 := by decide
  rw [h1, BitVec.and_twoPow, BitVec.getLsbD_ushiftRight, Nat.add_zero]
  cases v.getLsbD k <;> decide

theorem overflow_eq (w : Width) (a b r : BitVec 32) :
    overflow a b r (w.size * 8) =
      ((a.getLsbD (w.bits - 1) ^^ r.getLsbD (w.bits - 1)) &&
        (b.getLsbD (w.bits - 1) ^^ r.getLsbD (w.bits - 1))) := by
  unfold overflow
  rw [w.toNat_size_mul_eight, ← BitVec.getLsbD_xor, ← BitVec.getLsbD_xor, ← BitVec.getLsbD_and]
  exact shr_and_one_ne_zero _ _

theorem getLsbD_eq_div (v : BitVec 32) (i : ℕ) :
    v.getLsbD i = decide (v.toNat / 2 ^ i % 2 = 1) :=
  Nat.testBit_eq_decide_div_mod_eq

/-- What `SF ≠ OF` says of the signed values `x` and `y` after subtracting `y` from `x`. -/
def FlagsLess (w : Width) (x y : ℤ) : Prop :=
  (x < 0 ∧ y < 0) ∨ (x < 0 ∧ 0 ≤ y ∧ -2 ^ (w.bits - 1) ≤ x - y) ∨
    (0 ≤ x ∧ y < 0 ∧ (w = .dword → 2 ^ (w.bits - 1) ≤ x - y))

theorem decide_ne_xor_iff (S A B R : Prop) [Decidable S] [Decidable A] [Decidable B] [Decidable R] :
    decide S ≠ ((decide A ^^ decide R) && (decide B ^^ decide R)) ↔
      ¬ (S ↔ ¬ (A ↔ R) ∧ ¬ (B ↔ R)) := by
  by_cases S <;> by_cases A <;> by_cases B <;> by_cases R <;> simp_all

theorem sign_ne_overflow_iff {w : Width} {a b : BitVec 32} (ha : a.toNat < 2 ^ w.bits)
    (hb : b.toNat < 2 ^ w.bits) :
    sign (a - b) (w.size * 8) ≠ overflow a b (a - b) (w.size * 8) ↔
      FlagsLess w (w.signed a) (w.signed b) := by
  rw [sign_eq, overflow_eq, w.signed_eq ha, w.signed_eq hb]
  simp only [getLsbD_eq_div, BitVec.toNat_sub, decide_ne_xor_iff]
  unfold FlagsLess
  cases w with
  | byte =>
    norm_num [Width.bits, Width.bytes] at ha hb ⊢
    split_ifs <;> simp only [false_implies, and_true] <;> omega
  | word =>
    norm_num [Width.bits, Width.bytes] at ha hb ⊢
    split_ifs <;> simp only [false_implies, and_true] <;> omega
  | dword =>
    norm_num [Width.bits, Width.bytes] at ha hb ⊢
    split_ifs <;> omega

end I386Vm
