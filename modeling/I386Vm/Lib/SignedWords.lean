import I386Vm.Lib.TwosComplement
import Mathlib.Algebra.Order.Ring.Int
import Mathlib.Tactic.Ring

/-!
# Signed words

A word of `n` bits stands for a number of `InRange (2 ^ (n - 1))`. A number keeps its value in a
word that is wide enough, so a product of words that were sign-extended to twice their width is
exact, and whether a number fits a narrower word shows by cutting and extending it again.
-/

namespace TwosComplement

variable {n m : ℕ}

theorem two_mul_two_pow_pred (hn : 0 < n) : 2 * 2 ^ (n - 1) = 2 ^ n := by
  rw [← Nat.pow_succ', Nat.succ_eq_add_one, Nat.sub_add_cancel hn]

theorem toInt_eq_signed (hn : 0 < n) (v : BitVec n) :
    v.toInt = signed (2 ^ (n - 1)) v.toNat := by
  have hhalf := two_mul_two_pow_pred hn
  unfold signed
  rw [BitVec.toInt_eq_toNat_cond, ← hhalf]
  generalize 2 ^ (n - 1) = h
  split_ifs <;> omega

theorem inRange_toInt (hn : 0 < n) (v : BitVec n) : InRange (2 ^ (n - 1)) v.toInt := by
  have hhalf := two_mul_two_pow_pred hn
  have hlt := v.isLt
  rw [toInt_eq_signed hn]
  unfold InRange signed
  split_ifs <;> omega

/-- A number of the range is found again in the word that it is put into. -/
theorem bmod_of_inRange (hn : 0 < n) {z : ℤ} (h : InRange (2 ^ (n - 1)) z) :
    z.bmod (2 ^ n) = z := by
  rw [← two_mul_two_pow_pred hn]
  unfold InRange at h
  generalize 2 ^ (n - 1) = k at *
  exact Int.bmod_eq_of_le_mul_two (by omega) (by omega)

theorem inRange_bmod (hn : 0 < n) (z : ℤ) : InRange (2 ^ (n - 1)) (z.bmod (2 ^ n)) := by
  rw [← BitVec.toInt_ofInt]
  exact inRange_toInt hn _

/-- A number is in the range exactly where its word stands for it. -/
theorem inRange_iff_bmod (hn : 0 < n) {z : ℤ} : InRange (2 ^ (n - 1)) z ↔ z.bmod (2 ^ n) = z :=
  ⟨bmod_of_inRange hn, fun h => h ▸ inRange_bmod hn z⟩

theorem inRange_mono {h k : ℕ} (hk : h ≤ k) {z : ℤ} (hz : InRange h z) : InRange k z := by
  unfold InRange at *
  omega

theorem toInt_setWidth (hn : n ≤ m) (v : BitVec m) :
    (v.setWidth n).toInt = v.toInt.bmod (2 ^ n) := by
  rw [BitVec.toInt_setWidth, BitVec.toInt_eq_toNat_bmod,
    Int.bmod_bmod_of_dvd (Nat.pow_dvd_pow 2 hn)]

theorem setWidth_signExtend {k : ℕ} (hk : k ≤ m) (v : BitVec n) :
    (v.signExtend m).setWidth k = v.signExtend k := by
  apply BitVec.eq_of_getLsbD_eq
  intro i hi
  rw [BitVec.getLsbD_setWidth, BitVec.getLsbD_signExtend, BitVec.getLsbD_signExtend]
  simp [hi, lt_of_lt_of_le hi hk]

/-- A mask of the bits that a word has takes nothing from it. -/
theorem setWidth_and_mask (v : BitVec n) {mask : BitVec m} (hmask : mask.toNat = 2 ^ n - 1) :
    v.setWidth m &&& mask = v.setWidth m := by
  apply BitVec.eq_of_toNat_eq
  rw [BitVec.toNat_and, hmask, Nat.and_two_pow_sub_one_eq_mod, Nat.mod_eq_of_lt]
  rw [BitVec.toNat_setWidth]
  exact lt_of_le_of_lt (Nat.mod_le _ _) v.isLt

/-- A word is the extension of its low bits exactly where they stand for the same number. -/
theorem signExtend_setWidth_eq_iff (hn : 0 < n) (hm : n ≤ m) (v : BitVec m) :
    (v.setWidth n).signExtend m = v ↔ InRange (2 ^ (n - 1)) v.toInt := by
  rw [← BitVec.toInt_inj, BitVec.toInt_signExtend_of_le hm, toInt_setWidth hm, inRange_iff_bmod hn]

/-- A product of words is exact in a word of twice their width. -/
theorem inRange_mul (hn : 0 < n) (hm : 2 * n ≤ m) (x y : BitVec n) :
    InRange (2 ^ (m - 1)) (x.toInt * y.toInt) := by
  have hle := @BitVec.toInt_mul_toInt_le n x y
  have hge := @BitVec.le_toInt_mul_toInt n x y
  have hlt : (2 : ℤ) ^ (n * 2 - 2) < 2 ^ (m - 1) := pow_lt_pow_right₀ (by omega) (by omega)
  unfold InRange
  push_cast
  omega

theorem toInt_mul_signExtend (hn : 0 < n) (hm : 2 * n ≤ m) (x y : BitVec n) :
    (x.signExtend m * y.signExtend m).toInt = x.toInt * y.toInt := by
  rw [BitVec.toInt_mul, BitVec.toInt_signExtend_of_le (by omega),
    BitVec.toInt_signExtend_of_le (by omega), bmod_of_inRange (by omega) (inRange_mul hn hm x y)]

/-- The bits of a product of words are those of the product of the numbers. -/
theorem toNat_mul_eq_emod (x y : BitVec n) :
    ((x * y).toNat : ℤ) = x.toInt * y.toInt % (2 ^ n : ℕ) := by
  have hmod : ((x * y).toNat : ℤ) = (x * y).toInt % (2 ^ n : ℕ) := by
    rw [BitVec.toInt_eq_toNat_bmod, Int.bmod_emod]
    exact (Int.emod_eq_of_lt (by omega) (by exact_mod_cast (x * y).isLt)).symm
  rw [hmod, BitVec.toInt_mul, Int.bmod_emod]

/-- The low bits of a product are the product of the low bits, whatever is above them. -/
theorem setWidth_mul_signExtend (hn : n ≤ m) (x y : BitVec m) :
    ((x.setWidth n).signExtend m * (y.setWidth n).signExtend m).setWidth n =
      (x * y).setWidth n := by
  rw [BitVec.setWidth_mul _ _ hn, BitVec.setWidth_mul _ _ hn, setWidth_signExtend hn,
    setWidth_signExtend hn, BitVec.signExtend_eq, BitVec.signExtend_eq]

theorem inRange_of_natAbs_lt {h : ℕ} {z : ℤ} (hz : z.natAbs < h) : InRange h z := by
  unfold InRange
  omega

theorem natAbs_le_of_inRange {h : ℕ} {z : ℤ} (hz : InRange h z) : z.natAbs ≤ h := by
  unfold InRange at hz
  omega

theorem inRange_tmod {h : ℕ} {x y : ℤ} (hy : InRange h y) (hne : y ≠ 0) :
    InRange h (x.tmod y) := by
  refine inRange_of_natAbs_lt (lt_of_lt_of_le ?_ (natAbs_le_of_inRange hy))
  rw [Int.natAbs_tmod]
  exact Nat.mod_lt _ (Int.natAbs_pos.2 hne)

/-- Only the least number of a range has a quotient outside it, and that by `-1`. -/
theorem inRange_tdiv {h : ℕ} {x y : ℤ} (hx : InRange h x) (hne : ¬ (x = -h ∧ y = -1)) :
    InRange h (x.tdiv y) := by
  have hle := natAbs_le_of_inRange hx
  have hq : (x.tdiv y).natAbs = x.natAbs / y.natAbs := Int.natAbs_tdiv x y
  have hpos : 0 < h := by
    unfold InRange at hx
    omega
  obtain hlt | heq : x.natAbs < h ∨ x = -h := by
    unfold InRange at hx
    omega
  · exact inRange_of_natAbs_lt (hq ▸ lt_of_le_of_lt (Nat.div_le_self _ _) hlt)
  · have hy : y ≠ -1 := fun hy => hne ⟨heq, hy⟩
    rcases eq_or_ne y 1 with rfl | h1
    · rwa [Int.tdiv_one]
    · refine inRange_of_natAbs_lt ?_
      rw [hq]
      rcases Nat.eq_zero_or_pos y.natAbs with h0 | h0
      · rwa [h0, Nat.div_zero]
      · exact lt_of_lt_of_le (Nat.div_lt_self (by omega) (by omega)) hle

/-- The quotient of words is the truncated one, but for the least number divided by `-1`. -/
theorem toInt_sdiv_cases (hn : 0 < n) (x y : BitVec n) :
    (x.sdiv y).toInt = x.toInt.tdiv y.toInt ∨
      ((x.sdiv y).toInt = -(2 ^ (n - 1) : ℕ) ∧ x.toInt.tdiv y.toInt = (2 ^ (n - 1) : ℕ)) := by
  have hx := natAbs_le_of_inRange (inRange_toInt hn x)
  have hq := Int.natAbs_tdiv_le_natAbs x.toInt y.toInt
  have hhalf := two_mul_two_pow_pred hn
  rw [BitVec.toInt_sdiv]
  generalize x.toInt.tdiv y.toInt = z at hq ⊢
  by_cases hz : z = (2 ^ (n - 1) : ℕ)
  · refine .inr ⟨?_, hz⟩
    rw [hz, Int.bmod_eq_neg (Int.natCast_nonneg _) (by exact_mod_cast hhalf.symm)]
  · refine .inl (bmod_of_inRange hn ?_)
    unfold InRange
    omega

theorem inRange_sdiv_iff (hn : 0 < n) {h : ℕ} (hh : h < 2 ^ (n - 1)) (x y : BitVec n) :
    InRange h (x.sdiv y).toInt ↔ InRange h (x.toInt.tdiv y.toInt) := by
  rcases toInt_sdiv_cases hn x y with hq | ⟨hq, hz⟩
  · rw [hq]
  · rw [hq, hz]
    unfold InRange
    omega

theorem toInt_sdiv_of_inRange (hn : 0 < n) {x y : BitVec n}
    (hq : InRange (2 ^ (n - 1)) (x.toInt.tdiv y.toInt)) :
    (x.sdiv y).toInt = x.toInt.tdiv y.toInt := by
  rw [BitVec.toInt_sdiv, bmod_of_inRange hn hq]

theorem tdiv_eq_zero_iff {x y : ℤ} (hy : y ≠ 0) : x.tdiv y = 0 ↔ x.natAbs < y.natAbs := by
  rw [← Int.natAbs_eq_zero, Int.natAbs_tdiv]
  exact Nat.div_eq_zero_iff_lt (Int.natAbs_pos.2 hy)

/-- Two numbers divide a third alike where they are equal, or both exceed it. -/
theorem tdiv_tmod_alike_iff {x y z : ℤ} (hy : y ≠ 0) (hz : z ≠ 0) :
    x.tdiv z = x.tdiv y ∧ x.tmod z = x.tmod y ↔
      z = y ∨ (x.natAbs < y.natAbs ∧ x.natAbs < z.natAbs) := by
  have hsum := Int.mul_tdiv_add_tmod x y
  have hsum' := Int.mul_tdiv_add_tmod x z
  constructor
  · rintro ⟨hq, hr⟩
    rw [hq, hr] at hsum'
    rcases eq_or_ne (x.tdiv y) 0 with h0 | h0
    · exact .inr ⟨(tdiv_eq_zero_iff hy).1 h0, (tdiv_eq_zero_iff hz).1 (hq.trans h0)⟩
    · have hmul : z * x.tdiv y = y * x.tdiv y := by omega
      exact .inl (mul_right_cancel₀ h0 hmul)
  · rintro (rfl | ⟨hlt, hlt'⟩)
    · exact ⟨rfl, rfl⟩
    · rw [← tdiv_eq_zero_iff hy] at hlt
      rw [← tdiv_eq_zero_iff hz] at hlt'
      rw [hlt, mul_zero, zero_add] at hsum
      rw [hlt', mul_zero, zero_add] at hsum'
      rw [hlt, hlt', hsum, hsum']
      exact ⟨rfl, rfl⟩

theorem and_twoPow_ne_zero_iff (v : BitVec (n + 1)) :
    v &&& BitVec.twoPow (n + 1) n ≠ 0 ↔ v.msb = true := by
  have hpow : BitVec.twoPow (n + 1) n ≠ 0 := by
    intro h
    have hbit := congrArg (fun x => x.getLsbD n) h
    simp at hbit
  rw [BitVec.and_twoPow, BitVec.msb_eq_getLsbD_last, Nat.add_sub_cancel]
  split
  · rename_i h
    exact iff_of_true hpow h
  · rename_i h
    exact iff_of_false (fun hne => hne rfl) h

/-- The mask of the upper bits, or-ed to a word that has its top bit set, extends its sign. -/
theorem or_mask_eq_signExtend (v : BitVec (n + 1)) :
    (if v &&& BitVec.twoPow (n + 1) n ≠ 0 then
      v.setWidth m ||| (BitVec.allOnes m <<< (n + 1)) else v.setWidth m) = v.signExtend m := by
  apply BitVec.eq_of_getLsbD_eq
  intro i hi
  simp only [and_twoPow_ne_zero_iff, BitVec.getLsbD_signExtend]
  split
  · rename_i h
    by_cases hn : i < n + 1 <;> simp [h, hi, hn]
  · rename_i h
    by_cases hn : i < n + 1
    · simp [hi, hn]
    · simp [h, hi, hn, BitVec.getLsbD_of_ge v i (by omega)]

end TwosComplement
