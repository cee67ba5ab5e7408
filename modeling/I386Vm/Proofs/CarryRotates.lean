import I386Vm.Proofs.Rotates

/-!
# `RCL` and `RCR`

The two rotate the word with `CF` above it by the count modulo the width and one, not modulo 32
before. A rotation by nothing shifts by `-1`. `RCL` sets `CF` where any of the bits from the one
shifted out is set, and `RCR` puts `CF` where its distance from the top should be.
-/

namespace I386Vm

open Bytes Prog Rotations

/-- `CF` above the word of the width. -/
def withCarry (w : Width) (c : Bool) (x : BitVec 32) : BitVec (w.bits + 1) :=
  BitVec.cons c (x.setWidth w.bits)

section Bits

variable {w : Width} {c : Bool} {x : BitVec 32} {n i : ℕ} {s : Machine}

theorem getLsbD_withCarry (hi : i < w.bits) : (withCarry w c x).getLsbD i = x.getLsbD i := by
  unfold withCarry
  rw [BitVec.getLsbD_cons, if_neg (by omega), BitVec.getLsbD_setWidth, decide_eq_true hi,
    Bool.true_and]

theorem getLsbD_withCarry_top : (withCarry w c x).getLsbD w.bits = c := by
  unfold withCarry
  rw [BitVec.getLsbD_cons, if_pos rfl]

theorem getLsbD_carry_shl (hi : i < 32) :
    (s.carry <<< n).getLsbD i = (s.testFlag .CF && decide (i = n)) := by
  have hone (j : ℕ) : (1 : BitVec 32).getLsbD j = decide (j = 0) := by
    have h1 : (1 : BitVec 32) = BitVec.twoPow 32 0 := by decide
    rw [h1, BitVec.getLsbD_twoPow]
    simp [eq_comm]
  unfold Machine.carry
  rw [BitVec.getLsbD_shiftLeft, decide_eq_true hi, Bool.true_and]
  split_ifs with hc
  · rw [hone, hc, Bool.true_and]
    by_cases hlt : i < n
    · simp [hlt, show i ≠ n by omega]
    · simp only [hlt, decide_false, Bool.not_false, Bool.true_and, decide_eq_decide]
      omega
  · simp [hc]

end Bits

/-- The amounts of the C shifts lie in `0..31`. -/
def CarryFits (w : Width) (n : ℕ) : Prop := n ≠ 0 ∧ w.bits + 1 - n < 32 ∧ n < 32

instance (w : Width) (n : ℕ) : Decidable (CarryFits w n) := inferInstanceAs (Decidable (_ ∧ _))

section Runs

variable {w : Width} {insn : CsInsn} {s : Machine}

theorem shiftAmount_bind_error {α : Type} {z : ℤ} {body : ℕ → Exec α} {s : Machine}
    (h : ∀ k : ℕ, z = k → k < 32 → (body k).run s = .error .shift) :
    (shiftAmount z >>= body).run s = .error .shift := by
  by_cases hz : 0 ≤ z ∧ z < 32
  · have hnat : z = z.toNat := by omega
    rw [run_bind_ok (shiftAmount_run hnat (by omega) s)]
    exact h _ hnat (by omega)
  · exact run_bind_error (shiftAmount_error (by omega) s)

variable (hop : insn.op1.IsLoc w) (hc : insn.op2.IsCount)
include hop hc

theorem rclI_run : (rclI insn).run s = if CarryFits w (insn.op2.count s % (w.bits + 1)) then
    .ok (some 0, (s.advance insn).rotated w (s.opPtr insn.op1)
      ((insn.op1.value w s <<< (insn.op2.count s % (w.bits + 1))) |||
        ((insn.op1.value w s >>> (w.bits + 1 - insn.op2.count s % (w.bits + 1))) |||
          (s.carry <<< (insn.op2.count s % (w.bits + 1) - 1))))
      (decide (insn.op1.value w s >>> (w.bits - insn.op2.count s % (w.bits + 1)) ≠ 0)))
    else .error .shift := by
  have hsize : w.size.toNat * 8 = w.bits := w.toNat_size_mul
  have hlt : insn.op2.count s % (w.bits + 1) < w.bits + 1 := Nat.mod_lt _ (by omega)
  have hbits := w.bits_le
  have hsafe := hop.safe s
  unfold rclI Machine.rotated
  rw [located_run hop hc (by omega), hop.1, hsize, widthOr32_size,
    hop.opPtr_congr (SameData.advance s insn)]
  generalize insn.op2.count s % (w.bits + 1) = n at *
  split_ifs with hfit
  · obtain ⟨h0, hk, hj⟩ := hfit
    rw [run_bind_ok (shiftAmount_run (n := w.bits + 1 - n) (by omega) hk _),
      run_bind_ok (shiftAmount_run (n := n - 1) (by omega) (by omega) _),
      run_bind_ok (shiftAmount_run (n := w.bits - n) (by omega) (by omega) _),
      run_bind_ok (shiftAmount_run rfl hj _), run_bind_ok (assignFlag_run _ _ _),
      run_bind_ok (store_run (hop.valid s) _), Machine.poke_assignFlag]
    rfl
  · refine shiftAmount_bind_error fun k hk hk32 => shiftAmount_bind_error fun i hi hi32 =>
      shiftAmount_bind_error fun m hm hm32 => shiftAmount_bind_error fun j hj hj32 => ?_
    exact absurd ⟨by omega, by omega, by omega⟩ hfit

theorem rcrI_run : (rcrI insn).run s = if CarryFits w (insn.op2.count s % (w.bits + 1)) then
    .ok (some 0, (s.advance insn).rotated w (s.opPtr insn.op1)
      ((insn.op1.value w s >>> (insn.op2.count s % (w.bits + 1))) |||
        ((insn.op1.value w s <<< (w.bits + 1 - insn.op2.count s % (w.bits + 1))) |||
          (s.carry <<< (insn.op2.count s % (w.bits + 1)))))
      ((insn.op1.value w s).getLsbD (insn.op2.count s % (w.bits + 1) - 1)))
    else .error .shift := by
  have hsize : w.size.toNat * 8 = w.bits := w.toNat_size_mul
  have hlt : insn.op2.count s % (w.bits + 1) < w.bits + 1 := Nat.mod_lt _ (by omega)
  have hbits := w.bits_le
  have hsafe := hop.safe s
  unfold rcrI Machine.rotated
  rw [located_run hop hc (by omega), hop.1, hsize, widthOr32_size,
    hop.opPtr_congr (SameData.advance s insn)]
  generalize insn.op2.count s % (w.bits + 1) = n at *
  split_ifs with hfit
  · obtain ⟨h0, hk, hj⟩ := hfit
    rw [run_bind_ok (shiftAmount_run (n := w.bits + 1 - n) (by omega) hk _),
      run_bind_ok (shiftAmount_run rfl hj _),
      run_bind_ok (shiftAmount_run (n := n - 1) (by omega) (by omega) _),
      run_bind_ok (assignFlag_run _ _ _), run_bind_ok (store_run (hop.valid s) _),
      Machine.poke_assignFlag, shr_and_one_ne_zero]
    rfl
  · refine shiftAmount_bind_error fun k hk hk32 => shiftAmount_bind_error fun j hj hj32 =>
      shiftAmount_bind_error fun i hi hi32 => ?_
    exact absurd ⟨by omega, by omega, by omega⟩ hfit

end Runs

section Laws

variable {w : Width} {x : BitVec 32} {n : ℕ} {s : Machine}

/-- To the left the word is right, and so the bit above it alone can be wrong. -/
theorem setWidth_rcl (hx : x.toNat < 2 ^ w.bits) (h0 : n ≠ 0) (hn : n ≤ w.bits) :
    ((x <<< n) ||| ((x >>> (w.bits + 1 - n)) ||| (s.carry <<< (n - 1)))).setWidth w.bits =
      ((withCarry w (s.testFlag .CF) x).rotateLeft n).setWidth w.bits := by
  have hbits := w.bits_le
  apply BitVec.eq_of_getLsbD_eq
  intro i hi
  rw [BitVec.getLsbD_setWidth, BitVec.getLsbD_setWidth, BitVec.getLsbD_rotateLeft,
    Nat.mod_eq_of_lt (by omega), BitVec.getLsbD_or, BitVec.getLsbD_or, BitVec.getLsbD_shiftLeft,
    BitVec.getLsbD_ushiftRight, getLsbD_carry_shl (by omega)]
  by_cases hlt : i < n
  · by_cases htop : i = n - 1
    · have hhigh : x.getLsbD (w.bits + 1 - n + i) = false := getLsbD_of_le hx (by omega)
      rw [hhigh, show w.bits + 1 - n + i = w.bits by omega, getLsbD_withCarry_top]
      simp [htop, Nat.pos_of_ne_zero h0]
    · rw [getLsbD_withCarry (show w.bits + 1 - n + i < w.bits by omega)]
      simp [hlt, htop]
  · have hhigh : x.getLsbD (w.bits + 1 - n + i) = false := getLsbD_of_le hx (by omega)
    rw [hhigh, getLsbD_withCarry (show i - n < w.bits by omega)]
    simp [hi, hlt, show i < 32 by omega, show i ≠ n - 1 by omega, show i < w.bits + 1 by omega]

theorem rotateLeft_top {c : Bool} (h0 : n ≠ 0) (hn : n ≤ w.bits) :
    ((withCarry w c x).rotateLeft n).getLsbD w.bits = x.getLsbD (w.bits - n) := by
  rw [BitVec.getLsbD_rotateLeft, Nat.mod_eq_of_lt (by omega), decide_eq_false (by omega),
    cond_false, getLsbD_withCarry (by omega)]
  simp

/-- To the right the carry is found at bit `n` and not where it should be. -/
theorem withCarry_rcr (hx : x.toNat < 2 ^ w.bits) (h0 : n ≠ 0) (hn : n ≤ w.bits) :
    withCarry w (x.getLsbD (n - 1))
      ((x >>> n) ||| ((x <<< (w.bits + 1 - n)) ||| (s.carry <<< n))) =
      moved ((withCarry w (s.testFlag .CF) x).rotateRight n) (w.bits - n) n
        (s.testFlag .CF && decide (n < w.bits)) := by
  have hbits := w.bits_le
  apply BitVec.eq_of_getLsbD_eq
  intro i hi
  rw [getLsbD_moved _ _ _ _ hi, BitVec.getLsbD_rotateRight, Nat.mod_eq_of_lt (by omega)]
  by_cases htop : i = w.bits
  · rw [htop, getLsbD_withCarry_top, decide_eq_false (show ¬ w.bits < w.bits + 1 - n by omega),
      cond_false, getLsbD_withCarry (show w.bits - (w.bits + 1 - n) < w.bits by omega),
      show w.bits - (w.bits + 1 - n) = n - 1 by omega]
    by_cases hlt : n < w.bits
    · simp [show w.bits ≠ w.bits - n by omega, show w.bits ≠ n by omega]
    · simp [show w.bits ≠ w.bits - n by omega, hlt]
  · rw [getLsbD_withCarry (by omega), BitVec.getLsbD_or, BitVec.getLsbD_or,
      BitVec.getLsbD_shiftLeft, BitVec.getLsbD_ushiftRight, getLsbD_carry_shl (by omega)]
    have hcarry : (s.testFlag .CF && decide (n < w.bits) && decide (i = n)) =
        (s.testFlag .CF && decide (i = n)) := by
      by_cases hin : i = n
      · simp [show n < w.bits by omega]
      · simp [hin]
    rw [hcarry]
    rcases Nat.lt_trichotomy i (w.bits - n) with hlt | heq | hgt
    · rw [decide_eq_true (show i < w.bits + 1 - n by omega), cond_true,
        getLsbD_withCarry (show n + i < w.bits by omega)]
      simp [show i ≠ w.bits - n by omega]
    · rw [decide_eq_true (show i < w.bits + 1 - n by omega), getLsbD_of_le hx (by omega)]
      simp [heq]
    · rw [decide_eq_false (show ¬ i < w.bits + 1 - n by omega), cond_false,
        getLsbD_withCarry (show i - (w.bits + 1 - n) < w.bits by omega),
        getLsbD_of_le hx (show w.bits ≤ n + i by omega)]
      simp [show i ≠ w.bits - n by omega, show i < 32 by omega, hi]

theorem rotateRight_carry {c : Bool} (hn : n ≤ w.bits) :
    ((withCarry w c x).rotateRight n).getLsbD (w.bits - n) = c := by
  rw [bit_rotateRight _ _ (by omega), Nat.sub_add_cancel hn, Nat.mod_eq_of_lt (by omega),
    getLsbD_withCarry_top]

theorem withCarry_rotated {p : Ptr} [SafePtr p] (hp : p.Valid) {v : BitVec 32} {c : Bool} :
    withCarry w ((s.rotated w p v c).testFlag .CF) ((s.rotated w p v c).peek w p) =
      withCarry w c v := by
  rw [s.testFlag_rotated, if_pos rfl, s.peek_rotated w p v c hp]
  unfold withCarry
  rw [setWidth_low]

end Laws

/-- The word with `CF` above it is rotated to the left by `k`. -/
def IsRcl (w : Width) (k : ℕ) (x : BitVec 32) (p : Ptr) (s t : Machine) : Prop :=
  withCarry w (t.testFlag .CF) (t.peek w p) = (withCarry w (s.testFlag .CF) x).rotateLeft k

/-- The same to the right. -/
def IsRcr (w : Width) (k : ℕ) (x : BitVec 32) (p : Ptr) (s t : Machine) : Prop :=
  withCarry w (t.testFlag .CF) (t.peek w p) = (withCarry w (s.testFlag .CF) x).rotateRight k

/-- The count `n` of the code rotates as `k` does, and no bit above the one that is shifted out is
set without it. -/
def RclHolds (w : Width) (k n : ℕ) (x : BitVec 32) (s : Machine) : Prop :=
  CarryFits w n ∧ (withCarry w (s.testFlag .CF) x).rotateLeft n =
      (withCarry w (s.testFlag .CF) x).rotateLeft k ∧
    (x.toNat < 2 ^ (w.bits - n) ∨ x.getLsbD (w.bits - n) = true)

/-- The count `n` of the code rotates as `k` does, with the carry, if there is one, at bit `n`. -/
def RcrHolds (w : Width) (k n : ℕ) (x : BitVec 32) (s : Machine) : Prop :=
  CarryFits w n ∧ (if s.testFlag .CF = false ∨ 2 * n = w.bits
    then (withCarry w (s.testFlag .CF) x).rotateRight n
    else moved ((withCarry w (s.testFlag .CF) x).rotateRight n) (w.bits - n) n
      (decide (n < w.bits))) = (withCarry w (s.testFlag .CF) x).rotateRight k

section Holds

variable {w : Width} {insn : CsInsn} {s : Machine} {x : BitVec 32} {n k : ℕ}

theorem shr_eq_zero_iff : x >>> n = 0 ↔ x.toNat < 2 ^ n := by
  rw [← BitVec.toNat_inj, BitVec.toNat_ushiftRight, Nat.shiftRight_eq_div_pow]
  exact Nat.div_eq_zero_iff_lt (Nat.two_pow_pos n)

theorem shr_ne_zero_iff :
    decide (x >>> n ≠ 0) = x.getLsbD n ↔ x.toNat < 2 ^ n ∨ x.getLsbD n = true := by
  by_cases hlt : x.toNat < 2 ^ n
  · have hbit : x.getLsbD n = false := Nat.testBit_lt_two_pow hlt
    simp [shr_eq_zero_iff.2 hlt, hbit, hlt]
  · rw [decide_eq_true (shr_eq_zero_iff.not.2 hlt), or_iff_right hlt]
    exact eq_comm

/-- Where the carry is clear or in the middle, it is found where it should be. -/
theorem moved_rcr (h0 : n ≠ 0) (hn : n ≤ w.bits) {c : Bool} (hc : c = false ∨ 2 * n = w.bits) :
    moved ((withCarry w c x).rotateRight n) (w.bits - n) n (c && decide (n < w.bits)) =
      (withCarry w c x).rotateRight n := by
  have hbit := @rotateRight_carry w x n c hn
  rw [moved_eq_self_iff (by omega) (by omega), hbit]
  rcases hc with rfl | hmid
  · simp
  · have hsame : w.bits - n = n := by omega
    rw [hsame] at hbit ⊢
    simp [hbit, show n < w.bits by omega]

variable (hop : insn.op1.IsLoc w) (hc : insn.op2.IsCount)
include hop hc

theorem rclI_iff : (∃ r t, (rclI insn).run s = .ok (r, t) ∧
    IsRcl w k (insn.op1.value w s) (s.opPtr insn.op1) s t) ↔
    RclHolds w k (insn.op2.count s % (w.bits + 1)) (insn.op1.value w s) s := by
  have hx := CsX86Op.IsLoc.value_lt insn.op1 w s
  have hsafe := hop.safe s
  have hlt : insn.op2.count s % (w.bits + 1) < w.bits + 1 := Nat.mod_lt _ (by omega)
  unfold RclHolds IsRcl
  rw [rclI_run hop hc]
  generalize insn.op2.count s % (w.bits + 1) = n at *
  generalize insn.op1.value w s = x at *
  by_cases hfit : CarryFits w n
  · have hn : n ≤ w.bits := by omega
    have hrot := setWidth_rcl (s := s) hx hfit.1 hn
    rw [if_pos hfit, exists_run_iff, withCarry_rotated (hop.valid s), and_iff_right hfit,
      ← shr_ne_zero_iff, ← rotateLeft_top hfit.1 hn, ← cons_eq_rotateLeft_iff, ← hrot]
    rfl
  · rw [if_neg hfit]
    exact iff_of_false (fun ⟨_, _, h, _⟩ => nomatch h) fun h => hfit h.1

theorem rcrI_iff : (∃ r t, (rcrI insn).run s = .ok (r, t) ∧
    IsRcr w k (insn.op1.value w s) (s.opPtr insn.op1) s t) ↔
    RcrHolds w k (insn.op2.count s % (w.bits + 1)) (insn.op1.value w s) s := by
  have hx := CsX86Op.IsLoc.value_lt insn.op1 w s
  have hsafe := hop.safe s
  have hlt : insn.op2.count s % (w.bits + 1) < w.bits + 1 := Nat.mod_lt _ (by omega)
  unfold RcrHolds IsRcr
  rw [rcrI_run hop hc]
  generalize insn.op2.count s % (w.bits + 1) = n at *
  generalize insn.op1.value w s = x at *
  by_cases hfit : CarryFits w n
  · have hn : n ≤ w.bits := by omega
    rw [if_pos hfit, exists_run_iff, withCarry_rotated (hop.valid s), and_iff_right hfit,
      withCarry_rcr hx hfit.1 hn]
    split_ifs with hmid
    · rw [moved_rcr hfit.1 hn hmid]
    · rw [not_or, Bool.not_eq_false] at hmid
      rw [hmid.1, Bool.true_and]
  · rw [if_neg hfit]
    exact iff_of_false (fun ⟨_, _, h, _⟩ => nomatch h) fun h => hfit h.1

end Holds

/-- What `RCR` finds again: nothing was set above the bit that `RCL` shifted out, or the bit at the
carry's place and the one at `n` are as the carry makes them. -/
def RclRcrHolds (w : Width) (n : ℕ) (x : BitVec 32) : Prop :=
  CarryFits w n ∧ (x.toNat < 2 ^ (w.bits - n) ∨
    (x.getLsbD (w.bits - n) = decide (2 * n = w.bits) ∧ (n < w.bits → x.getLsbD n = true)))

section Back

variable {w : Width} {x y v : BitVec 32} {n : ℕ} {c d : Bool}

theorem withCarry_inj (hx : x.toNat < 2 ^ w.bits) (hy : y.toNat < 2 ^ w.bits) :
    withCarry w c x = withCarry w d y ↔ x = y ∧ c = d := by
  constructor
  · intro h
    have hword : x.setWidth w.bits = y.setWidth w.bits := by
      have hcut := congrArg (BitVec.setWidth w.bits) h
      unfold withCarry at hcut
      rwa [BitVec.setWidth_cons, BitVec.setWidth_cons] at hcut
    refine ⟨?_, ?_⟩
    · rw [← low_of_lt hx, ← low_of_lt hy]
      exact congrArg (BitVec.setWidth 32) hword
    · rw [← @getLsbD_withCarry_top w c x, h, getLsbD_withCarry_top]
  · rintro ⟨rfl, rfl⟩
    rfl

/-- The word that `RCL` leaves is the right one, so `RCR` has every bit but the carry. -/
theorem moved_rcl_rcr (hn : n ≤ w.bits)
    (hv : v.setWidth w.bits = ((withCarry w c x).rotateLeft n).setWidth w.bits) (b : Bool) :
    moved ((withCarry w d v).rotateRight n) (w.bits - n) n b =
      moved (withCarry w c x) (w.bits - n) n b := by
  refine moved_congr (fun l hl hne => ?_) n b
  have hlt : (l + n) % (w.bits + 1) < w.bits + 1 := Nat.mod_lt _ (by omega)
  have hmod : (l + n) % (w.bits + 1) ≠ w.bits := by
    rcases Nat.lt_or_ge (l + n) (w.bits + 1) with hle | hge
    · rw [Nat.mod_eq_of_lt hle]
      omega
    · rw [Nat.mod_eq_sub_mod hge, Nat.mod_eq_of_lt (by omega)]
      omega
  have hbit : v.getLsbD ((l + n) % (w.bits + 1)) =
      ((withCarry w c x).rotateLeft n).getLsbD ((l + n) % (w.bits + 1)) := by
    have hcut := congrArg (BitVec.getLsbD · ((l + n) % (w.bits + 1))) hv
    simpa only [BitVec.getLsbD_setWidth, show (l + n) % (w.bits + 1) < w.bits by omega,
      decide_true, Bool.true_and] using hcut
  rw [bit_rotateRight _ _ hl, getLsbD_withCarry (by omega), hbit, ← bit_rotateRight _ _ hl,
    rotateRight_rotateLeft]

/-- The carry that `RCL` computes leaves the operand as it is. -/
theorem moved_eq_withCarry_iff (h0 : n ≠ 0) (hn : n ≤ w.bits) :
    moved (withCarry w c x) (w.bits - n) n
        (decide (x >>> (w.bits - n) ≠ 0) && decide (n < w.bits)) = withCarry w c x ↔
      x.toNat < 2 ^ (w.bits - n) ∨
        (x.getLsbD (w.bits - n) = decide (2 * n = w.bits) ∧ (n < w.bits → x.getLsbD n = true)) := by
  rw [moved_eq_self_iff (by omega) (by omega), getLsbD_withCarry (by omega)]
  by_cases hlt : x.toNat < 2 ^ (w.bits - n)
  · have hbit : x.getLsbD (w.bits - n) = false := Nat.testBit_lt_two_pow hlt
    simp [shr_eq_zero_iff.2 hlt, hbit, hlt]
  · have hmid : (decide (n < w.bits) && decide (w.bits - n = n)) = decide (2 * n = w.bits) := by
      rw [← Bool.decide_and, decide_eq_decide]
      omega
    rw [decide_eq_true (shr_eq_zero_iff.not.2 hlt), or_iff_right hlt, Bool.true_and, hmid,
      decide_eq_true_eq]
    refine and_congr_right' (imp_congr_right fun hnw => ?_)
    rw [getLsbD_withCarry hnw]

end Back

theorem rclI_rcrI_restores_iff {w : Width} {rcl rcr : CsInsn} {s : Machine}
    (hrcl : rcl.op1.IsLoc w) (hcount : rcl.op2.IsCount) (hrcr : rcr.op1.IsLoc w)
    (hcount' : rcr.op2.IsCount) (hsame : Repeats rclI rcl rcr s) :
    Restores rclI rcrI w rcl rcr s (fun u => u.testFlag .CF = s.testFlag .CF) ↔
      RclRcrHolds w (rcl.op2.count s % (w.bits + 1)) (rcl.op1.value w s) := by
  have hx := CsX86Op.IsLoc.value_lt rcl.op1 w s
  have hsafe := hrcl.safe s
  have hvalid := hrcl.valid s
  have hlt : rcl.op2.count s % (w.bits + 1) < w.bits + 1 := Nat.mod_lt _ (by omega)
  have hrun := rclI_run (s := s) hrcl hcount
  unfold Restores RclRcrHolds
  rw [hrun]
  by_cases hfit : CarryFits w (rcl.op2.count s % (w.bits + 1))
  · rw [if_pos hfit] at hrun ⊢
    obtain ⟨hptr, hagain⟩ := hsame _ _ hrun
    have hn : rcl.op2.count s % (w.bits + 1) ≤ w.bits := by omega
    have hrcl := (setWidth_low w.bits _).trans (setWidth_rcl (s := s) hx hfit.1 hn)
    rw [exists_run_iff, rcrI_run hrcr hcount', hagain, if_pos hfit, exists_run_iff, hptr,
      value_rotated hvalid hptr, ← withCarry_inj (Machine.peek_lt _ w _) hx,
      withCarry_rotated hvalid, withCarry_rcr (toNat_low_lt _ _) hfit.1 hn,
      moved_rcl_rcr hn hrcl, Machine.testFlag_rotated, if_pos rfl,
      moved_eq_withCarry_iff hfit.1 hn]
    exact (and_iff_right hfit).symm
  · rw [if_neg hfit]
    exact iff_of_false (fun ⟨_, _, h, _⟩ => nomatch h) fun h => hfit h.1

/-- `RCL` and `RCR` rotate the word and `CF` by the count exactly where `RclHolds` and `RcrHolds`,
and the second undoes the first exactly where `RclRcrHolds`. -/
theorem rclI_rcrI_iff {w : Width} {insn : CsInsn} {dst cnt : CsX86Op} {s : Machine}
    (h : insn.operands = [dst, cnt]) (hdst : dst.IsLoc w) (hcnt : cnt.IsCount) :
    ((∃ r t, (rclI insn).run s = .ok (r, t) ∧
      IsRcl w (cnt.count s % 32 % (w.bits + 1)) (dst.value w s) (s.opPtr dst) s t) ↔
      RclHolds w (cnt.count s % 32 % (w.bits + 1)) (cnt.count s % (w.bits + 1))
        (dst.value w s) s) ∧
    ((∃ r t, (rcrI insn).run s = .ok (r, t) ∧
      IsRcr w (cnt.count s % 32 % (w.bits + 1)) (dst.value w s) (s.opPtr dst) s t) ↔
      RcrHolds w (cnt.count s % 32 % (w.bits + 1)) (cnt.count s % (w.bits + 1))
        (dst.value w s) s) ∧
    ∀ rcr : CsInsn, rcr.op1.IsLoc w → rcr.op2.IsCount → Repeats rclI insn rcr s →
      (Restores rclI rcrI w insn rcr s (fun u => u.testFlag .CF = s.testFlag .CF) ↔
        RclRcrHolds w (cnt.count s % (w.bits + 1)) (dst.value w s)) := by
  have h1 : insn.op1 = dst := op1_of_cons h
  have h2 : insn.op2 = cnt := op2_of_cons h
  subst h1 h2
  exact ⟨rclI_iff hdst hcnt, rcrI_iff hdst hcnt,
    fun rcr hrcr hcount hsame => rclI_rcrI_restores_iff hdst hcnt hrcr hcount hsame⟩

/-- Both rotate `0x15` with a clear carry by 1, and undo each other. -/
theorem rclI_rcrI_one :
    (∃ r t, (rclI (rolAl 1)).run (twice 0x15 0) = .ok (r, t) ∧
      IsRcl .byte 1 0x15 (.var .eax) (twice 0x15 0) t) ∧
    (∃ r t, (rcrI (rolAl 1)).run (twice 0x15 0) = .ok (r, t) ∧
      IsRcr .byte 1 0x15 (.var .eax) (twice 0x15 0) t) ∧
    Restores rclI rcrI .byte (rolAl 1) (rolAl 1) (twice 0x15 0)
      (fun u => u.testFlag .CF = (twice 0x15 0).testFlag .CF) := by
  have hall := @rclI_rcrI_iff .byte (rolAl 1) ⟨.reg .al, 1⟩ ⟨.imm 1, 1⟩ (twice 0x15 0) rfl
    (by decide) (by decide)
  have hsame : Repeats rclI (rolAl 1) (rolAl 1) (twice 0x15 0) := by
    intro r t _
    exact ⟨rfl, rfl⟩
  unfold RclHolds RcrHolds RclRcrHolds at hall
  exact ⟨hall.1.2 (by decide), hall.2.1.2 (by decide),
    (hall.2.2 (rolAl 1) (by decide) (by decide) hsame).2 (by decide)⟩

/-- `RCL AL, 0` shifts by `-1`. -/
theorem rclI_not_isRcl : ¬ ∀ (w : Width) (insn : CsInsn) (dst cnt : CsX86Op) (s : Machine),
    insn.operands = [dst, cnt] → dst.IsLoc w → cnt.IsCount →
    ∃ r t, (rclI insn).run s = .ok (r, t) ∧
      IsRcl w (cnt.count s % 32 % (w.bits + 1)) (dst.value w s) (s.opPtr dst) s t := by
  intro hall
  obtain ⟨r, t, hrun, -⟩ := hall .byte (rolAl 0) ⟨.reg .al, 1⟩ ⟨.imm 0, 1⟩ (twice 1 0) rfl
    (by decide) (by decide)
  exact nomatch hrun

end I386Vm
