import I386Vm.Proofs.Negation

/-!
# The pair of the accumulator and its extension

A product of two words of a width and the dividend of a division by one take twice the width: `AX`,
`DX:AX` or `EDX:EAX`. The handlers put the two halves there one after the other, by accesses that
differ with the width; `Machine.putPair` is what they amount to.
-/

namespace I386Vm

open Bytes Prog

namespace Machine

section Halves

variable (w : Width) (s : Machine)

/-- `AL`, `AX` or `EAX`. -/
def lowHalf : BitVec 32 := s.peek w (.var .eax)

/-- `AH`, `DX` or `EDX`. -/
def highHalf : BitVec 32 :=
  match w with
  | .byte => low 8 (s.reg .eax >>> 8)
  | .word => s.peek .word (.var .edx)
  | .dword => s.peek .dword (.var .edx)

/-- `AX`, `DX:AX` or `EDX:EAX`. -/
def pair : ℕ := (s.lowHalf w).toNat + 2 ^ w.bits * (s.highHalf w).toNat

/-- Both halves written. -/
def putPair (lo hi : BitVec 32) : Machine :=
  match w with
  | .byte => s.setReg .eax (merge 16 (s.reg .eax) (low 8 lo ||| (low 8 hi <<< 8)))
  | .word => (s.poke .word (.var .eax) lo).poke .word (.var .edx) hi
  | .dword => (s.setReg .eax lo).setReg .edx hi

theorem lowHalf_lt : (s.lowHalf w).toNat < 2 ^ w.bits := s.peek_lt w _

theorem pair_congr {t : Machine} (h : s.reg = t.reg) : s.pair w = t.pair w := by
  unfold pair lowHalf highHalf peek
  rw [h]

variable (lo hi : BitVec 32)

theorem lowHalf_putPair : (s.putPair w lo hi).lowHalf w = low w.bits lo := by
  unfold lowHalf putPair
  cases w with
  | byte =>
    apply BitVec.eq_of_getLsbD_eq
    intro i _
    simp only [peek, reg_setReg, getLsbD_low, getLsbD_merge, BitVec.getLsbD_or,
      BitVec.getLsbD_shiftLeft]
    by_cases hi : i < 8
    · simp [Width.bits, Width.bytes, hi, show i < 16 by omega]
    · simp [Width.bits, Width.bytes, hi]
  | word => simp [peek, poke, setReg]
  | dword => simp [peek, setReg]

theorem highHalf_putPair : (s.putPair w lo hi).highHalf w = low w.bits hi := by
  unfold highHalf putPair
  cases w with
  | byte =>
    apply BitVec.eq_of_getLsbD_eq
    intro i _
    simp only [reg_setReg, getLsbD_low, BitVec.getLsbD_ushiftRight, getLsbD_merge,
      BitVec.getLsbD_or, BitVec.getLsbD_shiftLeft]
    by_cases hi : i < 8
    · simp [Width.bits, Width.bytes, hi, show 8 + i < 16 by omega, show 8 + i < 32 by omega]
    · simp [Width.bits, Width.bytes, hi]
  | word => simp [peek, poke, setReg]
  | dword => simp [peek, setReg]

theorem pair_putPair : (s.putPair w lo hi).pair w =
    lo.toNat % 2 ^ w.bits + 2 ^ w.bits * (hi.toNat % 2 ^ w.bits) := by
  unfold pair
  rw [lowHalf_putPair, highHalf_putPair, toNat_low, toNat_low]

/-- A product of two words that is not cut is found again. -/
theorem pair_putPair_shift {x : BitVec 32} (h : x.toNat < 2 ^ w.bits * 2 ^ w.bits) :
    (s.putPair w x (x >>> w.bits)).pair w = x.toNat := by
  rw [pair_putPair, BitVec.toNat_ushiftRight, Nat.shiftRight_eq_div_pow,
    Nat.mod_eq_of_lt (Nat.div_lt_of_lt_mul h), Nat.mod_add_div]

end Halves

section Writes

variable (s : Machine) (x y : BitVec 32)

theorem poke_word_eax : s.poke .word (.var .eax) x = s.putPair .byte x (x >>> 8) := by
  have hmerge : merge 16 (s.reg .eax) x =
      merge 16 (s.reg .eax) (low 8 x ||| (low 8 (x >>> 8) <<< 8)) := by
    apply BitVec.eq_of_getLsbD_eq
    intro i hi
    simp only [getLsbD_merge, BitVec.getLsbD_or, BitVec.getLsbD_shiftLeft, getLsbD_low,
      BitVec.getLsbD_ushiftRight]
    by_cases h8 : i < 8
    · simp [h8]
    · by_cases h16 : i < 16
      · simp [h8, h16, hi, show i - 8 < 8 by omega, show 8 + (i - 8) = i by omega]
      · simp [h16]
  exact congrArg (s.setReg .eax) hmerge

theorem poke_al_storeHigh : (s.poke .byte (.var .eax) x).setReg .eax
    (((s.poke .byte (.var .eax) x).reg .eax &&& 0xFFFF00FF) ||| (low 8 y <<< 8)) =
      s.putPair .byte x y := by
  have hmask (i : ℕ) (hi : i < 32) :
      (0xFFFF00FF : BitVec 32).getLsbD i = decide (¬ (8 ≤ i ∧ i < 16)) := by
    revert i
    decide
  have hmerge : (merge 8 (s.reg .eax) x &&& (0xFFFF00FF : BitVec 32)) ||| (low 8 y <<< 8) =
      merge 16 (s.reg .eax) (low 8 x ||| (low 8 y <<< 8)) := by
    apply BitVec.eq_of_getLsbD_eq
    intro i hi
    rw [BitVec.getLsbD_or, BitVec.getLsbD_and, hmask i hi]
    simp only [getLsbD_merge, BitVec.getLsbD_or, BitVec.getLsbD_shiftLeft, getLsbD_low]
    by_cases h8 : i < 8
    · simp [h8, show i < 16 by omega, show ¬ 8 ≤ i by omega]
    · by_cases h16 : i < 16
      · simp [h8, h16, show 8 ≤ i by omega]
      · simp [h8, h16, show ¬ i - 8 < 8 by omega]
  unfold putPair
  simp only [poke, reg_setReg]
  unfold setReg
  rw [Function.update_idem]
  exact congrArg (fun r => { s with reg := Function.update s.reg .eax r }) hmerge

theorem poke_dx_ax : (s.poke .word (.var .edx) y).poke .word (.var .eax) x =
    s.putPair .word x y := by
  unfold putPair
  simp only [poke, setReg]
  rw [Function.update_comm (show Var.edx ≠ .eax by decide)]
  rfl

theorem setReg_edx_eax : (s.setReg .edx y).setReg .eax x = s.putPair .dword x y := by
  unfold putPair setReg
  rw [Function.update_comm (show Var.edx ≠ .eax by decide)]

end Writes

/-- The bits of the registers that the pair has. -/
def InPair (w : Width) (v : Var) (i : ℕ) : Prop :=
  match w with
  | .byte => v = .eax ∧ i < 16
  | .word => (v = .eax ∨ v = .edx) ∧ i < 16
  | .dword => v = .eax ∨ v = .edx

instance (w : Width) (v : Var) (i : ℕ) : Decidable (InPair w v i) :=
  match w with
  | .byte => inferInstanceAs (Decidable (_ ∧ _))
  | .word => inferInstanceAs (Decidable (_ ∧ _))
  | .dword => inferInstanceAs (Decidable (_ ∨ _))

theorem getLsbD_reg_setReg (s : Machine) (v v' : Var) (x : BitVec 32) (i : ℕ) :
    ((s.setReg v x).reg v').getLsbD i = if v' = v then x.getLsbD i else (s.reg v').getLsbD i := by
  change (Function.update s.reg v x v').getLsbD i = _
  rw [Function.update_apply]
  split <;> rfl

theorem getLsbD_putPair (w : Width) (s : Machine) (lo hi : BitVec 32) {v : Var} {i : ℕ}
    (h : ¬ InPair w v i) : ((s.putPair w lo hi).reg v).getLsbD i = (s.reg v).getLsbD i := by
  unfold InPair at h
  unfold putPair
  cases w with
  | byte =>
    rw [getLsbD_reg_setReg]
    split
    · rename_i hv
      rw [getLsbD_merge, if_neg fun hi => h ⟨hv, hi⟩, hv]
    · rfl
  | word =>
    simp only [poke, getLsbD_reg_setReg, getLsbD_merge]
    by_cases hi : i < 16
    · have hv : ¬ v = .eax ∧ ¬ v = .edx := not_or.1 fun hv => h ⟨hv, hi⟩
      rw [if_neg hv.2, if_neg hv.1]
    · have hbits : ¬ i < Width.word.bits := hi
      rw [if_neg hbits, if_neg hbits, if_neg (show Var.edx ≠ .eax by decide)]
      split_ifs with hd ha
      · rw [hd]
      · rw [ha]
      · rfl
  | dword =>
    rw [not_or] at h
    rw [getLsbD_reg_setReg, getLsbD_reg_setReg, if_neg h.2, if_neg h.1]

end Machine

end I386Vm
