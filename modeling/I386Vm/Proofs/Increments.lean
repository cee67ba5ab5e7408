import I386Vm.Proofs.Differences
import I386Vm.Proofs.Sums

/-!
# `INC` and `DEC`

The two leave what `ADD` and `SUB` of 1 leave, `CF` included, which they should keep. So `DEC` has
the overflow of an addition and sees the bytes above a narrow memory operand, as `SUB` does.
-/

namespace I386Vm

open Bytes Prog TwosComplement

section Runs

variable {w : Width} {insn : CsInsn} {s : Machine}

theorem CsX86Op.IsLoc.stepReg_eq {op : CsX86Op} (h : op.IsLoc w) (s : Machine) (ht : op.type = .reg)
    (f : BitVec 32 → BitVec 32) : stepReg op.reg f = rmw w (s.opPtr op) f := by
  have hsize : regsSize op.reg = 0x8 ∨ regsSize op.reg = 0x10 ∨ regsSize op.reg = 0x20 := by
    rw [(lowRegs_spec (h.reg_mem ht)).2.2.2]
    cases w <;> decide
  unfold stepReg
  rw [if_pos hsize, h.rmwReg_eq s ht]

variable (h : insn.op1.IsLoc w)
include h

theorem incI_run : (incI insn).run s = .ok (some 0, s.sum insn w 1 0) := by
  have hd := SameData.advance s insn
  have hp := h.opPtr_congr hd
  have hrmw := @rmw_run (s.advance insn) w (s.opPtr insn.op1) (h.valid s) (· + 1)
  unfold incI Machine.sum
  rw [run_bind_ok (advance_run s insn), run_bind_ok run_get_ok]
  rcases h.cases with ⟨ht, -⟩ | ⟨ht, -⟩
  · rw [if_pos ht, h.stepReg_eq s ht, run_bind_ok hrmw, run_bind_ok (arithFlags_run _ _ _ _ _ _),
      h.peek_eq hd, h.1]
    rfl
  · rw [if_neg (by simp [ht]), if_pos ht, h.1, widthOr8_size, ← Machine.opPtr_of_mem ht, hp,
      run_bind_ok hrmw, run_bind_ok (arithFlags_run _ _ _ _ _ _), h.peek_eq hd]
    rfl

theorem decI_run : (decI insn).run s = .ok (some 0, s.subtract insn w 1) := by
  have hd := SameData.advance s insn
  have hp := h.opPtr_congr hd
  have hrmw (v : Width) := @rmw_run (s.advance insn) v (s.opPtr insn.op1) (h.valid s) (· - 1)
  unfold decI Machine.subtract
  rw [run_bind_ok (advance_run s insn), run_bind_ok run_get_ok]
  rcases h.cases with ⟨ht, -⟩ | ⟨ht, -⟩
  · have hne : insn.op1.type ≠ .mem := by simp [ht]
    rw [if_pos ht, h.stepReg_eq s ht, run_bind_ok (hrmw w),
      run_bind_ok (arithFlags_run _ _ _ _ _ _), h.peek_eq hd, h.1, if_neg hne,
      CsX86Op.wide_of_reg ht, CsX86Op.subResult_of_reg ht]
    rfl
  · have hne : insn.op1.type ≠ .reg := by simp [ht]
    rw [if_neg hne, if_pos ht, ← Machine.opPtr_of_mem ht, hp, run_bind_ok (hrmw .dword),
      run_bind_ok (arithFlags_run _ _ _ _ _ _), h.1, if_pos ht, CsX86Op.subResult_of_mem ht,
      ← h.wide_congr hd, CsX86Op.wide_of_mem ht, hp, low_dword]
    rfl

end Runs

section Spec

variable (w : Width) (x : BitVec 32) (p : Ptr) (s t : Machine)

/-- `t` has one more than `x` at `p`, the flags of that, and the carry of `s`. -/
structure IsIncrement : Prop where
  value : (t.peek w p).toNat = (x.toNat + 1) % 2 ^ w.bits
  of : t.testFlag .OF ↔ x.toNat = 2 ^ (w.bits - 1) - 1
  af : t.testFlag .AF ↔ 16 ≤ x.toNat % 16 + 1
  shows : ShowsResult w t (t.peek w p).toNat
  cf : t.testFlag .CF = s.testFlag .CF

/-- `t` has one less than `x` at `p`, the flags of that, and the carry of `s`. -/
structure IsDecrement : Prop where
  value : ((t.peek w p).toNat : ℤ) = (x.toNat - 1) % 2 ^ w.bits
  of : t.testFlag .OF ↔ x.toNat = 2 ^ (w.bits - 1)
  af : t.testFlag .AF ↔ x.toNat % 16 < 1
  shows : ShowsResult w t (t.peek w p).toNat
  cf : t.testFlag .CF = s.testFlag .CF

end Spec

theorem Width.signed_one (w : Width) : w.signed 1 = 1 := by
  cases w <;> rfl

section Flags

variable {w : Width} {insn : CsInsn} {s : Machine} (h : insn.op1.IsLoc w)
include h

theorem isIncrement_sum_iff :
    IsIncrement w (insn.op1.value w s) (s.opPtr insn.op1) s (s.sum insn w 1 0) ↔
      (s.testFlag .CF = true ↔ (insn.op1.value w s).toNat = 2 ^ w.bits - 1) := by
  have hx := CsX86Op.IsLoc.value_lt insn.op1 w s
  obtain ⟨hhalf, -, -⟩ := w.two_pow_bits
  have hone : (1 : BitVec 32).toNat < 2 ^ w.bits := Nat.one_lt_two_pow w.bits_pos.ne'
  obtain ⟨hvalue, hcf, hof, haf, hshows⟩ :=
    (@isSum_sum_iff w insn s 1 0 0 h hone rfl (Nat.zero_le 1)).2 (by simp)
  have hcarry : 2 ^ w.bits ≤ (insn.op1.value w s).toNat + 1 + 0 ↔
      (insn.op1.value w s).toNat = 2 ^ w.bits - 1 := by omega
  rw [Nat.cast_zero, add_zero, w.signed_one, signed_eq_signed hx,
    not_inRange_add_one_iff (by omega)] at hof
  constructor
  · rintro ⟨-, -, -, -, hkeep⟩
    rw [← hkeep, hcf]
    exact hcarry
  · intro hkeep
    refine ⟨hvalue, hof, haf, hshows, ?_⟩
    rw [Bool.eq_iff_iff, hcf, hkeep]
    exact hcarry

theorem subtract_one_cf (hx0 : (insn.op1.value w s).toNat ≠ 0) :
    (s.subtract insn w 1).testFlag .CF = false := by
  have hle : ¬ insn.op1.wide w s < 1 := by
    rw [BitVec.lt_def, h.toNat_wide]
    exact fun hlt => hx0 (Nat.eq_zero_of_add_eq_zero_right (Nat.lt_one_iff.1 hlt))
  rw [testFlag_subtract, decide_eq_false_iff_not]
  exact hle

omit h in
theorem nothingAbove_one_iff {x k : ℕ} (hx0 : x ≠ 0) : NothingAbove w x 1 k 0 ↔ k = 0 := by
  unfold NothingAbove
  rw [if_pos (Nat.one_le_iff_ne_zero.2 hx0)]

theorem isDecrement_subtract_iff :
    IsDecrement w (insn.op1.value w s) (s.opPtr insn.op1) s (s.subtract insn w 1) ↔
      s.testFlag .CF = false ∧ (insn.op1.value w s).toNat ≠ 0 ∧
      (insn.op1.value w s).toNat ≠ 2 ^ (w.bits - 1) ∧
      (insn.op1.type = .reg ∨ 2 ^ (w.bits - 1) ≤ (insn.op1.value w s).toNat ∨
        insn.op1.above w s = 0) := by
  have hx := CsX86Op.IsLoc.value_lt insn.op1 w s
  obtain ⟨hhalf, -, -⟩ := w.two_pow_bits
  have htoNat : (1 : BitVec 32).toNat = 1 := rfl
  have hone : (1 : BitVec 32).toNat < 2 ^ w.bits := Nat.one_lt_two_pow w.bits_pos.ne'
  have hy : (1 : BitVec 32).toNat = (1 : BitVec 32).toNat + 2 ^ w.bits * 0 := rfl
  have hflags := @subtract_flags_iff w insn s _ _ _ h hone hy
  rw [w.signed_one, signed_eq_signed hx, not_inRange_sub_one_iff (by omega),
    keepsSign_one_iff (by omega), htoNat] at hflags
  constructor
  · rintro ⟨-, hof, -, hshows, hkeep⟩
    obtain ⟨⟨hx0, hxh⟩, habove⟩ := hflags.1 ⟨hof, hshows⟩
    rw [nothingAbove_one_iff hx0] at habove
    exact ⟨hkeep.symm.trans (subtract_one_cf h hx0), hx0, hxh, habove⟩
  · rintro ⟨hkeep, hx0, hxh, habove⟩
    rw [← nothingAbove_one_iff hx0] at habove
    obtain ⟨hof, hshows⟩ := hflags.2 ⟨⟨hx0, hxh⟩, habove⟩
    exact ⟨toNat_subtract h hone hy, hof, subtract_af_iff hone hy, hshows,
      (subtract_one_cf h hx0).trans hkeep.symm⟩

end Flags

/-- `INC` is right where `CF` says already whether the word wraps. `DEC` is right where `CF` is
clear, the word is neither zero nor the lowest number, and the bytes above leave its sign and zero
alone. -/
theorem incI_decI_iff {w : Width} {insn : CsInsn} {s : Machine} (h : insn.op1.IsLoc w) :
    ((∃ t, (incI insn).run s = .ok (some 0, t) ∧
        IsIncrement w (insn.op1.value w s) (s.opPtr insn.op1) s t) ↔
      (s.testFlag .CF = true ↔ (insn.op1.value w s).toNat = 2 ^ w.bits - 1)) ∧
    ((∃ t, (decI insn).run s = .ok (some 0, t) ∧
        IsDecrement w (insn.op1.value w s) (s.opPtr insn.op1) s t) ↔
      s.testFlag .CF = false ∧ (insn.op1.value w s).toNat ≠ 0 ∧
      (insn.op1.value w s).toNat ≠ 2 ^ (w.bits - 1) ∧
      (insn.op1.type = .reg ∨ 2 ^ (w.bits - 1) ≤ (insn.op1.value w s).toNat ∨
        insn.op1.above w s = 0)) := by
  rw [incI_run h, decI_run h, exists_ok_iff, exists_ok_iff]
  exact ⟨isIncrement_sum_iff h, isDecrement_subtract_iff h⟩

def incAl : CsInsn := .bare "inc" 2 [⟨.reg .al, 1⟩]

/-- `0x7F` in `AL`, with `CF` clear: `INC` sets `OF`. -/
theorem incI_decI_al :
    (∃ t, (incI incAl).run (Machine.blank.setReg .eax 0x7F) = .ok (some 0, t) ∧
      IsIncrement .byte 0x7F (.var .eax) (Machine.blank.setReg .eax 0x7F) t) ∧
    ∃ t, (decI incAl).run (Machine.blank.setReg .eax 0x7F) = .ok (some 0, t) ∧
      IsDecrement .byte 0x7F (.var .eax) (Machine.blank.setReg .eax 0x7F) t := by
  have h := @incI_decI_iff .byte incAl (Machine.blank.setReg .eax 0x7F) (by decide)
  exact ⟨h.1.2 (by decide), h.2.2 ⟨by decide, by decide, by decide, .inl rfl⟩⟩

/-- `INC` of zero clears a carry. -/
theorem incI_not_isIncrement : ¬ ∀ (w : Width) (insn : CsInsn) (s : Machine), insn.op1.IsLoc w →
    (∃ t, (incI insn).run s = .ok (some 0, t) ∧
      IsIncrement w (insn.op1.value w s) (s.opPtr insn.op1) s t) ∧
    ∃ t, (decI insn).run s = .ok (some 0, t) ∧
      IsDecrement w (insn.op1.value w s) (s.opPtr insn.op1) s t := by
  intro hall
  have h : incAl.op1.IsLoc .byte := by decide
  obtain ⟨⟨t, hrun, hinc⟩, -⟩ := hall .byte incAl (carryAndBl 0) h
  rw [incI_run h] at hrun
  cases hrun
  exact absurd ((isIncrement_sum_iff h).1 hinc) (by decide)

end I386Vm
