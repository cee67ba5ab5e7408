import I386Vm.Proofs.Differences
import I386Vm.Proofs.Test

/-!
# The arithmetic handlers on immediates

The runs of the arithmetic handlers once more, with a second operand that is a register, memory or
an immediate of the width.
-/

namespace I386Vm

open Bytes Prog

section Sources

variable {w : Width} {s : Machine} {op op1 op2 : CsX86Op}

/-- Where memory operands have 32 bits, `sub_i` and `dec_i` see the operands alone. -/
theorem wide_eq_value (hw : op.type = .mem → w = .dword) : op.wide w s = op.value w s := by
  unfold CsX86Op.wide
  split
  · rename_i ht
    rw [hw ht]
    rfl
  · rfl

theorem subResult_eq (hw : op.type = .mem → w = .dword) (x : BitVec 32) :
    op.subResult w s x = low w.bits (op.value w s - x) := by
  unfold CsX86Op.subResult
  split
  · rename_i ht
    rw [wide_eq_value hw, hw ht, low_dword]
  · rfl

/-- An immediate of the width of the first operand is not extended. -/
theorem immExtended_eq (h : op2.size = op1.size) :
    immExtended op1 op2 = op2.imm.setWidth 32 := by
  unfold immExtended
  rw [h]
  split_ifs with h1 h2 h4
  · exact absurd (h1.symm.trans h2) (by decide)
  · exact absurd (h1.symm.trans h4) (by decide)
  · rfl
  · rfl

variable (h1 : op1.size = w.size) (h2 : op2.IsLogicSource w)
include h1 h2

theorem subSrc_operand (hw : op2.type = .mem → w = .dword) :
    (subSrc op1 op2).run s = .ok (op2.operand w s, s) := by
  rcases h2 with hl | ⟨ht, hs⟩
  · rw [subSrc_run hl, hl.operand_eq, wide_eq_value hw]
  · unfold subSrc CsX86Op.operand
    rw [run_bind_ok run_get_ok, if_neg (by simp [ht]), if_pos ht, if_pos ht,
      immExtended_eq (hs.trans h1.symm)]
    rfl

theorem cmpSrc_operand : (cmpSrc op1 op2).run s = .ok (op2.operand w s, s) := by
  rcases h2 with hl | ⟨ht, hs⟩
  · rw [cmpSrc_run hl, hl.operand_eq]
  · unfold cmpSrc CsX86Op.operand
    rw [run_bind_ok run_get_ok, if_neg (by simp [ht]), if_pos ht, if_pos ht,
      immExtended_eq (hs.trans h1.symm)]
    rfl

end Sources

section Runs

variable {w : Width} {s : Machine} {insn : CsInsn} (h1 : insn.op1.IsLoc w)
  (h2 : insn.op2.IsLogicSource w)
include h1 h2

theorem subI_operand_run (hw : insn.op2.type = .mem → w = .dword) :
    (subI insn).run s = .ok (some 0, s.subtract insn w (insn.op2.operand w s)) := by
  have hd := SameData.advance s insn
  unfold subI
  rw [run_bind_ok (advance_run s insn), run_bind_ok (subSrc_operand h1.1 h2 hw),
    operand_congr (h2.imp_right And.left) hd, run_bind_ok (subDst_run h1 _),
    run_bind_ok (arithFlags_run _ _ _ _ _ _), h1.1, h1.wide_congr hd, h1.opPtr_congr hd]
  unfold Machine.subtract CsX86Op.subResult
  rw [h1.wide_congr hd, h1.value_congr hd]
  rfl

theorem cmpI_operand_run (hb : (insn.op2.operand w s).toNat < 2 ^ w.bits) :
    (cmpI insn).run s = .ok (some 0, (s.advance insn).withArith
      (insn.op1.value w s < insn.op2.operand w s) (insn.op1.value w s) (insn.op2.operand w s)
      (insn.op1.value w s - insn.op2.operand w s) (w.size * 8)) := by
  have hd := SameData.advance s insn
  unfold cmpI
  rw [run_bind_ok (advance_run s insn), run_bind_ok (cmpSrc_operand h1.1 h2),
    operand_congr (h2.imp_right And.left) hd, run_bind_ok (cmpDst_run h1 hb),
    run_bind_ok (arithFlags_run _ _ _ _ _ _), h1.1, h1.value_congr hd]
  rfl

/-- The carry out of `sbb_i` is added to the second operand for `OF` and `AF`. -/
theorem sbbI_operand_run : (sbbI insn).run s = .ok (some 0,
    ((s.advance insn).poke w (s.opPtr insn.op1)
      (insn.op1.value w s - insn.op2.operand w s - s.carry)).withArith
      (insn.op1.value w s < insn.op2.operand w s + s.carry) (insn.op1.value w s)
      (insn.op2.operand w s +
        if insn.op1.value w s < insn.op2.operand w s + s.carry then 1 else 0)
      (low w.bits (insn.op1.value w s - insn.op2.operand w s - s.carry)) (w.size * 8)) := by
  have hd := SameData.advance s insn
  have hrmw := @rmw_run (s.advance insn) w ((s.advance insn).opPtr insn.op1) (h1.valid _)
    (fun old => old - insn.op2.operand w s - (s.advance insn).carry)
  have hcarry : (((s.advance insn).poke w (s.opPtr insn.op1)
      (insn.op1.value w s - insn.op2.operand w s - s.carry)).assignFlag .CF
        (insn.op1.value w s < insn.op2.operand w s + s.carry)).carry =
      if insn.op1.value w s < insn.op2.operand w s + s.carry then 1 else 0 := by
    unfold Machine.carry
    rw [Machine.testFlag_assignFlag]
    simp
  unfold sbbI
  rw [run_bind_ok (advance_run s insn), run_bind_ok run_get_ok,
    run_bind_ok (sbbSrc_operand h1.1 h2), operand_congr (h2.imp_right And.left) hd, h1.1,
    widthOr32_size, run_bind_ok hrmw, h1.opPtr_congr hd, h1.peek_eq hd, ← hcarry]
  rfl

end Runs

end I386Vm
