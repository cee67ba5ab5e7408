import I386Vm.Proofs.Signed

/-!
# The four subtractions that set the flags

`cmp_i`, `sub_i`, the `cmps` handlers and `scas_i` each leave the flags of `withArith` behind, with
their own idea of the operands and of the result: `cmp_i` and `scas_i` keep a 32-bit difference,
`cmps` and a register destination of `sub_i` cut it to the width, and `sub_i` reads its memory
operands as 32 bits.
-/

namespace I386Vm

open Bytes Prog

section Operands

variable {w : Width} {op1 op2 : CsX86Op} {s : Machine}

theorem cmpSrc_run (h2 : op2.IsLoc w) : (cmpSrc op1 op2).run s = .ok (op2.value w s, s) := by
  have hl := h2.load_eq s
  unfold cmpSrc
  rw [run_bind_ok run_get_ok, h2.1, widthOr32_size]
  rcases h2.cases with ⟨ht, -⟩ | ⟨ht, -⟩ <;> simpa [ht] using hl

/-- The difference of `cmp_i`: a register cuts the second value to its width, memory does not. -/
def CsX86Op.cmpResult (op : CsX86Op) (w : Width) (s : Machine) (val2 : BitVec 32) : BitVec 32 :=
  op.value w s - if op.type = .reg then low w.bits val2 else val2

theorem cmpDst_run_eq (h1 : op1.IsLoc w) (val2 : BitVec 32) :
    (cmpDst op1 val2).run s = .ok ((op1.value w s, op1.cmpResult w s val2), s) := by
  have hl := h1.load_eq s
  unfold cmpDst CsX86Op.cmpResult
  rw [run_bind_ok run_get_ok, h1.1, widthOr32_size]
  rcases h1.cases with ⟨ht, -⟩ | ⟨ht, -⟩
  · rw [if_pos ht] at hl ⊢
    rw [run_bind_ok hl, cut_eq_low, if_pos ht]
    rfl
  · have hne : op1.type ≠ .reg := by simp [ht]
    rw [if_neg hne] at hl ⊢
    rw [if_pos ht, run_bind_ok hl, if_neg hne]
    rfl

theorem cmpDst_run (h1 : op1.IsLoc w) {val2 : BitVec 32} (hv : val2.toNat < 2 ^ w.bits) :
    (cmpDst op1 val2).run s = .ok ((op1.value w s, op1.value w s - val2), s) := by
  rw [cmpDst_run_eq h1]
  unfold CsX86Op.cmpResult
  rw [low_of_lt hv, ite_self]

/-- What `sub_i` reads of an operand: 32 bits of memory whatever the width. -/
def CsX86Op.wide (op : CsX86Op) (w : Width) (s : Machine) : BitVec 32 :=
  if op.type = .mem then s.peek .dword (s.opPtr op) else op.value w s

theorem CsX86Op.wide_of_mem {op : CsX86Op} (ht : op.type = .mem) :
    op.wide w s = s.peek .dword (s.opPtr op) :=
  if_pos ht

theorem CsX86Op.wide_of_reg {op : CsX86Op} (ht : op.type = .reg) :
    op.wide w s = op.value w s :=
  if_neg (by simp [ht])

theorem low_wide (op : CsX86Op) (w : Width) (s : Machine) :
    low w.bits (op.wide w s) = op.value w s := by
  unfold CsX86Op.wide
  split
  · rename_i ht
    unfold CsX86Op.value
    rw [Machine.opPtr_of_mem ht]
    exact low_readLE_of_le s.mem (by cases w <;> decide)
  · exact s.low_peek w _

theorem subSrc_run (h2 : op2.IsLoc w) : (subSrc op1 op2).run s = .ok (op2.wide w s, s) := by
  unfold subSrc
  rw [run_bind_ok run_get_ok]
  rcases h2.cases with ⟨ht, -⟩ | ⟨ht, -⟩
  · rw [if_pos ht, h2.regVal_eq ht, CsX86Op.wide_of_reg ht]
    rfl
  · rw [if_neg (by simp [ht]), if_neg (by simp [ht]), if_pos ht, CsX86Op.wide_of_mem ht,
      ← Machine.opPtr_of_mem ht]
    exact load_run (h2.valid s)

/-- What `sub_i` leaves in a destination: 32 bits of memory, the width of a register. -/
def CsX86Op.subResult (op : CsX86Op) (w : Width) (s : Machine) (val2 : BitVec 32) : BitVec 32 :=
  if op.type = .mem then op.wide w s - val2 else low w.bits (op.value w s - val2)

theorem CsX86Op.subResult_of_mem {op : CsX86Op} (ht : op.type = .mem) (val2 : BitVec 32) :
    op.subResult w s val2 = op.wide w s - val2 :=
  if_pos ht

theorem CsX86Op.subResult_of_reg {op : CsX86Op} (ht : op.type = .reg) (val2 : BitVec 32) :
    op.subResult w s val2 = low w.bits (op.value w s - val2) :=
  if_neg (by simp [ht])

theorem subDst_run (h1 : op1.IsLoc w) (val2 : BitVec 32) :
    (subDst op1 val2).run s = .ok ((op1.wide w s, op1.subResult w s val2),
      s.poke (if op1.type = .mem then .dword else w) (s.opPtr op1) (op1.wide w s - val2)) := by
  unfold subDst
  rw [run_bind_ok run_get_ok]
  rcases h1.cases with ⟨ht, -⟩ | ⟨ht, -⟩
  · have hne : op1.type ≠ .mem := by simp [ht]
    have hlow : low w.bits (op1.value w s - low w.bits val2) = low w.bits (op1.value w s - val2) :=
      low_sub_low w.bits_le _ _
    rw [if_pos ht, h1.rmwReg_eq s ht, rmw_run (h1.valid s), if_neg hne, CsX86Op.wide_of_reg ht,
      CsX86Op.subResult_of_reg ht, cut_eq_low]
    change Except.ok ((op1.value w s, low w.bits (op1.value w s - low w.bits val2)),
      s.poke w (s.opPtr op1) (op1.value w s - low w.bits val2)) = _
    rw [hlow, ← s.poke_low w _ (op1.value w s - low w.bits val2), hlow, s.poke_low]
  · have hne : op1.type ≠ .reg := by simp [ht]
    rw [if_neg hne, if_pos ht, ← Machine.opPtr_of_mem ht, rmw_run (h1.valid s), if_pos ht,
      CsX86Op.subResult_of_mem ht, CsX86Op.wide_of_mem ht, low_dword]

end Operands

section Handlers

variable {w : Width} {insn : CsInsn} {s : Machine}

def Machine.cmp (s : Machine) (insn : CsInsn) (w : Width) : Machine :=
  (s.advance insn).withArith (insn.op1.value w s < insn.op2.value w s) (insn.op1.value w s)
    (insn.op2.value w s) (insn.op1.value w s - insn.op2.value w s) (w.size * 8)

theorem cmpI_run (h1 : insn.op1.IsLoc w) (h2 : insn.op2.IsLoc w) :
    (cmpI insn).run s = .ok (some 0, s.cmp insn w) := by
  unfold cmpI
  rw [run_bind_ok (advance_run s insn), run_bind_ok (cmpSrc_run h2),
    run_bind_ok (cmpDst_run h1 (CsX86Op.IsLoc.value_lt insn.op2 w _)),
    run_bind_ok (arithFlags_run _ _ _ _ _ _), h1.1,
    h1.value_congr (SameData.advance s insn), h2.value_congr (SameData.advance s insn)]
  rfl

theorem CsX86Op.IsLoc.wide_congr {t : Machine} {op : CsX86Op} (h : op.IsLoc w)
    (hd : SameData s t) : op.wide w t = op.wide w s := by
  unfold CsX86Op.wide
  rw [h.value_congr hd, h.opPtr_congr hd]
  rcases h.opPtr_var s with ⟨v, hv⟩ | hv <;> rw [hv, hd.peek .dword _]

def Machine.sub (s : Machine) (insn : CsInsn) (w : Width) : Machine :=
  ((s.advance insn).poke (if insn.op1.type = .mem then .dword else w) (s.opPtr insn.op1)
    (insn.op1.wide w s - insn.op2.wide w s)).withArith
    (insn.op1.wide w s < insn.op2.wide w s) (insn.op1.wide w s) (insn.op2.wide w s)
    (insn.op1.subResult w s (insn.op2.wide w s)) (w.size * 8)

theorem subI_run (h1 : insn.op1.IsLoc w) (h2 : insn.op2.IsLoc w) :
    (subI insn).run s = .ok (some 0, s.sub insn w) := by
  have hd := SameData.advance s insn
  unfold subI
  rw [run_bind_ok (advance_run s insn), run_bind_ok (subSrc_run h2), run_bind_ok (subDst_run h1 _),
    run_bind_ok (arithFlags_run _ _ _ _ _ _), h1.1, h1.wide_congr hd, h2.wide_congr hd,
    h1.opPtr_congr hd]
  unfold Machine.sub CsX86Op.subResult
  rw [h1.wide_congr hd, h1.value_congr hd]
  rfl

end Handlers

def cmpEaxEbx : CsInsn := .bare "cmp" 2 [⟨.reg .eax, 4⟩, ⟨.reg .ebx, 4⟩]

theorem cmpEaxEbx_isLoc : cmpEaxEbx.op1.IsLoc .dword ∧ cmpEaxEbx.op2.IsLoc .dword := by
  decide

end I386Vm
