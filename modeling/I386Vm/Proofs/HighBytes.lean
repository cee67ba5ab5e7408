import I386Vm.Proofs.Aliasing

/-!
# Operands that may be high bytes

The tables give `AH` to `DH` the variable and the width of `AL` to `DL`, so a handler takes an
operand that names one of them for the low byte beside it (`CsX86Op.lowByte`), and `CsX86Op.IsCell`
operands are those of `CsX86Op.IsLoc` to it. `CsX86Op.contents` is what the i386 has in its place.
-/

namespace I386Vm

open Bytes Prog

def highRegs : List X86Reg := [.ah, .bh, .ch, .dh]

/-- What the tables take a register for. -/
def X86Reg.lowByte : X86Reg → X86Reg
  | .ah => .al
  | .bh => .bl
  | .ch => .cl
  | .dh => .dl
  | r => r

namespace X86Reg

variable (r : X86Reg)

theorem regs_lowByte : regs r.lowByte = regs r := by
  cases r <;> rfl

theorem regVal_lowByte (s : Machine) : s.regVal r.lowByte = s.regVal r := by
  cases r <;> rfl

theorem lowByte_eq_invalid_iff : r.lowByte = .invalid ↔ r = .invalid := by
  cases r <;> simp [lowByte]

theorem lowByte_of_mem_lowRegs {w : Width} {r : X86Reg} (h : r ∈ lowRegs w) : r.lowByte = r := by
  cases w <;> simp only [lowRegs, List.mem_cons, List.not_mem_nil, or_false] at h <;>
    rcases h with rfl | rfl | rfl | rfl | rfl | rfl | rfl | rfl <;> rfl

end X86Reg

/-- A general register of the width, `AH` to `DH` among the bytes, or memory of it. -/
def CsX86Op.IsCell (w : Width) (op : CsX86Op) : Prop :=
  op.size = w.size ∧
    match op.val with
    | .reg r => r ∈ lowRegs w ∨ (w = .byte ∧ r ∈ highRegs)
    | .mem m => ¬ m.segment.Control ∧ ¬ m.base.Control ∧ ¬ m.index.Control
    | _ => False

instance (w : Width) (op : CsX86Op) : Decidable (op.IsCell w) :=
  match op with
  | ⟨.invalid, _⟩ => isFalse fun h => h.2
  | ⟨.reg r, _⟩ => inferInstanceAs (Decidable (_ ∧ (r ∈ lowRegs w ∨ _)))
  | ⟨.imm _, _⟩ => isFalse fun h => h.2
  | ⟨.mem m, _⟩ => inferInstanceAs (Decidable (_ ∧ ¬ m.segment.Control ∧ _))

namespace CsX86Op

/-- The operand with a low byte for a high one. -/
def lowByte (op : CsX86Op) : CsX86Op :=
  match op.val with
  | .reg r => ⟨.reg r.lowByte, op.size⟩
  | _ => op

variable (op : CsX86Op) (s : Machine)

@[simp] theorem size_lowByte : op.lowByte.size = op.size := by
  rcases op with ⟨_ | r | v | m, size⟩ <;> rfl

@[simp] theorem type_lowByte : op.lowByte.type = op.type := by
  rcases op with ⟨_ | r | v | m, size⟩ <;> rfl

theorem reg_lowByte (h : op.type = .reg) : op.lowByte.reg = op.reg.lowByte := by
  rcases op with ⟨_ | r | v | m, size⟩
  · cases h
  · rfl
  · cases h
  · cases h

theorem eq_lowByte_of_ne_reg {op : CsX86Op} (h : op.type ≠ .reg) : op.lowByte = op := by
  rcases op with ⟨_ | r | v | m, size⟩
  · rfl
  · exact absurd rfl h
  · rfl
  · rfl

/-- The union holds a register where the segment of a memory operand is. -/
theorem effAddr_lowByte : s.effAddr op.lowByte.mem = s.effAddr op.mem := by
  rcases op with ⟨_ | r | v | m, size⟩
  · rfl
  · unfold Machine.effAddr
    change (if r.lowByte ≠ .invalid then s.getGdtBase ((s.regVal r.lowByte).setWidth 16) else 0)
      + _ + _ + _ = (if r ≠ .invalid then _ else 0) + _ + _ + _
    simp only [ne_eq, r.lowByte_eq_invalid_iff, r.regVal_lowByte]
    rfl
  · rfl
  · rfl

theorem opPtr_lowByte : s.opPtr op.lowByte = s.opPtr op := by
  unfold Machine.opPtr
  rw [type_lowByte, effAddr_lowByte]
  by_cases ht : op.type = .reg
  · rw [if_pos ht, if_pos ht, op.reg_lowByte ht, X86Reg.regs_lowByte]
  · rw [if_neg ht, if_neg ht]

theorem value_lowByte (w : Width) : op.lowByte.value w s = op.value w s := by
  unfold value
  rw [opPtr_lowByte]

theorem operand_lowByte (w : Width) : op.lowByte.operand w s = op.operand w s := by
  by_cases ht : op.type = .imm
  · rw [eq_lowByte_of_ne_reg (by simp [ht])]
  · unfold operand
    rw [type_lowByte, if_neg ht, if_neg ht, value_lowByte]

theorem srcBySize_lowByte : srcBySize op.lowByte = srcBySize op := by
  by_cases ht : op.type = .reg
  · unfold srcBySize
    simp only [type_lowByte, if_pos ht, op.reg_lowByte ht, X86Reg.regVal_lowByte]
  · rw [eq_lowByte_of_ne_reg ht]

theorem IsLoc.isCell {w : Width} {op : CsX86Op} (h : op.IsLoc w) : op.IsCell w := by
  rcases op with ⟨_ | r | v | m, size⟩
  · exact h
  · exact ⟨h.1, .inl h.2⟩
  · exact h
  · exact h

theorem IsCell.isLoc {w : Width} {op : CsX86Op} (h : op.IsCell w) : op.lowByte.IsLoc w := by
  rcases op with ⟨_ | r | v | m, size⟩
  · exact h
  · refine ⟨h.1, ?_⟩
    change r.lowByte ∈ lowRegs w
    rcases h.2 with hr | ⟨rfl, hr⟩
    · rwa [X86Reg.lowByte_of_mem_lowRegs hr]
    · simp only [highRegs, List.mem_cons, List.not_mem_nil, or_false] at hr
      rcases hr with rfl | rfl | rfl | rfl <;> decide
  · exact h
  · exact h

theorem IsCell.type_ne_imm {w : Width} {op : CsX86Op} (h : op.IsCell w) : op.type ≠ .imm := by
  rw [← op.type_lowByte]
  exact h.isLoc.type_ne_imm

section Source

variable {w : Width} {op : CsX86Op} {s t : Machine}

theorem loc_or_imm_lowByte (h : op.IsCell w ∨ op.type = .imm) :
    op.lowByte.IsLoc w ∨ op.lowByte.type = .imm :=
  h.imp IsCell.isLoc fun ht => op.type_lowByte.trans ht

theorem srcBySize_cell (h : op.IsCell w ∨ op.type = .imm) :
    (srcBySize op).run s = .ok (op.operand w s, s) := by
  rw [← srcBySize_lowByte, srcBySize_operand (loc_or_imm_lowByte h), operand_lowByte]

theorem operand_cell_congr (h : op.IsCell w ∨ op.type = .imm) (hd : SameData s t) :
    op.operand w t = op.operand w s := by
  rw [← operand_lowByte, operand_congr (loc_or_imm_lowByte h) hd, operand_lowByte]

end Source

end CsX86Op

/-- The bits of a part of a register. -/
def Slice.read (a : Slice) (s : Machine) : BitVec 32 := low a.width.bits (s.reg a.var >>> a.lo)

theorem slice_of_mem_lowRegs {w : Width} {r : X86Reg} (h : r ∈ lowRegs w) :
    ∃ v, r.slice = some ⟨v, 0, w⟩ := by
  cases w <;> simp only [lowRegs, List.mem_cons, List.not_mem_nil, or_false] at h <;>
    rcases h with rfl | rfl | rfl | rfl | rfl | rfl | rfl | rfl <;> exact ⟨_, rfl⟩

namespace CsX86Op

/-- What an operand holds, the second byte of a register where a high byte is named. -/
def contents (op : CsX86Op) (w : Width) (s : Machine) : BitVec 32 :=
  match op.val with
  | .reg r => (r.slice.map fun a => a.read s).getD 0
  | _ => low w.bits (op.operand w s)

variable {w : Width} {op : CsX86Op} {s : Machine}

theorem IsLoc.contents_eq (h : op.IsLoc w) : op.contents w s = low w.bits (op.operand w s) := by
  by_cases ht : op.type = .reg
  · obtain ⟨v, hv⟩ := slice_of_mem_lowRegs (h.reg_mem ht)
    have hreg := regVal_slice hv s
    rw [h.operand_eq, low_value, ← h.regVal_eq ht, hreg]
    rcases op with ⟨_ | r | x | m, size⟩
    · cases ht
    · have hslice : r.slice = some ⟨v, 0, w⟩ := hv
      change (r.slice.map _).getD 0 = _
      rw [hslice]
      exact congrArg (low w.bits) (BitVec.ushiftRight_zero _)
    · cases ht
    · cases ht
  · rcases op with ⟨_ | r | x | m, size⟩
    · rfl
    · exact absurd rfl ht
    · rfl
    · rfl

/-- Only a high byte is not read as it is. -/
theorem byte_or_eq (h : op.IsCell w ∨ op.type = .imm) :
    w = .byte ∨ low w.bits (op.operand w s) = op.contents w s := by
  rcases op with ⟨_ | r | x | m, size⟩
  · exact .inr rfl
  · rcases h with ⟨hsize, hr | ⟨hw, -⟩⟩ | ht
    · have hloc : IsLoc w ⟨.reg r, size⟩ := ⟨hsize, hr⟩
      exact .inr hloc.contents_eq.symm
    · exact .inl hw
    · cases ht
  · exact .inr rfl
  · exact .inr rfl

theorem low_contents (h : op.IsCell w ∨ op.type = .imm) :
    low w.bits (op.contents w s) = op.contents w s := by
  rcases op with ⟨_ | r | x | m, size⟩
  · exact low_low _ _
  · rcases h with ⟨hsize, hr | ⟨rfl, hr⟩⟩ | ht
    · have hloc : IsLoc w ⟨.reg r, size⟩ := ⟨hsize, hr⟩
      rw [hloc.contents_eq]
      exact low_low _ _
    · simp only [highRegs, List.mem_cons, List.not_mem_nil, or_false] at hr
      rcases hr with rfl | rfl | rfl | rfl <;> exact low_low _ _
    · cases ht
  · exact low_low _ _
  · exact low_low _ _

end CsX86Op

end I386Vm
