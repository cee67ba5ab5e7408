import I386Vm.Proofs.Operands

/-!
# The register file

On the i386 the byte and word registers are parts of the 32-bit ones, `Slice`s of a variable. The
tables `regs` and `regs_size` keep the variable and the width of a slice and lose where it begins,
so that `AH` to `DH` are read and written as `AL` to `DL`.
-/

namespace I386Vm

open Bytes Prog

/-- A part of a register variable: where its bits begin and how many they are. -/
structure Slice where
  var : Var
  lo : ℕ
  width : Width

/-- The general registers of the i386. -/
def X86Reg.slice : X86Reg → Option Slice
  | .al => some ⟨.eax, 0, .byte⟩
  | .ah => some ⟨.eax, 8, .byte⟩
  | .ax => some ⟨.eax, 0, .word⟩
  | .eax => some ⟨.eax, 0, .dword⟩
  | .bl => some ⟨.ebx, 0, .byte⟩
  | .bh => some ⟨.ebx, 8, .byte⟩
  | .bx => some ⟨.ebx, 0, .word⟩
  | .ebx => some ⟨.ebx, 0, .dword⟩
  | .cl => some ⟨.ecx, 0, .byte⟩
  | .ch => some ⟨.ecx, 8, .byte⟩
  | .cx => some ⟨.ecx, 0, .word⟩
  | .ecx => some ⟨.ecx, 0, .dword⟩
  | .dl => some ⟨.edx, 0, .byte⟩
  | .dh => some ⟨.edx, 8, .byte⟩
  | .dx => some ⟨.edx, 0, .word⟩
  | .edx => some ⟨.edx, 0, .dword⟩
  | .si => some ⟨.esi, 0, .word⟩
  | .esi => some ⟨.esi, 0, .dword⟩
  | .di => some ⟨.edi, 0, .word⟩
  | .edi => some ⟨.edi, 0, .dword⟩
  | .bp => some ⟨.ebp, 0, .word⟩
  | .ebp => some ⟨.ebp, 0, .dword⟩
  | .sp => some ⟨.esp, 0, .word⟩
  | .esp => some ⟨.esp, 0, .dword⟩
  | _ => none

namespace Slice

variable (a a' : Slice)

/-- Bit `i` of `a'` is a bit of `a`. -/
def Shares (i : ℕ) : Prop :=
  a.var = a'.var ∧ i < a'.width.bits ∧ a.lo ≤ a'.lo + i ∧ a'.lo + i < a.lo + a.width.bits

instance (i : ℕ) : Decidable (a.Shares a' i) := inferInstanceAs (Decidable (_ ∧ _ ∧ _ ∧ _))

/-- `new` is the value `old` of `a'` with the bits it shares with `a` replaced by those of `v`. -/
def Replaced (old v new : BitVec 32) : Prop :=
  ∀ i, new.getLsbD i = if a.Shares a' i then v.getLsbD (a'.lo + i - a.lo) else old.getLsbD i

end Slice

/-- Where the lost offset does not show, `x` being the variable of `a'`. -/
def AliasFits (a a' : Slice) (x v : BitVec 32) : Prop :=
  a.var ≠ a'.var ∨ a.lo = a'.lo ∨
    if a.lo = 8 then
      byteOf 0 v = byteOf 0 x ∧ (a'.width = .byte ∨ byteOf 0 v = byteOf 1 x)
    else if a.width = .byte then byteOf 0 v = byteOf 0 x
    else byteOf 0 v = byteOf 1 v

theorem slice_spec {r : X86Reg} {a : Slice} (h : r.slice = some a) :
    regs r = .var a.var ∧ widthOfBase (regsSize r) = a.width ∧ regsSize r ≠ 0 ∧
      (a.lo = 0 ∨ a.lo = 8 ∧ a.width = .byte) := by
  cases r <;> cases h <;> exact ⟨rfl, by decide, by decide, by decide⟩

theorem regVal_slice {r : X86Reg} {a : Slice} (h : r.slice = some a) (s : Machine) :
    s.regVal r = low a.width.bits (s.reg a.var) := by
  obtain ⟨hr, hw, hs, -⟩ := slice_spec h
  unfold Machine.regVal Machine.regVal?
  split
  · cases h
  · rw [if_pos ⟨by rw [hr]; exact nofun, hs⟩, hr, hw]
    rfl

/-- What `reg_val` finds in `a'` after `v` was written to `a`. -/
def Slice.after (a a' : Slice) (s : Machine) (v : BitVec 32) : BitVec 32 :=
  low a'.width.bits ((s.setReg a.var (merge a.width.bits (s.reg a.var) v)).reg a'.var)

section Mov

variable {insn : CsInsn} {s : Machine} {v : BitVec 32} {r r' : X86Reg} {a a' : Slice}

theorem movI_reg_run (hr : r.slice = some a) (h1 : insn.op1.val = .reg r)
    (hv : (srcWide insn.op2).run (s.advance insn) = .ok (v, s.advance insn)) :
    (movI insn).run s = .ok (some 0, (s.advance insn).poke a.width (.var a.var) v) := by
  obtain ⟨hreg, hw, -, -⟩ := slice_spec hr
  have ht : insn.op1.type = .reg := by
    unfold CsX86Op.type
    rw [h1]
  have hop : insn.op1.reg = r := by
    unfold CsX86Op.reg
    rw [h1]
  unfold movI
  rw [run_bind_ok (advance_run s insn), run_bind_ok hv, run_bind_ok run_get_ok, if_pos ht, hop,
    hreg, hw, run_bind_ok (store_run (.var _) _), cut_eq_low, Machine.poke_low]
  rfl

theorem getLsbD_after (i : ℕ) : (a.after a' s v).getLsbD i =
    (decide (i < a'.width.bits) && if a.var = a'.var ∧ i < a.width.bits then v.getLsbD i
      else (s.reg a'.var).getLsbD i) := by
  unfold Slice.after
  rw [getLsbD_low]
  congr 1
  by_cases hvar : a.var = a'.var
  · simp only [Machine.setReg, hvar, Function.update_self, getLsbD_merge, true_and]
  · have hne : a'.var ≠ a.var := fun h => hvar h.symm
    simp only [Machine.setReg, Function.update_of_ne hne, hvar, false_and, if_false]

theorem Width.bits_of_ne_byte {w : Width} (h : w ≠ .byte) : 16 ≤ w.bits := by
  cases w with
  | byte => exact absurd rfl h
  | word => decide
  | dword => decide

theorem replaced_after_iff_bits (hvar : a.var = a'.var) :
    a.Replaced a' (low a'.width.bits (s.reg a'.var)) v (a.after a' s v) ↔
      ∀ i < a'.width.bits,
        (if i < a.width.bits then v.getLsbD i else (s.reg a'.var).getLsbD i) =
          if a.lo ≤ a'.lo + i ∧ a'.lo + i < a.lo + a.width.bits then v.getLsbD (a'.lo + i - a.lo)
          else (s.reg a'.var).getLsbD i := by
  unfold Slice.Replaced Slice.Shares
  refine forall_congr' fun i => ?_
  rw [getLsbD_after, getLsbD_low]
  by_cases hi : i < a'.width.bits
  · simp only [hi, decide_true, Bool.true_and, hvar, true_and, forall_const]
  · simp [hi]

/-- A high byte is read through a slice that begins at bit 0. -/
theorem replaced_read_high (hlo : a.lo = 0) (hlo' : a'.lo = 8) (hw' : a'.width = .byte)
    (x : BitVec 32) :
    (∀ i < a'.width.bits, (if i < a.width.bits then v.getLsbD i else x.getLsbD i) =
      if a.lo ≤ a'.lo + i ∧ a'.lo + i < a.lo + a.width.bits then v.getLsbD (a'.lo + i - a.lo)
      else x.getLsbD i) ↔
      if a.width = .byte then byteOf 0 v = byteOf 0 x else byteOf 0 v = byteOf 1 v := by
  have h8 : Width.byte.bits = 8 := rfl
  rw [hlo, hlo', hw', h8]
  split
  · rename_i hw
    rw [hw, h8, byteOf_eq_iff]
    refine forall_congr' fun i => imp_congr_right fun hi => ?_
    rw [if_pos hi, if_neg (by omega), Nat.mul_zero, Nat.zero_add]
  · rename_i hw
    have h16 := Width.bits_of_ne_byte hw
    rw [byteOf_eq_iff]
    refine forall_congr' fun i => imp_congr_right fun hi => ?_
    rw [if_pos (by omega), if_pos (by omega), Nat.mul_zero, Nat.zero_add, Nat.sub_zero]

/-- A high byte is written to the low one. -/
theorem replaced_write_high (hlo : a.lo = 8) (hw : a.width = .byte) (hlo' : a'.lo = 0)
    (x : BitVec 32) :
    (∀ i < a'.width.bits, (if i < a.width.bits then v.getLsbD i else x.getLsbD i) =
      if a.lo ≤ a'.lo + i ∧ a'.lo + i < a.lo + a.width.bits then v.getLsbD (a'.lo + i - a.lo)
      else x.getLsbD i) ↔
      byteOf 0 v = byteOf 0 x ∧ (a'.width = .byte ∨ byteOf 0 v = byteOf 1 x) := by
  have h8 : Width.byte.bits = 8 := rfl
  rw [hlo, hlo', hw, h8, byteOf_eq_iff, byteOf_eq_iff]
  constructor
  · intro h
    refine ⟨fun i hi => ?_, ?_⟩
    · have hi' : i < a'.width.bits := lt_of_lt_of_le hi (by cases a'.width <;> decide)
      have hbit := h i hi'
      rw [if_pos hi, if_neg (by omega)] at hbit
      rwa [Nat.mul_zero, Nat.zero_add]
    · by_cases hw' : a'.width = .byte
      · exact .inl hw'
      · refine .inr fun i hi => ?_
        have hbit := h (8 + i) (lt_of_lt_of_le (by omega) (Width.bits_of_ne_byte hw'))
        rw [if_neg (by omega), if_pos (by omega), Nat.zero_add, Nat.add_sub_cancel_left] at hbit
        rw [Nat.mul_zero, Nat.zero_add, Nat.mul_one, hbit]
  · rintro ⟨h0, h1⟩ i hi
    by_cases hi8 : i < 8
    · have hbit := h0 i hi8
      rw [Nat.mul_zero, Nat.zero_add] at hbit
      rw [if_pos hi8, if_neg (by omega), hbit]
    · by_cases hi16 : i < 16
      · have hw' : a'.width ≠ .byte := by
          intro hb
          rw [hb] at hi
          exact hi8 hi
        have hbit := h1.resolve_left hw' (i - 8) (by omega)
        rw [Nat.mul_zero, Nat.zero_add, Nat.mul_one, Nat.add_sub_of_le (by omega)] at hbit
        rw [if_neg hi8, if_pos (by omega), Nat.zero_add, hbit]
      · rw [if_neg hi8, if_neg (by omega)]

theorem replaced_after_iff (hr : r.slice = some a) (hr' : r'.slice = some a') :
    a.Replaced a' (low a'.width.bits (s.reg a'.var)) v (a.after a' s v) ↔
      AliasFits a a' (s.reg a'.var) v := by
  obtain ⟨-, -, -, hlo⟩ := slice_spec hr
  obtain ⟨-, -, -, hlo'⟩ := slice_spec hr'
  unfold AliasFits
  by_cases hvar : a.var = a'.var
  · rw [replaced_after_iff_bits hvar]
    by_cases hsame : a.lo = a'.lo
    · refine ⟨fun _ => .inr (.inl hsame), fun _ i _ => ?_⟩
      rw [hsame, Nat.add_sub_cancel_left]
      have hcond : a'.lo ≤ a'.lo + i ∧ a'.lo + i < a'.lo + a.width.bits ↔ i < a.width.bits := by
        omega
      simp only [hcond]
    · rw [or_iff_right (not_not.2 hvar), or_iff_right hsame]
      rcases hlo with hlo | ⟨hlo, hw⟩ <;> rcases hlo' with hlo' | ⟨hlo', hw'⟩
      · exact absurd (hlo.trans hlo'.symm) hsame
      · rw [if_neg (by simp [hlo])]
        exact replaced_read_high hlo hlo' hw' _
      · rw [if_pos hlo]
        exact replaced_write_high hlo hw hlo' _
      · exact absurd (hlo.trans hlo'.symm) hsame
  · refine ⟨fun _ => .inl hvar, fun _ i => ?_⟩
    rw [getLsbD_after, getLsbD_low, if_neg fun h => hvar h.1, if_neg fun h => hvar h.1]

/-- After a `MOV` to `r` the register `r'` is as the i386 has it exactly where the lost offset does
not show. -/
theorem movI_replaced_iff (hr : r.slice = some a) (hr' : r'.slice = some a')
    (h1 : insn.op1.val = .reg r)
    (hv : (srcWide insn.op2).run (s.advance insn) = .ok (v, s.advance insn)) :
    (∃ t, (movI insn).run s = .ok (some 0, t) ∧ a.Replaced a' (s.regVal r') v (t.regVal r')) ↔
      AliasFits a a' (s.reg a'.var) v := by
  rw [movI_reg_run hr h1 hv, exists_ok_iff, regVal_slice hr', regVal_slice hr']
  exact replaced_after_iff hr hr'

def movImm (r : X86Reg) (size : BitVec 8) (v : BitVec 32) : CsInsn :=
  .bare "mov" 5 [⟨.reg r, size⟩, ⟨.imm (v.setWidth 64), size⟩]

/-- `MOV AX, 0x1234` and `EAX`. -/
theorem movI_replaced_ax : ∃ t, (movI (movImm .ax 2 0x1234)).run .blank = .ok (some 0, t) ∧
    (Slice.mk .eax 0 .word).Replaced ⟨.eax, 0, .dword⟩ (Machine.blank.regVal .eax) 0x1234
      (t.regVal .eax) := by
  have h := @movI_replaced_iff (movImm .ax 2 0x1234) .blank 0x1234 .ax .eax _ _ rfl rfl rfl rfl
  exact h.2 (.inr (.inl rfl))

/-- `MOV AH, 1` changes `AL`. -/
theorem movI_not_replaced : ¬ ∀ (insn : CsInsn) (s : Machine) (v : BitVec 32) (r r' : X86Reg)
    (a a' : Slice), r.slice = some a → r'.slice = some a' → insn.op1.val = .reg r →
      (srcWide insn.op2).run (s.advance insn) = .ok (v, s.advance insn) →
      ∃ t, (movI insn).run s = .ok (some 0, t) ∧
        a.Replaced a' (s.regVal r') v (t.regVal r') := by
  intro hall
  obtain ⟨t, ht, h⟩ := hall (movImm .ah 1 1) .blank 1 .ah .al _ _ rfl rfl rfl rfl
  rw [@movI_reg_run (movImm .ah 1 1) .blank 1 .ah _ rfl rfl rfl] at ht
  cases ht
  -- bit 0 of `AL` was 0, is 1 and is no bit of `AH`
  exact absurd (h 0) (by decide)

end Mov

end I386Vm
