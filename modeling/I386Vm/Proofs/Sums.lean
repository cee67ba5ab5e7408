import I386Vm.Proofs.ResultFlags

/-!
# `ADD` and `ADC`

`add_i` is right for every width and operand. `adc_i` finds the carry by comparing the sum with the
first operand, which are equal when the second one is all ones and a carry comes in.
-/

namespace I386Vm

open Bytes Prog TwosComplement

/-- A register or memory of the width, or an immediate that fits it. -/
def CsX86Op.IsOperand (w : Width) (op : CsX86Op) : Prop :=
  op.IsLoc w ∨ (op.type = .imm ∧ op.imm.toNat < 2 ^ w.bits)

section Operand

variable {w : Width} {op : CsX86Op} {s : Machine}

theorem CsX86Op.IsOperand.loc_or_imm (h : op.IsOperand w) : op.IsLoc w ∨ op.type = .imm :=
  h.imp_right And.left

theorem CsX86Op.IsOperand.lt (h : op.IsOperand w) : (op.operand w s).toNat < 2 ^ w.bits := by
  rcases h with hl | ⟨ht, himm⟩
  · rw [hl.operand_eq]
    exact CsX86Op.IsLoc.value_lt op w s
  · unfold CsX86Op.operand
    rw [if_pos ht, BitVec.toNat_setWidth]
    exact lt_of_le_of_lt (Nat.mod_le _ _) himm

end Operand

section Runs

variable {w : Width} {insn : CsInsn} {s : Machine} {a b k : BitVec 32} {c : ℕ}

/-- The state after the sum of the first operand, `b` and a carry `k`. -/
def Machine.sum (s : Machine) (insn : CsInsn) (w : Width) (b k : BitVec 32) : Machine :=
  ((s.advance insn).poke w (s.opPtr insn.op1) (insn.op1.value w s + (b + k))).withArith
    (low w.bits (insn.op1.value w s + (b + k)) < insn.op1.value w s) (insn.op1.value w s) b
    (low w.bits (insn.op1.value w s + (b + k))) (w.size * 8)

theorem rmwDst_sum (h1 : insn.op1.IsLoc w) (hb : b.toNat < 2 ^ w.bits) :
    (rmwDst insn.op1 (fun w old => old + (cut w b + k)) (fun old => old + (b + k))).run
      (s.advance insn) =
      .ok ((insn.op1.value w s, low w.bits (insn.op1.value w s + (b + k))),
        (s.advance insn).poke w (s.opPtr insn.op1) (insn.op1.value w s + (b + k))) := by
  have hd := SameData.advance s insn
  have hcut : cut w b = b := by rw [cut_eq_low, low_of_lt hb]
  rw [h1.rmwDst_run _ _ (by rw [hcut]), h1.value_congr hd, h1.opPtr_congr hd]

section Run

variable (h1 : insn.op1.IsLoc w) (h2 : insn.op2.IsLoc w ∨ insn.op2.type = .imm)
  (hb : (insn.op2.operand w s).toNat < 2 ^ w.bits)
include h1 h2 hb

theorem addI_run_of_lt :
    (addI insn).run s = .ok (some 0, s.sum insn w (insn.op2.operand w s) 0) := by
  have hdst := @rmwDst_sum w insn s (insn.op2.operand w s) 0 h1 hb
  simp only [BitVec.ofNat_eq_ofNat, BitVec.add_zero] at hdst
  unfold addI Machine.sum
  rw [run_bind_ok (advance_run s insn), run_bind_ok (srcBySize_operand h2),
    operand_congr h2 (SameData.advance s insn), run_bind_ok hdst,
    run_bind_ok (arithFlags_run _ _ _ _ _ _), h1.1]
  simp only [BitVec.ofNat_eq_ofNat, BitVec.add_zero]
  rfl

theorem adcI_run_of_lt :
    (adcI insn).run s = .ok (some 0, s.sum insn w (insn.op2.operand w s) s.carry) := by
  unfold adcI Machine.sum
  rw [run_bind_ok (advance_run s insn), run_bind_ok (srcBySize_operand h2),
    operand_congr h2 (SameData.advance s insn), run_bind_ok run_get_ok,
    run_bind_ok (rmwDst_sum h1 hb), run_bind_ok (arithFlags_run _ _ _ _ _ _), h1.1]
  rfl

end Run

theorem addI_run (h1 : insn.op1.IsLoc w) (h2 : insn.op2.IsOperand w) :
    (addI insn).run s = .ok (some 0, s.sum insn w (insn.op2.operand w s) 0) :=
  addI_run_of_lt h1 h2.loc_or_imm h2.lt

theorem adcI_run (h1 : insn.op1.IsLoc w) (h2 : insn.op2.IsOperand w) :
    (adcI insn).run s = .ok (some 0, s.sum insn w (insn.op2.operand w s) s.carry) :=
  adcI_run_of_lt h1 h2.loc_or_imm h2.lt

section Flags

variable (ha : a.toNat < 2 ^ w.bits) (hb : b.toNat < 2 ^ w.bits) (hk : k.toNat = c) (hc : c ≤ 1)
include hk

theorem toNat_low_add : (low w.bits (a + (b + k))).toNat =
    (a.toNat + b.toNat + c) % 2 ^ w.bits := by
  rw [toNat_low, BitVec.toNat_add, BitVec.toNat_add, Nat.add_mod_mod,
    Nat.mod_mod_of_dvd _ (Nat.pow_dvd_pow 2 w.bits_le), hk, Nat.add_assoc]

theorem toNat_low_add_half : (low w.bits (a + (b + k))).toNat =
    (a.toNat + b.toNat + c) % (2 * 2 ^ (w.bits - 1)) := by
  rw [← w.two_pow_bits.1]
  exact toNat_low_add hk

include ha

theorem low_add_lt_iff (h : ¬ (c = 1 ∧ b.toNat = 2 ^ w.bits - 1)) (hb : b.toNat < 2 ^ w.bits)
    (hc : c ≤ 1) : low w.bits (a + (b + k)) < a ↔ 2 ^ w.bits ≤ a.toNat + b.toNat + c := by
  obtain ⟨hhalf, -, -⟩ := w.two_pow_bits
  rw [BitVec.lt_def, lt_iff_le_add (by omega) (by omega) (toNat_low_add_half hk), hhalf]

/-- The second operand and the carry make a whole turn. -/
theorem low_add_ones (hc : c = 1) (hb : b.toNat = 2 ^ w.bits - 1) :
    low w.bits (a + (b + k)) = a := by
  apply BitVec.eq_of_toNat_eq
  rw [toNat_low_add hk, hb, hc, Nat.add_assoc, Nat.sub_add_cancel (Nat.two_pow_pos _),
    Nat.add_mod_right, Nat.mod_eq_of_lt ha]

include hb hc

theorem overflow_low_add_iff : overflow a b (low w.bits (a + (b + k))) (w.size * 8) = true ↔
    ¬ InRange (2 ^ (w.bits - 1)) (w.signed a + w.signed b + c) := by
  obtain ⟨hhalf, -, -⟩ := w.two_pow_bits
  rw [overflow_iff ha hb (toNat_low_lt _ _), signed_eq_signed ha, signed_eq_signed hb,
    not_inRange_add_iff (by omega) (by omega) hc (toNat_low_add_half hk)]

omit ha hb in
theorem adjust_low_add_iff : adjust a b (low w.bits (a + (b + k))) = true ↔
    16 ≤ a.toNat % 16 + b.toNat % 16 + c := by
  rw [adjust_iff, digit_add_iff w.dvd_two_pow_bits hc (toNat_low_add hk)]

end Flags

theorem sum_value (h1 : insn.op1.IsLoc w) :
    (s.sum insn w b k).peek w (s.opPtr insn.op1) =
      low w.bits (insn.op1.value w s + (b + k)) := by
  have := h1.safe s
  unfold Machine.sum
  rw [(Machine.sameData_withArith _ _ _ _ _ _).peek, Machine.peek_poke _ _ (h1.valid s)]

/-- Everything but `CF` is right for every sum, and `CF` unless the second operand is all ones and a
carry comes in. -/
theorem isSum_sum_iff (h1 : insn.op1.IsLoc w) (hb : b.toNat < 2 ^ w.bits) (hk : k.toNat = c)
    (hc : c ≤ 1) :
    IsSum w (insn.op1.value w s) b c (s.opPtr insn.op1) (s.sum insn w b k) ↔
      ¬ (c = 1 ∧ b.toNat = 2 ^ w.bits - 1) := by
  have ha : (insn.op1.value w s).toNat < 2 ^ w.bits := CsX86Op.IsLoc.value_lt _ _ _
  have hflag (f : Flag) := ((s.advance insn).poke w (s.opPtr insn.op1)
    (insn.op1.value w s + (b + k))).testFlag_withArith
    (low w.bits (insn.op1.value w s + (b + k)) < insn.op1.value w s) (insn.op1.value w s) b
    (low w.bits (insn.op1.value w s + (b + k))) (w.size * 8) f
  change ∀ f, (s.sum insn w b k).testFlag f = _ at hflag
  constructor
  · rintro ⟨-, hcf, -, -, -⟩ ⟨h, hones⟩
    simp only [hflag, low_add_ones ha hk h hones, BitVec.lt_irrefl, decide_false] at hcf
    have hle : 2 ^ w.bits ≤ (insn.op1.value w s).toNat + b.toNat + c := by omega
    simp [hle] at hcf
  · intro h
    constructor
    · rw [sum_value h1, toNat_low_add hk]
    · rw [hflag, decide_eq_true_iff, low_add_lt_iff ha hk h hb hc]
    · rw [hflag, overflow_low_add_iff ha hb hk hc]
    · rw [hflag, adjust_low_add_iff hk hc]
    · rw [sum_value h1]
      exact showsResult_of (hflag .SF) (hflag .ZF) (hflag .PF)

/-- `ADD` leaves the sum and its flags, and changes nothing else. -/
theorem addI_isSum (h1 : insn.op1.IsLoc w) (h2 : insn.op2.IsOperand w) :
    ∃ t, (addI insn).run s = .ok (some 0, t) ∧
      IsSum w (insn.op1.value w s) (insn.op2.operand w s) 0 (s.opPtr insn.op1) t ∧
      ∃ x, SameBut statusFlags ((s.advance insn).poke w (s.opPtr insn.op1) x) t :=
  ⟨_, addI_run h1 h2, (@isSum_sum_iff w insn s _ 0 0 h1 h2.lt rfl (Nat.zero_le 1)).2 (by simp),
    _, Machine.sameBut_withArith _ _ _ _ _ _⟩

def addAlImm : CsInsn := .bare "add" 2 [⟨.reg .al, 1⟩, ⟨.imm 0x80, 1⟩]

/-- `ADD AL, 0x80` with `0x80` in `AL`: zero, with a carry and an overflow. -/
theorem addI_isSum_al : ∃ t, (addI addAlImm).run (Machine.blank.setReg .eax 0x80) =
    .ok (some 0, t) ∧ IsSum .byte 0x80 0x80 0 (.var .eax) t ∧
      ∃ x, SameBut statusFlags
        (((Machine.blank.setReg .eax 0x80).advance addAlImm).poke .byte (.var .eax) x) t :=
  addI_isSum (by decide) (.inr ⟨rfl, by decide⟩)

/-- `ADC` leaves the sum and its flags unless the second operand is all ones and a carry comes
in. -/
theorem adcI_isSum_iff (h1 : insn.op1.IsLoc w) (h2 : insn.op2.IsLoc w) :
    (∃ t, (adcI insn).run s = .ok (some 0, t) ∧
      IsSum w (insn.op1.value w s) (insn.op2.value w s) (s.testFlag .CF).toNat
        (s.opPtr insn.op1) t) ↔
      ¬ (s.testFlag .CF = true ∧ (insn.op2.value w s).toNat = 2 ^ w.bits - 1) := by
  have hlt := CsX86Op.IsLoc.value_lt insn.op2 w s
  have hone : (s.testFlag .CF).toNat = 1 ↔ s.testFlag .CF = true := by simp
  rw [adcI_run h1 (.inl h2), exists_ok_iff, h2.operand_eq,
    isSum_sum_iff h1 hlt s.toNat_carry (Bool.toNat_le _), hone]

end Runs

def adcAlBl : CsInsn := .bare "adc" 2 [⟨.reg .al, 1⟩, ⟨.reg .bl, 1⟩]

/-- A carry comes in and `BL` holds `x`. -/
def carryAndBl (x : BitVec 32) : Machine := (Machine.blank.setFlag .CF).setReg .ebx x

/-- `0 + 0xFE + 1`. -/
theorem adcI_isSum_fe : ∃ t, (adcI adcAlBl).run (carryAndBl 0xFE) = .ok (some 0, t) ∧
    IsSum .byte 0 0xFE 1 (.var .eax) t :=
  (@adcI_isSum_iff .byte adcAlBl (carryAndBl 0xFE) (by decide) (by decide)).2 (by decide)

/-- `0 + 0xFF + 1` loses the carry. -/
theorem adcI_not_isSum : ¬ ∀ (w : Width) (insn : CsInsn) (s : Machine), insn.op1.IsLoc w →
    insn.op2.IsLoc w → ∃ t, (adcI insn).run s = .ok (some 0, t) ∧
      IsSum w (insn.op1.value w s) (insn.op2.value w s) (s.testFlag .CF).toNat
        (s.opPtr insn.op1) t := by
  intro h
  have h1 : adcAlBl.op1.IsLoc .byte := by decide
  have h2 : adcAlBl.op2.IsLoc .byte := by decide
  have hall := h .byte adcAlBl (carryAndBl 0xFF) h1 h2
  rw [adcI_run h1 (.inl h2), exists_ok_iff, h2.operand_eq,
    isSum_sum_iff h1 (CsX86Op.IsLoc.value_lt _ _ _) (Machine.toNat_carry _)
      (Bool.toNat_le _)] at hall
  exact hall (by decide)

end I386Vm
