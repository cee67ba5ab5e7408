import I386Vm.Proofs.Straight

/-!
# Operands of a given width

What an operand refers to depends on the registers, memory and the descriptor table register alone,
and neither the flags nor `eip` are among them. `CsX86Op.IsLoc w` says that an operand is a general
register of width `w`, other than `AH` to `DH`, or memory of that width; `CsX86Op.value` is what it
holds. Every handler reaches such an operand through the same pointer and at the same width,
whichever of its size tests it makes.
-/

namespace I386Vm

open Bytes Prog

/-- The two states have the same registers, memory and descriptor table register. -/
structure SameData (s t : Machine) : Prop where
  reg : t.reg = s.reg
  mem : t.mem = s.mem
  gdtr : t.gdtr = s.gdtr
  noReturn : t.noReturn = s.noReturn

namespace SameData

variable {s t : Machine}

theorem trans {u : Machine} (h : SameData s t) (g : SameData t u) : SameData s u :=
  ⟨g.reg.trans h.reg, g.mem.trans h.mem, g.gdtr.trans h.gdtr, g.noReturn.trans h.noReturn⟩

theorem regVal (h : SameData s t) {r : X86Reg} (hr : ¬ r.Control) : t.regVal r = s.regVal r := by
  unfold Machine.regVal Machine.regVal?
  rw [h.noReturn]
  cases r <;> simp_all [Machine.peek, regs, regsSize, h.reg, X86Reg.Control]

theorem getGdtBase (h : SameData s t) (x : BitVec 16) : t.getGdtBase x = s.getGdtBase x := by
  unfold Machine.getGdtBase Machine.gdtDescriptor
  rw [h.mem, h.gdtr]

theorem effAddr (h : SameData s t) {m : X86OpMem}
    (hm : ¬ m.segment.Control ∧ ¬ m.base.Control ∧ ¬ m.index.Control) :
    t.effAddr m = s.effAddr m := by
  unfold Machine.effAddr
  rw [h.regVal hm.1, h.regVal hm.2.1, h.regVal hm.2.2, h.getGdtBase]

theorem peek (h : SameData s t) (w : Width) (p : Ptr) [hp : SafePtr p] :
    t.peek w p = s.peek w p := by
  cases p with
  | var v => simp only [Machine.peek, h.reg]
  | eip => exact absurd rfl hp.ne_eip
  | eflags => exact absurd rfl hp.ne_eflags
  | mem i => simp only [Machine.peek, h.mem]
  | null => rfl
  | wild => rfl

end SameData

theorem X86Reg.not_control_invalid : ¬ X86Reg.invalid.Control := by decide

theorem CsX86Op.Plain.mem {op : CsX86Op} (h : op.Plain) (hne : op.type ≠ .imm) :
    ¬ op.mem.segment.Control ∧ ¬ op.mem.base.Control ∧ ¬ op.mem.index.Control := by
  have hi := X86Reg.not_control_invalid
  rcases op with ⟨_ | r | v | m, size⟩
  · exact ⟨hi, hi, hi⟩
  · exact ⟨h, hi, hi⟩
  · exact absurd rfl hne
  · exact h

namespace SameData

variable {s t : Machine}

theorem opPtr (h : SameData s t) {op : CsX86Op} (hop : op.Plain) (hne : op.type ≠ .imm) :
    t.opPtr op = s.opPtr op := by
  unfold Machine.opPtr
  rw [h.effAddr (hop.mem hne)]

theorem branchTarget (h : SameData s t) {op : CsX86Op} (hop : op.Plain) :
    t.branchTarget op = s.branchTarget op := by
  unfold Machine.branchTarget
  rw [h.regVal (SafePtr.not_control_reg hop)]
  by_cases hne : op.type = .imm
  · simp [hne]
  · rw [h.effAddr (hop.mem hne), h.peek]

theorem advance (s : Machine) (insn : CsInsn) : SameData s (s.advance insn) := ⟨rfl, rfl, rfl, rfl⟩

theorem assignFlag (s : Machine) (f : Flag) (c : Bool) : SameData s (s.assignFlag f c) := by
  unfold Machine.assignFlag
  split <;> exact ⟨rfl, rfl, rfl, rfl⟩

end SameData

/-- The general registers of a width, without `AH`, `BH`, `CH` and `DH`. -/
def lowRegs : Width → List X86Reg
  | .byte => [.al, .bl, .cl, .dl]
  | .word => [.ax, .bx, .cx, .dx, .si, .di, .bp, .sp]
  | .dword => [.eax, .ebx, .ecx, .edx, .esi, .edi, .ebp, .esp]

/-- A register of `lowRegs w` or a memory operand, with the size of the width. -/
def CsX86Op.IsLoc (w : Width) (op : CsX86Op) : Prop :=
  op.size = w.size ∧
    match op.val with
    | .reg r => r ∈ lowRegs w
    | .mem m => ¬ m.segment.Control ∧ ¬ m.base.Control ∧ ¬ m.index.Control
    | _ => False

instance (w : Width) (op : CsX86Op) : Decidable (op.IsLoc w) :=
  match op with
  | ⟨.invalid, _⟩ => isFalse fun h => h.2
  | ⟨.reg r, _⟩ => inferInstanceAs (Decidable (_ ∧ r ∈ lowRegs w))
  | ⟨.imm _, _⟩ => isFalse fun h => h.2
  | ⟨.mem m, _⟩ => inferInstanceAs (Decidable (_ ∧ ¬ m.segment.Control ∧ _))

/-- What the operand holds, zero-extended. -/
def CsX86Op.value (op : CsX86Op) (w : Width) (s : Machine) : BitVec 32 := s.peek w (s.opPtr op)

theorem Machine.opPtr_of_reg {op : CsX86Op} {s : Machine} (ht : op.type = .reg) :
    s.opPtr op = regs op.reg :=
  if_pos ht

theorem Machine.opPtr_of_mem {op : CsX86Op} {s : Machine} (ht : op.type = .mem) :
    s.opPtr op = .mem (s.effAddr op.mem).toNat := by
  simp [opPtr, ht]

theorem Ptr.Valid.var (v : Var) : (Ptr.var v).Valid := ⟨nofun, nofun⟩

theorem Ptr.Valid.mem (i : ℕ) : (Ptr.mem i).Valid := ⟨nofun, nofun⟩

theorem Width.bits_le (w : Width) : w.bits ≤ 32 := by
  cases w <;> decide

@[simp] theorem low_dword (v : BitVec 32) : low Width.dword.bits v = v :=
  low_of_le (le_refl 32) v

theorem lowRegs_spec {w : Width} {r : X86Reg} (h : r ∈ lowRegs w) :
    ¬ r.Control ∧ (∃ v, regs r = .var v) ∧ widthOfBase (regsSize r) = w ∧
      regsSize r = w.size * 8 := by
  cases w <;> simp only [lowRegs, List.mem_cons, List.not_mem_nil, or_false] at h <;>
    rcases h with rfl | rfl | rfl | rfl | rfl | rfl | rfl | rfl <;>
    exact ⟨by decide, ⟨_, rfl⟩, by decide, by decide⟩

def segRegs : List X86Reg := [.cs, .ds, .es, .fs, .gs, .ss]

theorem segRegs_spec {seg : X86Reg} (h : seg ∈ segRegs) : ∃ v, regs seg = .var v ∧
    widthOfBase (regsSize seg) = .word ∧ seg ≠ .invalid ∧
      ∀ s : Machine, s.regVal seg = low 16 (s.reg v) := by
  simp only [segRegs, List.mem_cons, List.not_mem_nil, or_false] at h
  rcases h with rfl | rfl | rfl | rfl | rfl | rfl <;>
    exact ⟨_, rfl, by decide, by decide, fun _ => rfl⟩

@[simp] theorem widthOr8_size (w : Width) : widthOr8 w.size = w := by
  cases w <;> decide

@[simp] theorem widthOr32_size (w : Width) : widthOr32 w.size = w := by
  cases w <;> decide

theorem merge_dword (old v : BitVec 32) : merge Width.dword.bits old v = v := by
  apply BitVec.eq_of_getLsbD_eq
  intro i hi
  rw [getLsbD_merge]
  exact if_pos hi

theorem cut_eq_low (w : Width) (v : BitVec 32) : cut w v = low w.bits v := by
  apply BitVec.eq_of_toNat_eq
  rw [toNat_low]
  cases w with
  | byte =>
    change (v &&& 0xFF).toNat = v.toNat % 2 ^ 8
    rw [BitVec.toNat_and]
    exact Nat.and_two_pow_sub_one_eq_mod v.toNat 8
  | word =>
    change (v &&& 0xFFFF).toNat = v.toNat % 2 ^ 16
    rw [BitVec.toNat_and]
    exact Nat.and_two_pow_sub_one_eq_mod v.toNat 16
  | dword => exact (Nat.mod_eq_of_lt v.isLt).symm

namespace Machine

variable (s : Machine)

@[simp] theorem reg_setReg (v : Var) (x : BitVec 32) : (s.setReg v x).reg v = x := by
  simp [setReg]

theorem reg_setReg_of_ne {v v' : Var} (h : v' ≠ v) (x : BitVec 32) :
    (s.setReg v x).reg v' = s.reg v' := by
  simp [setReg, h]

theorem setReg_setReg (v : Var) (x y : BitVec 32) :
    (s.setReg v x).setReg v y = s.setReg v y := by
  unfold setReg
  rw [Function.update_idem]

theorem setReg_self (v : Var) : s.setReg v (s.reg v) = s := by
  unfold setReg
  rw [Function.update_eq_self]

variable (w : Width)

@[simp] theorem low_peek (p : Ptr) : low w.bits (s.peek w p) = s.peek w p := by
  cases p with
  | var v => exact low_low _ _
  | eip => exact low_low _ _
  | eflags => exact low_low _ _
  | mem i => exact low_readLE s.mem (le_of_eq rfl)
  | null => exact low_of_lt (by simp [peek])
  | wild => exact low_of_lt (by simp [peek])

theorem peek_lt (p : Ptr) : (s.peek w p).toNat < 2 ^ w.bits := by
  rw [← s.low_peek w p]
  exact toNat_low_lt _ _

/-- A narrow read is the low part of a wide one. -/
theorem peek_eq_low (p : Ptr) :
    s.peek w p = low w.bits (s.peek .dword p) := by
  cases p with
  | var v => exact congrArg (low w.bits) (low_of_le (le_refl 32) _).symm
  | eip => exact congrArg (low w.bits) (low_of_le (le_refl 32) _).symm
  | eflags => exact congrArg (low w.bits) (low_of_le (le_refl 32) _).symm
  | mem i => exact (low_readLE_of_le s.mem (by cases w <;> decide)).symm
  | null => exact (low_of_lt (by simp [peek])).symm
  | wild => exact (low_of_lt (by simp [peek])).symm

theorem peek_poke {p : Ptr} (hp : p.Valid) (x : BitVec 32) :
    (s.poke w p x).peek w p = low w.bits x := by
  cases p with
  | var v => simp [peek, poke, setReg]
  | eip => simp [peek, poke]
  | eflags => simp [peek, poke]
  | mem i => exact readLE_writeLE s.mem i w.bytes x
  | null => exact absurd rfl hp.1
  | wild => exact absurd rfl hp.2

theorem poke_low (p : Ptr) (x : BitVec 32) : s.poke w p (low w.bits x) = s.poke w p x := by
  cases p with
  | var v => simp [poke]
  | eip => simp [poke]
  | eflags => simp [poke]
  | mem i =>
    simp only [poke]
    rw [Width.bits, writeLE_low]
  | null => rfl
  | wild => rfl

theorem poke_poke (p : Ptr) (x y : BitVec 32) : (s.poke w p x).poke w p y = s.poke w p y := by
  have hmerge (v : BitVec 32) : merge w.bits (merge w.bits v x) y = merge w.bits v y := by
    apply BitVec.eq_of_getLsbD_eq
    intro i _
    simp only [getLsbD_merge]
    split <;> rfl
  cases p with
  | var v => simp [poke, setReg, hmerge]
  | eip => simp [poke, hmerge]
  | eflags => simp [poke, hmerge]
  | mem i =>
    simp only [poke]
    congr 1
    funext k
    simp only [writeLE]
    split <;> rfl
  | null => rfl
  | wild => rfl

/-- A register shares nothing with another one, nor with memory. -/
theorem peek_poke_of_ne {v : Var} {p q : Ptr} (hv : p = .var v ∨ q = .var v) (hne : q ≠ p)
    (x : BitVec 32) : (s.poke w p x).peek w q = s.peek w q := by
  have hreg (u : Var) (hu : Ptr.var u ≠ p) : (s.poke w p x).reg u = s.reg u := by
    cases p with
    | var v' => exact s.reg_setReg_of_ne (fun h => hu (congrArg Ptr.var h)) _
    | _ => rfl
  cases q with
  | var u => simp only [peek, hreg u hne]
  | _ =>
    rcases hv with rfl | hv
    · rfl
    · cases hv

theorem poke_dword_var (v : Var) (x : BitVec 32) : s.poke .dword (.var v) x = s.setReg v x :=
  congrArg (s.setReg v) (merge_dword (s.reg v) x)

end Machine

theorem advance_run (s : Machine) (insn : CsInsn) :
    (advance insn).run s = .ok ((), s.advance insn) := rfl

theorem setReg_run (s : Machine) (v : Var) (x : BitVec 32) :
    (setReg v x).run s = .ok ((), s.setReg v x) := rfl

theorem load_run {s : Machine} {w : Width} {p : Ptr} (hp : p.Valid) :
    (load w p).run s = .ok (s.peek w p, s) := by
  unfold load
  rw [run_bind_ok run_get_ok, if_neg hp.1, if_neg hp.2]
  rfl

theorem store_run {s : Machine} {w : Width} {p : Ptr} (hp : p.Valid) (x : BitVec 32) :
    (store w p x).run s = .ok ((), s.poke w p x) := by
  unfold store
  rw [if_neg hp.1, if_neg hp.2]
  rfl

theorem rmw_run {s : Machine} {w : Width} {p : Ptr} (hp : p.Valid) (f : BitVec 32 → BitVec 32) :
    (rmw w p f).run s = .ok ((s.peek w p, low w.bits (f (s.peek w p))),
      s.poke w p (f (s.peek w p))) := by
  unfold rmw
  rw [run_bind_ok (load_run hp), run_bind_ok (store_run hp _), run_bind_ok (load_run hp),
    Machine.peek_poke s w hp]
  rfl

namespace CsX86Op.IsLoc

variable {w : Width} {op : CsX86Op} {s t : Machine}

theorem cases (h : op.IsLoc w) :
    (op.type = .reg ∧ op.reg ∈ lowRegs w) ∨ (op.type = .mem ∧ op.reg = op.mem.segment) := by
  obtain ⟨-, h⟩ := h
  rcases op with ⟨_ | r | v | m, size⟩
  · exact h.elim
  · exact .inl ⟨rfl, h⟩
  · exact h.elim
  · exact .inr ⟨rfl, rfl⟩

theorem reg_mem (h : op.IsLoc w) (ht : op.type = .reg) : op.reg ∈ lowRegs w := by
  rcases h.cases with ⟨-, hr⟩ | ⟨ht', -⟩
  · exact hr
  · simp [ht] at ht'

theorem type_ne_imm (h : op.IsLoc w) : op.type ≠ .imm := by
  rcases h.cases with ⟨ht, -⟩ | ⟨ht, -⟩ <;> simp [ht]

theorem plain (h : op.IsLoc w) : op.Plain := by
  obtain ⟨-, h⟩ := h
  rcases op with ⟨_ | r | v | m, size⟩
  · trivial
  · exact (lowRegs_spec h).1
  · trivial
  · exact h

theorem opPtr_congr (h : op.IsLoc w) (hd : SameData s t) : t.opPtr op = s.opPtr op :=
  hd.opPtr h.plain h.type_ne_imm

theorem opPtr_var (h : op.IsLoc w) (s : Machine) :
    (∃ v, s.opPtr op = .var v) ∨ s.opPtr op = .mem (s.effAddr op.mem).toNat := by
  rcases h.cases with ⟨ht, hr⟩ | ⟨ht, -⟩
  · rw [Machine.opPtr_of_reg ht]
    exact .inl (lowRegs_spec hr).2.1
  · exact .inr (Machine.opPtr_of_mem ht)

theorem valid (h : op.IsLoc w) (s : Machine) : (s.opPtr op).Valid := by
  rcases h.opPtr_var s with ⟨v, hv⟩ | hv <;> rw [hv]
  · exact .var v
  · exact .mem _

theorem safe (h : op.IsLoc w) (s : Machine) : SafePtr (s.opPtr op) := by
  rcases h.opPtr_var s with ⟨v, hv⟩ | hv <;> rw [hv] <;> infer_instance

theorem value_lt (op : CsX86Op) (w : Width) (s : Machine) : (op.value w s).toNat < 2 ^ w.bits :=
  s.peek_lt w _

theorem low_value (op : CsX86Op) (w : Width) (s : Machine) :
    low w.bits (op.value w s) = op.value w s :=
  s.low_peek w _

theorem peek_eq (h : op.IsLoc w) (hd : SameData s t) : t.peek w (s.opPtr op) = op.value w s := by
  have := h.safe s
  exact hd.peek w _

theorem value_congr (h : op.IsLoc w) (hd : SameData s t) : op.value w t = op.value w s := by
  unfold value
  rw [h.opPtr_congr hd]
  exact h.peek_eq hd

theorem load_advance (h : op.IsLoc w) (s : Machine) (insn : CsInsn) :
    (load w ((s.advance insn).opPtr op)).run (s.advance insn) =
      .ok (op.value w s, s.advance insn) := by
  rw [← h.value_congr (SameData.advance s insn)]
  exact load_run (h.valid _)

theorem regVal_eq (h : op.IsLoc w) (ht : op.type = .reg) : s.regVal op.reg = op.value w s := by
  obtain ⟨-, ⟨v, hv⟩, hw, hs⟩ := lowRegs_spec (h.reg_mem ht)
  have hne : regsSize op.reg ≠ 0 := by
    rw [hs]
    cases w <;> decide
  have hval : s.regVal? op.reg = some (s.peek w (regs op.reg)) := by
    unfold Machine.regVal?
    split
    · rename_i hr'
      rw [hr'] at hv
      cases hv
    · rw [if_pos ⟨by rw [hv]; exact nofun, hne⟩, hw]
  unfold Machine.regVal value
  rw [hval, Machine.opPtr_of_reg ht]
  rfl

/-- The handlers' own way to the operand, by its type and the width its size selects. -/
theorem load_eq (h : op.IsLoc w) (s : Machine) :
    (if op.type = .reg then load w (regs op.reg) else load w (.mem (s.effAddr op.mem).toNat)).run s
      = .ok (op.value w s, s) := by
  have hv : (load w (s.opPtr op)).run s = .ok (op.value w s, s) := load_run (h.valid s)
  rcases h.cases with ⟨ht, -⟩ | ⟨ht, -⟩
  · rw [if_pos ht, ← Machine.opPtr_of_reg (s := s) ht, hv]
  · rw [if_neg (by simp [ht]), ← Machine.opPtr_of_mem ht, hv]

theorem srcBySize_run (h : op.IsLoc w) : (srcBySize op).run s = .ok (op.value w s, s) := by
  unfold srcBySize
  rw [run_bind_ok run_get_ok]
  rcases h.cases with ⟨ht, -⟩ | ⟨ht, -⟩
  · rw [if_pos ht, h.regVal_eq ht]
    rfl
  · rw [if_neg (by simp [ht]), if_neg (by simp [ht]), if_pos ht, h.1, widthOr8_size]
    have hv := h.load_eq s
    rwa [if_neg (by simp [ht])] at hv

theorem rmwReg_eq (h : op.IsLoc w) (s : Machine) (ht : op.type = .reg)
    (f : Width → BitVec 32 → BitVec 32) :
    rmwReg op.reg f = rmw w (s.opPtr op) (f w) := by
  unfold rmwReg
  rw [(lowRegs_spec (h.reg_mem ht)).2.2.1, Machine.opPtr_of_reg ht]

theorem rmwDst_mem_run (h : op.IsLoc w) (ht : op.type = .mem) (f : Width → BitVec 32 → BitVec 32)
    (g : BitVec 32 → BitVec 32) :
    (rmwDst op f g).run s = .ok ((op.value w s, low w.bits (g (op.value w s))),
      s.poke w (s.opPtr op) (g (op.value w s))) := by
  have hp := @Machine.opPtr_of_mem op s ht
  unfold rmwDst
  rw [run_bind_ok run_get_ok, if_neg (by simp [ht]), if_pos ht, h.1, widthOr8_size, ← hp,
    rmw_run (h.valid s)]
  rfl

theorem rmwDst_run (h : op.IsLoc w) (f : Width → BitVec 32 → BitVec 32)
    (g : BitVec 32 → BitVec 32) (hfg : low w.bits (f w (op.value w s)) =
      low w.bits (g (op.value w s))) :
    (rmwDst op f g).run s = .ok ((op.value w s, low w.bits (g (op.value w s))),
      s.poke w (s.opPtr op) (g (op.value w s))) := by
  rcases h.cases with ⟨ht, -⟩ | ⟨ht, -⟩
  · unfold rmwDst
    rw [run_bind_ok run_get_ok, if_pos ht, h.rmwReg_eq s ht, rmw_run (h.valid s)]
    change Except.ok ((op.value w s, low w.bits (f w (op.value w s))),
      s.poke w (s.opPtr op) (f w (op.value w s))) = _
    rw [hfg, ← s.poke_low w _ (f w (op.value w s)), hfg, s.poke_low]
  · exact h.rmwDst_mem_run ht f g

end CsX86Op.IsLoc

section List

variable {insn : CsInsn} {op1 op2 op3 : CsX86Op} {ops : List CsX86Op}

theorem op1_of_cons (h : insn.operands = op1 :: ops) : insn.op1 = op1 := by
  simp [CsInsn.op, h]

theorem op2_of_cons (h : insn.operands = op1 :: op2 :: ops) : insn.op2 = op2 := by
  simp [CsInsn.op, h]

theorem op3_of_cons (h : insn.operands = op1 :: op2 :: op3 :: ops) : insn.op3 = op3 := by
  simp [CsInsn.op, h]

end List

/-- What the operand holds, or the low 32 bits of the immediate that it is. -/
def CsX86Op.operand (op : CsX86Op) (w : Width) (s : Machine) : BitVec 32 :=
  if op.type = .imm then op.imm.setWidth 32 else op.value w s

section Operand

variable {w : Width} {op op1 : CsX86Op} {s t : Machine}

theorem CsX86Op.IsLoc.operand_eq (h : op.IsLoc w) : op.operand w s = op.value w s :=
  if_neg h.type_ne_imm

theorem operand_congr (h : op.IsLoc w ∨ op.type = .imm) (hd : SameData s t) :
    op.operand w t = op.operand w s := by
  rcases h with hl | ht
  · rw [hl.operand_eq, hl.operand_eq, hl.value_congr hd]
  · unfold CsX86Op.operand
    rw [if_pos ht, if_pos ht]

theorem srcBySize_operand (h : op.IsLoc w ∨ op.type = .imm) :
    (srcBySize op).run s = .ok (op.operand w s, s) := by
  rcases h with hl | ht
  · rw [hl.operand_eq]
    exact hl.srcBySize_run
  · unfold srcBySize CsX86Op.operand
    rw [run_bind_ok run_get_ok, if_neg (by simp [ht]), if_pos ht, if_pos ht]
    rfl

theorem sbbSrc_operand (h1 : op1.size = w.size)
    (h : op.IsLoc w ∨ (op.type = .imm ∧ op.size = w.size)) :
    (sbbSrc op1 op).run s = .ok (op.operand w s, s) := by
  unfold sbbSrc
  rcases h with hl | ⟨ht, hs⟩
  · rw [run_bind_ok run_get_ok, if_neg hl.type_ne_imm, h1, hl.1, hl.operand_eq]
    cases w <;> exact load_run (hl.valid s)
  · have hsame : ¬ (op.size = 1 ∧ (op1.size = 2 ∨ op1.size = 4)) := by
      rw [hs, h1]
      cases w <;> decide
    unfold CsX86Op.operand
    rw [run_bind_ok run_get_ok, if_pos ht, if_neg hsame, if_pos ht]
    rfl

end Operand

end I386Vm
