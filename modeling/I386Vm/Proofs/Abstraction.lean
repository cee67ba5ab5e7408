import I386Vm.Cpu
import I386Vm.Dispatch
import I386Vm.Proofs.Stack

/-!
# The machine as an i386

The i386 that a machine stands for has the general registers of the machine, its `eip`, the flags
that its `eflags` show, and the `2^32` bytes of memory that an address reaches. An operand of a
decoded instruction names a location of the i386; a handler that follows a pointer to it reads and
writes what the i386 does, as long as the pointer does not run past the last address.
-/

namespace I386Vm

open Bytes Prog

def Gpr.var : Gpr → Var
  | .eax => .eax
  | .ecx => .ecx
  | .edx => .edx
  | .ebx => .ebx
  | .esp => .esp
  | .ebp => .ebp
  | .esi => .esi
  | .edi => .edi

theorem Gpr.var_injective {r q : Gpr} (h : r.var = q.var) : r = q := by
  cases r <;> cases q <;> first | rfl | cases h

theorem Cpu.get_dword_reg (c : Cpu) (r : Gpr) : c.get .dword (.reg r) = c.reg r :=
  low_dword _

def Machine.abs (s : Machine) : Cpu where
  reg r := s.reg r.var
  eip := s.eip
  flag f := s.testFlag f
  mem a := s.mem a.toNat

namespace Gpr

/-- The name of the register, or of its low part, at a width. -/
def name : Width → Gpr → Option X86Reg
  | .byte, eax => some .al
  | .byte, ecx => some .cl
  | .byte, edx => some .dl
  | .byte, ebx => some .bl
  | .byte, _ => none
  | .word, eax => some .ax
  | .word, ecx => some .cx
  | .word, edx => some .dx
  | .word, ebx => some .bx
  | .word, esp => some .sp
  | .word, ebp => some .bp
  | .word, esi => some .si
  | .word, edi => some .di
  | .dword, eax => some .eax
  | .dword, ecx => some .ecx
  | .dword, edx => some .edx
  | .dword, ebx => some .ebx
  | .dword, esp => some .esp
  | .dword, ebp => some .ebp
  | .dword, esi => some .esi
  | .dword, edi => some .edi

theorem name_spec {w : Width} {r : Gpr} {x : X86Reg} (h : r.name w = some x) :
    x ∈ lowRegs w ∧ regs x = .var r.var := by
  cases w <;> cases r <;> cases h <;> exact ⟨by decide, rfl⟩

end Gpr

/-- The operand has no segment override, and its base and index are those of the address. -/
structure X86OpMem.Names (m : X86OpMem) (a : Address) : Prop where
  segment : m.segment = .invalid
  base : some m.base = a.base.elim (some .invalid) (Gpr.name .dword)
  index : some m.index = a.index.elim (some .invalid) (Gpr.name .dword)
  scale : m.scale = BitVec.ofNat 32 (2 ^ (a.scale : ℕ))
  disp : m.disp.setWidth 32 = a.disp

/-- The operand is the location at a width. -/
def CsX86Op.Names (w : Width) (op : CsX86Op) (l : Loc) : Prop :=
  op.size = w.size ∧
    match op.val, l with
    | .reg x, .reg r => r.name w = some x
    | .mem m, .mem a => m.Names a
    | _, _ => False

/-- The operand is the location or the immediate. -/
def CsX86Op.NamesSrc (w : Width) (op : CsX86Op) : Src w → Prop
  | .loc l => op.Names w l
  | .imm v => op.size = w.size ∧ ∃ x : BitVec 64,
      op.val = .imm x ∧ x.setWidth 32 = v.setWidth 32

section Names

variable {w : Width} {op : CsX86Op} {l : Loc}

theorem CsX86Op.Names.cases (h : op.Names w l) :
    (∃ r x, l = .reg r ∧ op = ⟨.reg x, w.size⟩ ∧ r.name w = some x) ∨
      ∃ a m, l = .mem a ∧ op = ⟨.mem m, w.size⟩ ∧ m.Names a := by
  obtain ⟨hs, h⟩ := h
  rcases op with ⟨_ | x | v | m, size⟩ <;> rcases l with r | a <;> try exact h.elim
  · exact .inl ⟨r, x, rfl, congrArg _ hs, h⟩
  · exact .inr ⟨a, m, rfl, congrArg _ hs, h⟩

theorem not_control_of_name {b : Option Gpr} {x : X86Reg}
    (h : some x = b.elim (some .invalid) (Gpr.name .dword)) : ¬ x.Control := by
  rcases b with _ | r
  · cases h
    decide
  · exact (lowRegs_spec (Gpr.name_spec h.symm).1).1

theorem CsX86Op.Names.isLoc (h : op.Names w l) : op.IsLoc w := by
  rcases h.cases with ⟨r, x, -, rfl, hr⟩ | ⟨a, m, -, rfl, hm⟩
  · exact ⟨rfl, (Gpr.name_spec hr).1⟩
  · refine ⟨rfl, ?_, not_control_of_name hm.base, not_control_of_name hm.index⟩
    rw [hm.segment]
    decide

end Names

/-- The pointer by which the machine reaches the place. -/
def Place.ptr : Place → Ptr
  | .reg r => .var r.var
  | .mem a => .mem a.toNat

/-- An access of the width does not run past the last address. -/
def Place.Fits (w : Width) : Place → Prop
  | .reg _ => True
  | .mem a => a.toNat + w.bytes ≤ 2 ^ 32

theorem Place.valid (p : Place) : p.ptr.Valid := by
  cases p with
  | reg r => exact .var _
  | mem a => exact .mem _

namespace Machine

variable {s : Machine} {w : Width} {op : CsX86Op} {l : Loc} {p : Place}

theorem regVal_name {r : Gpr} {x : X86Reg} (h : r.name w = some x) :
    s.regVal x = low w.bits (s.reg r.var) := by
  cases w <;> cases r <;> cases h <;> rfl

/-- A part of an address, absent or a register. -/
theorem part_eq {b : Option Gpr} {x : X86Reg}
    (h : some x = b.elim (some .invalid) (Gpr.name .dword)) :
    (if x ≠ .invalid then s.regVal x else 0) = b.elim 0 s.abs.reg := by
  rcases b with _ | r
  · cases h
    rfl
  · have hne : x ≠ .invalid := by
      rintro rfl
      cases r <;> cases h
    rw [if_pos hne, regVal_name h.symm, low_dword]
    rfl

theorem effAddr_eq {m : X86OpMem} {a : Address} (h : m.Names a) :
    s.effAddr m = s.abs.address a := by
  have hscale : m.scale ≠ 0 := by
    rw [h.scale]
    generalize a.scale = k
    revert k
    decide
  unfold effAddr Cpu.address
  rw [part_eq h.base, part_eq h.index, if_pos hscale, h.scale, h.disp, h.segment, if_neg (by simp)]
  exact congrArg₂ _ (congrArg₂ _ (BitVec.zero_add _) rfl) rfl

theorem opPtr_names (h : op.Names w l) : s.opPtr op = (s.abs.place l).ptr := by
  rcases h.cases with ⟨r, x, rfl, rfl, hr⟩ | ⟨a, m, rfl, rfl, hm⟩
  · exact (Gpr.name_spec hr).2
  · exact congrArg (Ptr.mem ∘ BitVec.toNat) (effAddr_eq hm)

/-- The bytes below the end of memory are those of the i386. -/
theorem bytesAt_eq {a : BitVec 32} {k : ℕ} (h : a.toNat + k < 2 ^ 32) :
    s.abs.bytesAt a k = s.mem (a.toNat + k) := by
  have hk : (a + BitVec.ofNat 32 k).toNat = a.toNat + k := by
    rw [BitVec.toNat_add, BitVec.toNat_ofNat, Nat.add_mod_mod, Nat.mod_eq_of_lt h]
  exact congrArg s.mem hk

theorem peek_ptr (h : p.Fits w) : s.peek w p.ptr = s.abs.load w p := by
  cases p with
  | reg r => rfl
  | mem a =>
    change readLE s.mem a.toNat w.bytes = readLE (s.abs.bytesAt a) 0 w.bytes
    apply BitVec.eq_of_getLsbD_eq
    intro i _
    rw [getLsbD_readLE, getLsbD_readLE, Nat.zero_add]
    by_cases hi : i < 8 * w.bytes
    · have hle : a.toNat + w.bytes ≤ 2 ^ 32 := h
      rw [bytesAt_eq (by omega)]
    · simp [hi]

theorem abs_setReg (r : Gpr) (x : BitVec 32) : (s.setReg r.var x).abs = s.abs.setReg r x := by
  have hreg : (fun q : Gpr => (s.setReg r.var x).reg q.var) = Function.update s.abs.reg r x := by
    funext q
    by_cases hq : q = r
    · rw [hq, Function.update_self, reg_setReg]
    · rw [Function.update_of_ne hq, reg_setReg_of_ne _ fun h => hq (Gpr.var_injective h)]
      rfl
  exact congrArg (fun f => ({ s.abs with reg := f } : Cpu)) hreg

theorem abs_poke (h : p.Fits w) (x : BitVec 32) :
    (s.poke w p.ptr x).abs = s.abs.store w p x := by
  cases p with
  | reg r => exact abs_setReg r _
  | mem a =>
    have hle : a.toNat + w.bytes ≤ 2 ^ 32 := h
    have hmem : (fun b : BitVec 32 => writeLE s.mem a.toNat w.bytes x b.toNat) = fun b =>
        if (b - a).toNat < w.bytes then byteOf (b - a).toNat x else s.mem b.toNat := by
      funext b
      have hlt := b.isLt
      rcases toNat_sub_cases b a with ⟨hab, hsub⟩ | ⟨hab, hsub⟩
      · rw [hsub]
        by_cases hb : b.toNat - a.toNat < w.bytes
        · obtain ⟨k, hk⟩ := Nat.exists_eq_add_of_le hab
          rw [if_pos hb, hk, Nat.add_sub_cancel_left, writeLE_add (by omega)]
        · rw [if_neg hb, writeLE_of_not_mem (by omega)]
      · rw [hsub, if_neg (by omega), writeLE_of_not_mem (by omega)]
    exact congrArg (fun f => ({ s.abs with mem := f } : Cpu)) hmem

theorem value_names (h : op.Names w l) (hl : (s.abs.place l).Fits w) :
    op.value w s = s.abs.get w l := by
  unfold CsX86Op.value
  rw [opPtr_names h, peek_ptr hl]
  rfl

theorem abs_advance (s : Machine) (insn : CsInsn) :
    (s.advance insn).abs = s.abs.goto (s.abs.eip + insn.size.setWidth 32) := rfl

/-- Where the memory operands are does not depend on `eip`. -/
theorem abs_poke_names (h : op.Names w l) (hl : (s.abs.place l).Fits w) (insn : CsInsn)
    (x : BitVec 32) : ((s.advance insn).poke w (s.opPtr op) x).abs =
      (s.abs.put w l x).goto (s.abs.eip + insn.size.setWidth 32) := by
  rw [opPtr_names h, abs_poke hl, abs_advance]
  rcases l with r | a <;> rfl

end Machine

theorem zero_eq (v : BitVec 32) : zero v = decide (v.toNat = 0) := by
  rw [Bool.eq_iff_iff, zero_iff, decide_eq_true_iff]

theorem parity_eq (v : BitVec 32) : parity v = decide (EvenParity v.toNat) := by
  rw [Bool.eq_iff_iff, parity_iff, decide_eq_true_iff]

/-- `SF`, `ZF` and `PF` are what the handlers compute of a result. -/
theorem Status.ofResult_eq (w : Width) (r : BitVec 32) (cf of af : Bool) :
    Status.ofResult w r cf of af = ⟨cf, of, sign r (w.size * 8), zero r, af, parity r⟩ := by
  rw [sign_eq, zero_eq, parity_eq]
  rfl

/-- The flags that the handlers compute of two operands and a result, with their carry. -/
def Status.computed (w : Width) (cf : Bool) (a b r : BitVec 32) : Status where
  cf := cf
  of := overflow a b r (w.size * 8)
  sf := sign r (w.size * 8)
  zf := zero r
  af := adjust a b r
  pf := parity r

namespace Machine

theorem abs_assignFlag (s : Machine) (f : Flag) (b : Bool) :
    (s.assignFlag f b).abs = s.abs.setFlag f b := by
  have hd := SameData.assignFlag s f b
  have heip : (s.assignFlag f b).eip = s.eip := by
    unfold assignFlag
    split <;> rfl
  have hflag : (fun g => (s.assignFlag f b).testFlag g) = Function.update s.abs.flag f b := by
    funext g
    rw [testFlag_assignFlag, Function.update_apply]
    rfl
  exact Cpu.ext (congrArg (fun m (r : Gpr) => m r.var) hd.reg) heip hflag
    (congrArg (fun m (a : BitVec 32) => m a.toNat) hd.mem)

/-- A change of the status flags alone. -/
theorem abs_sameBut {fs : List Flag} {s t : Machine} (h : SameBut fs s t) :
    t.abs = { s.abs with flag := t.testFlag } := by
  have hd := h.sameData
  have heip : t.eip = s.eip := by rw [h.state]
  exact Cpu.ext (congrArg (fun m (r : Gpr) => m r.var) hd.reg) heip rfl
    (congrArg (fun m (a : BitVec 32) => m a.toNat) hd.mem)

theorem abs_setStatus {fs : List Flag} {s t : Machine} {st : Status} (h : SameBut fs s t)
    (hf : ∀ f, t.testFlag f = st.over s.testFlag f) : t.abs = s.abs.setStatus st := by
  rw [abs_sameBut h]
  exact congrArg (fun fl => ({ s.abs with flag := fl } : Cpu)) (funext hf)

theorem abs_withArith (s : Machine) (w : Width) (cf : Bool) (a b r : BitVec 32) :
    (s.withArith cf a b r (w.size * 8)).abs = s.abs.setStatus (.computed w cf a b r) := by
  refine abs_setStatus (s.sameBut_withArith cf a b r _) fun f => ?_
  rw [testFlag_withArith]
  cases f <;> rfl

theorem abs_withLogic (s : Machine) (w : Width) (r : BitVec 32) :
    (s.withLogic r (w.size * 8)).abs =
      s.abs.setStatus (.ofResult w r false false (s.testFlag .AF)) := by
  refine abs_setStatus (s.sameBut_withLogic r _) fun f => ?_
  rw [testFlag_withLogic, Status.ofResult_eq]
  cases f <;> rfl

theorem read32_abs (s : Machine) (a : BitVec 32) :
    s.read32 a = s.abs.load .dword (.mem a) :=
  s.read32_eq_wrapped a

theorem abs_write32 (s : Machine) (a x : BitVec 32) :
    (s.write32 a x).abs = s.abs.store .dword (.mem a) x := by
  have hmem : (fun b : BitVec 32 => (s.write32 a x).mem b.toNat) = fun b =>
      if (b - a).toNat < 4 then byteOf (b - a).toNat x else s.mem b.toNat := by
    funext b
    have hidx : b.toNat = (a.toNat + (b - a).toNat) % 2 ^ 32 := by
      rw [← BitVec.toNat_add, BitVec.add_comm, BitVec.sub_add_cancel]
    by_cases hb : (b - a).toNat < 4
    · rw [if_pos hb, hidx]
      exact s.write32_mem_idx a x hb
    · rw [if_neg hb]
      refine s.write32_mem_of_ne a x fun j hj => ?_
      bv_omega
  exact congrArg (fun f => ({ s.abs with mem := f } : Cpu)) hmem

theorem abs_push32 (s : Machine) (x : BitVec 32) : (s.push32 x).abs = s.abs.push x := by
  unfold push32
  rw [abs_write32]
  exact congrArg (fun c : Cpu => c.store .dword (.mem (s.reg .esp - 4)) x) (@abs_setReg s .esp _)

end Machine

end I386Vm
