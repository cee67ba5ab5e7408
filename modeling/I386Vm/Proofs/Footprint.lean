import I386Vm.Proofs.Increments
import I386Vm.Proofs.Stack

/-!
# What a store to memory touches

Ten instructions that store to a memory operand. Six of them store at the width of the operand; MOV,
SUB, DEC and POP store 32 bits whatever it is, and so leave the bytes after a narrow operand alone
only where they write back what was there.
-/

namespace I386Vm

open Bytes Prog

/-- The instructions, by the handler of each. -/
inductive StoreOp
  | mov | add | adc | sub | sbb | and | inc | dec | xchg | pop

def StoreOp.handler : StoreOp → Handler
  | mov => movI
  | add => addI
  | adc => adcI
  | sub => subI
  | sbb => sbbI
  | and => andI
  | inc => incI
  | dec => decI
  | xchg => xchgI
  | pop => popI

/-- A register of the width that the tables know. -/
def CsX86Op.IsReg (w : Width) (op : CsX86Op) : Prop :=
  op.type = .reg ∧ op.size = w.size ∧ (regs op.reg).Valid ∧ ¬ op.reg.Control

/-- The second operand that goes with a memory destination. -/
def StoreOp.Source (k : StoreOp) (w : Width) (op : CsX86Op) : Prop :=
  match k with
  | inc => True
  | dec => True
  | pop => True
  | xchg => op.IsReg w
  | _ => op.IsReg w ∨ op.type = .imm

/-- A store of the given width at a memory operand inside the memory. -/
structure MemDst (k : StoreOp) (w : Width) (insn : CsInsn) (s : Machine) : Prop where
  loc : insn.op1.IsLoc w
  mem : insn.op1.type = .mem
  inside : (s.effAddr insn.op1.mem).toNat + w.bytes ≤ 2 ^ 32 - 1
  source : k.Source w insn.op2

/-- The handler returns and leaves the bytes outside the operand alone. -/
def StaysInside (k : StoreOp) (w : Width) (insn : CsInsn) (s : Machine) : Prop :=
  ∃ t, (k.handler insn).run s = .ok (some 0, t) ∧
    ∀ i, ¬ ((s.effAddr insn.op1.mem).toNat ≤ i ∧
      i < (s.effAddr insn.op1.mem).toNat + w.bytes) → t.mem i = s.mem i

section Source

variable {w : Width} {insn : CsInsn} {s t : Machine} {op1 op2 : CsX86Op}

/-- What `mov_i` and its like read of a register or an immediate. -/
def CsX86Op.regOrImm (op : CsX86Op) (s : Machine) : BitVec 32 :=
  if op.type = .reg then s.regVal op.reg else op.imm.setWidth 32

/-- What `sub_i` reads of a register or an immediate. -/
def CsX86Op.subOperand (op op1 : CsX86Op) (s : Machine) : BitVec 32 :=
  if op.type = .reg then s.regVal op.reg else immExtended op1 op

theorem srcWide_regOrImm (h : op2.IsReg w ∨ op2.type = .imm) :
    (srcWide op2).run s = .ok (op2.regOrImm s, s) := by
  unfold srcWide CsX86Op.regOrImm
  rw [run_bind_ok run_get_ok]
  rcases h with h | h
  · rw [if_pos h.1, if_pos h.1]
    rfl
  · rw [if_neg (by simp [h]), if_pos h, if_neg (by simp [h])]
    rfl

theorem srcBySize_regOrImm (h : op2.IsReg w ∨ op2.type = .imm) :
    (srcBySize op2).run s = .ok (op2.regOrImm s, s) := by
  unfold srcBySize CsX86Op.regOrImm
  rw [run_bind_ok run_get_ok]
  rcases h with h | h
  · rw [if_pos h.1, if_pos h.1]
    rfl
  · rw [if_neg (by simp [h]), if_pos h, if_neg (by simp [h])]
    rfl

theorem subSrc_subOperand (h : op2.IsReg w ∨ op2.type = .imm) :
    (subSrc op1 op2).run s = .ok (op2.subOperand op1 s, s) := by
  unfold subSrc CsX86Op.subOperand
  rw [run_bind_ok run_get_ok]
  rcases h with h | h
  · rw [if_pos h.1, if_pos h.1]
    rfl
  · rw [if_neg (by simp [h]), if_pos h, if_neg (by simp [h])]
    rfl

theorem sbbSrc_run (h1 : op1.size = w.size) (h : op2.IsReg w ∨ op2.type = .imm) :
    ∃ v, (sbbSrc op1 op2).run s = .ok (v, s) := by
  unfold sbbSrc
  rw [run_bind_ok run_get_ok]
  rcases h with ⟨ht, hs, hv, -⟩ | h
  · have hp : (s.opPtr op2).Valid := by
      rwa [Machine.opPtr_of_reg ht]
    rw [if_neg (by simp [ht]), hs, h1]
    cases w with
    | byte => exact ⟨_, load_run hp⟩
    | word => exact ⟨_, load_run hp⟩
    | dword => exact ⟨_, load_run hp⟩
  · rw [if_pos h]
    split
    · split <;> exact ⟨_, rfl⟩
    · exact ⟨_, rfl⟩

end Source

/-- The handler returns, having stored `n` bytes of `x` at the operand. -/
def Stores (h : Handler) (insn : CsInsn) (s : Machine) (n : ℕ) (x : BitVec 32) : Prop :=
  ∃ t, (h insn).run s = .ok (some 0, t) ∧
    t.mem = writeLE s.mem (s.effAddr insn.op1.mem).toNat n x

section Stores

variable {w : Width} {insn : CsInsn} {s : Machine}

theorem mem_poke_regs (t : Machine) (r : X86Reg) (x : BitVec 32) :
    (t.poke w (regs r) x).mem = t.mem := by
  cases r <;> rfl

section

variable (h : insn.op1.IsLoc w) (ht : insn.op1.type = .mem)
include h ht

omit ht in
theorem effAddr_advance : (s.advance insn).effAddr insn.op1.mem = s.effAddr insn.op1.mem :=
  (SameData.advance s insn).effAddr (h.plain.mem h.type_ne_imm)

theorem opPtr_advance : (s.advance insn).opPtr insn.op1 =
    .mem (s.effAddr insn.op1.mem).toNat := by
  rw [Machine.opPtr_of_mem ht, effAddr_advance h]

theorem movI_stores (h2 : insn.op2.IsReg w ∨ insn.op2.type = .imm) :
    Stores movI insn s 4 (insn.op2.regOrImm (s.advance insn)) := by
  unfold movI Stores
  rw [run_bind_ok (advance_run s insn), run_bind_ok (srcWide_regOrImm h2), run_bind_ok run_get_ok,
    if_neg (by simp [ht]), if_pos ht, effAddr_advance h, run_bind_ok (store_run (.mem _) _)]
  exact ⟨_, rfl, rfl⟩

/-- The common end of `add_i`, `adc_i` and `and_i`. -/
theorem rmwDst_stores (f : Width → BitVec 32 → BitVec 32) (g : BitVec 32 → BitVec 32) :
    ∃ r x, (rmwDst insn.op1 f g).run (s.advance insn) = .ok (r,
      (s.advance insn).poke w (.mem (s.effAddr insn.op1.mem).toNat) x) := by
  have hrun := @CsX86Op.IsLoc.rmwDst_mem_run w insn.op1 (s.advance insn) h ht f g
  rw [opPtr_advance h ht] at hrun
  exact ⟨_, _, hrun⟩

theorem addI_stores (h2 : insn.op2.IsReg w ∨ insn.op2.type = .imm) :
    ∃ x, Stores addI insn s w.bytes x := by
  obtain ⟨r, x, hrun⟩ := @rmwDst_stores w insn s h ht
    (fun w old => old + cut w (insn.op2.regOrImm (s.advance insn)))
    (fun old => old + insn.op2.regOrImm (s.advance insn))
  refine ⟨x, ?_⟩
  unfold addI Stores
  rw [run_bind_ok (advance_run s insn), run_bind_ok (srcBySize_regOrImm h2), run_bind_ok hrun,
    run_bind_ok (arithFlags_run _ _ _ _ _ _)]
  exact ⟨_, rfl, Machine.mem_withArith _ _ _ _ _ _⟩

theorem adcI_stores (h2 : insn.op2.IsReg w ∨ insn.op2.type = .imm) :
    ∃ x, Stores adcI insn s w.bytes x := by
  obtain ⟨r, x, hrun⟩ := @rmwDst_stores w insn s h ht
    (fun w old => old + (cut w (insn.op2.regOrImm (s.advance insn)) + (s.advance insn).carry))
    (fun old => old + (insn.op2.regOrImm (s.advance insn) + (s.advance insn).carry))
  refine ⟨x, ?_⟩
  unfold adcI Stores
  rw [run_bind_ok (advance_run s insn), run_bind_ok (srcBySize_regOrImm h2),
    run_bind_ok run_get_ok, run_bind_ok hrun, run_bind_ok (arithFlags_run _ _ _ _ _ _)]
  exact ⟨_, rfl, Machine.mem_withArith _ _ _ _ _ _⟩

theorem andI_stores (h2 : insn.op2.IsReg w ∨ insn.op2.type = .imm) :
    ∃ x, Stores andI insn s w.bytes x := by
  obtain ⟨r, x, hrun⟩ := @rmwDst_stores w insn s h ht
    (fun w old => old &&& cut w (insn.op2.regOrImm (s.advance insn)))
    (fun old => old &&& insn.op2.regOrImm (s.advance insn))
  refine ⟨x, ?_⟩
  unfold andI Stores
  rw [run_bind_ok (advance_run s insn), run_bind_ok (srcBySize_regOrImm h2), run_bind_ok hrun]
  refine ⟨_, rfl, ?_⟩
  change (((((Machine.assignFlag _ _ _).assignFlag _ _).assignFlag _ _).assignFlag .CF
    false).assignFlag .OF false).mem = _
  simp only [Machine.mem_assignFlag]
  rfl

theorem sbbI_stores (h2 : insn.op2.IsReg w ∨ insn.op2.type = .imm) :
    ∃ x, Stores sbbI insn s w.bytes x := by
  obtain ⟨v, hv⟩ := @sbbSrc_run w (s.advance insn) insn.op1 insn.op2 h.1 h2
  refine ⟨s.peek w (.mem (s.effAddr insn.op1.mem).toNat) - v - (s.advance insn).carry, ?_⟩
  unfold sbbI Stores
  rw [run_bind_ok (advance_run s insn), run_bind_ok run_get_ok, run_bind_ok hv, h.1,
    widthOr32_size, opPtr_advance h ht, run_bind_ok (rmw_run (.mem _) _)]
  exact ⟨_, rfl, Machine.mem_withArith _ _ _ _ _ _⟩

theorem incI_stores : ∃ x, Stores incI insn s w.bytes x := by
  refine ⟨insn.op1.value w s + (1 + 0), _, incI_run h, ?_⟩
  unfold Machine.sum
  rw [Machine.mem_withArith, Machine.opPtr_of_mem ht]
  rfl

theorem decI_stores :
    Stores decI insn s 4 (s.peek .dword (.mem (s.effAddr insn.op1.mem).toNat) - 1) := by
  refine ⟨_, decI_run h, ?_⟩
  unfold Machine.subtract
  rw [Machine.mem_withArith, if_pos ht, CsX86Op.wide_of_mem ht, Machine.opPtr_of_mem ht]
  rfl

theorem subI_stores (h2 : insn.op2.IsReg w ∨ insn.op2.type = .imm) :
    Stores subI insn s 4 (s.peek .dword (.mem (s.effAddr insn.op1.mem).toNat) -
      insn.op2.subOperand insn.op1 (s.advance insn)) := by
  have hdst := @subDst_run w insn.op1 (s.advance insn) h
    (insn.op2.subOperand insn.op1 (s.advance insn))
  have hwide : insn.op1.wide w (s.advance insn) =
      s.peek .dword (.mem (s.effAddr insn.op1.mem).toNat) := by
    rw [CsX86Op.wide_of_mem ht, opPtr_advance h ht]
    rfl
  rw [if_pos ht, opPtr_advance h ht, hwide] at hdst
  unfold subI Stores
  rw [run_bind_ok (advance_run s insn), run_bind_ok (subSrc_subOperand h2), run_bind_ok hdst]
  exact ⟨_, rfl, Machine.mem_withArith _ _ _ _ _ _⟩

/-- The store to the register does not move the address, which is computed before. -/
theorem xchgI_stores (h2 : insn.op2.IsReg w) : ∃ x, Stores xchgI insn s w.bytes x := by
  obtain ⟨ht2, -, hv2, -⟩ := h2
  have hp1 : ((s.advance insn).opPtr insn.op1).Valid := h.valid _
  have hp2 : (s.advance insn).opPtr insn.op2 = regs insn.op2.reg := Machine.opPtr_of_reg ht2
  refine ⟨(s.advance insn).peek w (regs insn.op2.reg), ?_⟩
  unfold xchgI Stores
  rw [run_bind_ok (advance_run s insn), run_bind_ok run_get_ok, h.1, widthOr32_size, hp2,
    run_bind_ok (load_run hv2), run_bind_ok (load_run hp1), run_bind_ok (store_run hv2 _),
    run_bind_ok (store_run hp1 _), opPtr_advance h ht]
  refine ⟨_, rfl, ?_⟩
  change writeLE ((s.advance insn).poke w (regs insn.op2.reg) _).mem _ _ _ = _
  rw [mem_poke_regs]
  rfl

theorem popI_mem : ∃ t, (popI insn).run s = .ok (some 0, t) ∧
    t.mem = (s.write32 (s.effAddr insn.op1.mem) (s.read32 (s.reg .esp))).mem := by
  unfold popI
  rw [run_bind_ok (advance_run s insn), run_bind_ok run_get_ok, if_neg (by simp [ht]), if_pos ht,
    effAddr_advance h]
  exact ⟨_, rfl, rfl⟩

end

/-- The subtraction leaves the bits above the width: nothing to subtract there and no borrow, or all
ones and a borrow. -/
def SubFits (w : Width) (m v : ℕ) : Prop :=
  (v < 2 ^ w.bits ∧ v ≤ m % 2 ^ w.bits) ∨
    (v / 2 ^ w.bits = 2 ^ (32 - w.bits) - 1 ∧ m % 2 ^ w.bits < v % 2 ^ w.bits)

/-- Where the bytes after a narrow operand are written back as they were. -/
def StoreOp.Fits (k : StoreOp) (w : Width) (insn : CsInsn) (s : Machine) : Prop :=
  w = .dword ∨
    match k with
    | mov => insn.op2.regOrImm s >>> w.bits =
        s.peek .dword (.mem (s.effAddr insn.op1.mem).toNat) >>> w.bits
    | sub => SubFits w (s.peek .dword (.mem (s.effAddr insn.op1.mem).toNat)).toNat
        (insn.op2.subOperand insn.op1 s).toNat
    | dec => insn.op1.value w s ≠ 0
    | pop => ∀ j, w.bytes ≤ j → j < 4 → byteOf j (s.read32 (s.reg .esp)) =
        s.mem (((s.effAddr insn.op1.mem).toNat + j) % 2 ^ 32)
    | _ => True

theorem sub_ushiftRight_iff (w : Width) (m v : BitVec 32) :
    (m - v) >>> w.bits = m >>> w.bits ↔ w = .dword ∨ SubFits w m.toNat v.toNat := by
  have hm := m.isLt
  have hv := v.isLt
  unfold SubFits
  rw [← BitVec.toNat_inj, BitVec.toNat_ushiftRight, BitVec.toNat_ushiftRight,
    Nat.shiftRight_eq_div_pow, Nat.shiftRight_eq_div_pow]
  rcases toNat_sub_cases m v with ⟨h, hs⟩ | ⟨h, hs⟩ <;> rw [hs] <;>
    cases w <;> simp [Width.bits, Width.bytes] <;> omega

theorem stays_of_narrow {k : StoreOp} (h : ∃ x, Stores k.handler insn s w.bytes x) :
    StaysInside k w insn s := by
  obtain ⟨x, t, hrun, hmem⟩ := h
  refine ⟨t, hrun, fun i hi => ?_⟩
  rw [hmem, writeLE_of_not_mem hi]

theorem stays_iff_of_wide (k : StoreOp) {x : BitVec 32} (h : Stores k.handler insn s 4 x) :
    StaysInside k w insn s ↔
      x >>> w.bits = s.peek .dword (.mem (s.effAddr insn.op1.mem).toNat) >>> w.bits := by
  obtain ⟨t, hrun, hmem⟩ := h
  have hiff := @writeLE_frame_iff 32 s.mem (s.effAddr insn.op1.mem).toNat 4 w.bytes rfl x
  rw [← hmem] at hiff
  unfold StaysInside
  rw [hrun, exists_ok_iff]
  exact hiff

theorem ushiftRight_dword (x : BitVec 32) : x >>> Width.dword.bits = 0 := by
  rw [← BitVec.toNat_inj, BitVec.toNat_ushiftRight, Nat.shiftRight_eq_div_pow]
  exact Nat.div_eq_of_lt x.isLt

theorem CsX86Op.IsReg.regOrImm_advance {op : CsX86Op} (h : op.IsReg w ∨ op.type = .imm) :
    op.regOrImm (s.advance insn) = op.regOrImm s ∧
      ∀ op1, op.subOperand op1 (s.advance insn) = op.subOperand op1 s := by
  unfold CsX86Op.regOrImm CsX86Op.subOperand
  rcases h with ⟨ht, -, -, hc⟩ | ht
  · have hr := (SameData.advance s insn).regVal hc
    rw [if_pos ht, if_pos ht, hr]
    exact ⟨rfl, fun _ => by rw [if_pos ht]⟩
  · have hne : op.type ≠ .reg := by simp [ht]
    rw [if_neg hne, if_neg hne]
    exact ⟨rfl, fun _ => by rw [if_neg hne, if_neg hne]⟩

theorem mov_stays_iff (h : MemDst .mov w insn s) :
    StaysInside .mov w insn s ↔ StoreOp.Fits .mov w insn s := by
  rw [stays_iff_of_wide .mov (movI_stores h.loc h.mem h.source),
    (CsX86Op.IsReg.regOrImm_advance h.source).1]
  refine ⟨.inr, fun hf => ?_⟩
  rcases hf with rfl | hf
  · rw [ushiftRight_dword, ushiftRight_dword]
  · exact hf

theorem sub_stays_iff (h : MemDst .sub w insn s) :
    StaysInside .sub w insn s ↔ StoreOp.Fits .sub w insn s := by
  rw [stays_iff_of_wide .sub (subI_stores h.loc h.mem h.source),
    (CsX86Op.IsReg.regOrImm_advance h.source).2, sub_ushiftRight_iff]
  exact Iff.rfl

theorem dec_stays_iff (h : MemDst .dec w insn s) :
    StaysInside .dec w insn s ↔ StoreOp.Fits .dec w insn s := by
  have hval : insn.op1.value w s =
      low w.bits (s.peek .dword (.mem (s.effAddr insn.op1.mem).toNat)) := by
    rw [← low_wide insn.op1 w s, CsX86Op.wide_of_mem h.mem, Machine.opPtr_of_mem h.mem]
  have hone : (1 : BitVec 32).toNat = 1 := rfl
  rw [stays_iff_of_wide .dec (decI_stores h.loc h.mem), sub_ushiftRight_iff]
  change _ ↔ w = .dword ∨ insn.op1.value w s ≠ 0
  rw [hval, ne_eq, ← BitVec.toNat_inj, toNat_low, hone]
  unfold SubFits
  cases w <;> simp [Width.bits, Width.bytes] <;> omega

theorem pop_stays_iff (h : MemDst .pop w insn s) :
    StaysInside .pop w insn s ↔ StoreOp.Fits .pop w insn s := by
  obtain ⟨t, hrun, hmem⟩ := @popI_mem w insn s h.loc h.mem
  have hin := h.inside
  have ha := (s.effAddr insn.op1.mem).isLt
  unfold StaysInside
  rw [show StoreOp.handler .pop = popI from rfl, hrun, exists_ok_iff, hmem]
  constructor
  · intro hstay
    refine .inr fun j hj hj4 => ?_
    rw [← hstay _ (by omega), Machine.write32_mem_idx _ _ _ hj4]
  · intro hf i hi
    by_cases hidx : ∃ j < 4, i = ((s.effAddr insn.op1.mem).toNat + j) % 2 ^ 32
    · obtain ⟨j, hj, rfl⟩ := hidx
      have hout : w.bytes ≤ j := by omega
      rw [Machine.write32_mem_idx _ _ _ hj]
      rcases hf with rfl | hf
      · exact absurd hout (not_le.2 hj)
      · exact hf j hout hj
    · exact Machine.write32_mem_of_ne _ _ _ fun j hj hij => hidx ⟨j, hj, hij⟩

/-- The handler stays inside its operand exactly where it writes back the bytes after it. -/
theorem staysInside_iff {k : StoreOp} (h : MemDst k w insn s) :
    StaysInside k w insn s ↔ k.Fits w insn s := by
  cases k with
  | mov => exact mov_stays_iff h
  | sub => exact sub_stays_iff h
  | dec => exact dec_stays_iff h
  | pop => exact pop_stays_iff h
  | add =>
    exact ⟨fun _ => .inr trivial, fun _ => stays_of_narrow (addI_stores h.loc h.mem h.source)⟩
  | adc =>
    exact ⟨fun _ => .inr trivial, fun _ => stays_of_narrow (adcI_stores h.loc h.mem h.source)⟩
  | sbb =>
    exact ⟨fun _ => .inr trivial, fun _ => stays_of_narrow (sbbI_stores h.loc h.mem h.source)⟩
  | and =>
    exact ⟨fun _ => .inr trivial, fun _ => stays_of_narrow (andI_stores h.loc h.mem h.source)⟩
  | inc => exact ⟨fun _ => .inr trivial, fun _ => stays_of_narrow (incI_stores h.loc h.mem)⟩
  | xchg =>
    exact ⟨fun _ => .inr trivial, fun _ => stays_of_narrow (xchgI_stores h.loc h.mem h.source)⟩

end Stores

def byteAt10 : CsX86Op := ⟨.mem ⟨.invalid, .invalid, .invalid, 1, 0x10⟩, 1⟩

def subByteOne : CsInsn := .bare "sub" 7 [byteAt10, ⟨.imm 1, 1⟩]

def movByteAl : CsInsn := .bare "mov" 6 [byteAt10, ⟨.reg .al, 1⟩]

def oneByte (i : ℕ) (x : BitVec 8) : Machine :=
  { Machine.blank with mem := Function.update (fun _ => 0) i x }

/-- `5 - 1` has no borrow. -/
theorem staysInside_sub_five : StaysInside .sub .byte subByteOne (oneByte 0x10 5) := by
  have h : MemDst .sub .byte subByteOne (oneByte 0x10 5) :=
    ⟨by decide, rfl, by decide, .inr rfl⟩
  refine (staysInside_iff h).2 (.inr (.inl ?_))
  decide

/-- `MOV` of a byte clears the byte after it. -/
theorem not_staysInside : ¬ ∀ (k : StoreOp) (w : Width) (insn : CsInsn) (s : Machine),
    MemDst k w insn s → StaysInside k w insn s := by
  intro hall
  have h : MemDst .mov .byte movByteAl (oneByte 0x11 7) :=
    ⟨by decide, rfl, by decide, .inl ⟨rfl, rfl, ⟨nofun, nofun⟩, by decide⟩⟩
  have hf := (mov_stays_iff h).1 (hall .mov .byte movByteAl (oneByte 0x11 7) h)
  rcases hf with hw | hf
  · cases hw
  · revert hf
    decide

end I386Vm
