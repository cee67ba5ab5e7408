import I386Vm.Lib.Bitwise
import I386Vm.Proofs.Counts

/-!
# Bit tests

The handlers take every register as 32 bits, and a memory operand as the sizes of both operands say
(`BT`) or as 32 bits (`BTS`); `BTC` and `BTR` write memory through a pointer that was never set.
`CF` is whether anything is left of the value above the bits below the one that is tested. `BT`
reduces an immediate offset modulo 8.
-/

namespace I386Vm

open Bytes Prog

/-! ## The bit offset -/

/-- An immediate, or a register of the width. -/
def CsX86Op.IsOffset (w : Width) (op : CsX86Op) : Prop :=
  op.type = .imm ∨ (op.type = .reg ∧ op.IsLoc w)

instance (w : Width) (op : CsX86Op) : Decidable (op.IsOffset w) :=
  inferInstanceAs (Decidable (_ ∨ _))

/-- The offset modulo the width. -/
def CsX86Op.bitIndex (op : CsX86Op) (w : Width) (s : Machine) : ℕ :=
  (op.operand w s).toNat % w.bits

theorem widthBt_eq {w : Width} {r : X86Reg} (h : r ∈ lowRegs w) :
    widthBt (regsSize r) = .dword := by
  rw [(lowRegs_spec h).2.2.2]
  cases w <;> rfl

theorem Width.bits_dvd (w : Width) : w.bits ∣ 32 := by
  cases w <;> decide

theorem Width.toNat_size_mul_bv (w : Width) : (w.size * 8).toNat = w.bits := by
  cases w <;> rfl

section Offset

variable {w : Width} {op : CsX86Op} {s : Machine}

/-- The handlers read a register of 16 bits with those above, which no modulus of theirs sees. -/
theorem bitOffset_run (h : op.IsOffset w) :
    ∃ v, (bitOffset op).run s = .ok ((v, if op.type = .reg then w.size * 8 else 8), s) ∧
      ∀ d, d ∣ 32 → v.toNat % d = (op.operand w s).toNat % d := by
  unfold bitOffset
  rcases h with ht | ⟨ht, hop⟩
  · have hne : op.type ≠ .reg := by simp [ht]
    rw [if_neg hne, if_neg hne]
    refine ⟨_, rfl, fun d _ => ?_⟩
    unfold CsX86Op.operand
    rw [if_pos ht]
  · have hr := hop.reg_mem ht
    obtain ⟨-, ⟨v, hv⟩, -, hsize⟩ := lowRegs_spec hr
    have hptr : s.opPtr op = .var v := (Machine.opPtr_of_reg ht).trans hv
    rw [if_pos ht, if_pos ht, widthBt_eq hr, hv, run_bind_ok (load_run (.var v)), hsize]
    refine ⟨_, rfl, fun d hd => ?_⟩
    have hdvd : d ∣ 2 ^ w.bits := by
      refine hd.trans ?_
      cases w <;> decide
    rw [hop.operand_eq]
    unfold CsX86Op.value
    rw [hptr]
    change (low 32 (s.reg v)).toNat % d = (low w.bits (s.reg v)).toNat % d
    rw [low_of_le (le_refl 32), toNat_low, Nat.mod_mod_of_dvd _ hdvd]

end Offset

/-! ## A value that is shifted to a bit -/

theorem ushiftRight_ne_zero_iff {w : ℕ} (x : BitVec w) (k : ℕ) : x >>> k ≠ 0 ↔ 2 ^ k ≤ x.toNat := by
  rw [Ne, ← BitVec.toNat_inj, BitVec.toNat_ushiftRight, Nat.shiftRight_eq_div_pow]
  change ¬ x.toNat / 2 ^ k = 0 ↔ _
  rw [Nat.div_eq_zero_iff_lt (Nat.two_pow_pos k), not_lt]

theorem powI_two (k : ℕ) : powI 2 k = BitVec.twoPow 32 k := by
  induction k with
  | zero => rfl
  | succ k ih =>
    rw [powI, ih]
    apply BitVec.eq_of_toNat_eq
    rw [BitVec.toNat_mul, BitVec.toNat_twoPow, BitVec.toNat_twoPow, pow_succ]
    exact Nat.mod_mul_mod _ _ _

namespace Machine

variable (s : Machine) (w : Width) (p : Ptr)

/-- A bit of the word at `p` is one of the 32 bits there. -/
theorem poke_putBit {j : ℕ} (hj : j < w.bits) (b : Bool) :
    s.poke .dword p (putBit j b (s.peek .dword p)) = s.poke w p (putBit j b (s.peek w p)) := by
  have hreg (x : BitVec 32) : merge Width.dword.bits x (putBit j b (low Width.dword.bits x)) =
      merge w.bits x (putBit j b (low w.bits x)) := by
    rw [merge_putBit hj]
    exact merge_putBit (hj.trans_le w.bits_le)
  cases p with
  | var v => exact congrArg (s.setReg v) (hreg _)
  | eip => exact congrArg (fun x => { s with eip := x }) (hreg _)
  | eflags => exact congrArg (fun x => { s with eflags := x }) (hreg _)
  | mem i =>
    have hle : w.bytes ≤ Width.dword.bytes := by
      cases w <;> decide
    exact congrArg (fun m => { s with mem := m }) (writeLE_putBit hj hle (le_refl 32))
  | null => rfl
  | wild => rfl

end Machine

/-! ## The handlers -/

/-- What `BT` reads of the first operand. -/
def btWidth (dst off : CsX86Op) : Width :=
  if dst.type = .reg ∨ dst.size = 4 then .dword else if off.size = 2 then .word else .byte

/-- The bit down to which `BT` shifts: an immediate is reduced modulo 8. -/
def btIndex (off : CsX86Op) (w : Width) (s : Machine) : ℕ :=
  (off.operand w s).toNat % (if off.type = .reg then w.bits else 8)

section Runs

variable {w : Width} {insn : CsInsn} {s : Machine}

theorem bitIndex_lt (op : CsX86Op) (w : Width) (s : Machine) : op.bitIndex w s < w.bits :=
  Nat.mod_lt _ w.bits_pos

theorem btIndex_lt (op : CsX86Op) (w : Width) (s : Machine) : btIndex op w s < 32 := by
  unfold btIndex
  split
  · exact (Nat.mod_lt _ w.bits_pos).trans_le w.bits_le
  · exact (Nat.mod_lt _ (by decide)).trans_le (by decide)

theorem bitModify_run {p : Ptr} (hp : p.Valid) [SafePtr p] {v : BitVec 32} {b : BitVec 8} {j : ℕ}
    (hb : b.toNat ≠ 0) (hv : v.toNat % b.toNat = j) (hj : j < 32)
    {f : BitVec 32 → BitVec 32 → BitVec 32} :
    (bitModify .dword p v b f).run s = .ok ((), (s.poke .dword p (f (s.peek .dword p)
      (BitVec.twoPow 32 j))).assignFlag .CF (2 ^ j ≤ (s.peek .dword p).toNat)) := by
  unfold bitModify
  rw [run_bind_ok (load_run hp), run_bind_ok (modulo_run hb _ _), hv,
    run_bind_ok (shiftAmount_run rfl hj _), run_bind_ok (assignFlag_run _ _ _), store_run hp,
    Machine.poke_assignFlag, powI_two]
  simp only [ushiftRight_ne_zero_iff]

theorem btI_run (hoff : insn.op2.IsOffset w) (hdst : insn.op1.IsLoc w) :
    (btI insn).run s = .ok (some 0, (s.advance insn).assignFlag .CF
      (2 ^ btIndex insn.op2 w s ≤
        (s.peek (btWidth insn.op1 insn.op2) (s.opPtr insn.op1)).toNat)) := by
  have hsafe := hdst.safe s
  have hd := SameData.advance s insn
  have hload : (if insn.op1.type = .reg then
        load (widthBt (regsSize insn.op1.reg)) (regs insn.op1.reg)
      else load (if insn.op1.size = 4 then .dword else if insn.op2.size = 2 then .word else .byte)
        (.mem ((s.advance insn).effAddr insn.op1.mem).toNat)).run (s.advance insn) =
      .ok (s.peek (btWidth insn.op1 insn.op2) (s.opPtr insn.op1), s.advance insn) := by
    have hvalid := hdst.valid s
    have hptr := hdst.opPtr_congr hd
    rw [← hd.peek]
    unfold btWidth
    rcases hdst.cases with ⟨ht, -⟩ | ⟨ht, -⟩
    · rw [if_pos ht, if_pos (.inl ht), widthBt_eq (hdst.reg_mem ht),
        ← Machine.opPtr_of_reg (s := s) ht]
      exact load_run hvalid
    · have hne : insn.op1.type ≠ .reg := by simp [ht]
      rw [if_neg hne, ← Machine.opPtr_of_mem ht, hptr]
      simp only [hne, false_or]
      exact load_run hvalid
  obtain ⟨v, hv, hmod⟩ := @bitOffset_run w insn.op2 (s.advance insn) hoff
  have hindex : v.toNat % (if insn.op2.type = .reg then w.size * 8 else 8 : BitVec 8).toNat =
      btIndex insn.op2 w s := by
    rw [operand_congr (hoff.symm.imp_left And.right) hd] at hmod
    unfold btIndex
    split_ifs
    · rw [w.toNat_size_mul_bv, hmod _ w.bits_dvd]
    · exact hmod 8 (by decide)
  have hbase : (if insn.op2.type = .reg then w.size * 8 else 8 : BitVec 8).toNat ≠ 0 := by
    split_ifs
    · rw [w.toNat_size_mul_bv]
      exact w.bits_pos.ne'
    · decide
  unfold btI
  rw [run_bind_ok (advance_run s insn), run_bind_ok run_get_ok, run_bind_ok hload, run_bind_ok hv,
    run_bind_ok (modulo_run hbase _ _), hindex,
    run_bind_ok (shiftAmount_run rfl (btIndex_lt _ _ _) _), run_bind_ok (assignFlag_run _ _ _)]
  simp only [ushiftRight_ne_zero_iff]
  rfl

theorem offset_run (hoff : insn.op2.IsOffset w) : ∃ v b,
    (bitOffset insn.op2).run (s.advance insn) = .ok ((v, b), s.advance insn) ∧
      v.toNat % w.bits = insn.op2.bitIndex w s ∧
      v.toNat % 32 = (insn.op2.operand w s).toNat % 32 := by
  obtain ⟨v, hv, hmod⟩ := @bitOffset_run w insn.op2 (s.advance insn) hoff
  rw [operand_congr (hoff.symm.imp_left And.right) (SameData.advance s insn)] at hmod
  exact ⟨v, _, hv, hmod _ w.bits_dvd, hmod 32 (dvd_refl 32)⟩

/-- The state after a change of bit `j` to `b` in what `p` points to. -/
def Machine.withBit (s : Machine) (p : Ptr) (j : ℕ) (b : Bool) : Machine :=
  (s.poke .dword p (putBit j b (s.peek .dword p))).assignFlag .CF
    (2 ^ j ≤ (s.peek .dword p).toNat)

/-- `BTS`, `BTR` and `BTC` of a register. -/
theorem bitModify_reg_run (hdst : insn.op1.IsLoc w) (ht : insn.op1.type = .reg) {v : BitVec 32}
    {f : BitVec 32 → BitVec 32 → BitVec 32} {j : ℕ} {b : Bool} (hmod : v.toNat % w.bits = j)
    (hf : f (s.peek .dword (s.opPtr insn.op1)) (BitVec.twoPow 32 j) =
      putBit j b (s.peek .dword (s.opPtr insn.op1))) :
    (bitModify (widthBt (regsSize insn.op1.reg)) (regs insn.op1.reg) v
      (regsSize insn.op1.reg) f).run (s.advance insn) =
    .ok ((), (s.advance insn).withBit (s.opPtr insn.op1) j b) := by
  have hsafe := hdst.safe s
  have hsize := (lowRegs_spec (hdst.reg_mem ht)).2.2.2
  have hbits : (w.size * 8).toNat = w.bits := w.toNat_size_mul_bv
  have hptr : regs insn.op1.reg = s.opPtr insn.op1 := (Machine.opPtr_of_reg ht).symm
  have hj : j < 32 := by
    rw [← hmod]
    exact (Nat.mod_lt _ w.bits_pos).trans_le w.bits_le
  rw [← (SameData.advance s insn).peek] at hf
  rw [widthBt_eq (hdst.reg_mem ht), hptr, hsize,
    bitModify_run (hdst.valid s) (by rw [hbits]; exact w.bits_pos.ne') (by rw [hbits]; exact hmod)
      hj, hf]
  rfl

variable (hoff : insn.op2.IsOffset w) (hdst : insn.op1.IsLoc w)
include hoff hdst

/-- `BTS` of memory is one of its 32 bits. -/
theorem btsI_run (hmem : insn.op1.type = .mem → (insn.op2.operand w s).toNat < w.bits) :
    (btsI insn).run s = .ok (some 0, (s.advance insn).withBit (s.opPtr insn.op1)
      (insn.op2.bitIndex w s) true) := by
  have hsafe := hdst.safe s
  have hd := SameData.advance s insn
  obtain ⟨v, b, hv, hmod, hmod32⟩ := @offset_run w insn s hoff
  unfold btsI
  rw [run_bind_ok (advance_run s insn), run_bind_ok hv, run_bind_ok run_get_ok]
  rcases hdst.cases with ⟨ht, -⟩ | ⟨ht, -⟩
  · rw [if_pos ht, run_bind_ok (bitModify_reg_run (b := true) hdst ht hmod rfl)]
    rfl
  · have hne : insn.op1.type ≠ .reg := by simp [ht]
    have hlt := hmem ht
    have hindex : v.toNat % (0x20 : BitVec 8).toNat = insn.op2.bitIndex w s := by
      unfold CsX86Op.bitIndex
      rw [Nat.mod_eq_of_lt hlt, ← Nat.mod_eq_of_lt (hlt.trans_le w.bits_le), ← hmod32]
      rfl
    rw [if_neg hne, ← Machine.opPtr_of_mem ht, hdst.opPtr_congr hd,
      run_bind_ok (bitModify_run (hdst.valid s) (by decide) hindex
        ((bitIndex_lt _ _ _).trans_le w.bits_le))]
    rfl

theorem bitChange_run {f : Width → BitVec 32 → BitVec 32 → BitVec 32} {b : Bool}
    (hf : f .dword (s.peek .dword (s.opPtr insn.op1))
        (BitVec.twoPow 32 (insn.op2.bitIndex w s)) =
      putBit (insn.op2.bitIndex w s) b (s.peek .dword (s.opPtr insn.op1))) :
    (bitChange f insn).run s = if insn.op1.type = .reg then .ok (some 0,
      (s.advance insn).withBit (s.opPtr insn.op1) (insn.op2.bitIndex w s) b)
    else .error .wild := by
  obtain ⟨v, _, hv, hmod, -⟩ := @offset_run w insn s hoff
  unfold bitChange
  rw [run_bind_ok (advance_run s insn), run_bind_ok hv]
  split_ifs with ht
  · have hwidth := congrArg f (widthBt_eq (hdst.reg_mem ht))
    rw [run_bind_ok (bitModify_reg_run hdst ht hmod (by rw [hwidth]; exact hf))]
    rfl
  · rfl

theorem btrI_run : (btrI insn).run s = if insn.op1.type = .reg then .ok (some 0,
      (s.advance insn).withBit (s.opPtr insn.op1) (insn.op2.bitIndex w s) false)
    else .error .wild := by
  refine bitChange_run hoff hdst ?_
  exact congrArg _ (BitVec.allOnes_sub_eq_not _)

theorem btcI_run : (btcI insn).run s = if insn.op1.type = .reg then .ok (some 0,
      (s.advance insn).withBit (s.opPtr insn.op1) (insn.op2.bitIndex w s)
        (!(s.peek .dword (s.opPtr insn.op1)).getLsbD (insn.op2.bitIndex w s)))
    else .error .wild :=
  bitChange_run hoff hdst putBit_not.symm

end Runs

/-! ## What they should do -/

inductive BitOp
  | bt
  | bts
  | btr
  | btc

namespace BitOp

def handler : BitOp → Handler
  | .bt => btI
  | .bts => btsI
  | .btr => btrI
  | .btc => btcI

/-- The bit that is left, by the one that was there. -/
def after : BitOp → Bool → Bool
  | .bt, b => b
  | .bts, _ => true
  | .btr, _ => false
  | .btc, b => !b

end BitOp

/-- `CF` is bit `j`, and nothing else has changed but that bit. -/
structure IsBitOp (o : BitOp) (w : Width) (j : ℕ) (p : Ptr) (s t : Machine) : Prop where
  cf : t.testFlag .CF = (s.peek w p).getLsbD j
  same : SameBut [.CF] (s.poke w p (putBit j (o.after ((s.peek w p).getLsbD j)) (s.peek w p))) t

/-- The handler returns, and has done so to the operand. -/
def BitOp.Does (o : BitOp) (w : Width) (insn : CsInsn) (s : Machine) : Prop :=
  ∃ r t, (o.handler insn).run s = .ok (r, t) ∧
    IsBitOp o w (insn.op2.bitIndex w s) (s.opPtr insn.op1) (s.advance insn) t

/-- What is left above the bits below is something exactly where the bit is set. `BTR` and `BTC`
need a register. -/
def BitOp.Holds (o : BitOp) (w : Width) (dst off : CsX86Op) (s : Machine) : Prop :=
  match o with
  | .bt => 2 ^ btIndex off w s ≤ (s.peek (btWidth dst off) (s.opPtr dst)).toNat ↔
      (dst.value w s).getLsbD (off.bitIndex w s) = true
  | .bts => 2 ^ off.bitIndex w s ≤ (s.peek .dword (s.opPtr dst)).toNat ↔
      (dst.value w s).getLsbD (off.bitIndex w s) = true
  | _ => dst.type = .reg ∧ (2 ^ off.bitIndex w s ≤ (s.peek .dword (s.opPtr dst)).toNat ↔
      (dst.value w s).getLsbD (off.bitIndex w s) = true)

section Laws

variable {w : Width} {insn snd : CsInsn} {s : Machine} {p : Ptr} {j : ℕ}

theorem getLsbD_peek_dword (hj : j < w.bits) :
    (s.peek .dword p).getLsbD j = (s.peek w p).getLsbD j := by
  rw [s.peek_eq_low w p, getLsbD_low, decide_eq_true hj, Bool.true_and]

theorem isBitOp_assignFlag_iff [SafePtr p] {o : BitOp} {c : Bool} (hj : j < w.bits) :
    IsBitOp o w j p s ((s.poke .dword p (putBit j (o.after ((s.peek w p).getLsbD j))
      (s.peek .dword p))).assignFlag .CF c) ↔ c = (s.peek w p).getLsbD j := by
  have hcf (u : Machine) : (u.assignFlag .CF c).testFlag .CF = c := by
    rw [u.testFlag_assignFlag, if_pos rfl]
  constructor
  · intro h
    rw [← h.cf, hcf]
  · intro h
    refine ⟨(hcf _).trans h, ?_⟩
    rw [s.poke_putBit w p hj, SameBut.assignFlag_iff (List.mem_singleton.2 rfl)]
    exact SameBut.refl _

theorem isBitOp_withBit_iff [SafePtr p] {o : BitOp} {b : Bool} (hj : j < w.bits)
    (hb : b = o.after ((s.peek w p).getLsbD j)) :
    IsBitOp o w j p s (s.withBit p j b) ↔
      (2 ^ j ≤ (s.peek .dword p).toNat ↔ (s.peek w p).getLsbD j = true) := by
  unfold Machine.withBit
  rw [hb, isBitOp_assignFlag_iff hj, Bool.eq_iff_iff, decide_eq_true_iff]

variable (hoff : insn.op2.IsOffset w) (hdst : insn.op1.IsLoc w)
  (hmem : insn.op1.type = .mem → (insn.op2.operand w s).toNat < w.bits)
include hoff hdst hmem

theorem bitOp_iff (o : BitOp) : o.Does w insn s ↔ o.Holds w insn.op1 insn.op2 s := by
  have hsafe := hdst.safe s
  have hd := SameData.advance s insn
  have hj := bitIndex_lt insn.op2 w s
  have hbit : ((s.advance insn).peek w (s.opPtr insn.op1)) = insn.op1.value w s := hdst.peek_eq hd
  have hdword := hd.peek .dword (s.opPtr insn.op1)
  have hlaw (b : Bool) (hb : b = o.after ((insn.op1.value w s).getLsbD (insn.op2.bitIndex w s))) :=
    @isBitOp_withBit_iff w (s.advance insn) (s.opPtr insn.op1) _ hsafe o b hj (hbit ▸ hb)
  rw [hbit, hdword] at hlaw
  unfold BitOp.Does BitOp.Holds
  cases o with
  | bt =>
    have hkeep := @isBitOp_assignFlag_iff w (s.advance insn) (s.opPtr insn.op1) _ hsafe .bt
      (2 ^ btIndex insn.op2 w s ≤
        (s.peek (btWidth insn.op1 insn.op2) (s.opPtr insn.op1)).toNat) hj
    change (∃ r t, (btI insn).run s = _ ∧ _) ↔ _
    rw [btI_run hoff hdst, exists_run_iff]
    rw [BitOp.after, ← getLsbD_peek_dword hj, putBit_self, Machine.poke_peek,
      getLsbD_peek_dword hj, hbit, Bool.eq_iff_iff, decide_eq_true_iff] at hkeep
    exact hkeep
  | bts =>
    change (∃ r t, (btsI insn).run s = _ ∧ _) ↔ _
    rw [btsI_run hoff hdst hmem, exists_run_iff]
    exact hlaw true rfl
  | btr =>
    change (∃ r t, (btrI insn).run s = _ ∧ _) ↔ _
    rw [btrI_run hoff hdst]
    by_cases ht : insn.op1.type = .reg
    · rw [if_pos ht, exists_run_iff]
      exact (hlaw false rfl).trans (and_iff_right ht).symm
    · rw [if_neg ht]
      exact iff_of_false (fun ⟨_, _, h, _⟩ => nomatch h) fun h => ht h.1
  | btc =>
    change (∃ r t, (btcI insn).run s = _ ∧ _) ↔ _
    rw [btcI_run hoff hdst]
    by_cases ht : insn.op1.type = .reg
    · rw [if_pos ht, exists_run_iff]
      exact (hlaw _ (congrArg _ (getLsbD_peek_dword hj))).trans (and_iff_right ht).symm
    · rw [if_neg ht]
      exact iff_of_false (fun ⟨_, _, h, _⟩ => nomatch h) fun h => ht h.1

end Laws

/-! ## One after the other -/

/-- After the first instruction the second one names the same place and the same bit. -/
def BitOp.Stays (o : BitOp) (w : Width) (fst snd : CsInsn) (s : Machine) : Prop :=
  ∀ r t, (o.handler fst).run s = .ok (r, t) →
    t.opPtr snd.op1 = s.opPtr fst.op1 ∧ snd.op2.operand w t = fst.op2.operand w s

/-- Both instructions return, in a state with `P`. -/
def BitOp.Then (fst' snd' : BitOp) (fst snd : CsInsn) (s : Machine) (P : Machine → Prop) : Prop :=
  ∃ r t, (fst'.handler fst).run s = .ok (r, t) ∧
    ∃ r' u, (snd'.handler snd).run t = .ok (r', u) ∧ P u

section Pairs

variable {w : Width} {insn snd : CsInsn} {s : Machine}

theorem Machine.peek_withBit {p : Ptr} [SafePtr p] (hp : p.Valid) (s : Machine) (j : ℕ) (b : Bool) :
    (s.withBit p j b).peek .dword p = putBit j b (s.peek .dword p) := by
  unfold Machine.withBit
  rw [(SameData.assignFlag _ _ _).peek, Machine.peek_poke _ _ hp, low_dword]

/-- Above a lower bit there is something in the low part exactly where the bit that was set is in
it or something was there before. -/
theorem le_low_putBit_iff {n j k : ℕ} {x : BitVec 32} (hj : j < 32) (hk : k ≤ j) :
    2 ^ k ≤ (low n (putBit j true x)).toNat ↔ j < n ∨ 2 ^ k ≤ (low n x).toNat := by
  by_cases hn : j < n
  · refine iff_of_true ?_ (.inl hn)
    have hbit : (low n (putBit j true x)).getLsbD j = true := by
      rw [getLsbD_low, getLsbD_putBit hj, if_pos rfl, decide_eq_true hn]
      rfl
    exact (Nat.pow_le_pow_right Nat.two_pos hk).trans (Nat.ge_two_pow_of_testBit hbit)
  · have hlow : low n (putBit j true x) = low n x := by
      apply BitVec.eq_of_getLsbD_eq
      intro i hi
      rw [getLsbD_low, getLsbD_low, getLsbD_putBit hi]
      by_cases hin : i < n
      · rw [if_neg (by omega)]
      · simp [hin]
    rw [hlow]
    simp [hn]

theorem btIndex_le_bitIndex (op : CsX86Op) (w : Width) (s : Machine) :
    btIndex op w s ≤ op.bitIndex w s := by
  unfold btIndex CsX86Op.bitIndex
  split
  · exact le_rfl
  · have hdvd : 8 ∣ w.bits := ⟨w.bytes, rfl⟩
    rw [← Nat.mod_mod_of_dvd _ hdvd]
    exact Nat.mod_le _ _

variable (hdst : insn.op1.IsLoc w) (h1 : snd.op1 = insn.op1) (h2 : snd.op2 = insn.op2)
include hdst h1 h2

/-- What the second instruction finds where the first has left bit `j` as `b`. -/
theorem stays_withBit {t : Machine} {b : Bool}
    (ht : t = (s.advance insn).withBit (s.opPtr insn.op1) (insn.op2.bitIndex w s) b)
    (hstay : t.opPtr snd.op1 = s.opPtr insn.op1 ∧ snd.op2.operand w t = insn.op2.operand w s) :
    t.opPtr insn.op1 = s.opPtr insn.op1 ∧ insn.op2.bitIndex w t = insn.op2.bitIndex w s ∧
      btIndex insn.op2 w t = btIndex insn.op2 w s ∧
      t.peek .dword (s.opPtr insn.op1) =
        putBit (insn.op2.bitIndex w s) b (s.peek .dword (s.opPtr insn.op1)) := by
  have hsafe := hdst.safe s
  rw [h1, h2] at hstay
  refine ⟨hstay.1, ?_, ?_, ?_⟩
  · unfold CsX86Op.bitIndex
    rw [hstay.2]
  · unfold btIndex
    rw [hstay.2]
  · rw [ht, Machine.peek_withBit (hdst.valid s), (SameData.advance s insn).peek]

variable (hoff : insn.op2.IsOffset w)
include hoff

theorem bts_bt_iff (hmem : insn.op1.type = .mem → (insn.op2.operand w s).toNat < w.bits)
    (hstay : BitOp.Stays .bts w insn snd s) :
    BitOp.Then .bts .bt insn snd s (fun u => u.testFlag .CF = true) ↔
      insn.op2.bitIndex w s < (btWidth insn.op1 insn.op2).bits ∨
        2 ^ btIndex insn.op2 w s ≤
          (s.peek (btWidth insn.op1 insn.op2) (s.opPtr insn.op1)).toNat := by
  have hrun := btsI_run (s := s) hoff hdst hmem
  obtain ⟨hptr, -, hindex, hpeek⟩ := stays_withBit hdst h1 h2 rfl (hstay _ _ hrun)
  have hj := (bitIndex_lt insn.op2 w s).trans_le w.bits_le
  unfold BitOp.Then
  change (∃ r t, (btsI insn).run s = _ ∧ ∃ r' u, (btI snd).run t = _ ∧ _) ↔ _
  rw [hrun, exists_run_iff, btI_run (w := w) (by rw [h2]; exact hoff) (by rw [h1]; exact hdst),
    exists_run_iff, Machine.testFlag_assignFlag, if_pos rfl, decide_eq_true_iff, h1, h2, hptr,
    hindex, Machine.peek_eq_low, hpeek, le_low_putBit_iff hj (btIndex_le_bitIndex _ _ _),
    ← Machine.peek_eq_low]

theorem btr_bt_iff (hstay : BitOp.Stays .btr w insn snd s) :
    BitOp.Then .btr .bt insn snd s (fun u => u.testFlag .CF = false) ↔
      insn.op1.type = .reg ∧ (putBit (insn.op2.bitIndex w s) false
        (s.peek .dword (s.opPtr insn.op1))).toNat < 2 ^ btIndex insn.op2 w s := by
  have hrun := btrI_run (s := s) hoff hdst
  unfold BitOp.Then
  change (∃ r t, (btrI insn).run s = _ ∧ ∃ r' u, (btI snd).run t = _ ∧ _) ↔ _
  by_cases ht : insn.op1.type = .reg
  · rw [if_pos ht] at hrun
    obtain ⟨hptr, -, hindex, hpeek⟩ := stays_withBit hdst h1 h2 rfl (hstay _ _ hrun)
    have hwidth : btWidth insn.op1 insn.op2 = .dword := if_pos (.inl ht)
    rw [hrun, exists_run_iff, btI_run (w := w) (by rw [h2]; exact hoff) (by rw [h1]; exact hdst),
      exists_run_iff, Machine.testFlag_assignFlag, if_pos rfl, decide_eq_false_iff_not, not_le, h1,
      h2, hptr, hindex, hwidth, hpeek, and_iff_right ht]
  · rw [hrun, if_neg ht]
    exact iff_of_false (fun ⟨_, _, h, _⟩ => nomatch h) fun h => ht h.1

theorem btc_btc_iff (hstay : BitOp.Stays .btc w insn snd s) :
    BitOp.Then .btc .btc insn snd s (fun u => u.peek w (s.opPtr insn.op1) = insn.op1.value w s) ↔
      insn.op1.type = .reg := by
  have hrun := btcI_run (s := s) hoff hdst
  have hsafe := hdst.safe s
  unfold BitOp.Then
  change (∃ r t, (btcI insn).run s = _ ∧ ∃ r' u, (btcI snd).run t = _ ∧ _) ↔ _
  by_cases ht : insn.op1.type = .reg
  · rw [if_pos ht] at hrun
    obtain ⟨hptr, hindex, -, hpeek⟩ := stays_withBit hdst h1 h2 rfl (hstay _ _ hrun)
    have hj := (bitIndex_lt insn.op2 w s).trans_le w.bits_le
    rw [hrun, exists_run_iff, btcI_run (w := w) (by rw [h2]; exact hoff) (by rw [h1]; exact hdst),
      h1, h2, if_pos ht, exists_run_iff, hptr, hindex, Machine.peek_eq_low,
      Machine.peek_withBit (hdst.valid s), (SameData.advance _ snd).peek, hpeek,
      getLsbD_putBit hj, if_pos rfl, Bool.not_not, putBit_putBit, putBit_self,
      ← Machine.peek_eq_low]
    exact iff_of_true rfl ht
  · rw [hrun, if_neg ht]
    exact iff_of_false (fun ⟨_, _, h, _⟩ => nomatch h) ht

end Pairs

/-- The handlers do so exactly where `BitOp.Holds`. The bit that `BTS` has set is found by `BT`
where it is in what `BT` reads, or something else is; the one that `BTR` has cleared, in a register
with nothing else there; and `BTC` undoes itself in a register. -/
theorem bitTests_iff {w : Width} {insn : CsInsn} {dst off : CsX86Op} {s : Machine}
    (h : insn.operands = [dst, off]) (hdst : dst.IsLoc w) (hoff : off.IsOffset w)
    (hmem : dst.type = .mem → (off.operand w s).toNat < w.bits) :
    (∀ o : BitOp, o.Does w insn s ↔ o.Holds w dst off s) ∧
    ∀ snd : CsInsn, snd.operands = [dst, off] →
      (BitOp.Stays .bts w insn snd s →
        (BitOp.Then .bts .bt insn snd s (fun u => u.testFlag .CF = true) ↔
          off.bitIndex w s < (btWidth dst off).bits ∨
            2 ^ btIndex off w s ≤ (s.peek (btWidth dst off) (s.opPtr dst)).toNat)) ∧
      (BitOp.Stays .btr w insn snd s →
        (BitOp.Then .btr .bt insn snd s (fun u => u.testFlag .CF = false) ↔
          dst.type = .reg ∧ (putBit (off.bitIndex w s) false
            (s.peek .dword (s.opPtr dst))).toNat < 2 ^ btIndex off w s)) ∧
      (BitOp.Stays .btc w insn snd s →
        (BitOp.Then .btc .btc insn snd s (fun u => u.peek w (s.opPtr dst) = dst.value w s) ↔
          dst.type = .reg)) := by
  have h1 : insn.op1 = dst := op1_of_cons h
  have h2 : insn.op2 = off := op2_of_cons h
  subst h1 h2
  refine ⟨bitOp_iff hoff hdst hmem, fun snd hsnd => ?_⟩
  have h1' := op1_of_cons hsnd
  have h2' := op2_of_cons hsnd
  exact ⟨bts_bt_iff hdst h1' h2' hoff hmem, btr_bt_iff hdst h1' h2' hoff,
    btc_btc_iff hdst h1' h2' hoff⟩

/-- `BT EAX, n`, and with other handlers `BTS`, `BTR` and `BTC` -/
def btEax (n : BitVec 64) : CsInsn := .bare "bt" 4 [⟨.reg .eax, 4⟩, ⟨.imm n, 1⟩]

/-- The top bit of `0x20`, tested, set, cleared and complemented. -/
theorem bitTests_five :
    (∀ o : BitOp, o.Does .dword (btEax 5) (twice 0x20 0)) ∧
    BitOp.Then .bts .bt (btEax 5) (btEax 5) (twice 0x20 0) (fun u => u.testFlag .CF = true) ∧
    BitOp.Then .btr .bt (btEax 5) (btEax 5) (twice 0x20 0) (fun u => u.testFlag .CF = false) ∧
    BitOp.Then .btc .btc (btEax 5) (btEax 5) (twice 0x20 0)
      (fun u => u.peek .dword (.var .eax) = 0x20) := by
  have hall := @bitTests_iff .dword (btEax 5) ⟨.reg .eax, 4⟩ ⟨.imm 5, 1⟩ (twice 0x20 0) rfl
    (by decide) (by decide) nofun
  have hstay (o : BitOp) : o.Stays .dword (btEax 5) (btEax 5) (twice 0x20 0) :=
    fun _ _ _ => ⟨rfl, rfl⟩
  obtain ⟨hdoes, hpairs⟩ := hall
  obtain ⟨hset, hreset, hcomplement⟩ := hpairs (btEax 5) rfl
  refine ⟨fun o => (hdoes o).2 ?_, (hset (hstay _)).2 (by decide), (hreset (hstay _)).2 (by decide),
    (hcomplement (hstay _)).2 (by decide)⟩
  unfold BitOp.Holds
  rcases o <;> decide

/-- `BT EAX, 0` of 2 sets `CF`. -/
theorem btI_not_isBitOp : ¬ ∀ (o : BitOp) (w : Width) (insn : CsInsn) (dst off : CsX86Op)
    (s : Machine), insn.operands = [dst, off] → dst.IsLoc w → off.IsOffset w →
    (dst.type = .mem → (off.operand w s).toNat < w.bits) → o.Does w insn s := by
  intro hall
  obtain ⟨r, t, hrun, hcf, -⟩ := hall .bt .dword (btEax 0) ⟨.reg .eax, 4⟩ ⟨.imm 0, 1⟩ (twice 2 0)
    rfl (by decide) (by decide) nofun
  cases hrun
  exact absurd hcf (by decide)

end I386Vm
