import I386Vm.Proofs.Negation

/-!
# Counts of shifts and rotations

The count operand is an immediate or `CL`. The handlers take it modulo the width of the destination
and not modulo 32, and hand it, or its distance from the width, to C shifts.
-/

namespace I386Vm

open Bytes Prog

/-- An immediate or `CL`. -/
def CsX86Op.IsCount (op : CsX86Op) : Prop := op.type = .imm ∨ op.val = .reg .cl

instance (op : CsX86Op) : Decidable op.IsCount := inferInstanceAs (Decidable (_ ∨ _))

/-- The 8-bit count. -/
def CsX86Op.count (op : CsX86Op) (s : Machine) : ℕ :=
  (if op.type = .imm then op.imm.setWidth 8 else (s.reg .ecx).setWidth 8 : BitVec 8).toNat

section Count

variable {op : CsX86Op} {s : Machine}

theorem countOf_run (h : op.IsCount) :
    ∃ n, (countOf op).run s = .ok (n, s) ∧ n.toNat = op.count s := by
  unfold countOf CsX86Op.count
  rcases h with ht | hv
  · rw [if_pos ht, if_pos ht]
    exact ⟨_, rfl, BitVec.toNat_setWidth_of_le (by decide)⟩
  · have ht : op.type ≠ .imm := by simp [CsX86Op.type, hv]
    have hr : op.reg = .cl := by simp [CsX86Op.reg, hv]
    rw [if_neg ht, if_neg ht, hr]
    refine ⟨_, load_run (.var .ecx), ?_⟩
    change (low 8 (s.reg .ecx)).toNat = _
    rw [toNat_low, BitVec.toNat_setWidth]

theorem modulo_run {b : ℕ} (hb : b ≠ 0) (a : ℕ) (s : Machine) :
    (modulo a b).run s = .ok (a % b, s) := by
  unfold modulo
  rw [if_neg hb]
  rfl

theorem shiftAmount_run {z : ℤ} {n : ℕ} (hz : z = n) (hn : n < 32) (s : Machine) :
    (shiftAmount z).run s = .ok (n, s) := by
  subst hz
  unfold shiftAmount
  rw [if_pos (by omega)]
  rfl

theorem shiftAmount_error {z : ℤ} (hz : z < 0 ∨ 32 ≤ z) (s : Machine) :
    (shiftAmount z).run s = .error .shift := by
  unfold shiftAmount
  rw [if_neg (by omega)]
  rfl

theorem Width.toNat_size_mul (w : Width) : w.size.toNat * 8 = w.bits := by
  cases w <;> rfl

/-- The count of the code is the count mod 32, modulo the width. -/
theorem mod_bits (w : Width) (c : ℕ) : c % w.bits = c % 32 % w.bits := by
  refine (Nat.mod_mod_of_dvd c ?_).symm
  cases w <;> decide

/-- The start of the shifts: the count of the code is the operand modulo the width. -/
theorem counted_run {w : Width} {insn : CsInsn} (hs : insn.op1.size = w.size)
    (hc : insn.op2.IsCount) (body : ℕ → Exec Ret) :
    (do advance insn
        let n ← countOf insn.op2
        let count ← modulo n.toNat (insn.op1.size.toNat * 8)
        body count : Exec Ret).run s =
      (body (insn.op2.count s % w.bits)).run (s.advance insn) := by
  obtain ⟨n, hrun, hn⟩ := @countOf_run insn.op2 (s.advance insn) hc
  have hcount : insn.op2.count (s.advance insn) = insn.op2.count s := rfl
  rw [run_bind_ok (advance_run s insn), run_bind_ok hrun, hs, w.toNat_size_mul, hn, hcount,
    run_bind_ok (modulo_run w.bits_pos.ne' _ _)]

/-- The start of the rotations: the count modulo `m`, and the operand, in a register or in
memory. -/
theorem located_run {w : Width} {insn : CsInsn} (hop : insn.op1.IsLoc w) (hc : insn.op2.IsCount)
    {m : ℕ} (hm : m ≠ 0) (body : Machine → ℕ → BitVec 32 → Exec Ret) :
    (do advance insn
        let n ← countOf insn.op2
        let s ← get
        let count ← modulo n.toNat m
        let val ← load (widthOr32 insn.op1.size) (s.opPtr insn.op1)
        body s count val : Exec Ret).run s =
      (body (s.advance insn) (insn.op2.count s % m) (insn.op1.value w s)).run (s.advance insn) := by
  obtain ⟨n, hrun, hn⟩ := @countOf_run insn.op2 (s.advance insn) hc
  have hcount : insn.op2.count (s.advance insn) = insn.op2.count s := rfl
  rw [run_bind_ok (advance_run s insn), run_bind_ok hrun, run_bind_ok run_get_ok, hn, hcount,
    run_bind_ok (modulo_run hm _ _), hop.1, widthOr32_size,
    run_bind_ok (hop.load_advance s insn)]

end Count

namespace Machine

variable (s : Machine)

theorem testFlag_poke (w : Width) (p : Ptr) [hp : SafePtr p] (v : BitVec 32) (f : Flag) :
    (s.poke w p v).testFlag f = s.testFlag f := by
  cases p with
  | eip => exact absurd rfl hp.ne_eip
  | eflags => exact absurd rfl hp.ne_eflags
  | _ => rfl

theorem eflags_poke (w : Width) (p : Ptr) [hp : SafePtr p] (v : BitVec 32) :
    (s.poke w p v).eflags = s.eflags := by
  cases p with
  | eip => exact absurd rfl hp.ne_eip
  | eflags => exact absurd rfl hp.ne_eflags
  | _ => rfl

/-- An assignment changes no flag exactly where the flag has the value. -/
theorem eflags_assignFlag_iff (f : Flag) (c : Bool) :
    (s.assignFlag f c).eflags = s.eflags ↔ s.testFlag f = c := by
  have hset : (s.assignFlag f c).testFlag f = c := by
    rw [s.testFlag_assignFlag, if_pos rfl]
  constructor
  · intro h
    rw [← hset, testFlag_eq_getLsbD, testFlag_eq_getLsbD, h]
  · intro h
    rw [← h, testFlag_eq_getLsbD, testFlag_eq_getLsbD] at hset
    rw [← h]
    apply BitVec.eq_of_getLsbD_eq
    intro i _
    by_cases hi : f.bit = i
    · rw [← hi, testFlag_eq_getLsbD, hset]
    · exact (SameBut.assignFlag s (List.mem_singleton.2 rfl) _).bits i (by simpa using hi)

end Machine

end I386Vm
