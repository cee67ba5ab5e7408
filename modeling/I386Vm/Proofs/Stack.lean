import I386Vm.Control
import I386Vm.Proofs.Operands

/-!
# `write32` and `read32`

Both go byte by byte at indices that wrap at `2^32`: `Machine.wrapped` are the bytes from an
address on. Where a word does not wrap they are the accesses of `Bytes`.
-/

namespace I386Vm

open Bytes Prog

namespace Machine

variable (s : Machine) (a v : BitVec 32)

theorem toNat_add_lit (k : ℕ) (hk : k < 4) :
    (a + BitVec.ofNat 32 k).toNat = (a.toNat + k) % 2 ^ 32 := by
  rw [BitVec.toNat_add, BitVec.toNat_ofNat, Nat.mod_eq_of_lt (by omega : k < 2 ^ 32)]

theorem write32_mem (i : ℕ) : (s.write32 a v).mem i =
    if i = (a.toNat + 3) % 2 ^ 32 then byteOf 3 v
    else if i = (a.toNat + 2) % 2 ^ 32 then byteOf 2 v
    else if i = (a.toNat + 1) % 2 ^ 32 then byteOf 1 v
    else if i = a.toNat then byteOf 0 v else s.mem i := by
  rw [← toNat_add_lit a 3 (by omega), ← toNat_add_lit a 2 (by omega),
    ← toNat_add_lit a 1 (by omega)]
  unfold write32 write8
  simp only [Function.update_apply]
  rfl

theorem write32_mem_of_ne {i : ℕ} (h : ∀ j < 4, i ≠ (a.toNat + j) % 2 ^ 32) :
    (s.write32 a v).mem i = s.mem i := by
  have ha := a.isLt
  have h0 := h 0 (by omega)
  rw [write32_mem, if_neg (h 3 (by omega)), if_neg (h 2 (by omega)), if_neg (h 1 (by omega)),
    if_neg (by omega)]

theorem write32_mem_idx {j : ℕ} (hj : j < 4) :
    (s.write32 a v).mem ((a.toNat + j) % 2 ^ 32) = byteOf j v := by
  have ha := a.isLt
  rw [write32_mem]
  rcases j with _ | _ | _ | _ | j
  · rw [if_neg (by omega), if_neg (by omega), if_neg (by omega), if_pos (by omega)]
  · rw [if_neg (by omega), if_neg (by omega), if_pos (by omega)]
  · rw [if_neg (by omega), if_pos (by omega)]
  · rw [if_pos (by omega)]
  · omega

theorem write32_eq (h : a.toNat + 4 ≤ 2 ^ 32) :
    s.write32 a v = { s with mem := writeLE s.mem a.toNat 4 v } := by
  have hmem : (s.write32 a v).mem = writeLE s.mem a.toNat 4 v := by
    funext i
    by_cases hi : a.toNat ≤ i ∧ i < a.toNat + 4
    · obtain ⟨j, rfl⟩ := Nat.exists_eq_add_of_le hi.1
      have hidx := @write32_mem_idx s a v j (by omega)
      rw [Nat.mod_eq_of_lt (by omega)] at hidx
      rw [hidx, writeLE_add (by omega)]
    · rw [writeLE_of_not_mem hi]
      refine s.write32_mem_of_ne a v fun j hj => ?_
      rw [Nat.mod_eq_of_lt (by omega)]
      omega
  rw [← hmem]
  rfl

/-- Byte `i` from an address, which wraps. -/
def wrapped (i : ℕ) : BitVec 8 := s.mem (a + BitVec.ofNat 32 i).toNat

theorem wrapped_zero : s.wrapped a 0 = s.mem a.toNat := by
  unfold wrapped
  rw [BitVec.add_zero]

theorem read32_eq_wrapped : s.read32 a = readLE (s.wrapped a) 0 4 := by
  have h1 : s.wrapped a 1 = s.mem (a + 1).toNat := rfl
  have h2 : s.wrapped a 2 = s.mem (a + 2).toNat := rfl
  have h3 : s.wrapped a 3 = s.mem (a + 3).toNat := rfl
  unfold read32 read8
  rw [← h1, ← h2, ← h3, ← wrapped_zero]
  simp [readLE, BitVec.shiftLeft_or_distrib, ← BitVec.shiftLeft_add, BitVec.or_assoc]

theorem read16_eq_wrapped : s.read16 a = readLE (s.wrapped a) 0 2 := by
  have h1 : s.wrapped a 1 = s.mem (a + 1).toNat := rfl
  unfold read16 read8
  rw [← h1, ← wrapped_zero]
  simp [readLE]

theorem read32_eq (h : a.toNat + 4 ≤ 2 ^ 32) : s.read32 a = readLE s.mem a.toNat 4 := by
  rw [read32_eq_wrapped]
  apply BitVec.eq_of_getLsbD_eq
  intro i hi
  rw [getLsbD_readLE, getLsbD_readLE, Nat.zero_add, wrapped, toNat_add_lit a _ (by omega),
    Nat.mod_eq_of_lt (by omega)]

theorem wrapped_write32 {j : ℕ} (hj : j < 4) : (s.write32 a v).wrapped a j = byteOf j v := by
  unfold wrapped
  rw [toNat_add_lit a j hj]
  exact s.write32_mem_idx a v hj

/-- A word is read back, also where it wraps. -/
theorem read32_write32 : (s.write32 a v).read32 a = v := by
  rw [read32_eq_wrapped, readLE_of_bytes fun k hk => ?_, low_of_le (le_refl 32)]
  rw [Nat.zero_add]
  exact s.wrapped_write32 a v hk

/-- The word above stays. -/
theorem read32_write32_add : (s.write32 a v).read32 (a + 4) = s.read32 (a + 4) := by
  have ha := a.isLt
  rw [read32_eq_wrapped, read32_eq_wrapped]
  refine readLE_congr fun k _ hk => s.write32_mem_of_ne a v fun j hj => ?_
  rw [toNat_add_lit _ k (by omega)]
  bv_omega

@[simp] theorem reg_write32 : (s.write32 a v).reg = s.reg := rfl

theorem reg_push32_esp : (s.push32 v).reg .esp = s.reg .esp - 4 := by
  unfold push32
  rw [reg_write32, reg_setReg]

theorem read32_push32 : (s.push32 v).read32 ((s.push32 v).reg .esp) = v := by
  rw [reg_push32_esp]
  exact read32_write32 _ _ v

/-- The word that was on top lies above the one that is pushed. -/
theorem read32_push32_add :
    (s.push32 v).read32 ((s.push32 v).reg .esp + 4) = s.read32 (s.reg .esp) := by
  rw [reg_push32_esp]
  have hread := (s.setReg .esp (s.reg .esp - 4)).read32_write32_add (s.reg .esp - 4) v
  have hadd : s.reg .esp - 4 + 4 = s.reg .esp := BitVec.sub_add_cancel ..
  rw [hadd] at hread ⊢
  exact hread

end Machine

theorem push32_run (s : Machine) (x : BitVec 32) : (push32 x).run s = .ok ((), s.push32 x) := rfl

theorem push16_run (s : Machine) (x : BitVec 32) : (push16 x).run s = .ok ((), s.push16 x) := rfl

theorem addEsp_run (s : Machine) (n : BitVec 32) :
    (addEsp n).run s = .ok ((), s.setReg .esp (s.reg .esp + n)) := rfl

section Handlers

variable {insn : CsInsn} {s : Machine}

theorem callI_run : (callI insn).run s = .ok (some 0,
    { (s.advance insn).push32 (s.advance insn).eip with
      eip := (s.advance insn).branchTarget insn.op1 }) := rfl

/-- What `RET` adds to `esp` after the return address is popped. -/
def CsInsn.retBytes (insn : CsInsn) : BitVec 32 :=
  if insn.opCount = 1 then insn.op1.imm.setWidth 32 else 0

theorem retI_run : (retI insn).run s = .ok (some 0,
    { s.setReg .esp (s.reg .esp + 4 + insn.retBytes) with eip := s.read32 (s.reg .esp) }) := by
  have heip (x : BitVec 32) : (setEip x).run s = .ok ((), { s with eip := x }) := rfl
  unfold retI CsInsn.retBytes
  rw [run_bind_ok run_get_ok, run_bind_ok (heip _), run_bind_ok (addEsp_run _ _)]
  split
  · rw [run_bind_ok (addEsp_run _ _), Machine.reg_setReg, Machine.setReg_setReg]
    rfl
  · have hzero : s.reg .esp + 4 + 0 = s.reg .esp + 4 := BitVec.add_zero _
    rw [hzero]
    rfl

end Handlers

end I386Vm
