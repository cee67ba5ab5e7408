import I386Vm.Proofs.Accumulator

/-!
# `MUL`

`mul_i` reads its factor from the second operand. The instruction has only one, so what it finds is
the memory operand of all zeros: it multiplies by the word at address 0. On 32 bits the product of
two `uint32_t` has lost its upper half before it is widened.
-/

namespace I386Vm

open Bytes Prog

/-- The word of the width at address 0, which the zero-filled operand stands for. -/
def Machine.atZero (w : Width) (s : Machine) : BitVec 32 := s.peek w (.mem 0)

section Single

variable {insn : CsInsn} {op : CsX86Op} (h : insn.operands = [op])
include h

theorem op2_of_single : insn.op2 = ⟨.invalid, 0⟩ := by
  simp [CsInsn.op, h]

theorem load_op2_of_single (w : Width) (s : Machine) :
    (load w (s.opPtr insn.op2)).run s = .ok (s.atZero w, s) := by
  rw [op2_of_single h]
  exact load_run (.mem 0)

end Single

namespace Machine

variable (s : Machine) (c : Bool)

/-- The state after `assignCfOf`. -/
def withCfOf : Machine := (s.assignFlag .CF c).assignFlag .OF c

theorem sameBut_withCfOf : SameBut statusFlags s (s.withCfOf c) := by
  simp [withCfOf, statusFlags]

theorem reg_withCfOf : (s.withCfOf c).reg = s.reg := (s.sameBut_withCfOf c).sameData.reg

@[simp] theorem pair_withCfOf (w : Width) : (s.withCfOf c).pair w = s.pair w :=
  (s.withCfOf c).pair_congr w (s.reg_withCfOf c)

theorem testFlag_withCfOf (f : Flag) : (s.withCfOf c).testFlag f =
    match f with
    | .CF => c
    | .OF => c
    | f => s.testFlag f := by
  unfold withCfOf
  simp only [testFlag_assignFlag]
  cases f <;> rfl

end Machine

theorem assignCfOf_run (s : Machine) (c : Bool) :
    (assignCfOf c).run s = .ok ((), s.withCfOf c) := rfl

/-- Registers and flags are as before, but for the pair, `eip` and the flags of a result. -/
structure OnlyPair (w : Width) (s t : Machine) : Prop where
  state : t = { s with reg := t.reg, eip := t.eip, eflags := t.eflags }
  reg : ∀ v i, ¬ Machine.InPair w v i → (t.reg v).getLsbD i = (s.reg v).getLsbD i
  eflags : ∀ i, (∀ f ∈ statusFlags, f.bit ≠ i) → t.eflags.getLsbD i = s.eflags.getLsbD i

/-- The pair holds the product, and `CF` and `OF` say whether its upper half is not zero. -/
structure IsProduct (w : Width) (a b : ℕ) (s t : Machine) : Prop where
  value : t.pair w = a * b
  cf : t.testFlag .CF ↔ 2 ^ w.bits ≤ a * b
  of : t.testFlag .OF ↔ 2 ^ w.bits ≤ a * b
  only : OnlyPair w s t

theorem onlyPair_putPair (w : Width) (s : Machine) (insn : CsInsn) (lo hi : BitVec 32) (c : Bool) :
    OnlyPair w s (((s.advance insn).putPair w lo hi).withCfOf c) where
  state := by cases w <;> cases c <;> rfl
  reg v i h := by
    rw [Machine.reg_withCfOf, Machine.getLsbD_putPair w _ lo hi h]
    rfl
  eflags i h := by
    rw [(Machine.sameBut_withCfOf _ c).bits i h]
    cases w <;> rfl

section Mul

variable {w : Width} {insn : CsInsn} {op : CsX86Op} {s : Machine}

/-- The product of the code, cut to 32 bits. -/
def Machine.mulProduct (w : Width) (s : Machine) : BitVec 32 := s.lowHalf w * s.atZero w

theorem toNat_mulProduct : (s.mulProduct w).toNat =
    (s.lowHalf w).toNat * (s.atZero w).toNat % 2 ^ 32 :=
  BitVec.toNat_mul _ _

theorem mul_lt_pair {a b : ℕ} (ha : a < 2 ^ w.bits) (hb : b < 2 ^ w.bits) :
    a * b < 2 ^ w.bits * 2 ^ w.bits :=
  Nat.mul_lt_mul_of_lt_of_le ha hb.le (Nat.two_pow_pos _)

/-- Where the width is not the widest, the product of 32 bits is not cut. -/
theorem toNat_mulProduct_of_ne (hw : w ≠ .dword) :
    (s.mulProduct w).toNat = (s.lowHalf w).toNat * (s.atZero w).toNat := by
  have hlt := mul_lt_pair (s.lowHalf_lt w) (s.peek_lt w (.mem 0))
  have hle : 2 ^ w.bits * 2 ^ w.bits ≤ 2 ^ 32 := by
    cases w with
    | byte => decide
    | word => decide
    | dword => exact absurd rfl hw
  rw [toNat_mulProduct]
  exact Nat.mod_eq_of_lt (lt_of_lt_of_le hlt hle)

theorem mulI_run (h : insn.operands = [op]) (hs : op.size = w.size) :
    (mulI insn).run s = .ok (some 0, ((s.advance insn).putPair w (s.mulProduct w)
      (s.mulProduct w >>> w.bits)).withCfOf (!zero (s.mulProduct w >>> w.bits))) := by
  have hload := load_op2_of_single h w (s.advance insn)
  unfold mulI
  rw [run_bind_ok (advance_run s insn), run_bind_ok run_get_ok, op1_of_cons h, hs,
    widthOr32_size, run_bind_ok hload]
  cases w with
  | byte =>
    have hah : low 8 (s.mulProduct .byte >>> 8) = s.mulProduct .byte >>> 8 := by
      apply low_of_lt
      rw [BitVec.toNat_ushiftRight, Nat.shiftRight_eq_div_pow, 
        toNat_mulProduct_of_ne (show Width.byte ≠ .dword by decide)]
      exact Nat.div_lt_of_lt_mul (mul_lt_pair (s.lowHalf_lt .byte) (s.peek_lt .byte _))
    have hhigh := (s.advance insn).highHalf_putPair .byte (s.mulProduct .byte)
      (s.mulProduct .byte >>> 8)
    rw [if_pos (show Width.byte.size = 1 by decide)]
    change Except.ok (some 0,
      ((s.advance insn).poke .word (.var .eax) (s.mulProduct .byte)).withCfOf
        (!zero (((s.advance insn).poke .word (.var .eax) (s.mulProduct .byte)).highHalf .byte))) = _
    rw [Machine.poke_word_eax, hhigh]
    exact congrArg (fun ah => Except.ok (some 0, Machine.withCfOf _ (!zero ah))) hah
  | word =>
    rw [if_neg (show Width.word.size ≠ 1 by decide), if_pos (show Width.word.size = 2 by decide)]
    rfl
  | dword =>
    have hzero : s.mulProduct .dword >>> Width.dword.bits = 0 := by
      apply BitVec.eq_of_toNat_eq
      rw [BitVec.toNat_ushiftRight, Nat.shiftRight_eq_div_pow]
      exact Nat.div_eq_of_lt (s.mulProduct .dword).isLt
    rw [if_neg (show Width.dword.size ≠ 1 by decide),
      if_neg (show Width.dword.size ≠ 2 by decide)]
    rw [hzero]
    rfl

theorem mulProduct_lt : (s.mulProduct w).toNat < 2 ^ w.bits * 2 ^ w.bits := by
  by_cases hw : w = .dword
  · rw [hw]
    exact lt_of_lt_of_le (s.mulProduct .dword).isLt (by decide)
  · rw [toNat_mulProduct_of_ne hw]
    exact mul_lt_pair (s.lowHalf_lt w) (s.peek_lt w _)

theorem not_zero_shift_iff {x : BitVec 32} :
    (!zero (x >>> w.bits)) = true ↔ 2 ^ w.bits ≤ x.toNat := by
  rw [Bool.not_eq_true', ← Bool.not_eq_true, zero_iff, BitVec.toNat_ushiftRight,
    Nat.shiftRight_eq_div_pow, Nat.div_eq_zero_iff_lt (Nat.two_pow_pos _), not_lt]

/-- What the handler leaves is right where its cut product is the one of the operand. -/
theorem isProduct_iff {b : ℕ} : IsProduct w (s.lowHalf w).toNat b s
    (((s.advance insn).putPair w (s.mulProduct w) (s.mulProduct w >>> w.bits)).withCfOf
      (!zero (s.mulProduct w >>> w.bits))) ↔ (s.mulProduct w).toNat = (s.lowHalf w).toNat * b := by
  have hflag := ((s.advance insn).putPair w (s.mulProduct w)
    (s.mulProduct w >>> w.bits)).testFlag_withCfOf (!zero (s.mulProduct w >>> w.bits))
  have hpair := (s.advance insn).pair_putPair_shift w (@mulProduct_lt w s)
  constructor
  · rintro ⟨hvalue, -, -, -⟩
    rw [← hpair, ← hvalue, Machine.pair_withCfOf]
  · intro h
    constructor
    · rw [Machine.pair_withCfOf, hpair, h]
    · rw [hflag, ← h]
      exact not_zero_shift_iff
    · rw [hflag, ← h]
      exact not_zero_shift_iff
    · exact onlyPair_putPair w s insn _ _ _

/-- Multiplying by `v` does what multiplying by `b` should, on 32 bits without the upper half. -/
def MulAlike (w : Width) (a b v : ℕ) : Prop :=
  if w = .dword then a * v % 2 ^ 32 = a * b else a = 0 ∨ v = b

instance (w : Width) (a b v : ℕ) : Decidable (MulAlike w a b v) :=
  inferInstanceAs (Decidable (ite _ _ _))

/-- `MUL` leaves the product of the accumulator and its operand exactly where the word at address 0
gives the same one, and on 32 bits the product has no upper half. -/
theorem mulI_isProduct_iff (h : insn.operands = [op]) (hop : op.IsLoc w) :
    (∃ t, (mulI insn).run s = .ok (some 0, t) ∧
      IsProduct w (s.lowHalf w).toNat (op.value w s).toNat s t) ↔
    MulAlike w (s.lowHalf w).toNat (op.value w s).toNat (s.atZero w).toNat := by
  rw [mulI_run h hop.1, exists_ok_iff, isProduct_iff]
  unfold MulAlike
  split_ifs with hw
  · rw [toNat_mulProduct]
  · rw [toNat_mulProduct_of_ne hw, mul_eq_mul_left_iff, or_comm]

end Mul

def mulBl : CsInsn := .bare "mul" 2 [⟨.reg .bl, 1⟩]

/-- `3 * 5`, with 5 also at address 0. -/
theorem mulI_isProduct_fifteen :
    ∃ t, (mulI mulBl).run { twice 3 5 with mem := fun _ => 5 } = .ok (some 0, t) ∧
      IsProduct .byte 3 5 { twice 3 5 with mem := fun _ => 5 } t :=
  (@mulI_isProduct_iff .byte mulBl ⟨.reg .bl, 1⟩ { twice 3 5 with mem := fun _ => 5 } rfl
    (by decide)).2 (by decide)

/-- With 3 at address 0 the product of 3 and 5 is 9. -/
theorem mulI_not_isProduct : ¬ ∀ (w : Width) (insn : CsInsn) (op : CsX86Op) (s : Machine),
    insn.operands = [op] → op.IsLoc w → ∃ t, (mulI insn).run s = .ok (some 0, t) ∧
      IsProduct w (s.lowHalf w).toNat (op.value w s).toNat s t := by
  intro hall
  obtain ⟨t, hrun, hprod⟩ := hall .byte mulBl ⟨.reg .bl, 1⟩ (twice 3 5) rfl (by decide)
  rw [mulI_run rfl (show (⟨.reg .bl, 1⟩ : CsX86Op).size = Width.byte.size by decide)] at hrun
  cases hrun
  exact absurd (isProduct_iff.1 hprod) (by decide)

end I386Vm
