import I386Vm.Proofs.Operands

/-!
# The status flags

Reading a flag back after assigning one, and what the common flag computation of additions and
subtractions leaves behind.
-/

namespace I386Vm

open Bytes Prog

theorem Flag.mask_eq_twoPow (f : Flag) : f.mask = BitVec.twoPow 32 f.bit := by
  cases f <;> decide

theorem Flag.bit_lt (f : Flag) : f.bit < 32 := by
  cases f <;> decide

theorem Flag.bit_injective {f g : Flag} (h : f.bit = g.bit) : f = g := by
  cases f <;> cases g <;> first | rfl | exact absurd h (by decide)

namespace Machine

variable (s : Machine)

theorem testFlag_eq_getLsbD (f : Flag) : s.testFlag f = s.eflags.getLsbD f.bit := by
  unfold testFlag
  rw [f.mask_eq_twoPow, BitVec.and_twoPow]
  rcases hb : s.eflags.getLsbD f.bit
  · rfl
  · have hne : BitVec.twoPow 32 f.bit ≠ 0#32 := by
      rw [← f.mask_eq_twoPow]
      cases f <;> decide
    simpa using hne

theorem testFlag_assignFlag (f g : Flag) (c : Bool) :
    (s.assignFlag g c).testFlag f = if f = g then c else s.testFlag f := by
  have hf := f.bit_lt
  rw [testFlag_eq_getLsbD, testFlag_eq_getLsbD]
  unfold assignFlag
  have hbit : (BitVec.twoPow 32 g.bit).getLsbD f.bit = decide (f = g) := by
    rw [BitVec.getLsbD_twoPow]
    by_cases h : f = g
    · simp [h, g.bit_lt]
    · have hne : g.bit ≠ f.bit := fun hb => h (Flag.bit_injective hb.symm)
      simp [h, hne]
  cases c with
  | true =>
    simp only [if_true, setFlag, g.mask_eq_twoPow, BitVec.getLsbD_or, hbit]
    by_cases h : f = g <;> simp [h]
  | false =>
    simp only [Bool.false_eq_true, if_false, clearFlag, g.mask_eq_twoPow, BitVec.getLsbD_and,
      BitVec.getLsbD_not, hbit]
    by_cases h : f = g <;> simp [h, hf]

/-- To complement a flag is to assign it. -/
theorem complementFlag_eq (f : Flag) : s.complementFlag f = s.assignFlag f (!s.testFlag f) := by
  have hbits : s.eflags ^^^ f.mask =
      if (!s.testFlag f) = true then s.eflags ||| f.mask else s.eflags &&& ~~~f.mask := by
    apply BitVec.eq_of_getLsbD_eq
    intro i hi
    rw [testFlag_eq_getLsbD, f.mask_eq_twoPow]
    rcases hb : s.eflags.getLsbD f.bit <;> by_cases hif : i = f.bit <;>
      simp_all
  unfold complementFlag assignFlag
  rw [hbits]
  split <;> rfl

@[simp] theorem mem_assignFlag (f : Flag) (c : Bool) : (s.assignFlag f c).mem = s.mem := by
  unfold assignFlag
  split <;> rfl

/-- The state after `arithFlags`. -/
def withArith (c : Bool) (val1 val2 res : BitVec 32) (base : BitVec 8) : Machine :=
  (((((s.assignFlag .CF c).assignFlag .OF (overflow val1 val2 res base)).assignFlag .SF
    (sign res base)).assignFlag .ZF (zero res)).assignFlag .AF (adjust val1 val2 res)).assignFlag
    .PF (parity res)

variable (c : Bool) (val1 val2 res : BitVec 32) (base : BitVec 8)

theorem testFlag_withArith (f : Flag) :
    (s.withArith c val1 val2 res base).testFlag f =
      match f with
      | .CF => c
      | .OF => overflow val1 val2 res base
      | .SF => sign res base
      | .ZF => zero res
      | .AF => adjust val1 val2 res
      | .PF => parity res
      | f => s.testFlag f := by
  unfold withArith
  simp only [testFlag_assignFlag]
  cases f <;> rfl

@[simp] theorem mem_withArith : (s.withArith c val1 val2 res base).mem = s.mem := by
  unfold withArith
  simp only [mem_assignFlag]

theorem sameData_withArith : SameData s (s.withArith c val1 val2 res base) := by
  unfold withArith
  exact (SameData.assignFlag s _ _).trans <| (SameData.assignFlag _ _ _).trans <|
    (SameData.assignFlag _ _ _).trans <| (SameData.assignFlag _ _ _).trans <|
    (SameData.assignFlag _ _ _).trans (SameData.assignFlag _ _ _)

end Machine

theorem arithFlags_run (s : Machine) (c : Bool) (val1 val2 res : BitVec 32) (base : BitVec 8) :
    (arithFlags c val1 val2 res base).run s = .ok ((), s.withArith c val1 val2 res base) := rfl

end I386Vm
