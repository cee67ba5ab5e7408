import I386Vm.Proofs.Logic
import I386Vm.Proofs.SameFlags

/-!
# `TEST` and `AND`

On a register `test_i` leaves the flags that `and_i` does. A memory operand it reads as 32 bits and
takes the sign and zero of them all.
-/

namespace I386Vm

open Bytes Prog

/-- The two states agree on the flags that `logicFlags` sets. -/
def SameLogic (t u : Machine) : Prop :=
  ∀ f ∈ [Flag.CF, .OF, .SF, .ZF, .PF], t.testFlag f = u.testFlag f

/-- The bits that two words have in common have the top bit of the width exactly where they have the
top bit of all, and none above the width without one in it. -/
structure CommonBits (w : Width) (m v : BitVec 32) : Prop where
  sign : m.getLsbD 31 ∧ v.getLsbD 31 ↔ m.getLsbD (w.bits - 1) ∧ v.getLsbD (w.bits - 1)
  zero : ∀ i, m.getLsbD i → v.getLsbD i → ∃ j < w.bits, m.getLsbD j ∧ v.getLsbD j

section Flags

variable {w : Width} {m v : BitVec 32}

theorem low_and_getLsbD_top : 2 ^ (w.bits - 1) ≤ (low w.bits (m &&& v)).toNat ↔
    m.getLsbD (w.bits - 1) ∧ v.getLsbD (w.bits - 1) := by
  have hi : w.bits - 1 < w.bits := by
    have := w.eight_le_bits
    omega
  rw [← decide_eq_true_iff (p := 2 ^ (w.bits - 1) ≤ _), ← getLsbD_top (toNat_low_lt _ _),
    getLsbD_low, decide_eq_true hi, Bool.true_and, BitVec.getLsbD_and, Bool.and_eq_true]

theorem low_and_eq_zero_iff : low w.bits (m &&& v) = 0 ↔
    ¬ ∃ j < w.bits, m.getLsbD j ∧ v.getLsbD j := by
  constructor
  · rintro h ⟨j, hj, hm, hv⟩
    have hbit := congrArg (fun x => x.getLsbD j) h
    simp [getLsbD_low, hj, hm, hv] at hbit
  · intro h
    apply BitVec.eq_of_getLsbD_eq
    intro i _
    rw [getLsbD_low, BitVec.getLsbD_and]
    by_contra hne
    simp at hne
    exact h ⟨i, hne⟩

theorem commonBits_iff : CommonBits w m v ↔
    sign (m &&& v) 0x20 = sign (low w.bits (m &&& v)) (w.size * 8) ∧
      zero (m &&& v) = zero (low w.bits (m &&& v)) := by
  have htop := @low_and_getLsbD_top .dword m v
  have hall := @low_and_eq_zero_iff .dword m v
  have hlow := @low_and_eq_zero_iff w m v
  have hz (x : BitVec 32) : zero x = decide (x = 0) := rfl
  rw [low_dword] at htop hall
  have hsign : sign (m &&& v) 0x20 = decide (m.getLsbD 31 ∧ v.getLsbD 31) := by
    rw [sign_eq_le]
    exact decide_eq_decide.2 htop
  rw [hsign, sign_eq, decide_eq_decide, low_and_getLsbD_top, hz, hz, decide_eq_decide]
  constructor
  · rintro ⟨hs, hzero⟩
    refine ⟨hs, fun h => ?_, fun h => hall.2 ?_⟩
    · rw [h]
      exact low_of_lt (Nat.two_pow_pos _)
    · rintro ⟨j, -, hm, hv⟩
      exact hlow.1 h (hzero j hm hv)
  · rintro ⟨hs, hzero⟩
    refine ⟨hs, fun i hm hv => ?_⟩
    by_contra hno
    refine hall.1 (hzero.2 (hlow.2 hno)) ⟨i, ?_, hm, hv⟩
    exact BitVec.lt_of_getLsbD hm

theorem sameLogic_withLogic_iff {t u : Machine} {x y : BitVec 32} {c d : BitVec 8} :
    SameLogic (t.withLogic x c) (u.withLogic y d) ↔
      sign x c = sign y d ∧ zero x = zero y ∧ parity x = parity y := by
  unfold SameLogic
  simp only [List.forall_mem_cons, Machine.testFlag_withLogic, List.not_mem_nil, true_and]
  simp

end Flags

section Runs

variable {w : Width} {insn : CsInsn} {s : Machine}

theorem srcWide_operand {op : CsX86Op} (h : op.IsLogicSource w) (ht : op.type ≠ .mem) :
    (srcWide op).run s = .ok (op.operand w s, s) := by
  unfold srcWide
  rw [run_bind_ok run_get_ok]
  rcases h with h | ⟨himm, -⟩
  · rcases h.cases with ⟨hr, -⟩ | ⟨hm, -⟩
    · rw [if_pos hr, h.operand_eq, h.regVal_eq hr]
      rfl
    · exact absurd hm ht
  · unfold CsX86Op.operand
    rw [if_neg (by simp [himm]), if_pos himm, if_pos himm]
    rfl

variable (h1 : insn.op1.IsLoc w) (h2 : insn.op2.IsLogicSource w) (hne : insn.op2.type ≠ .mem)
include h1 h2 hne

theorem testI_reg_run (ht : insn.op1.type = .reg) : (testI insn).run s =
    .ok (some 0, (s.advance insn).withLogic
      (insn.op1.value w s &&& low w.bits (insn.op2.operand w s)) (w.size * 8)) := by
  have hd := SameData.advance s insn
  have hr := h1.reg_mem ht
  have hload := h1.load_eq (s.advance insn)
  rw [if_pos ht, h1.value_congr hd] at hload
  unfold testI
  rw [run_bind_ok (advance_run s insn), run_bind_ok (srcWide_operand h2 hne),
    operand_congr (h2.imp_right And.left) hd, run_bind_ok run_get_ok, if_pos ht, if_pos ht,
    (lowRegs_spec hr).2.2.1, (lowRegs_spec hr).2.2.2, bind_assoc, run_bind_ok hload, pure_bind,
    cut_eq_low, run_bind_ok (logicFlags_run _ _ _)]
  rfl

theorem testI_mem_run (ht : insn.op1.type = .mem) : (testI insn).run s =
    .ok (some 0, (s.advance insn).withLogic
      (insn.op1.wide w s &&& insn.op2.operand w s) 0x20) := by
  have hd := SameData.advance s insn
  have hload : (load .dword (.mem ((s.advance insn).effAddr insn.op1.mem).toNat)).run
      (s.advance insn) = .ok (insn.op1.wide w s, s.advance insn) := by
    rw [load_run (.mem _), ← h1.wide_congr hd, CsX86Op.wide_of_mem ht, Machine.opPtr_of_mem ht]
  unfold testI
  rw [run_bind_ok (advance_run s insn), run_bind_ok (srcWide_operand h2 hne),
    operand_congr (h2.imp_right And.left) hd, run_bind_ok run_get_ok, if_neg (by simp [ht]),
    if_pos ht, if_neg (by simp [ht]), bind_assoc, run_bind_ok hload, pure_bind,
    run_bind_ok (logicFlags_run _ _ _)]
  rfl

theorem testI_sameLogic_iff : (∃ t u, (testI insn).run s = .ok (some 0, t) ∧
      (andI insn).run s = .ok (some 0, u) ∧ SameLogic t u ∧
      SameBut statusFlags (s.advance insn) t) ↔
    insn.op1.type = .reg ∨ CommonBits w (insn.op1.wide w s) (insn.op2.operand w s) := by
  have hlow : insn.op1.value w s &&& low w.bits (insn.op2.operand w s) =
      low w.bits (insn.op1.wide w s &&& insn.op2.operand w s) := by
    rw [← low_wide]
    exact (Logic.low_apply .and _ _ _).symm
  rw [andI_run h1 h2.any, commonBits_iff]
  unfold Machine.logic
  rcases h1.cases with ⟨ht, -⟩ | ⟨ht, -⟩
  · refine iff_of_true ⟨_, _, testI_reg_run h1 h2 hne ht, rfl, ?_, ?_⟩ (.inl ht)
    · exact sameLogic_withLogic_iff.2 ⟨rfl, rfl, rfl⟩
    · exact Machine.sameBut_withLogic _ _ _
  · have hreg : insn.op1.type ≠ .reg := by simp [ht]
    rw [or_iff_right hreg, testI_mem_run h1 h2 hne ht]
    simp only [Logic.apply, hlow]
    constructor
    · rintro ⟨t, u, hrun, hand, hsame, -⟩
      cases hrun
      cases hand
      obtain ⟨hs, hz, -⟩ := sameLogic_withLogic_iff.1 hsame
      exact ⟨hs, hz⟩
    · rintro ⟨hs, hz⟩
      refine ⟨_, _, rfl, rfl, ?_, Machine.sameBut_withLogic _ _ _⟩
      exact sameLogic_withLogic_iff.2 ⟨hs, hz, parity_congr (low_low _ _).symm⟩

end Runs

def testAlBl : CsInsn := .bare "test" 2 [⟨.reg .al, 1⟩, ⟨.reg .bl, 1⟩]

theorem testI_sameLogic_al : ∃ t u, (testI testAlBl).run (twice 3 1) = .ok (some 0, t) ∧
    (andI testAlBl).run (twice 3 1) = .ok (some 0, u) ∧ SameLogic t u ∧
      SameBut statusFlags ((twice 3 1).advance testAlBl) t :=
  (@testI_sameLogic_iff .byte testAlBl (twice 3 1) (by decide) (.inl (by decide)) (by decide)).2
    (.inl rfl)

/-- `TEST BYTE PTR [EAX], BL` -/
def testMemBl : CsInsn :=
  .bare "test" 2 [⟨.mem ⟨.invalid, .eax, .invalid, 1, 0⟩, 1⟩, ⟨.reg .bl, 1⟩]

/-- `0x80` in both is negative to `AND` and not to `TEST`. -/
theorem testI_not_sameLogic : ¬ ∀ (w : Width) (insn : CsInsn) (s : Machine), insn.op1.IsLoc w →
    insn.op2.IsLogicSource w → insn.op2.type ≠ .mem →
    ∃ t u, (testI insn).run s = .ok (some 0, t) ∧ (andI insn).run s = .ok (some 0, u) ∧
      SameLogic t u ∧ SameBut statusFlags (s.advance insn) t := by
  intro hall
  have h1 : testMemBl.op1.IsLoc .byte := by decide
  have h2 : testMemBl.op2.IsLogicSource .byte := .inl (by decide)
  obtain ⟨t, u, ht, hu, hsame, -⟩ :=
    hall .byte testMemBl (((twice 0x80 0x80)).setReg .eax 0) h1 h2 (by decide)
  rw [testI_mem_run h1 h2 (by decide) rfl] at ht
  rw [andI_run h1 h2.any] at hu
  cases ht
  cases hu
  exact absurd (hsame .SF (by decide)) (by decide)

end I386Vm
