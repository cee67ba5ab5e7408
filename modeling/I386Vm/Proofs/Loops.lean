import I386Vm.Control
import I386Vm.Proofs.Operands

/-!
# Counted loops

A loop is a run of executions of one `LOOP` instruction, with a body in between that comes back to
it and leaves `ECX` alone. It should branch exactly while the decremented `ECX` is not zero and the
flag condition holds. The handlers branch when the decremented `ECX` is zero, so they are right
about the first execution only where the flag decides it or branching makes no difference.
-/

namespace I386Vm

open Prog

/-- The handlers of the family with the values of `ZF` they branch on. -/
def loops : List (Handler × (Bool → Bool)) :=
  [(loopI, fun _ => true), (loopeI, fun zf => zf), (loopneI, fun zf => !zf),
   (loopnzI, fun zf => !zf), (loopzI, fun zf => zf)]

theorem eq_loopcc {h : Handler} {c : Bool → Bool} (hm : (h, c) ∈ loops) :
    h = loopcc fun s => c (s.testFlag .ZF) := by
  simp only [loops, List.mem_cons, Prod.mk.injEq, List.not_mem_nil, or_false] at hm
  rcases hm with ⟨rfl, rfl⟩ | ⟨rfl, rfl⟩ | ⟨rfl, rfl⟩ | ⟨rfl, rfl⟩ | ⟨rfl, rfl⟩ <;> rfl

theorem loopI_mem : (loopI, fun _ => true) ∈ loops := by
  simp [loops]

/-- The address after the instruction. -/
def Machine.next (s : Machine) (insn : CsInsn) : BitVec 32 := s.eip + insn.size.setWidth 32

/-- Where the instruction branches to: an offset of one byte, or an address. -/
def CsInsn.loopTarget (insn : CsInsn) (s : Machine) : BitVec 32 :=
  if insn.op1.size = 1 then s.next insn + signExtend8_32 (insn.op1.imm.setWidth 8)
  else insn.op1.imm.setWidth 32

section Step

variable {h : Handler} {c : Bool → Bool} {insn : CsInsn} {s t : Machine}

/-- The loop should go on. -/
def GoesOn (c : Bool → Bool) (s : Machine) : Prop := s.reg .ecx - 1 ≠ 0 ∧ c (s.testFlag .ZF)

instance : Decidable (GoesOn c s) := inferInstanceAs (Decidable (_ ∧ _))

/-- What an execution from `s` to `t` should do. -/
structure LoopStep (c : Bool → Bool) (insn : CsInsn) (s t : Machine) : Prop where
  ecx : t.reg .ecx = s.reg .ecx - 1
  eflags : t.eflags = s.eflags
  eip : t.eip = if GoesOn c s then insn.loopTarget s else s.next insn

/-- Where the handlers go. -/
def CsInsn.loopsTo (insn : CsInsn) (c : Bool → Bool) (s : Machine) : BitVec 32 :=
  if s.reg .ecx - 1 = 0 ∧ c (s.testFlag .ZF) ∧ (insn.op1.size = 1 ∨ insn.op1.size = 4) then
    insn.loopTarget s
  else s.next insn

theorem loop_run (hm : (h, c) ∈ loops) (insn : CsInsn) (s : Machine) :
    ∃ t, (h insn).run s = .ok (some 0, t) ∧ t.reg .ecx = s.reg .ecx - 1 ∧ t.eflags = s.eflags ∧
      t.eip = insn.loopsTo c s := by
  have hecx (x : BitVec 32) : ((s.advance insn).setReg .ecx x).reg .ecx = x := Machine.reg_setReg ..
  have hcond : ((s.advance insn).reg .ecx - 1 = 0 ∧
      (fun s : Machine => c (s.testFlag .ZF)) (s.advance insn) = true) ↔
      s.reg .ecx - 1 = 0 ∧ c (s.testFlag .ZF) := Iff.rfl
  rw [eq_loopcc hm]
  unfold loopcc CsInsn.loopsTo CsInsn.loopTarget
  rw [run_bind_ok (advance_run s insn), run_bind_ok run_get_ok, run_bind_ok (setReg_run _ _ _)]
  by_cases hc : s.reg .ecx - 1 = 0 ∧ c (s.testFlag .ZF)
  · rw [if_pos (hcond.2 hc)]
    by_cases h1 : insn.op1.size = 1
    · rw [if_pos h1, if_pos ⟨hc.1, hc.2, .inl h1⟩, if_pos h1]
      exact ⟨_, rfl, hecx _, rfl, rfl⟩
    · rw [if_neg h1]
      by_cases h4 : insn.op1.size = 4
      · rw [if_pos h4, if_pos ⟨hc.1, hc.2, .inr h4⟩, if_neg h1]
        exact ⟨_, rfl, hecx _, rfl, rfl⟩
      · rw [if_neg h4, if_neg (by tauto)]
        exact ⟨_, rfl, hecx _, rfl, rfl⟩
  · rw [if_neg (hcond.not.2 hc), if_neg (by tauto)]
    exact ⟨_, rfl, hecx _, rfl, rfl⟩

theorem loop_spec (hm : (h, c) ∈ loops) (hrun : (h insn).run s = .ok (some 0, t)) :
    t.reg .ecx = s.reg .ecx - 1 ∧ t.eflags = s.eflags ∧ t.eip = insn.loopsTo c s := by
  obtain ⟨u, hu, hspec⟩ := loop_run hm insn s
  rw [hrun] at hu
  cases hu
  exact hspec

/-- The first execution is right: the flag ends the loop, or the target is the next instruction, or
the operand has a size at which the handlers never branch and the count is one. -/
def LoopFits (c : Bool → Bool) (insn : CsInsn) (s : Machine) : Prop :=
  c (s.testFlag .ZF) = false ∨ insn.loopTarget s = s.next insn ∨
    (insn.op1.size ≠ 1 ∧ insn.op1.size ≠ 4 ∧ s.reg .ecx = 1)

theorem loopsTo_eq_iff :
    (insn.loopsTo c s = if GoesOn c s then insn.loopTarget s else s.next insn) ↔
      LoopFits c insn s := by
  have hone : s.reg .ecx - 1 = 0 ↔ s.reg .ecx = 1 := by bv_omega
  unfold CsInsn.loopsTo LoopFits
  by_cases hb : GoesOn c s
  · -- it should branch and does not
    rw [if_pos hb, if_neg fun hz => hb.1 hz.1, eq_comm]
    exact ⟨fun h => .inr (.inl h), fun h => by
      rcases h with hc | ht | ⟨-, -, h1⟩
      · exact absurd hb.2 (by simp [hc])
      · exact ht
      · exact absurd (hone.2 h1) hb.1⟩
  · rw [if_neg hb]
    split
    · rename_i hz
      refine ⟨fun h => .inr (.inl h), fun h => ?_⟩
      rcases h with hc | ht | ⟨h1, h4, -⟩
      · exact absurd hz.2.1 (by simp [hc])
      · exact ht
      · exact (hz.2.2.elim h1 h4).elim
    · rename_i hz
      refine ⟨fun _ => ?_, fun _ => rfl⟩
      unfold GoesOn at hb
      rcases hc : c (s.testFlag .ZF) with _ | _
      · exact .inl rfl
      · have h0 : s.reg .ecx - 1 = 0 := by
          by_contra h0
          exact hb ⟨h0, hc⟩
        have hs : ¬ (insn.op1.size = 1 ∨ insn.op1.size = 4) := fun hs => hz ⟨h0, hc, hs⟩
        exact .inr (.inr ⟨fun h => hs (.inl h), fun h => hs (.inr h), hone.1 h0⟩)

end Step

/-- The executions of one loop instruction, from `visit i` to `after i`; between them the body comes
back to the instruction and leaves `ECX` alone. -/
structure LoopRun (h : Handler) (insn : CsInsn) (visit after : ℕ → Machine) : Prop where
  run : ∀ i, (h insn).run (visit i) = .ok (some 0, after i)
  eip : ∀ i, (visit (i + 1)).eip = (visit i).eip
  ecx : ∀ i, (visit (i + 1)).reg .ecx = (after i).reg .ecx

/-- Every execution up to the one that should end the loop does what it should. -/
def BranchesWhile (c : Bool → Bool) (insn : CsInsn) (visit after : ℕ → Machine) : Prop :=
  ∀ i, (∀ j < i, GoesOn c (visit j)) → LoopStep c insn (visit i) (after i)

/-- `n - 1` branches and then the next instruction, with `ECX` zero and `eflags` never changed. -/
structure Counts (n : ℕ) (insn : CsInsn) (visit after : ℕ → Machine) : Prop where
  back : ∀ i, i + 1 < n → (after i).eip = insn.loopTarget (visit i)
  falls : (after (n - 1)).eip = (visit (n - 1)).next insn
  ecx : (after (n - 1)).reg .ecx = 0
  eflags : ∀ i < n, (after i).eflags = (visit i).eflags

section Run

variable {h : Handler} {c : Bool → Bool} {insn : CsInsn} {visit after : ℕ → Machine}

theorem LoopRun.eip_eq (hr : LoopRun h insn visit after) :
    ∀ i, (visit i).eip = (visit 0).eip
  | 0 => rfl
  | i + 1 => (hr.eip i).trans (hr.eip_eq i)

theorem LoopRun.loopTarget_eq (hr : LoopRun h insn visit after) (i : ℕ) :
    insn.loopTarget (visit i) = insn.loopTarget (visit 0) ∧
      (visit i).next insn = (visit 0).next insn := by
  unfold CsInsn.loopTarget Machine.next
  rw [hr.eip_eq i]
  exact ⟨rfl, rfl⟩

/-- Only the first execution matters: if the loop should go on after it, the target must be the next
instruction, and then it is so at every execution. -/
theorem LoopRun.fits (hr : LoopRun h insn visit after) (hf : LoopFits c insn (visit 0)) (i : ℕ)
    (hb : ∀ j < i, GoesOn c (visit j)) : LoopFits c insn (visit i) := by
  rcases i with _ | i
  · exact hf
  · have h0 := hb 0 (by omega)
    rcases hf with hc | ht | ⟨-, -, h1⟩
    · exact absurd h0.2 (by simp [hc])
    · obtain ⟨htarget, hnext⟩ := hr.loopTarget_eq (i + 1)
      exact .inr (.inl (by rw [htarget, hnext, ht]))
    · exact absurd (by rw [h1]; rfl) h0.1

theorem branchesWhile_iff (hm : (h, c) ∈ loops) (hr : LoopRun h insn visit after) :
    BranchesWhile c insn visit after ↔ LoopFits c insn (visit 0) := by
  constructor
  · intro hb
    have hstep := (hb 0 (by simp)).eip
    rw [(loop_spec hm (hr.run 0)).2.2] at hstep
    exact loopsTo_eq_iff.1 hstep
  · intro hf i hb
    obtain ⟨hecx, heflags, heip⟩ := loop_spec hm (hr.run i)
    exact ⟨hecx, heflags, heip.trans (loopsTo_eq_iff.2 (hr.fits hf i hb))⟩

theorem LoopRun.ecx_eq (hm : (h, c) ∈ loops) (hr : LoopRun h insn visit after) :
    ∀ i, (visit i).reg .ecx = (visit 0).reg .ecx - BitVec.ofNat 32 i
  | 0 => by simp
  | i + 1 => by
    rw [hr.ecx i, (loop_spec hm (hr.run i)).1, hr.ecx_eq hm i, BitVec.ofNat_add]
    bv_omega

/-- `LOOP` should go on after all but the last of `ECX` executions. -/
theorem LoopRun.branches_iff (hr : LoopRun loopI insn visit after) {i : ℕ}
    (hi : i < ((visit 0).reg .ecx).toNat) :
    GoesOn (fun _ => true) (visit i) ↔ i + 1 < ((visit 0).reg .ecx).toNat := by
  have hecx := hr.ecx_eq loopI_mem i
  unfold GoesOn
  rw [hecx]
  simp only [and_true, ne_eq]
  bv_omega

theorem LoopRun.counts_iff (hr : LoopRun loopI insn visit after)
    (hn : 1 ≤ ((visit 0).reg .ecx).toNat) :
    Counts ((visit 0).reg .ecx).toNat insn visit after ↔
      BranchesWhile (fun _ => true) insn visit after := by
  constructor
  · intro hc i hb
    have hi : i < ((visit 0).reg .ecx).toNat := by
      by_contra hi
      have hlast := hb (((visit 0).reg .ecx).toNat - 1) (by omega)
      rw [hr.branches_iff (by omega)] at hlast
      omega
    obtain ⟨hecx, heflags, -⟩ := loop_spec loopI_mem (hr.run i)
    refine ⟨hecx, heflags, ?_⟩
    by_cases hlast : i + 1 < ((visit 0).reg .ecx).toNat
    · rw [if_pos ((hr.branches_iff hi).2 hlast)]
      exact hc.back i hlast
    · rw [if_neg ((hr.branches_iff hi).not.2 hlast)]
      have hfalls := hc.falls
      rwa [show ((visit 0).reg .ecx).toNat - 1 = i by omega] at hfalls
  · intro hb
    have hstep (i : ℕ) (hi : i < ((visit 0).reg .ecx).toNat) :
        LoopStep (fun _ => true) insn (visit i) (after i) :=
      hb i fun j hj => (hr.branches_iff (by omega)).2 (by omega)
    have hlast := hstep (((visit 0).reg .ecx).toNat - 1) (by omega)
    refine ⟨fun i hi => ?_, ?_, ?_, fun i hi => (hstep i hi).eflags⟩
    · have heip := (hstep i (by omega)).eip
      rwa [if_pos ((hr.branches_iff (by omega)).2 hi)] at heip
    · have heip := hlast.eip
      rwa [if_neg ((hr.branches_iff (by omega)).not.2 (by omega))] at heip
    · rw [hlast.ecx, hr.ecx_eq loopI_mem]
      bv_omega

/-- Every execution ends. A loop is right exactly where its first execution is, and so `LOOP` counts
only where its target is the next instruction, or with a count of one and an operand size at which
it never branches. -/
theorem loop_counts_iff (hm : (h, c) ∈ loops) (insn : CsInsn) :
    (∀ s : Machine, ∃ t, (h insn).run s = .ok (some 0, t)) ∧
    (∀ visit after : ℕ → Machine, LoopRun h insn visit after →
      (BranchesWhile c insn visit after ↔ LoopFits c insn (visit 0))) ∧
    ∀ visit after : ℕ → Machine, LoopRun loopI insn visit after →
      1 ≤ ((visit 0).reg .ecx).toNat →
      (Counts ((visit 0).reg .ecx).toNat insn visit after ↔
        insn.loopTarget (visit 0) = (visit 0).next insn ∨
          (insn.op1.size ≠ 1 ∧ insn.op1.size ≠ 4 ∧ (visit 0).reg .ecx = 1)) := by
  refine ⟨fun s => ?_, fun visit after hr => branchesWhile_iff hm hr, fun visit after hr hn => ?_⟩
  · obtain ⟨t, ht, -⟩ := loop_run hm insn s
    exact ⟨t, ht⟩
  · rw [hr.counts_iff hn, branchesWhile_iff loopI_mem hr]
    unfold LoopFits
    simp

end Run

section Spin

variable (insn : CsInsn) (s : Machine)

/-- `s` with `ECX` counted down `i` times. -/
def counted (i : ℕ) : Machine := s.setReg .ecx (s.reg .ecx - BitVec.ofNat 32 i)

theorem exists_loopRun : ∃ after, LoopRun loopI insn (counted s) after := by
  choose after hafter using fun i => loop_run loopI_mem insn (counted s i)
  refine ⟨after, fun i => (hafter i).1, fun _ => rfl, fun i => ?_⟩
  rw [(hafter i).2.1]
  unfold counted
  rw [Machine.reg_setReg, Machine.reg_setReg, BitVec.ofNat_add]
  bv_omega

end Spin

/-- `LOOP` to the next instruction. -/
def loopNext : CsInsn := .bare "loop" 2 [⟨.imm 2, 4⟩]

theorem loop_counts_next : ∃ after,
    LoopRun loopI loopNext (counted (Machine.blank.setReg .ecx 3)) after ∧
      Counts 3 loopNext (counted (Machine.blank.setReg .ecx 3)) after := by
  obtain ⟨after, hr⟩ := exists_loopRun loopNext (Machine.blank.setReg .ecx 3)
  obtain ⟨-, -, hcounts⟩ := loop_counts_iff loopI_mem loopNext
  exact ⟨after, hr, (hcounts _ after hr (by decide)).2 (.inl (by decide))⟩

/-- `LOOP` to its own address. -/
def loopSelf : CsInsn := .bare "loop" 2 [⟨.imm 0, 4⟩]

/-- With `ECX` at 2 the first execution falls through. -/
theorem loop_not_counts : ¬ ∀ (insn : CsInsn) (visit after : ℕ → Machine),
    LoopRun loopI insn visit after → 1 ≤ ((visit 0).reg .ecx).toNat →
      Counts ((visit 0).reg .ecx).toNat insn visit after := by
  intro hall
  obtain ⟨after, hr⟩ := exists_loopRun loopSelf (Machine.blank.setReg .ecx 2)
  have hcounts := hall loopSelf _ after hr (by decide)
  have hbranches := (hr.counts_iff (by decide)).1 hcounts
  rcases (branchesWhile_iff loopI_mem hr).1 hbranches with hc | ht | h1
  · exact absurd hc (by decide)
  · exact absurd ht (by decide)
  · exact absurd h1 (by decide)

end I386Vm
