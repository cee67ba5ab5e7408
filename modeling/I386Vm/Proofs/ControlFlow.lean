import I386Vm.Proofs.Leave
import I386Vm.Proofs.SetByte
import I386Vm.Proofs.Transfers

/-!
# The stack, the jumps and the byte sets against the i386

`pop_i` moves `ESP` after it has written it, `leave_i` reads 16 bits of the frame pointer, and
`jle_i`, `setle_i` and `setg_i` combine `ZF` with the sign flags the wrong way: these five are right
exactly where `Instr.Faithful` says, and the others always.
-/

namespace I386Vm

open Bytes Prog

section Stacks

variable {insn : CsInsn} {s : Machine}

theorem pushI_refines {src : Src .dword} (h1 : insn.op1.NamesSrc .dword src)
    (hsrc : s.abs.FitsSrc src) : ∃ t, (pushI insn).run s = .ok (some 0, t) ∧
      Refines (.push src) (insn.size.setWidth 32) s t := by
  obtain ⟨x, hx, hlow⟩ := srcWide_low h1.logic (s.advance insn)
  rw [operand_congr h1.loc_or_imm (SameData.advance s insn), h1.operand_eq hsrc, low_dword,
    low_dword] at hlow
  have hrun : (pushI insn).run s =
      .ok (some 0, (s.advance insn).push32 (s.abs.operand src)) := by
    unfold pushI
    rw [run_bind_ok (advance_run s insn), run_bind_ok hx, h1.size, if_neg (by decide), hlow,
      run_bind_ok (push32_run _ _)]
    rfl
  exact ⟨_, hrun, .of_eq (Machine.abs_push32 _ _) trivial fun _ => trivial⟩

theorem popI_refines {r : Gpr} (h1 : insn.op1.Names .dword (.reg r)) :
    ∃ t, (popI insn).run s = .ok (some 0, t) ∧
      Refines (.pop r) (insn.size.setWidth 32) s t := by
  have ht : insn.op1.type = .reg := h1.type_reg id
  have hv : regs insn.op1.reg = .var r.var := by
    rw [← @Machine.opPtr_of_reg _ s ht, Machine.opPtr_names h1]
    rfl
  have hrun := @popI_reg_run _ _ s h1.isLoc (by decide) _ ht hv
  have htop : s.word .dword (s.reg .esp) = s.abs.top :=
    (s.word_dword _).trans (s.read32_abs _)
  have hraised (m : Machine) : (m.raised .dword).abs = m.abs.setReg .esp (m.abs.reg .esp + 4) :=
    @Machine.abs_setReg m .esp _
  rw [htop] at hrun
  have hpoke : ((s.advance insn).poke .dword (.var r.var) s.abs.top).abs =
      (s.abs.goto (s.abs.eip + insn.size.setWidth 32)).setReg r s.abs.top := by
    refine (@Machine.abs_poke (s.advance insn) .dword (.reg r) trivial _).trans ?_
    exact congrArg (Cpu.setReg _ r) (merge_dword _ _)
  have habs : (((s.advance insn).poke .dword (.var r.var) s.abs.top).raised .dword).abs =
      ((s.abs.setReg r s.abs.top).setReg .esp ((s.abs.setReg r s.abs.top).reg .esp + 4)).goto
        (s.abs.eip + insn.size.setWidth 32) := by
    rw [hraised, hpoke]
    rfl
  have hesp : ((s.abs.setReg r s.abs.top).reg .esp + 4) = if r = .esp then s.abs.top + 4
      else s.abs.reg .esp + 4 := by
    by_cases hr : r = .esp
    · simp [Cpu.setReg, hr]
    · simp [Cpu.setReg, hr, Function.update_of_ne (Ne.symm hr)]
  rw [hesp] at habs
  refine ⟨_, hrun, ⟨fun h => ?_, fun hr => ?_⟩, fun f _ => ?_⟩
  · rintro rfl
    rw [habs, if_pos rfl] at h
    have hreg := congrFun h.reg .esp
    simp [Cpu.setReg, Cpu.goto, Instr.exec] at hreg
  · rw [habs, if_neg hr]
    refine ⟨?_, rfl, rfl⟩
    exact Function.update_comm hr _ _ _
  · refine iff_of_true ?_ trivial
    exact congrFun (congrArg Cpu.flag habs) f

theorem leaveI_refines (hpre : insn.prefix0 ≠ 0x66) :
    ∃ t, (leaveI insn).run s = .ok (some 0, t) ∧
      Refines .leave (insn.size.setWidth 32) s t := by
  have hcomm (m : Machine) (x y z : BitVec 32) :
      ((m.setReg .esp x).setReg .ebp y).setReg .esp z = (m.setReg .esp z).setReg .ebp y := by
    refine congrArg (fun reg => { m with reg := reg }) ?_
    refine (Function.update_comm (by decide) _ _ _).trans ?_
    exact congrArg (fun reg : Var → BitVec 32 => Function.update reg .ebp y)
      (Function.update_idem _ _ _)
  have hrun : (leaveI insn).run s = .ok (some 0,
      ((s.advance insn).setReg .esp (s.reg .ebp + 4)).setReg .ebp (s.read16 (s.reg .ebp))) := by
    unfold leaveI
    rw [run_bind_ok (advance_run s insn), run_bind_ok run_get_ok, run_bind_ok (setReg_run _ _ _),
      if_neg hpre, bind_assoc, run_bind_ok (setReg_run _ _ _), run_bind_ok (addEsp_run _ _),
      Machine.reg_setReg_of_ne _ (by decide), Machine.reg_setReg, hcomm]
    rfl
  have hlow : s.read16 (s.reg .ebp) = low 16 (s.abs.load .dword (.mem (s.reg .ebp))) := by
    rw [s.read16_eq_wrapped]
    exact (low_readLE_of_le _ (by decide)).symm
  have habs : (((s.advance insn).setReg .esp (s.reg .ebp + 4)).setReg .ebp
      (s.read16 (s.reg .ebp))).abs =
      (((s.abs.setReg .esp (s.reg .ebp + 4)).setReg .ebp
        (low 16 (s.abs.load .dword (.mem (s.reg .ebp)))))).goto
          (s.abs.eip + insn.size.setWidth 32) := by
    rw [hlow]
    refine (@Machine.abs_setReg _ .ebp _).trans ?_
    exact congrArg (Cpu.setReg · .ebp _) (@Machine.abs_setReg (s.advance insn) .esp _)
  refine ⟨_, hrun, ⟨fun h => ?_, fun hr => ?_⟩, fun f _ => iff_of_true ?_ trivial⟩
  · rw [habs] at h
    have hreg := congrFun h.reg .ebp
    simp only [Cpu.setReg, Cpu.goto, Instr.exec, Function.update_self] at hreg
    exact low_sixteen_eq_iff.1 hreg
  · have hsmall : low 16 (s.abs.load .dword (.mem (s.reg .ebp))) =
        s.abs.load .dword (.mem (s.reg .ebp)) := low_sixteen_eq_iff.2 hr
    rw [habs, hsmall]
    exact ⟨rfl, rfl, rfl⟩
  · exact congrFun (congrArg Cpu.flag habs) f

end Stacks

section Control

variable {insn : CsInsn} {s : Machine} {src : Src .dword}

theorem branchTarget_eq (h1 : insn.op1.NamesSrc .dword src) (hsrc : s.abs.FitsSrc src) :
    s.branchTarget insn.op1 = s.abs.operand src := by
  rw [← h1.operand_eq hsrc]
  unfold Machine.branchTarget
  rcases h1.loc_or_imm with hl | ht
  · rw [hl.operand_eq]
    rcases hl.cases with ⟨ht, -⟩ | ⟨ht, -⟩
    · rw [if_pos ht, hl.regVal_eq ht]
    · rw [if_neg (by simp [ht]), if_neg (by simp [ht]), ← Machine.opPtr_of_mem ht]
      rfl
  · rw [if_neg (by simp [ht]), if_pos ht, CsX86Op.operand, if_pos ht]

theorem jmpI_refines (h1 : insn.op1.NamesSrc .dword src) (hsrc : s.abs.FitsSrc src) :
    ∃ t, (jmpI insn).run s = .ok (some 0, t) ∧
      Refines (.jmp src) (insn.size.setWidth 32) s t := by
  refine ⟨{ s with eip := s.branchTarget insn.op1 }, rfl, .of_eq ?_ trivial fun _ => trivial⟩
  rw [branchTarget_eq h1 hsrc]
  rfl

theorem callI_refines (h1 : insn.op1.NamesSrc .dword src) (hsrc : s.abs.FitsSrc src) :
    ∃ t, (callI insn).run s = .ok (some 0, t) ∧
      Refines (.call src) (insn.size.setWidth 32) s t := by
  have htarget : (s.advance insn).branchTarget insn.op1 = s.abs.operand src :=
    branchTarget_eq h1 hsrc
  refine ⟨_, callI_run, .of_eq ?_ trivial fun _ => trivial⟩
  rw [htarget]
  have hpush := (s.advance insn).abs_push32 (s.advance insn).eip
  exact congrArg (Cpu.goto · (s.abs.operand src)) hpush

theorem retI_refines : ∃ t, (retI insn).run s = .ok (some 0, t) ∧
    Refines (.ret insn.retBytes) (insn.size.setWidth 32) s t := by
  refine ⟨_, retI_run, .of_eq ?_ trivial fun _ => trivial⟩
  rw [Machine.read32_abs]
  exact congrArg (Cpu.goto · s.abs.top) (@Machine.abs_setReg s .esp _)

end Control

/-- The machine's test of the condition `k` is the one of the i386 where `ok` holds of the flags. -/
def Cond.TestedBy (k : Cond) (c : Machine → Bool) (ok : (Flag → Bool) → Prop) : Prop :=
  (∀ t insn, c (t.advance insn) = c t) ∧ ∀ t : Machine, c t = k.holds t.abs.flag ↔ ok t.abs.flag

/-- `jle_i` has `&&` for `||`. -/
theorem Cond.exists_jump (k : Cond) : ∃ c : Machine → Bool, k.jump = jcc c ∧ k.TestedBy c fun fl =>
    k = .le → fl .ZF = (fl .SF != fl .OF) := by
  cases k <;> refine ⟨_, rfl, fun _ _ => rfl, fun t => ?_⟩ <;>
    simp only [Cond.holds, Machine.abs] <;>
    generalize t.testFlag .SF = sf <;> generalize t.testFlag .OF = of <;>
    generalize t.testFlag .ZF = zf <;> generalize t.testFlag .CF = cf <;>
    generalize t.testFlag .PF = pf <;>
    cases sf <;> cases of <;> cases zf <;> cases cf <;> cases pf <;> simp

/-- `setg_i` has `||` for `&&` as well. -/
theorem Cond.exists_set (k : Cond) : ∃ c : Machine → Bool, k.set = setcc c ∧ k.TestedBy c fun fl =>
    k = .g ∨ k = .le → fl .ZF = (fl .SF != fl .OF) := by
  cases k <;> refine ⟨_, rfl, fun _ _ => rfl, fun t => ?_⟩ <;>
    simp only [Cond.holds, Machine.abs] <;>
    generalize t.testFlag .SF = sf <;> generalize t.testFlag .OF = of <;>
    generalize t.testFlag .ZF = zf <;> generalize t.testFlag .CF = cf <;>
    generalize t.testFlag .PF = pf <;>
    cases sf <;> cases of <;> cases zf <;> cases cf <;> cases pf <;> simp

section Conditional

variable {insn : CsInsn} {s : Machine} {k : Cond}

theorem setcc_refines {dst : Loc} (h1 : insn.op1.Names .byte dst) (hdst : s.abs.Fits .byte dst) :
    ∃ t, (k.set insn).run s = .ok (some 0, t) ∧
      Refines (.setcc k dst) (insn.size.setWidth 32) s t := by
  obtain ⟨c, hset, hadv, hc⟩ := k.exists_set
  have hrun := setcc_run c insn h1.isLoc (hadv s insn)
  have habs := Machine.abs_poke_names h1 hdst insn (if c s then 1 else 0)
  rw [← hset] at hrun
  refine ⟨_, hrun, ⟨fun h => (hc s).1 ?_, fun h => ?_⟩, fun f _ => iff_of_true ?_ trivial⟩
  · rw [habs] at h
    have hload := h.load .byte (s.abs.place dst)
    have hstored (x : BitVec 32) : ((s.abs.put .byte dst x).goto
        (s.abs.eip + insn.size.setWidth 32)).load .byte (s.abs.place dst) = low 8 x :=
      s.abs.load_store _ _ _
    rw [hstored, Instr.exec, hstored] at hload
    revert hload
    cases c s <;> cases k.holds s.abs.flag <;> decide
  · rw [habs, (hc s).2 h]
    exact ⟨rfl, rfl, rfl⟩
  · change (Machine.abs _).flag f = _
    rw [habs]
    exact (congrFun (Cpu.flag_store _ _ _ _) f).trans (congrFun (Cpu.flag_store _ _ _ _) f).symm

theorem jcc_refines {target : BitVec 32} (h1 : insn.op1.NamesSrc .dword (.imm target)) :
    ∃ t, (k.jump insn).run s = .ok (some 0, t) ∧
      Refines (.jcc k target) (insn.size.setWidth 32) s t := by
  obtain ⟨c, hjump, hadv, hc⟩ := k.exists_jump
  have htarget : (s.advance insn).branchTarget insn.op1 = target :=
    (@branchTarget_eq insn (s.advance insn) _ h1 trivial).trans (BitVec.setWidth_eq _)
  have hrun : (k.jump insn).run s = .ok (some 0, { s with
      eip := if c s then target else s.eip + insn.size.setWidth 32 }) := by
    rw [hjump, ← htarget]
    unfold jcc
    rw [run_bind_ok (advance_run s insn), run_bind_ok run_get_ok, hadv]
    cases c s <;> rfl
  refine ⟨_, hrun, ⟨fun h hle => ?_, fun h => ⟨rfl, ?_, rfl⟩⟩, fun f _ => iff_of_true rfl trivial⟩
  · have heip : (if c s then target else s.eip + insn.size.setWidth 32) =
        if k.holds s.abs.flag then target else s.eip + insn.size.setWidth 32 := h.eip
    by_cases hcs : c s = k.holds s.abs.flag
    · exact .inl ((hc s).1 hcs hle)
    · right
      revert heip hcs
      cases c s <;> cases k.holds s.abs.flag <;> simp +contextual [Machine.abs]
  · change (if c s then target else s.eip + insn.size.setWidth 32) =
      if k.holds s.abs.flag then target else s.eip + insn.size.setWidth 32
    by_cases hcs : c s = k.holds s.abs.flag
    · rw [hcs]
    · have hle : k = .le := by
        by_contra hne
        exact hcs ((hc s).2 fun hle => absurd hle hne)
      rcases h hle with hz | ht
      · exact absurd ((hc s).2 fun _ => hz) hcs
      · have heip : target = s.eip + insn.size.setWidth 32 := ht
        rw [← heip, ite_self, ite_self]

end Conditional

end I386Vm
