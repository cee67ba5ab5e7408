import I386Vm.Proofs.Operands
import I386Vm.Syscalls

/-!
# What `INT` does, and where it reads its handlers

Every byte is an index of `idt`, whose handlers all return 0 but the one of `0x80`. That one reads
`syscalls` at the whole of `EAX` without looking at it, so that a number past the last entry is not
answered at all.
-/

namespace I386Vm

open Prog

/-- `v` of `int_i`. -/
def CsInsn.intNumber (insn : CsInsn) : BitVec 8 := insn.op1.imm.setWidth 8

/-- The state after a system call that returned `a.1` and left guest memory as `a.2`. -/
def Machine.answered (s : Machine) (a : BitVec 32 × (ℕ → BitVec 8)) : Machine :=
  { s with mem := a.2 }.setReg .eax a.1

section Interrupts

variable {host : Host} {insn : CsInsn} {s : Machine}

@[simp] theorem Machine.eax_answered (s : Machine) (a : BitVec 32 × (ℕ → BitVec 8)) :
    (s.answered a).reg .eax = a.1 :=
  Machine.reg_setReg _ _ _

theorem int80_of_lt (h : (s.reg .eax).toNat < nsyscalls) :
    (int80 host).run s = .ok ((host.syscalls (s.reg .eax).toNat s).1,
      s.answered (host.syscalls (s.reg .eax).toNat s)) := by
  unfold int80
  rw [run_bind_ok run_get_ok, if_pos h]
  rfl

theorem int80_of_le (h : nsyscalls ≤ (s.reg .eax).toNat) :
    (int80 host).run s = .error .table := by
  unfold int80
  rw [run_bind_ok run_get_ok, if_neg (Nat.not_lt.2 h)]
  rfl

theorem length_idt (host : Host) : (idt host).length = 272 := by
  unfold idt
  simp only [List.length_append, List.length_cons, List.length_replicate]

theorem byte_lt_idt (host : Host) (v : BitVec 8) : v.toNat < (idt host).length := by
  rw [length_idt]
  omega

theorem intDispatcher_0x80 (host : Host) : intDispatcher host 0x80 = int80 host := rfl

theorem intDispatcher_other {v : BitVec 8} (h : v ≠ 0x80) :
    intDispatcher host v = unimplemented := by
  have hne : v.toNat ≠ 128 := fun hv => h (BitVec.eq_of_toNat_eq hv)
  have hv := v.isLt
  unfold intDispatcher idt
  rw [List.getD_eq_getElem?_getD]
  rcases Nat.lt_or_gt_of_ne hne with hlt | hgt
  · rw [List.getElem?_append_left (by rwa [List.length_replicate]), List.getElem?_replicate,
      if_pos hlt]
    rfl
  · obtain ⟨j, hj⟩ : ∃ j, v.toNat = 128 + (j + 1) := ⟨v.toNat - 129, by omega⟩
    rw [hj, List.getElem?_append_right (by rw [List.length_replicate]; omega),
      List.length_replicate, Nat.add_sub_cancel_left, List.getElem?_cons_succ,
      List.getElem?_replicate, if_pos (by omega)]
    rfl

theorem intI_eq (host : Host) (insn : CsInsn) : intI host insn = (do
    advance insn
    if insn.intNumber = 0 then return some (-1)
    else do
      let res ← intDispatcher host insn.intNumber
      return some res) := rfl

theorem intI_zero (h : insn.intNumber = 0) :
    (intI host insn).run s = .ok (some (-1), s.advance insn) := by
  rw [intI_eq, run_bind_ok (advance_run s insn), if_pos h]
  rfl

theorem intI_other (h0 : insn.intNumber ≠ 0) (h80 : insn.intNumber ≠ 0x80) :
    (intI host insn).run s = .ok (some 0, s.advance insn) := by
  rw [intI_eq, run_bind_ok (advance_run s insn), if_neg h0, intDispatcher_other h80]
  rfl

theorem intI_0x80 (h : insn.intNumber = 0x80) :
    (intI host insn).run s =
      (do let res ← int80 host; return some res : Exec Ret).run (s.advance insn) := by
  have h0 : insn.intNumber ≠ 0 := by
    rw [h]
    decide
  rw [intI_eq, run_bind_ok (advance_run s insn), if_neg h0, h, intDispatcher_0x80]

theorem intI_0x80_of_lt (h : insn.intNumber = 0x80) (hn : (s.reg .eax).toNat < nsyscalls) :
    (intI host insn).run s =
      .ok (some (host.syscalls (s.reg .eax).toNat (s.advance insn)).1,
        (s.advance insn).answered (host.syscalls (s.reg .eax).toNat (s.advance insn))) := by
  have hn' : ((s.advance insn).reg .eax).toNat < nsyscalls := hn
  rw [intI_0x80 h, run_bind_ok (int80_of_lt hn')]
  rfl

theorem intI_0x80_of_le (h : insn.intNumber = 0x80) (hn : nsyscalls ≤ (s.reg .eax).toNat) :
    (intI host insn).run s = .error .table := by
  have hn' : nsyscalls ≤ ((s.advance insn).reg .eax).toNat := hn
  rw [intI_0x80 h, run_bind_error (int80_of_le hn')]

end Interrupts

/-- `ENOSYS` -/
def enosys : BitVec 32 := 38

/-- The handlers are read inside the tables, and a number past the last system call is answered with
`-ENOSYS` and nothing else. -/
structure NoWildCall (k : Kernel) (ports : Host) (insn : CsInsn) (s : Machine) : Prop where
  idt : insn.intNumber.toNat < (idt (k.host ports)).length
  inside : (intI (k.host ports) insn).run s ≠ .error .table
  past : insn.intNumber = 0x80 → syscalls.length ≤ (s.reg .eax).toNat →
    (intI (k.host ports) insn).run s = .ok (some (-enosys), (s.advance insn).setReg .eax (-enosys))

theorem not_noWildCall_of_le {k : Kernel} {ports : Host} {insn : CsInsn} {s : Machine}
    (h : insn.intNumber = 0x80) (hn : syscalls.length ≤ (s.reg .eax).toNat) :
    ¬ NoWildCall k ports insn s := by
  intro hwild
  rw [length_syscalls] at hn
  exact hwild.inside (intI_0x80_of_le h hn)

/-- Only a number past the end of `syscalls` makes `INT` read outside a table. -/
theorem noWildCall_iff (k : Kernel) (ports : Host) (insn : CsInsn) (s : Machine) :
    NoWildCall k ports insn s ↔
      ¬ (insn.intNumber = 0x80 ∧ syscalls.length ≤ (s.reg .eax).toNat) := by
  constructor
  · rintro hwild ⟨h, hn⟩
    exact not_noWildCall_of_le h hn hwild
  · intro hin
    have hrun : ∃ r t, (intI (k.host ports) insn).run s = .ok (r, t) := by
      by_cases h0 : insn.intNumber = 0
      · exact ⟨_, _, intI_zero h0⟩
      · by_cases h80 : insn.intNumber = 0x80
        · have hn : (s.reg .eax).toNat < nsyscalls := by
            rw [← length_syscalls]
            exact Nat.not_le.1 fun hn => hin ⟨h80, hn⟩
          exact ⟨_, _, intI_0x80_of_lt h80 hn⟩
        · exact ⟨_, _, intI_other h0 h80⟩
    obtain ⟨r, t, hrun⟩ := hrun
    refine ⟨byte_lt_idt _ _, ?_, fun h hn => absurd ⟨h, hn⟩ hin⟩
    rw [hrun]
    exact nofun

/-- A kernel that answers every call with 0, for concrete runs. -/
def Kernel.zero : Kernel where
  mem := 0x7F0000000010
  fits := by decide
  mallocs _ := true
  syscall _ s := ⟨.ok 0, s.mem, fun _ => 0⟩
  garbage _ := 0

def int80Insn : CsInsn := { CsInsn.bare "int" 2 [⟨.imm 0x80, 1⟩] with bytes := [0xCD, 0x80] }

/-- The first number past the table. -/
theorem not_noWildCall_452 : ¬ ∀ (k : Kernel) (ports : Host) (insn : CsInsn) (s : Machine),
    NoWildCall k ports insn s := by
  intro hall
  have hn : syscalls.length ≤ ((Machine.blank.setReg .eax 452).reg .eax).toNat := by
    rw [length_syscalls]
    decide
  exact not_noWildCall_of_le rfl hn (hall .zero .silent int80Insn _)

end I386Vm
