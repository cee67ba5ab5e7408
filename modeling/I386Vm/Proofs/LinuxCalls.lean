import I386Vm.Linux

/-!
# The system calls against Linux

For the calls of `Linux.abi` the table hands the kernel what Linux is given, with the addresses of
the process as those of `mem`. A kernel that does to `mem` what Linux does to the memory of the
process then leaves the machine as Linux does, but for the error: every call that fails is answered
-1, which is `EPERM` (`int80_linux_iff`). The handlers serve the processes none of whose calls fail
with another error (`serves_linux`).
-/

namespace I386Vm

open Linux

/-- The parameter as the host is given it. -/
def Kernel.arg (k : Kernel) : Value → Arg
  | .int x => .int x
  | .long x => .wide x
  | .addr a => k.ptr a
  | .null => .ptr 0

/-- Entry `c.number` is the call of the host's kernel with the same parameters. -/
def Passes (k : Kernel) (s : Machine) (c : Signature) : Prop :=
  k.action c.number s = .call ⟨c.nr, (c.values s.abs.reg).map k.arg⟩ 0 Reply.mem

section Table

variable (k : Kernel) (s : Machine)

theorem passes_open : Passes k s ⟨5, .sysOpen, [.addr, .int, .mode]⟩ := by
  refine congrArg (fun l => Action.call ⟨.sysOpen, l⟩ 0 Reply.mem) ?_
  change (if s.arg2 &&& oCreat ≠ 0 then _ else _) =
    ([Value.addr s.arg1] ++ ([Value.int s.arg2] ++
      ((if s.arg2 &&& oCreat ≠ 0 then [Value.int s.arg3] else []) ++ []))).map k.arg
  split <;> rfl

theorem arg_orNull (x : BitVec 32) :
    ((if x = 0 then [Value.null] else [Value.addr x]) ++ []).map k.arg = [k.nullable x] := by
  unfold Kernel.nullable
  by_cases h : x = 0
  · rw [if_pos h, if_neg (not_not.2 h)]
    rfl
  · rw [if_neg h, if_pos h]
    rfl

theorem passes_acct : Passes k s ⟨51, .sysAcct, [.orNull]⟩ :=
  congrArg (fun l => Action.call ⟨.sysAcct, l⟩ 0 Reply.mem) (arg_orNull k s.arg1).symm

theorem passes_mount : Passes k s ⟨21, .sysMount, [.addr, .addr, .addr, .long, .orNull]⟩ :=
  congrArg (fun l => Action.call
    ⟨.sysMount, k.ptr s.arg1 :: k.ptr s.arg2 :: k.ptr s.arg3 :: .wide s.arg4 :: l⟩ 0 Reply.mem)
    (arg_orNull k s.arg5).symm

/-- Every call of the interface is the same call of the host's kernel. -/
theorem passes_abi : ∀ c ∈ abi, Passes k s c := by
  have hopen := passes_open k s
  have hacct := passes_acct k s
  have hmount := passes_mount k s
  simp only [abi, List.forall_mem_cons]
  and_intros
  all_goals first
    | rfl
    | assumption
    | exact List.forall_mem_nil _

end Table

theorem number_abi : ∀ c ∈ abi, c.number ≠ exitNumber.toNat ∧ c.number < nsyscalls := by
  decide

/-- Each number is that of one call. -/
theorem find_abi : ∀ c ∈ abi, abi.find? (fun d => d.number = c.number) = some c := by
  unfold abi
  simp only [List.forall_mem_cons]
  and_intros
  all_goals first
    | rfl
    | exact List.forall_mem_nil _

/-- A call with an address outside the memory of a process finds other bytes past `mem`. -/
def Linux.Reply.Inside {σ : Type} (l : Linux.Reply σ) : Prop := l.answer ≠ .fail efault

/-- The host's kernel does to `mem`, and becomes of a call, what Linux does to the memory of the
process and becomes. -/
structure RunsLinux {σ : Type} (linux : Linux σ) (kernels : σ → Kernel) (next : σ → Machine → σ) :
    Prop where
  answer : ∀ w s, ∀ c ∈ abi, (linux.reply w s.abs.reg s.abs.mem c).Inside →
    ((kernels w).syscall ⟨c.nr, (c.values s.abs.reg).map (kernels w).arg⟩ s).answer =
      (linux.reply w s.abs.reg s.abs.mem c).answer
  mem : ∀ w s, ∀ c ∈ abi, (linux.reply w s.abs.reg s.abs.mem c).Inside → ∀ b : BitVec 32,
    ((kernels w).syscall ⟨c.nr, (c.values s.abs.reg).map (kernels w).arg⟩ s).mem b.toNat =
      (linux.reply w s.abs.reg s.abs.mem c).mem b
  next : ∀ w s, ∀ c ∈ abi, c.number = (s.reg .eax).toNat →
    (linux.reply w s.abs.reg s.abs.mem c).Inside →
    next w s = (linux.reply w s.abs.reg s.abs.mem c).state

section Linux

variable {σ : Type} {linux : Linux σ} {kernels : σ → Kernel} {next : σ → Machine → σ}
  (ports : Host) {c : Signature} {w : σ} {s : Machine}

/-- The only error that comes back as it is. -/
def Linux.Reply.Reported (l : Linux.Reply σ) : Prop := ∀ e, l.answer = .fail e → e = 1

theorem setWidth_ret_eq_iff {a : Answer} (h : ∀ e, a = .fail e → e ≤ 4095) :
    (a.ret - 0).setWidth 32 = eaxOf a ↔ ∀ e, a = .fail e → e = 1 := by
  have hzero : a.ret - 0 = a.ret := BitVec.sub_zero _
  rw [hzero]
  cases a with
  | ok v => exact iff_of_true rfl nofun
  | fail e =>
    have he := h e rfl
    have hone : (Answer.fail e).ret.setWidth 32 = (-1 : BitVec 32) :=
      (by decide : (-1 : BitVec 64).setWidth 32 = (-1 : BitVec 32))
    rw [hone]
    unfold eaxOf
    constructor
    · rintro hneg e' ⟨⟩
      bv_omega
    · intro hall
      rw [hall e rfl]
      rfl

theorem syscalls_linux (h : RunsLinux linux kernels next) (hc : c ∈ abi)
    (hin : (linux.reply w s.abs.reg s.abs.mem c).Inside) :
    (((kernels w).host ports).syscalls c.number s).1 =
        ((linux.reply w s.abs.reg s.abs.mem c).answer.ret - 0).setWidth 32 ∧
      ∀ b : BitVec 32, (((kernels w).host ports).syscalls c.number s).2 b.toNat =
        (linux.reply w s.abs.reg s.abs.mem c).mem b := by
  have hpass : (kernels w).action c.number s = _ := passes_abi (kernels w) s c hc
  have hrun : ((kernels w).host ports).syscalls c.number s = _ :=
    congrArg (Action.run (kernels w) s) hpass
  rw [hrun, ← h.answer w s c hc hin]
  exact ⟨rfl, h.mem w s c hc hin⟩

/-- A system call leaves the machine as Linux leaves the process exactly where it does not fail with
an error other than `EPERM`. -/
theorem int80_linux_iff (h : RunsLinux linux kernels next) (hc : c ∈ abi)
    (hn : c.number = (s.reg .eax).toNat)
    (hin : (linux.reply w s.abs.reg s.abs.mem c).Inside) :
    ∃ t, (int80 ((kernels w).host ports)).run s = .ok (t.reg .eax, t) ∧
      (t.abs = { s.abs.setReg .eax (eaxOf (linux.reply w s.abs.reg s.abs.mem c).answer) with
          mem := (linux.reply w s.abs.reg s.abs.mem c).mem } ↔
        (linux.reply w s.abs.reg s.abs.mem c).Reported) := by
  obtain ⟨hv, hm⟩ := syscalls_linux ports h hc hin
  have hlt := (number_abi c hc).2
  rw [hn] at hv hm hlt
  have hrun := @int80_of_lt ((kernels w).host ports) s hlt
  generalize ((kernels w).host ports).syscalls (s.reg .eax).toNat s = a at hrun hv hm
  refine ⟨_, by rw [Machine.eax_answered]; exact hrun, ?_⟩
  have habs : (s.answered a).abs = { s.abs.setReg .eax a.1 with
      mem := (linux.reply w s.abs.reg s.abs.mem c).mem } := by
    rw [← funext hm]
    exact @Machine.abs_setReg { s with mem := a.2 } .eax a.1
  rw [habs, hv]
  refine Iff.trans ⟨fun heq => ?_, fun heq => by rw [heq]⟩
    (setWidth_ret_eq_iff fun e he => (linux.errno he).2)
  have hreg := congrFun (congrArg Cpu.reg heq) .eax
  simpa [Cpu.setReg] using hreg

end Linux

/-- A Linux where the process has the number 42 and `read` gives it one `Z`. -/
def Linux.little : Linux ℕ where
  call w nr vs m :=
    match nr, vs with
    | .sysGetpid, _ => ⟨.ok 42, m, w + 1⟩
    | .sysRead, [_, .addr a, _] => ⟨.ok 1, Function.update m a 0x5A, w + 1⟩
    | _, _ => ⟨.ok 0, m, w + 1⟩
  errno := by
    intro w nr vs m e h
    split at h
    all_goals cases h

/-- The byte that is read is at the address of the process. -/
theorem little_read (s : Machine) (a b : BitVec 32) :
    Function.update s.mem (Kernel.little.mem + a.setWidth 64 - Kernel.zero.mem).toNat 0x5A b.toNat =
      Function.update s.abs.mem a 0x5A b := by
  have haddr : (Kernel.little.mem + a.setWidth 64 - Kernel.zero.mem).toNat = a.toNat := by
    have hmem : Kernel.little.mem = Kernel.zero.mem := rfl
    rw [hmem, BitVec.add_comm, BitVec.add_sub_cancel, BitVec.toNat_setWidth]
    have ha := a.isLt
    omega
  rw [haddr]
  by_cases hb : b = a
  · rw [hb, Function.update_self, Function.update_self]
  · rw [Function.update_of_ne hb, Function.update_of_ne fun h => hb (BitVec.eq_of_toNat_eq h)]
    rfl

theorem runsLinux_little : RunsLinux .little (fun _ => .little) fun w _ => w + 1 where
  answer w s := by
    simp only [abi, List.forall_mem_cons]
    and_intros
    all_goals first
      | exact fun _ => rfl
      | exact List.forall_mem_nil _
  mem w s := by
    simp only [abi, List.forall_mem_cons]
    and_intros
    · exact fun _ => little_read s _
    all_goals first
      | exact fun _ _ => rfl
      | exact List.forall_mem_nil _
  next w s := by
    simp only [abi, List.forall_mem_cons]
    and_intros
    all_goals first
      | exact fun _ _ => rfl
      | exact List.forall_mem_nil _

/-- `read` of one byte to `0x2000`. -/
def reading : Machine :=
  (((Machine.blank.setReg .eax 3).setReg .ebx 0).setReg .ecx 0x2000).setReg .edx 1

theorem int80_linux_read : ∃ t,
    (int80 (Kernel.little.host .silent)).run reading = .ok (t.reg .eax, t) ∧
      t.abs = { reading.abs.setReg .eax 1 with
        mem := Function.update reading.abs.mem 0x2000 0x5A } := by
  obtain ⟨t, hrun, habs⟩ := @int80_linux_iff ℕ .little (fun _ => .little) (fun w _ => w + 1) .silent
    ⟨3, .sysRead, [.int, .addr, .long]⟩ 0 reading runsLinux_little (by simp [abi]) rfl nofun
  exact ⟨t, hrun, habs.2 nofun⟩

section Served

variable {σ : Type} {linux : Linux σ} {kernels : σ → Kernel} {next : σ → Machine → σ}
  (ports : Host) {c : Signature} {w : σ} {s : Machine}

/-- `exit`, and the calls that do not fail with an error other than `EPERM`. -/
def Linux.served (linux : Linux σ) : Calls σ := fun w reg mem => reg .eax = exitNumber ∨
  ∃ c ∈ abi, c.number = (reg .eax).toNat ∧ (linux.reply w reg mem c).Inside ∧
    (linux.reply w reg mem c).Reported

theorem Linux.os_call {reg : Gpr → BitVec 32} {mem : BitVec 32 → BitVec 8}
    (hc : c ∈ abi) (hn : c.number = (reg .eax).toNat) : linux.os w reg mem =
      some ⟨eaxOf (linux.reply w reg mem c).answer, (linux.reply w reg mem c).mem,
        (linux.reply w reg mem c).state⟩ := by
  have hfind := find_abi c hc
  have hexit := (number_abi c hc).1
  rw [hn] at hfind hexit
  unfold Linux.os
  rw [if_neg fun heax => hexit (congrArg BitVec.toNat heax), hfind]

/-- The handlers with the kernel in each of its states. -/
def linuxWorld (kernels : σ → Kernel) (next : σ → Machine → σ) : World σ :=
  ⟨fun w => (kernels w).host ports, next⟩

theorem serves_linux (h : RunsLinux linux kernels next) :
    ServesAs (linuxWorld ports kernels next) linux.os linux.served where
  inside w reg mem hs := by
    rcases hs with hexit | ⟨c, hc, hn, -⟩
    · rw [hexit]
      decide
    · rw [← hn]
      exact (number_abi c hc).2
  exits w s hs hos := by
    rcases hs with hexit | ⟨c, hc, hn, -⟩
    · have heax : s.reg .eax = 1 := hexit
      rw [heax]
      rfl
    · rw [Linux.os_call hc hn] at hos
      cases hos
  answers w s a hs hos := by
    rcases hs with hexit | ⟨c, hc, hn, hin, hreported⟩
    · unfold Linux.os at hos
      rw [if_pos hexit] at hos
      cases hos
    · rw [Linux.os_call hc hn] at hos
      cases hos
      obtain ⟨hv, hm⟩ := syscalls_linux ports h hc hin
      have hn' : c.number = (s.reg .eax).toNat := hn
      rw [hn'] at hv hm
      refine ⟨hv.trans ?_, hm, h.next w s c hc hn hin⟩
      exact (setWidth_ret_eq_iff fun e he => (linux.errno he).2).2 hreported

end Served

end I386Vm
