import I386Vm.Proofs.Processes
import I386Vm.Syscalls

/-!
# Linux on the i386

What the system calls are to stand for: those of Linux on the i386 that take numbers and addresses
of bytes and do not change what memory there is. `EAX` holds the number of the call, the registers
from `EBX` on its parameters, and the answer is a value or an error below 0. The system itself, with
all that it has outside the process, is any function.
-/

namespace I386Vm

namespace Linux

inductive Value
  | int (x : BitVec 32)
  /-- An `unsigned long` or a size. -/
  | long (x : BitVec 32)
  | addr (a : BitVec 32)
  | null

inductive Param
  | int | long | addr
  /-- An address, or 0 for none. -/
  | orNull
  /-- The mode of `open`, which is a parameter where a file may be created. -/
  | mode

def Param.values (reg : Gpr → BitVec 32) (p : Param) (r : Gpr) : List Value :=
  match p with
  | int => [.int (reg r)]
  | long => [.long (reg r)]
  | addr => [.addr (reg r)]
  | orNull => if reg r = 0 then [.null] else [.addr (reg r)]
  | mode => if reg .ecx &&& oCreat ≠ 0 then [.int (reg r)] else []

structure Signature where
  number : ℕ
  nr : Sys
  params : List Param

def Signature.values (c : Signature) (reg : Gpr → BitVec 32) : List Value :=
  (c.params.zipWith (Param.values reg) [.ebx, .ecx, .edx, .esi, .edi, .ebp]).flatten

/-- The calls whose handlers pass on what they are given. Other calls of numbers and addresses are
left out, as the handlers of `reboot`, `truncate`, `time`, `lchown`, `personality` and the like ask
the host for something else. -/
def abi : List Signature :=
  [⟨3, .sysRead, [.int, .addr, .long]⟩, ⟨4, .sysWrite, [.int, .addr, .long]⟩,
   ⟨5, .sysOpen, [.addr, .int, .mode]⟩, ⟨6, .sysClose, [.int]⟩, ⟨8, .sysCreat, [.addr, .int]⟩,
   ⟨9, .sysLink, [.addr, .addr]⟩, ⟨10, .sysUnlink, [.addr]⟩, ⟨12, .sysChdir, [.addr]⟩,
   ⟨14, .sysMknod, [.addr, .int, .long]⟩, ⟨15, .sysChmod, [.addr, .int]⟩, ⟨20, .sysGetpid, []⟩,
   ⟨21, .sysMount, [.addr, .addr, .addr, .long, .orNull]⟩, ⟨27, .sysAlarm, [.int]⟩,
   ⟨29, .sysPause, []⟩, ⟨33, .sysAccess, [.addr, .int]⟩, ⟨36, .sysSync, []⟩,
   ⟨37, .sysKill, [.int, .int]⟩, ⟨38, .sysRename, [.addr, .addr]⟩,
   ⟨39, .sysMkdir, [.addr, .int]⟩, ⟨40, .sysRmdir, [.addr]⟩, ⟨41, .sysDup, [.int]⟩,
   ⟨42, .sysPipe, [.addr]⟩, ⟨51, .sysAcct, [.orNull]⟩, ⟨52, .sysUmount2, [.addr, .int]⟩,
   ⟨57, .sysSetpgid, [.int, .int]⟩, ⟨60, .sysUmask, [.int]⟩, ⟨61, .sysChroot, [.addr]⟩,
   ⟨63, .sysDup2, [.int, .int]⟩, ⟨64, .sysGetppid, []⟩, ⟨65, .sysGetpgrp, []⟩,
   ⟨66, .sysSetsid, []⟩, ⟨74, .sysSethostname, [.addr, .long]⟩,
   ⟨83, .sysSymlink, [.addr, .addr]⟩, ⟨85, .sysReadlink, [.addr, .addr, .long]⟩,
   ⟨87, .sysSwapon, [.addr, .int]⟩, ⟨94, .sysFchmod, [.int, .int]⟩,
   ⟨96, .sysGetpriority, [.int, .int]⟩, ⟨97, .sysSetpriority, [.int, .int, .int]⟩,
   ⟨103, .sysSyslog, [.int, .addr, .int]⟩, ⟨111, .sysVhangup, []⟩, ⟨115, .sysSwapoff, [.addr]⟩,
   ⟨118, .sysFsync, [.int]⟩, ⟨121, .sysSetdomainname, [.addr, .long]⟩,
   ⟨132, .sysGetpgid, [.int]⟩, ⟨133, .sysFchdir, [.int]⟩, ⟨147, .sysGetsid, [.int]⟩,
   ⟨148, .sysFdatasync, [.int]⟩, ⟨152, .sysMlockall, [.int]⟩, ⟨153, .sysMunlockall, []⟩,
   ⟨158, .sysSchedYield, []⟩, ⟨159, .sysSchedGetPriorityMax, [.int]⟩,
   ⟨160, .sysSchedGetPriorityMin, [.int]⟩, ⟨258, .sysSetTidAddress, [.addr]⟩]

/-- The number of `exit`. -/
def exitNumber : BitVec 32 := 1

/-- The error of a call whose addresses are not those of memory. -/
def efault : ℕ := 14

/-- `EAX` after the call. -/
def eaxOf : Answer → BitVec 32
  | .ok v => v.setWidth 32
  | .fail e => -BitVec.ofNat 32 e

structure Reply (σ : Type) where
  answer : Answer
  mem : BitVec 32 → BitVec 8
  state : σ

end Linux

open Linux in
/-- The answer of the system to a call, by its state, the parameters and the memory of the
process. -/
structure Linux (σ : Type) where
  call : σ → Sys → List Value → (BitVec 32 → BitVec 8) → Linux.Reply σ
  errno : ∀ {w nr vs m e}, (call w nr vs m).answer = .fail e → 1 ≤ e ∧ e ≤ 4095

namespace Linux

variable {σ : Type} (linux : Linux σ) (w : σ) (reg : Gpr → BitVec 32) (mem : BitVec 32 → BitVec 8)

/-- The answer to a call with the registers of the process. -/
def reply (c : Signature) : Reply σ := linux.call w c.nr (c.values reg) mem

def os : Os σ := fun w reg mem =>
  if reg .eax = exitNumber then none
  else match abi.find? fun c => c.number = (reg .eax).toNat with
    | some c => some ⟨eaxOf (linux.reply w reg mem c).answer, (linux.reply w reg mem c).mem,
        (linux.reply w reg mem c).state⟩
    | none => some ⟨-enosys, mem, w⟩

end Linux

end I386Vm
