import I386Vm.ThreadArea

/-!
# The host kernel

A system call of the guest is done by the function that the table `syscalls` has for it: it makes
host arguments of the registers `ebx` to `ebp` and calls the host's `syscall()`. The kernel is a
parameter, any function of the call and of the machine. Host addresses are 64-bit numbers; guest
memory is the `UINT32_MAX` bytes from `mem` on.
-/

namespace I386Vm

open Bytes

/-- The `SYS_` numbers that the functions in the table pass to `syscall()`, and the library's
`sigaction`. -/
inductive Sys
  | sysAccess | sysAcct | sysAlarm | sysBrk | sysChdir | sysChmod | sysChown | sysChroot | sysClose
  | sysCreat | sysDup | sysDup2 | sysExecve | sysFchdir | sysFchmod | sysFdatasync | sysFork
  | sysFstat | sysFsync | sysFtruncate | sysGetcwd | sysGetegid | sysGeteuid | sysGetgid
  | sysGetgroups | sysGetpgid | sysGetpgrp | sysGetpid | sysGetppid | sysGetpriority
  | sysGetresgid | sysGetresuid | sysGetsid | sysGetuid | sysIoctl | sysIoperm | sysIopl | sysKill
  | sysLink | sysLstat | sysMkdir | sysMknod | sysMlock | sysMlockall | sysMmap | sysModifyLdt
  | sysMount | sysMprotect | sysMsync | sysMunlock | sysMunlockall | sysMunmap | sysOpen | sysPause
  | sysPersonality | sysPipe | sysPoll | sysPtrace | sysRead | sysReadlink | sysReboot | sysRename
  | sysRestartSyscall | sysRmdir | sysSchedGetPriorityMax | sysSchedGetPriorityMin
  | sysSchedYield | sysSendfile | sysSetTidAddress | sysSetdomainname | sysSetfsgid | sysSetfsuid
  | sysSetgid | sysSetgroups | sysSethostname | sysSetpgid | sysSetpriority | sysSetregid
  | sysSetresgid | sysSetresuid | sysSetreuid | sysSetsid | sysSetuid | sysStat | sysSwapoff
  | sysSwapon | sysSymlink | sysSync | sysSysfs | sysSyslog | sysTime | sysTruncate | sysUmask
  | sysUmount2 | sysUnlink | sysUselib | sysVfork | sysVhangup | sysWrite | sysWritev
  | sigaction

structure Iovec32 where
  iovBase : BitVec 32
  iovLen : BitVec 32

structure Iovec64 where
  iovBase : BitVec 64
  iovLen : BitVec 64

/-- `revents` is not set before the call. -/
structure Pollfd where
  fd : BitVec 32
  events : BitVec 16

/-- The host's structure; of `sa_mask` the two words that are copied, the others are zero. -/
structure Sigaction where
  saHandler : BitVec 64
  saMask : BitVec 64 × BitVec 64
  saFlags : BitVec 32
  saRestorer : BitVec 64

/-- An argument: 32 or 64 bits of number, a host address, or the address of something that the
handler has on its own stack or heap. -/
inductive Arg
  | int (x : BitVec 32)
  | long (x : BitVec 64)
  | ptr (p : BitVec 64)
  /-- `&statbuf64` -/
  | statbuf
  | iovecs (l : List Iovec64)
  | pollfds (l : List Pollfd)
  /-- `argv` or `envp`, with the `NULL` at its end. -/
  | strings (l : List (BitVec 64))
  | act (a : Sigaction)

structure HostCall where
  nr : Sys
  args : List Arg

/-- `syscall()` returns -1 and sets `errno` when the kernel fails. -/
inductive Answer
  | ok (v : BitVec 64)
  | fail (errno : ℕ)

def Answer.ret : Answer → BitVec 64
  | .ok v => v
  | .fail _ => -1

/-- The answer, and what the kernel leaves in guest memory and in the `pollfd`s of the call. -/
structure Reply where
  answer : Answer
  mem : ℕ → BitVec 8
  revents : ℕ → BitVec 16

structure Kernel where
  /-- `mem`, which `calloc` returned for `UINT32_MAX` bytes. -/
  mem : BitVec 64
  fits : mem.toNat + memSize < 2 ^ 64
  /-- `malloc` of so many bytes succeeds. -/
  mallocs : ℕ → Bool
  syscall : HostCall → Machine → Reply
  /-- What a caller finds where C gives no value. -/
  garbage : Machine → BitVec 32

/-- A handler returns at once, or returns nothing that C defines, or returns what `syscall()`
returns, less a base, cut to 32 bits. -/
inductive Action
  | done (x : BitVec 32) (mem : ℕ → BitVec 8)
  | undefined
  | call (c : HostCall) (base : BitVec 64) (back : Reply → ℕ → BitVec 8)

abbrev Syscall32bits := Kernel → Machine → Action

/-- The value for `eax` and guest memory afterwards. -/
def Action.run (k : Kernel) (s : Machine) : Action → BitVec 32 × (ℕ → BitVec 8)
  | .done x mem => (x, mem)
  | .undefined => (k.garbage s, s.mem)
  | .call c base back =>
    (((k.syscall c s).answer.ret - base).setWidth 32, back (k.syscall c s))

/-- A function that ends with `return (uint32_t)syscall(…)`. -/
def pass (nr : Sys) (args : Kernel → Machine → List Arg) : Syscall32bits := fun k s =>
  .call ⟨nr, args k s⟩ 0 Reply.mem

/-- A function that ends with `return (uint32_t)(syscall(…) - mem)`. -/
def passAddress (nr : Sys) (args : Kernel → Machine → List Arg) : Syscall32bits := fun k s =>
  .call ⟨nr, args k s⟩ k.mem Reply.mem

/-- A function whose body is empty: it has no `return`. -/
def noBody : Syscall32bits := fun _ _ => .undefined

namespace Machine

variable (s : Machine)

def arg1 : BitVec 32 := s.reg .ebx

def arg2 : BitVec 32 := s.reg .ecx

def arg3 : BitVec 32 := s.reg .edx

def arg4 : BitVec 32 := s.reg .esi

def arg5 : BitVec 32 := s.reg .edi

def arg6 : BitVec 32 := s.reg .ebp

end Machine

/-- A register as a `size_t`, an `off_t` or another 64-bit number. -/
def Arg.wide (x : BitVec 32) : Arg := .long (x.setWidth 64)

namespace Kernel

variable (k : Kernel)

/-- `mem + x` -/
def addr (x : BitVec 32) : BitVec 64 := k.mem + x.setWidth 64

def ptr (x : BitVec 32) : Arg := .ptr (k.addr x)

/-- `x ? mem + x : NULL` -/
def nullable (x : BitVec 32) : Arg := if x ≠ 0 then k.ptr x else .ptr 0

end Kernel

end I386Vm
