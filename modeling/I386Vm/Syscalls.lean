import I386Vm.Kernel

/-!
# The system calls

The functions of `syscall.c` that the table `syscalls` of `trad_syscall.c` names, and the table.
Most of them pass the registers on, those that are guest addresses as addresses in `mem`; the ones
with something else to do come first. A vector that a handler builds is taken to be allocated;
`do_poll` alone looks at what `malloc` returns.
-/

namespace I386Vm

open Bytes

/-! ## Handlers that build their arguments -/

/-- `ENOMEM` and `ENOTTY` -/
def enomem : BitVec 32 := 12

def enotty : BitVec 32 := 25

/-- `iovec[i]` -/
def iovec (m : ℕ → BitVec 8) (a i : ℕ) : Iovec32 where
  iovBase := readLE m (a + 8 * i) 4
  iovLen := readLE m (a + 8 * i + 4) 4

def Kernel.iovec64 (k : Kernel) (iv : Iovec32) : Iovec64 where
  iovBase := k.addr iv.iovBase
  iovLen := iv.iovLen.setWidth 64

/-- `count` is an `int`: of a negative one `calloc` makes `NULL`. -/
def doWritev : Syscall32bits := fun k s =>
  .call ⟨.sysWritev, [.int s.arg1,
    if s.arg3.slt 0 then .ptr 0
    else .iovecs ((List.range s.arg3.toNat).map fun i => k.iovec64 (iovec s.mem s.arg2.toNat i)),
    .int s.arg3]⟩ 0 Reply.mem

def pollfd (m : ℕ → BitVec 8) (a i : ℕ) : Pollfd where
  fd := readLE m (a + 8 * i) 4
  events := readLE m (a + 8 * i + 4) 2

/-- `fds32[i].revents = fds64[i].revents` for the first `n`. -/
def putRevents (revents : ℕ → BitVec 16) (a : ℕ) (m : ℕ → BitVec 8) : ℕ → ℕ → BitVec 8
  | 0 => m
  | n + 1 => writeLE (putRevents revents a m n) (a + 8 * n + 6) 2 (revents n)

def doPoll : Syscall32bits := fun k s =>
  if k.mallocs (8 * s.arg2.toNat) then
    .call ⟨.sysPoll, [.pollfds ((List.range s.arg2.toNat).map (pollfd s.mem s.arg1.toNat)),
      .wide s.arg2, .int s.arg3]⟩ 0
      fun r => if (r.answer.ret.setWidth 32 : BitVec 32).slt 0 then r.mem
        else putRevents r.revents s.arg1.toNat r.mem s.arg2.toNat
  else .done (-enomem) s.mem

/-- The words before the first zero, of at most `fuel`. -/
def bufferSizeFrom (m : ℕ → BitVec 8) (a : ℕ) : ℕ → ℕ → Option ℕ
  | 0, _ => none
  | fuel + 1, count =>
    if (readLE m (a + 4 * count) 4 : BitVec 32) = 0 then some count
    else bufferSizeFrom m a fuel (count + 1)

/-- `buffer_size`, among the words that guest memory has room for. -/
def bufferSize (m : ℕ → BitVec 8) (a : ℕ) : Option ℕ := bufferSizeFrom m a (2 ^ 30) 0

/-- `translate_buffer_dirs_32_to_64`, and the `NULL` that `calloc` left after it. -/
def Kernel.translateBuffer (k : Kernel) (m : ℕ → BitVec 8) (a size : ℕ) : List (BitVec 64) :=
  (List.range size).map (fun i => k.addr (readLE m (a + 4 * i) 4)) ++ [0]

def doExecve : Syscall32bits := fun k s =>
  match bufferSize s.mem s.arg2.toNat, bufferSize s.mem s.arg3.toNat with
  | some ar32, some en32 =>
    .call ⟨.sysExecve, [k.ptr s.arg1, .strings (k.translateBuffer s.mem s.arg2.toNat ar32),
      .strings (k.translateBuffer s.mem s.arg3.toNat en32)]⟩ 0 Reply.mem
  | _, _ => .undefined

/-- The host's structure from the `sigaction32` at `a`. -/
def Kernel.sigaction (k : Kernel) (m : ℕ → BitVec 8) (a : ℕ) : Sigaction where
  saHandler :=
    if (readLE m a 4 : BitVec 32) = 0 ∨ (readLE m a 4 : BitVec 32) = 1 then
      (readLE m a 4 : BitVec 32).setWidth 64
    else k.addr (readLE m a 4)
  saMask := (readLE m (a + 16) 8, readLE m (a + 24) 8)
  saFlags := readLE m (a + 4) 4
  saRestorer :=
    if (readLE m (a + 8) 4 : BitVec 32) ≠ 0 then k.addr (readLE m (a + 8) 4) else 0

/-- The old action is not asked for. -/
def doRtSigaction : Syscall32bits := pass .sigaction fun k s =>
  [.int s.arg1, .act (k.sigaction s.mem s.arg2.toNat), .ptr 0]

section Ioctl

variable (op : BitVec 32)

def takesTermios : Bool := (0x5401 ≤ op && op ≤ 0x5404) || op = 0x5456 || op = 0x5457

def takesInt : Bool := (0x5409 ≤ op && op ≤ 0x540B) || op = 0x540E || op = 0x5425

def takesNothing : Bool :=
  op = 0x540C || op = 0x540D || op = 0x541D || op = 0x5422 || op = 0x5450 || op = 0x5451

/-- `int *`, `pid_t *` and `struct winsize *` -/
def takesPointer : Bool :=
  op = 0x5411 || (0x5415 ≤ op && op ≤ 0x541B) || op = 0x5420 || op = 0x5421
    || (0x5423 ≤ op && op ≤ 0x5425) || op = 0x5452 || op = 0x5454 || op = 0x5455 || op = 0x5459
    || op = 0x540F || op = 0x5410 || op = 0x5413 || op = 0x5414

end Ioctl

/-- `res` is not set when no test holds. -/
def doIoctl : Syscall32bits := fun k s =>
  if s.arg2 < 0x5401 ∨ 0x545B < s.arg2 then .done (-enotty) s.mem
  else if takesTermios s.arg2 then
    .call ⟨.sysIoctl, [.int s.arg1, .int s.arg2, k.ptr s.arg3]⟩ 0 Reply.mem
  else if takesInt s.arg2 then
    .call ⟨.sysIoctl, [.int s.arg1, .int s.arg2, .int s.arg3]⟩ 0 Reply.mem
  else if takesNothing s.arg2 then
    .call ⟨.sysIoctl, [.int s.arg1, .int s.arg2]⟩ 0 Reply.mem
  else if takesPointer s.arg2 then
    .call ⟨.sysIoctl, [.int s.arg1, .int s.arg2, k.ptr s.arg3]⟩ 0 Reply.mem
  else .undefined

/-! ## Handlers that ask the kernel for nothing -/

/-- The value that the loops leave at. -/
def deadbeef : BitVec 32 := 0xdeadbeef

def doExit : Syscall32bits := fun _ s => .done deadbeef s.mem

def doBreak : Syscall32bits := fun _ s => .done 0 s.mem

def unimpl : Syscall32bits := fun _ s => .done 0 s.mem

def setThreadArea : Syscall32bits := fun _ s =>
  match (doSetThreadArea s.arg1).run s with
  | .ok (x, t) => .done x t.mem
  | .error _ => .undefined

/-! ## Files -/

def doRead : Syscall32bits := pass .sysRead fun k s => [.int s.arg1, k.ptr s.arg2, .wide s.arg3]

def doWrite : Syscall32bits := pass .sysWrite fun k s => [.int s.arg1, k.ptr s.arg2, .wide s.arg3]

/-- `O_CREAT`, where the mode is passed too. -/
def oCreat : BitVec 32 := 0x40

def doOpen : Syscall32bits := pass .sysOpen fun k s =>
  if s.arg2 &&& oCreat ≠ 0 then [k.ptr s.arg1, .int s.arg2, .int s.arg3]
  else [k.ptr s.arg1, .int s.arg2]

def doClose : Syscall32bits := pass .sysClose fun _ s => [.int s.arg1]

def doCreat : Syscall32bits := pass .sysCreat fun k s => [k.ptr s.arg1, .int s.arg2]

def doLink : Syscall32bits := pass .sysLink fun k s => [k.ptr s.arg1, k.ptr s.arg2]

def doUnlink : Syscall32bits := pass .sysUnlink fun k s => [k.ptr s.arg1]

def doSymlink : Syscall32bits := pass .sysSymlink fun k s => [k.ptr s.arg1, k.ptr s.arg2]

def doReadlink : Syscall32bits := pass .sysReadlink fun k s =>
  [k.ptr s.arg1, k.ptr s.arg2, .wide s.arg3]

def doRename : Syscall32bits := pass .sysRename fun k s => [k.ptr s.arg1, k.ptr s.arg2]

def doMkdir : Syscall32bits := pass .sysMkdir fun k s => [k.ptr s.arg1, .int s.arg2]

def doRmdir : Syscall32bits := pass .sysRmdir fun k s => [k.ptr s.arg1]

def doChdir : Syscall32bits := pass .sysChdir fun k s => [k.ptr s.arg1]

def doFchdir : Syscall32bits := pass .sysFchdir fun _ s => [.int s.arg1]

def doChroot : Syscall32bits := pass .sysChroot fun k s => [k.ptr s.arg1]

def doGetcwd : Syscall32bits := passAddress .sysGetcwd fun k s => [k.ptr s.arg1, .wide s.arg2]

def doMknod : Syscall32bits := pass .sysMknod fun k s => [k.ptr s.arg1, .int s.arg2, .wide s.arg3]

def doChmod : Syscall32bits := pass .sysChmod fun k s => [k.ptr s.arg1, .int s.arg2]

def doFchmod : Syscall32bits := pass .sysFchmod fun _ s => [.int s.arg1, .int s.arg2]

def doChown : Syscall32bits := pass .sysChown fun k s => [k.ptr s.arg1, .int s.arg2, .int s.arg3]

/-- `SYS_chown`, as is that of `do_fchown`. -/
def doLchown : Syscall32bits := pass .sysChown fun k s =>
  [k.ptr s.arg1, .int s.arg2, .int s.arg3]

def doFchown : Syscall32bits := pass .sysChown fun _ s => [.int s.arg1, .int s.arg2, .int s.arg3]

def doAccess : Syscall32bits := pass .sysAccess fun k s => [k.ptr s.arg1, .int s.arg2]

def doTruncate : Syscall32bits := pass .sysTruncate fun k s => [k.ptr s.arg1, .wide s.arg2]

def doFtruncate : Syscall32bits := pass .sysFtruncate fun _ s => [.int s.arg1, .wide s.arg2]

def doFsync : Syscall32bits := pass .sysFsync fun _ s => [.int s.arg1]

def doFdatasync : Syscall32bits := pass .sysFdatasync fun _ s => [.int s.arg1]

def doSync : Syscall32bits := pass .sysSync fun _ _ => []

def doUmask : Syscall32bits := pass .sysUmask fun _ s => [.int s.arg1]

def doDup : Syscall32bits := pass .sysDup fun _ s => [.int s.arg1]

def doDup2 : Syscall32bits := pass .sysDup2 fun _ s => [.int s.arg1, .int s.arg2]

def doPipe : Syscall32bits := pass .sysPipe fun k s => [k.ptr s.arg1]

def doSendfile : Syscall32bits := pass .sysSendfile fun k s =>
  [.int s.arg1, .int s.arg2, k.nullable s.arg3, .wide s.arg4]

/-- The structure is the handler's own, and nothing is copied to guest memory. -/
def doStat : Syscall32bits := pass .sysStat fun k s => [k.ptr s.arg1, .statbuf]

def doLstat : Syscall32bits := pass .sysLstat fun k s => [k.ptr s.arg1, .statbuf]

def doFstat : Syscall32bits := pass .sysFstat fun _ s => [.int s.arg1, .statbuf]

/-! ## Memory -/

def doMmap : Syscall32bits := passAddress .sysMmap fun k s =>
  [k.ptr s.arg1, .wide s.arg2, .int s.arg3, .int s.arg4, .int s.arg5, .wide s.arg6]

def doMunmap : Syscall32bits := pass .sysMunmap fun k s => [k.ptr s.arg1, .wide s.arg2]

def doMprotect : Syscall32bits := pass .sysMprotect fun k s =>
  [k.ptr s.arg1, .wide s.arg2, .int s.arg3]

def doBrk : Syscall32bits := pass .sysBrk fun k s => [k.ptr s.arg1]

/-- The number is that of `sched_yield`. -/
def doMremap : Syscall32bits := passAddress .sysSchedYield fun k s =>
  [k.ptr s.arg1, .wide s.arg2, .wide s.arg3, .int s.arg4, k.ptr s.arg5]

def doMsync : Syscall32bits := pass .sysMsync fun k s => [k.ptr s.arg1, .wide s.arg2, .int s.arg3]

def doMlock : Syscall32bits := pass .sysMlock fun k s => [k.ptr s.arg1, .wide s.arg2]

def doMunlock : Syscall32bits := pass .sysMunlock fun k s => [k.ptr s.arg1, .wide s.arg2]

def doMlockall : Syscall32bits := pass .sysMlockall fun _ s => [.int s.arg1]

def doMunlockall : Syscall32bits := pass .sysMunlockall fun _ _ => []

/-! ## Processes and users -/

def doFork : Syscall32bits := pass .sysFork fun _ _ => []

def doVfork : Syscall32bits := pass .sysVfork fun _ _ => []

def doKill : Syscall32bits := pass .sysKill fun _ s => [.int s.arg1, .int s.arg2]

def doPause : Syscall32bits := pass .sysPause fun _ _ => []

def doAlarm : Syscall32bits := pass .sysAlarm fun _ s => [.int s.arg1]

def doGetpid : Syscall32bits := pass .sysGetpid fun _ _ => []

def doGetppid : Syscall32bits := pass .sysGetppid fun _ _ => []

def doGetpgrp : Syscall32bits := pass .sysGetpgrp fun _ _ => []

def doGetpgid : Syscall32bits := pass .sysGetpgid fun _ s => [.int s.arg1]

def doSetpgid : Syscall32bits := pass .sysSetpgid fun _ s => [.int s.arg1, .int s.arg2]

def doGetsid : Syscall32bits := pass .sysGetsid fun _ s => [.int s.arg1]

def doSetsid : Syscall32bits := pass .sysSetsid fun _ _ => []

def doGetuid : Syscall32bits := pass .sysGetuid fun _ _ => []

def doGeteuid : Syscall32bits := pass .sysGeteuid fun _ _ => []

def doGetgid : Syscall32bits := pass .sysGetgid fun _ _ => []

def doGetegid : Syscall32bits := pass .sysGetegid fun _ _ => []

def doSetuid : Syscall32bits := pass .sysSetuid fun _ s => [.int s.arg1]

def doSetgid : Syscall32bits := pass .sysSetgid fun _ s => [.int s.arg1]

def doSetreuid : Syscall32bits := pass .sysSetreuid fun _ s => [.int s.arg1, .int s.arg2]

def doSetregid : Syscall32bits := pass .sysSetregid fun _ s => [.int s.arg1, .int s.arg2]

def doSetresuid : Syscall32bits := pass .sysSetresuid fun _ s =>
  [.int s.arg1, .int s.arg2, .int s.arg3]

def doSetresgid : Syscall32bits := pass .sysSetresgid fun _ s =>
  [.int s.arg1, .int s.arg2, .int s.arg3]

def doGetresuid : Syscall32bits := pass .sysGetresuid fun k s =>
  [k.ptr s.arg1, k.ptr s.arg2, k.ptr s.arg3]

def doGetresgid : Syscall32bits := pass .sysGetresgid fun k s =>
  [k.ptr s.arg1, k.ptr s.arg2, k.ptr s.arg3]

def doSetfsuid : Syscall32bits := pass .sysSetfsuid fun _ s => [.int s.arg1]

def doSetfsgid : Syscall32bits := pass .sysSetfsgid fun _ s => [.int s.arg1]

def doGetgroups : Syscall32bits := pass .sysGetgroups fun k s => [.int s.arg1, k.ptr s.arg2]

def doSetgroups : Syscall32bits := pass .sysSetgroups fun k s => [.wide s.arg1, k.ptr s.arg2]

def doGetpriority : Syscall32bits := pass .sysGetpriority fun _ s => [.int s.arg1, .int s.arg2]

def doSetpriority : Syscall32bits := pass .sysSetpriority fun _ s =>
  [.int s.arg1, .int s.arg2, .int s.arg3]

def doSchedYield : Syscall32bits := pass .sysSchedYield fun _ _ => []

def doSchedGetPriorityMax : Syscall32bits := pass .sysSchedGetPriorityMax fun _ s => [.int s.arg1]

def doSchedGetPriorityMin : Syscall32bits := pass .sysSchedGetPriorityMin fun _ s => [.int s.arg1]

def doPtrace : Syscall32bits := pass .sysPtrace fun k s =>
  [.int s.arg1, .int s.arg2, k.ptr s.arg3, k.ptr s.arg4]

def doPersonality : Syscall32bits := pass .sysPersonality fun _ s => [.wide s.arg1]

def doSetTidAddress : Syscall32bits := pass .sysSetTidAddress fun k s => [k.ptr s.arg1]

def doRestartSyscall : Syscall32bits := pass .sysRestartSyscall fun _ _ => []

/-! ## The system -/

/-- The address is passed as the guest gave it. -/
def doTime : Syscall32bits := pass .sysTime fun _ s =>
  if s.arg1 ≠ 0 then [.wide s.arg1] else [.ptr 0]

def doMount : Syscall32bits := pass .sysMount fun k s =>
  [k.ptr s.arg1, k.ptr s.arg2, k.ptr s.arg3, .wide s.arg4, k.nullable s.arg5]

def doUmount2 : Syscall32bits := pass .sysUmount2 fun k s => [k.ptr s.arg1, .int s.arg2]

def doAcct : Syscall32bits := pass .sysAcct fun k s => [k.nullable s.arg1]

def doSwapon : Syscall32bits := pass .sysSwapon fun k s => [k.ptr s.arg1, .int s.arg2]

def doSwapoff : Syscall32bits := pass .sysSwapoff fun k s => [k.ptr s.arg1]

def doUselib : Syscall32bits := pass .sysUselib fun k s => [k.ptr s.arg1]

def doReboot : Syscall32bits := pass .sysReboot fun _ s => [.int s.arg1]

def doSethostname : Syscall32bits := pass .sysSethostname fun k s => [k.ptr s.arg1, .wide s.arg2]

def doSetdomainname : Syscall32bits := pass .sysSetdomainname fun k s =>
  [k.ptr s.arg1, .wide s.arg2]

def doSyslog : Syscall32bits := pass .sysSyslog fun k s =>
  [.int s.arg1, k.ptr s.arg2, .int s.arg3]

def doVhangup : Syscall32bits := pass .sysVhangup fun _ _ => []

def doIopl : Syscall32bits := pass .sysIopl fun _ s => [.int s.arg1]

def doIoperm : Syscall32bits := pass .sysIoperm fun _ s =>
  [.wide s.arg1, .wide s.arg2, .int s.arg3]

def doModifyLdt : Syscall32bits := pass .sysModifyLdt fun k s =>
  [.int s.arg1, k.ptr s.arg2, .wide s.arg3]

def doSysfs : Syscall32bits := pass .sysSysfs fun k s =>
  if s.arg1 = 1 then [.int s.arg1, k.ptr s.arg2]
  else if s.arg1 = 2 then [.int s.arg1, .int s.arg2, k.ptr s.arg3]
  else [.int s.arg1]

/-! ## Handlers without a body -/

def doReadv : Syscall32bits := noBody

def doSelect : Syscall32bits := noBody

def doNanosleep : Syscall32bits := noBody

def doGetitimer : Syscall32bits := noBody

def doSetitimer : Syscall32bits := noBody

def doClone : Syscall32bits := noBody

def doWait4 : Syscall32bits := noBody

def doUname : Syscall32bits := noBody

def doGettimeofday : Syscall32bits := noBody

def doSettimeofday : Syscall32bits := noBody

def doGetrlimit : Syscall32bits := noBody

def doSetrlimit : Syscall32bits := noBody

def doGetrusage : Syscall32bits := noBody

def doSysinfo : Syscall32bits := noBody

def doTimes : Syscall32bits := noBody

def doCapget : Syscall32bits := noBody

def doCapset : Syscall32bits := noBody

def doRtSigpending : Syscall32bits := noBody

def doRtSigtimedwait : Syscall32bits := noBody

def doRtSigqueueinfo : Syscall32bits := noBody

def doRtSigsuspend : Syscall32bits := noBody

def doRtSigprocmask : Syscall32bits := noBody

def doRtSigreturn : Syscall32bits := noBody

def doSigaltstack : Syscall32bits := noBody

def doUtime : Syscall32bits := noBody

def doUstat : Syscall32bits := noBody

def doStatfs : Syscall32bits := noBody

def doFstatfs : Syscall32bits := noBody

def doSchedSetparam : Syscall32bits := noBody

def doSchedGetparam : Syscall32bits := noBody

def doSchedSetscheduler : Syscall32bits := noBody

def doSchedGetscheduler : Syscall32bits := noBody

def doSchedRrGetInterval : Syscall32bits := noBody

def doSysctl : Syscall32bits := noBody

def doPrctl : Syscall32bits := noBody

def doAdjtimex : Syscall32bits := noBody

def doCreateModule : Syscall32bits := noBody

def doInitModule : Syscall32bits := noBody

def doDeleteModule : Syscall32bits := noBody

def doGetKernelSyms : Syscall32bits := noBody

def doQueryModule : Syscall32bits := noBody

def doQuotactl : Syscall32bits := noBody

def doNfsservctl : Syscall32bits := noBody

def doGetpmsg : Syscall32bits := noBody

def doPutpmsg : Syscall32bits := noBody

def doAfsSyscall : Syscall32bits := noBody

/-! ## The table -/

/-- The entries up to 190, `do_vfork`. -/
def syscallsOld : List Syscall32bits :=
  [doRestartSyscall, doExit, doFork, doRead, doWrite, doOpen, doClose, unimpl, doCreat, doLink,
   doUnlink, doExecve, doChdir, doTime, doMknod, doChmod, doLchown, doBreak, unimpl, unimpl,
   doGetpid, doMount, unimpl, doSetuid, doGetuid, unimpl, doPtrace, doAlarm, unimpl, doPause,
   doUtime, unimpl, unimpl, doAccess, unimpl, unimpl, doSync, doKill, doRename, doMkdir,
   doRmdir, doDup, doPipe, doTimes, unimpl, doBrk, doSetgid, doGetgid, unimpl, doGeteuid,
   doGetegid, doAcct, doUmount2, unimpl, doIoctl, unimpl, unimpl, doSetpgid, unimpl, unimpl,
   doUmask, doChroot, doUstat, doDup2, doGetppid, doGetpgrp, doSetsid, doRtSigaction, unimpl,
   unimpl, doSetreuid, doSetregid, doRtSigsuspend, doRtSigpending, doSethostname, doSetrlimit,
   doGetrlimit, doGetrusage, doGettimeofday, doSettimeofday, doGetgroups, doSetgroups, doSelect,
   doSymlink, unimpl, doReadlink, doUselib, doSwapon, doReboot, unimpl, doMmap, doMunmap,
   doTruncate, doFtruncate, doFchmod, doFchown, doGetpriority, doSetpriority, unimpl, doStatfs,
   doFstatfs, doIoperm, unimpl, doSyslog, doSetitimer, doGetitimer, doStat, doLstat, doFstat,
   unimpl, doIopl, doVhangup, unimpl, unimpl, doWait4, doSwapoff, doSysinfo, unimpl, doFsync,
   doRtSigreturn, doClone, doSetdomainname, doUname, doModifyLdt, doAdjtimex, doMprotect,
   doRtSigprocmask, doCreateModule, doInitModule, doDeleteModule, doGetKernelSyms, doQuotactl,
   doGetpgid, doFchdir, unimpl, doSysfs, doPersonality, doAfsSyscall, doSetfsuid, doSetfsgid,
   unimpl, unimpl, unimpl, unimpl, doMsync, doReadv, doWritev, doGetsid, doFdatasync, doSysctl,
   doMlock, doMunlock, doMlockall, doMunlockall, doSchedSetparam, doSchedGetparam,
   doSchedSetscheduler, doSchedGetscheduler, doSchedYield, doSchedGetPriorityMax,
   doSchedGetPriorityMin, doSchedRrGetInterval, doNanosleep, doMremap, doSetresuid, doGetresuid,
   unimpl, doQueryModule, doPoll, doNfsservctl, doSetresgid, doGetresgid, doPrctl,
   doRtSigreturn, doRtSigaction, doRtSigprocmask, doRtSigpending, doRtSigtimedwait,
   doRtSigqueueinfo, doRtSigsuspend, unimpl, unimpl, doChown, doGetcwd, doCapget, doCapset,
   doSigaltstack, doSendfile, doGetpmsg, doPutpmsg, doVfork]

def syscalls : List Syscall32bits :=
  syscallsOld ++ List.replicate 52 unimpl ++ setThreadArea :: List.replicate 14 unimpl
    ++ doSetTidAddress :: List.replicate 193 unimpl

set_option maxRecDepth 2000 in
theorem length_syscallsOld : syscallsOld.length = 191 := rfl

theorem length_syscalls : syscalls.length = nsyscalls := by
  unfold syscalls nsyscalls
  simp only [List.length_append, List.length_cons, List.length_replicate, length_syscallsOld]

namespace Kernel

variable (k : Kernel)

/-- `syscalls[n](…)` -/
def action (n : ℕ) (s : Machine) : Action := (syscalls.getD n unimpl) k s

/-- The host of the handlers, with the system calls that this kernel gives. -/
def host (ports : Host) : Host :=
  { ports with syscalls := fun n s => (k.action n s).run k s }

end Kernel

end I386Vm
