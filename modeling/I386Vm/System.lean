import I386Vm.Machine

/-!
# Flag, segment, port and interrupt handlers

What the program asks of the host is a parameter: the device file behind the port instructions and
the system calls behind `int 0x80`. A system call returns the new `eax` and may rewrite guest
memory; none of the functions in the table `syscalls` stores to another register variable.
-/

namespace I386Vm

open Bytes

structure Host where
  /-- `open("/dev/port", O_RDWR)` succeeds. -/
  openPort : Machine → Bool
  /-- `pread`: what it returns, and the buffer afterwards from the buffer before. -/
  pread : Machine → Width → BitVec 16 → BitVec 32 → BitVec 32 × BitVec 32
  pwrite : Machine → Width → BitVec 16 → BitVec 32 → BitVec 32
  /-- `syscalls[n]`: what it returns, and guest memory afterwards. -/
  syscalls : ℕ → Machine → BitVec 32 × (ℕ → BitVec 8)

/-- A host without ports whose system calls return 0. -/
def Host.silent : Host where
  openPort _ := false
  pread _ _ _ x := (-1, x)
  pwrite _ _ _ _ := -1
  syscalls _ s := (0, s.mem)

/-! ## Flags and the instructions that do nothing -/

def clcI : Handler := fun insn => do
  advance insn
  clearFlag .CF
  return some 0

def cldI : Handler := fun insn => do
  advance insn
  clearFlag .DF
  return some 0

def cliI : Handler := fun insn => do
  advance insn
  clearFlag .IF
  return some 0

def cmcI : Handler := fun insn => do
  advance insn
  complementFlag .CF
  return some 0

def stcI : Handler := fun insn => do
  advance insn
  setFlag .CF
  return some 0

def stdI : Handler := fun insn => do
  advance insn
  setFlag .DF
  return some 0

def stiI : Handler := fun insn => do
  advance insn
  setFlag .IF
  return some 0

/-- `eip += insn->size; return 0;`: `nop_i`, and the handlers the source marks `UNIMPLEMENTED`. -/
def nothing : Handler := fun insn => do
  advance insn
  return some 0

def nopI : Handler := nothing

def cltsI : Handler := nothing

def hltI : Handler := nothing

def iretI : Handler := nothing

def iretdI : Handler := nothing

def lockI : Handler := nothing

def ltrI : Handler := nothing

def waitI : Handler := nothing

/-! ## Segments and descriptor tables -/

def setGdtr (g : GDTR) : Exec Unit := modify fun s => { s with gdtr := g }

def setIdtr (g : GDTR) : Exec Unit := modify fun s => { s with idtr := g }

def setLdtr (x : BitVec 16) : Exec Unit := modify fun s => { s with ldtr := x }

def setCr0 (x : BitVec 32) : Exec Unit := modify fun s => { s with cr0 := x }

def loadGDTR (op : CsX86Op) : Exec GDTR := do
  let s ← get
  let limit ← load .word (.mem (s.effAddr op.mem).toNat)
  let base ← load .dword (.mem ((s.effAddr op.mem).toNat + 2))
  return ⟨limit.setWidth 16, base⟩

/-- The stored base loses its highest byte. -/
def storeGDTR (op : CsX86Op) (g : GDTR) : Exec Unit := do
  let s ← get
  store .word (.mem (s.effAddr op.mem).toNat) (g.limit.setWidth 32)
  store .dword (.mem ((s.effAddr op.mem).toNat + 2)) (g.base &&& 0xFFFFFF)

def lgdtI : Handler := fun insn => do
  advance insn
  let g ← loadGDTR insn.op1
  setGdtr g
  return some 0

def lidtI : Handler := fun insn => do
  advance insn
  let g ← loadGDTR insn.op1
  setIdtr g
  return some 0

def sgdtI : Handler := fun insn => do
  advance insn
  let s ← get
  storeGDTR insn.op1 s.gdtr
  return some 0

def sidtI : Handler := fun insn => do
  advance insn
  let s ← get
  storeGDTR insn.op1 s.idtr
  return some 0

def lldtI : Handler := fun insn => do
  advance insn
  let s ← get
  let val ← load .word (s.opPtr insn.op1)
  setLdtr (val.setWidth 16)
  return some 0

def sldtI : Handler := fun insn => do
  advance insn
  let s ← get
  store .word (s.opPtr insn.op1) (s.ldtr.setWidth 32)
  return some 0

def lmswI : Handler := fun insn => do
  advance insn
  let s ← get
  let val ← load .word (s.opPtr insn.op1)
  setCr0 (merge 16 s.cr0 val)
  return some 0

def smswI : Handler := fun insn => do
  advance insn
  let s ← get
  store .word (s.opPtr insn.op1) (s.cr0 &&& 0xFFFF)
  return some 0

/-- The access rights are taken from the operand itself, not from a descriptor. -/
def larI : Handler := fun insn => do
  advance insn
  let s ← get
  (if insn.op1.size = 2 then do
    let val ← load .word (s.opPtr insn.op2)
    store .word (regs insn.op1.reg) (val &&& 0xFF00)
  else do
    let val ← load .dword (s.opPtr insn.op2)
    store .dword (regs insn.op1.reg) (val &&& 0x00FFFF00))
  setFlag .ZF
  return some 0

def lslI : Handler := fun insn => do
  advance insn
  let s ← get
  let selector ← load .word (s.opPtr insn.op2)
  (if ((selector >>> 3) &&& 0x1FFF).toNat < gdtEntries then do
    setFlag .ZF
    (if insn.op1.size = 2 then
      store .word (regs insn.op1.reg) (s.getGdtLimit (selector.setWidth 16) &&& 0xFFFF)
    else store .dword (regs insn.op1.reg) (s.getGdtLimit (selector.setWidth 16)))
  else clearFlag .ZF)
  return some 0

/-- `verr_i` and `verw_i`, the first without a `return`. -/
def verify (ret : Ret) : Handler := fun insn => do
  advance insn
  let s ← get
  let selector ← load .word (s.opPtr insn.op1)
  (if 0 < selector >>> 3 ∧ (selector >>> 3).toNat < gdtEntries then clearFlag .ZF
  else setFlag .ZF)
  return ret

def verrI : Handler := verify none

def verwI : Handler := verify (some 0)

section Host

variable (host : Host)

/-! ## Ports -/

/-- `pread(fd, p, …, port)`; a null buffer fails. -/
def pread (w : Width) (p : Ptr) (port : BitVec 16) : Exec (BitVec 32) := do
  let s ← get
  if p = .null then return -1
  else do
    store w p (host.pread s w port (s.peek w p)).2
    return (host.pread s w port (s.peek w p)).1

/-- The port of `in_i` and `out_i`: an immediate, or 16 bits of a register. -/
def portOf (op : CsX86Op) : Exec (BitVec 16) := do
  if op.type = .imm then return op.imm.setWidth 16
  else do
    let dx ← load .word (regs op.reg)
    return dx.setWidth 16

def inI : Handler := fun insn => do
  advance insn
  let port ← portOf insn.op2
  let s ← get
  if host.openPort s then do
    let res ← pread host (widthOr32 insn.op1.size) (.var .eax) port
    return some (if res ≠ insn.op1.size.setWidth 32 then 1 else 0)
  else return some 1

/-- The buffer is the operand, not moved along afterwards. -/
def insI : Handler := fun insn => do
  advance insn
  let s ← get
  if host.openPort s then do
    let _ ← pread host (widthOr32 insn.op1.size) (s.opPtr insn.op1) ((s.reg .edx).setWidth 16)
    return some 0
  else return some 1

/-- `insb_i`, `insw_i`, `insd_i`: the buffer is the variable `edi` itself. -/
def insOf (w : Width) : Handler := fun insn => do
  advance insn
  let s ← get
  if host.openPort s then do
    let _ ← pread host w (.var .edi) ((s.reg .edx).setWidth 16)
    return some 0
  else return some 1

def insbI : Handler := insOf host .byte

def inswI : Handler := insOf host .word

def insdI : Handler := insOf host .dword

def outI : Handler := fun insn => do
  advance insn
  let port ← portOf insn.op1
  let s ← get
  if host.openPort s then
    return some (if host.pwrite s (widthOr32 insn.op2.size) port (s.reg .eax) ≠
      insn.op2.size.setWidth 32 then 1 else 0)
  else return some 1

/-- `outs_i` and `outsb_i` to `outsd_i` change no variable, whatever the host answers. -/
def outsOf : Handler := fun insn => do
  advance insn
  let s ← get
  if host.openPort s then return some 0 else return some 1

def outsI : Handler := outsOf host

def outsbI : Handler := outsOf host

def outswI : Handler := outsOf host

def outsdI : Handler := outsOf host

/-! ## Interrupts -/

def setMem (m : ℕ → BitVec 8) : Exec Unit := modify fun s => { s with mem := m }

/-- `unimplemented`, the handler of every interrupt but `0x80`. -/
def unimplemented : Exec (BitVec 32) := return 0

def nsyscalls : ℕ := 452

/-- `*eax = syscalls[*eax](…)` -/
def int80 : Exec (BitVec 32) := do
  let s ← get
  if (s.reg .eax).toNat < nsyscalls then do
    setMem (host.syscalls (s.reg .eax).toNat s).2
    setReg .eax (host.syscalls (s.reg .eax).toNat s).1
    return (host.syscalls (s.reg .eax).toNat s).1
  else throw .table

def idt : List (Exec (BitVec 32)) :=
  List.replicate 128 unimplemented ++ int80 host :: List.replicate 143 unimplemented

def intDispatcher (v : BitVec 8) : Exec (BitVec 32) := (idt host).getD v.toNat (throw .table)

def intI : Handler := fun insn => do
  advance insn
  if insn.op1.imm.setWidth 8 = 0 then return some (-1)
  else do
    let res ← intDispatcher host (insn.op1.imm.setWidth 8)
    return some res

/-- `OF` is not tested. -/
def intoI : Handler := fun insn => do
  advance insn
  let res ← intDispatcher host 0x4
  return some res

end Host

end I386Vm
