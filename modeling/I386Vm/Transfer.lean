import I386Vm.Machine

/-!
# Data transfer

Moves, the stack, address computation, conversions, far pointers and the conditional set family.
`push`, `pop` and their relatives go through `write16` to `read32`, whose byte index wraps; the
moves follow a pointer into `mem`.
-/

namespace I386Vm

open Bytes

/-! ## Moves -/

/-- A memory destination takes 32 bits. -/
def movI : Handler := fun insn => do
  advance insn
  let val ← srcWide insn.op2
  let s ← get
  (if insn.op1.type = .reg then
    store (widthOfBase (regsSize insn.op1.reg)) (regs insn.op1.reg)
      (cut (widthOfBase (regsSize insn.op1.reg)) val)
  else if insn.op1.type = .mem then store .dword (.mem (s.effAddr insn.op1.mem).toNat) val
  else return ())
  return some 0

def movsxI : Handler := fun insn => do
  advance insn
  let val ← srcWide insn.op2
  if insn.op1.type ≠ .reg then return some (-1)
  else do
    (if insn.op1.size = 4 then
      if insn.op2.size = 2 then
        store .dword (regs insn.op1.reg) (signExtend16_32 (val.setWidth 16))
      else if insn.op2.size = 1 then
        store .dword (regs insn.op1.reg) (signExtend8_32 (val.setWidth 8))
      else return ()
    else store .word (regs insn.op1.reg) ((signExtend8_16 (val.setWidth 8)).setWidth 32))
    return some 0

def movzxI : Handler := fun insn => do
  advance insn
  let val ← srcWide insn.op2
  if insn.op1.type ≠ .reg then return some (-1)
  else do
    (if insn.op1.size = 4 then
      if insn.op2.size = 2 then
        store .dword (regs insn.op1.reg) (zeroExtend16_32 (val.setWidth 16))
      else store .dword (regs insn.op1.reg) (zeroExtend8_32 (val.setWidth 8))
    else store .word (regs insn.op1.reg) ((zeroExtend8_16 (val.setWidth 8)).setWidth 32))
    return some 0

def xchgI : Handler := fun insn => do
  advance insn
  let s ← get
  let temp ← load (widthOr32 insn.op1.size) (s.opPtr insn.op2)
  let val ← load (widthOr32 insn.op1.size) (s.opPtr insn.op1)
  store (widthOr32 insn.op1.size) (s.opPtr insn.op2) val
  store (widthOr32 insn.op1.size) (s.opPtr insn.op1) temp
  return some 0

def xlatI : Handler := fun insn => do
  advance insn
  let s ← get
  let val ← load .byte (.mem (s.reg .ebx + low 8 (s.reg .eax)).toNat)
  store .byte (.var .eax) val
  return some 0

/-! ## The stack -/

namespace Machine

variable (s : Machine)

/-- `esp -= 2; write16(esp, x)` -/
def push16 (x : BitVec 32) : Machine :=
  (s.setReg .esp (s.reg .esp - 2)).write16 (s.reg .esp - 2) (x.setWidth 16)

/-- `esp -= 4; write32(esp, x)` -/
def push32 (x : BitVec 32) : Machine :=
  (s.setReg .esp (s.reg .esp - 4)).write32 (s.reg .esp - 4) x

end Machine

def push16 (x : BitVec 32) : Exec Unit := modify (·.push16 x)

def push32 (x : BitVec 32) : Exec Unit := modify (·.push32 x)

def write32 (addr value : BitVec 32) : Exec Unit := modify (·.write32 addr value)

def addEsp (n : BitVec 32) : Exec Unit := modify fun s => s.setReg .esp (s.reg .esp + n)

def pushI : Handler := fun insn => do
  advance insn
  let val ← srcWide insn.op1
  (if insn.op1.size = 2 then push16 val else push32 val)
  return some 0

/-- A memory destination takes 32 bits, and `ESP` moves after the destination is written. -/
def popI : Handler := fun insn => do
  advance insn
  let s ← get
  (if insn.op1.type = .reg then
    if insn.op1.size = 2 then do
      store .word (regs insn.op1.reg) (s.read16 (s.reg .esp))
      addEsp 2
    else do
      store .dword (regs insn.op1.reg) (s.read32 (s.reg .esp))
      addEsp 4
  else if insn.op1.type = .mem then do
    write32 (s.effAddr insn.op1.mem) (s.read32 (s.reg .esp))
    addEsp 4
  else return ())
  return some 0

/-- `*((uint16_t *)&v) = read16(esp); esp += 2` -/
def popVar16 (v : Var) : Exec Unit := do
  let s ← get
  store .word (.var v) (s.read16 (s.reg .esp))
  addEsp 2

/-- `v = read32(esp); esp += 4` -/
def popVar32 (v : Var) : Exec Unit := do
  let s ← get
  setReg v (s.read32 (s.reg .esp))
  addEsp 4

def popaI : Handler := fun insn => do
  advance insn
  popVar16 .edi
  popVar16 .esi
  popVar16 .ebp
  addEsp 2
  popVar16 .ebx
  popVar16 .edx
  popVar16 .ecx
  popVar16 .eax
  return some 0

def popadI : Handler := fun insn => do
  advance insn
  popVar32 .edi
  popVar32 .esi
  popVar32 .ebp
  addEsp 4
  popVar32 .ebx
  popVar32 .edx
  popVar32 .ecx
  popVar32 .eax
  return some 0

def pushaI : Handler := fun insn => do
  advance insn
  let s ← get
  push16 (s.reg .eax)
  push16 (s.reg .ecx)
  push16 (s.reg .edx)
  push16 (s.reg .ebx)
  push16 (s.reg .esp)
  push16 (s.reg .ebp)
  push16 (s.reg .esi)
  push16 (s.reg .edi)
  return some 0

def pushadI : Handler := fun insn => do
  advance insn
  let s ← get
  push32 (s.reg .eax)
  push32 (s.reg .ecx)
  push32 (s.reg .edx)
  push32 (s.reg .ebx)
  push32 (s.reg .esp)
  push32 (s.reg .ebp)
  push32 (s.reg .esi)
  push32 (s.reg .edi)
  return some 0

/-- The low `n` bits of `eflags`, overwritten by a pointer of that width. -/
def storeFlags (n : ℕ) (x : BitVec 32) : Exec Unit :=
  modify fun s => { s with eflags := merge n s.eflags x }

def popfI : Handler := fun insn => do
  advance insn
  let s ← get
  storeFlags 16 (s.read16 (s.reg .esp))
  addEsp 2
  return some 0

def popfdI : Handler := fun insn => do
  advance insn
  let s ← get
  storeFlags 16 (s.read32 (s.reg .esp) &&& 0xFFFF)
  addEsp 4
  return some 0

def pushfI : Handler := fun insn => do
  advance insn
  let s ← get
  push16 (s.eflags &&& 0xFFFF)
  return some 0

def pushfdI : Handler := fun insn => do
  advance insn
  let s ← get
  push32 s.eflags
  return some 0

def lahfI : Handler := fun insn => do
  advance insn
  let s ← get
  storeHigh .eax (s.eflags &&& 0xFF)
  return some 0

def sahfI : Handler := fun insn => do
  advance insn
  let ah ← loadHigh .eax
  storeFlags 8 ah
  return some 0

/-! ## Frames -/

/-- The frame pointer is read back as 16 bits in both operand sizes. -/
def leaveI : Handler := fun insn => do
  advance insn
  let s ← get
  setReg .esp (s.reg .ebp)
  (if insn.prefix0 = 0x66 then do
    store .word (.var .ebp) (s.read16 (s.reg .ebp))
    addEsp 2
  else do
    setReg .ebp (s.read16 (s.reg .ebp))
    addEsp 4)
  return some 0

/-- `for (i = 1; i < level; i++) { ebp -= 4; esp -= 4; write32(esp, ebp); }`, `n` rounds of it. -/
def enterLevels : ℕ → Exec Unit
  | 0 => return ()
  | n + 1 => do
    let s ← get
    setReg .ebp (s.reg .ebp - 4)
    push32 (s.reg .ebp - 4)
    enterLevels n

/-- Not in the dispatch table. -/
def enterI : Handler := fun insn => do
  advance insn
  let s ← get
  push32 (s.reg .ebp)
  (if insn.op2.imm.setWidth 8 ≠ 0 then do
    enterLevels ((insn.op2.imm.setWidth 8).toNat - 1)
    push32 (s.reg .esp - 4)
  else return ())
  setReg .ebp (s.reg .esp - 4)
  addEsp (-zeroExtend16_32 (insn.op1.imm.setWidth 16))
  return some 0

/-! ## Addresses and far pointers -/

/-- The width is taken from `prefix[0]`. -/
def leaI : Handler := fun insn => do
  advance insn
  let s ← get
  if insn.op1.type ≠ .reg ∨ insn.op2.type ≠ .mem then return some (-1)
  else do
    (if insn.prefix0 = 0x66 then
      store .word (regs insn.op1.reg) (s.effAddr insn.op2.mem &&& 0xFFFF)
    else store .dword (regs insn.op1.reg) (s.effAddr insn.op2.mem))
    return some 0

/-- `lds_i` to `lss_i`: an offset into a register, and the selector after it into a segment. -/
def loadFar (seg : Var) : Handler := fun insn => do
  advance insn
  let s ← get
  (if insn.op1.size = 2 then do
    let offset ← load .word (.mem (s.effAddr insn.op2.mem).toNat)
    store .word (regs insn.op1.reg) offset
    let selector ← load .word (.mem ((s.effAddr insn.op2.mem).toNat + 2))
    setReg seg selector
  else do
    let offset ← load .dword (.mem (s.effAddr insn.op2.mem).toNat)
    store .dword (regs insn.op1.reg) offset
    let selector ← load .word (.mem ((s.effAddr insn.op2.mem).toNat + 4))
    setReg seg selector)
  return some 0

def ldsI : Handler := loadFar .ds

def lesI : Handler := loadFar .es

def lfsI : Handler := loadFar .fs

def lgsI : Handler := loadFar .gs

def lssI : Handler := loadFar .ss

/-! ## Conversions -/

/-- Only a set sign bit or-s `0xFF00`; a clear one masks `AX` with `AL`. -/
def cbwI : Handler := fun insn => do
  advance insn
  let al ← load .byte (.var .eax)
  let ax ← load .word (.var .eax)
  store .word (.var .eax) (if al >>> 7 ≠ 0 then ax ||| (0xFF00 ||| al) else ax &&& (0x00FF &&& al))
  return some 0

def cwdeI : Handler := fun insn => do
  advance insn
  let ax ← load .word (.var .eax)
  let eax ← load .dword (.var .eax)
  setReg .eax (if ax >>> 15 ≠ 0 then eax ||| (0xFFFF0000 ||| ax) else eax &&& (0x0000FFFF &&& ax))
  return some 0

def cwdI : Handler := fun insn => do
  advance insn
  let ax ← load .word (.var .eax)
  store .word (.var .edx) (if sign ax 0x10 then 0xFFFF else 0)
  return some 0

def cdqI : Handler := fun insn => do
  advance insn
  let eax ← load .dword (.var .eax)
  setReg .edx (if sign eax 0x20 then 0xFFFFFFFF else 0)
  return some 0

/-! ## `SETcc` -/

/-- The handlers of the family differ in the flags they test. -/
def setcc (cond : Machine → Bool) : Handler := fun insn => do
  advance insn
  let s ← get
  store .byte (s.opPtr insn.op1) (if cond s then 1 else 0)
  return some 0

def setaI : Handler := setcc fun s => !s.testFlag .CF && !s.testFlag .ZF

def setaeI : Handler := setcc fun s => !s.testFlag .CF

def setbI : Handler := setcc fun s => s.testFlag .CF

def setbeI : Handler := setcc fun s => s.testFlag .CF || s.testFlag .ZF

def setcI : Handler := setcc fun s => s.testFlag .CF

def seteI : Handler := setcc fun s => s.testFlag .ZF

/-- `||` where `jg_i` has `&&`. -/
def setgI : Handler := setcc fun s => !s.testFlag .ZF || s.testFlag .OF == s.testFlag .SF

def setgeI : Handler := setcc fun s => s.testFlag .OF == s.testFlag .SF

def setlI : Handler := setcc fun s => s.testFlag .OF != s.testFlag .SF

def setleI : Handler := setcc fun s => s.testFlag .OF != s.testFlag .SF && s.testFlag .ZF

/-- `ZF` is not tested, where `jna_i` tests it. -/
def setnaI : Handler := setcc fun s => s.testFlag .CF

def setnaeI : Handler := setcc fun s => s.testFlag .CF

def setnbI : Handler := setcc fun s => !s.testFlag .CF

def setnbeI : Handler := setcc fun s => !s.testFlag .CF && !s.testFlag .ZF

def setncI : Handler := setcc fun s => !s.testFlag .CF

def setneI : Handler := setcc fun s => !s.testFlag .ZF

def setngI : Handler := setcc fun s => s.testFlag .ZF || s.testFlag .OF != s.testFlag .SF

def setngeI : Handler := setcc fun s => s.testFlag .OF != s.testFlag .SF

def setnlI : Handler := setcc fun s => s.testFlag .OF == s.testFlag .SF

/-- `ZF && OF != SF`, where `jnle_i` has `!ZF && SF == OF`. -/
def setnleI : Handler := setcc fun s => s.testFlag .ZF && s.testFlag .OF != s.testFlag .SF

def setnoI : Handler := setcc fun s => !s.testFlag .OF

def setnpI : Handler := setcc fun s => !s.testFlag .PF

def setnsI : Handler := setcc fun s => !s.testFlag .SF

def setoI : Handler := setcc fun s => s.testFlag .OF

def setpI : Handler := setcc fun s => s.testFlag .PF

def setpeI : Handler := setcc fun s => s.testFlag .PF

def setpoI : Handler := setcc fun s => !s.testFlag .PF

def setsI : Handler := setcc fun s => s.testFlag .SF

def setzI : Handler := setcc fun s => s.testFlag .ZF

end I386Vm
