import I386Vm.Transfer

/-!
# Jumps, calls, loops and bounds

The conditional jumps differ in the flags they test; each moves past itself first and then, if
taken, to its target. `jmp_i` and `ret_i` set `eip` without moving past themselves.
-/

namespace I386Vm

open Bytes

def setEip (x : BitVec 32) : Exec Unit := modify fun s => { s with eip := x }

/-- `eip = val` with the target an operand names. -/
def jumpTo (op : CsX86Op) : Exec Unit := do
  let s ← get
  setEip (s.branchTarget op)

def jcc (cond : Machine → Bool) : Handler := fun insn => do
  advance insn
  let s ← get
  (if cond s then jumpTo insn.op1 else return ())
  return some 0

def jaI : Handler := jcc fun s => !s.testFlag .CF && !s.testFlag .ZF

def jaeI : Handler := jcc fun s => !s.testFlag .CF

def jbI : Handler := jcc fun s => s.testFlag .CF

def jbeI : Handler := jcc fun s => s.testFlag .CF || s.testFlag .ZF

def jcI : Handler := jcc fun s => s.testFlag .CF

def jcxzI : Handler := jcc fun s => s.reg .ecx &&& 0xFFFF = 0

def jecxzI : Handler := jcc fun s => s.reg .ecx = 0

def jeI : Handler := jcc fun s => s.testFlag .ZF

def jzI : Handler := jcc fun s => s.testFlag .ZF

def jgI : Handler := jcc fun s => !s.testFlag .ZF && s.testFlag .SF == s.testFlag .OF

def jgeI : Handler := jcc fun s => s.testFlag .SF == s.testFlag .OF

def jlI : Handler := jcc fun s => s.testFlag .SF != s.testFlag .OF

/-- `&&` where `jng_i` has `||`. -/
def jleI : Handler := jcc fun s => s.testFlag .ZF && s.testFlag .SF != s.testFlag .OF

def jnaI : Handler := jcc fun s => s.testFlag .CF || s.testFlag .ZF

def jnaeI : Handler := jcc fun s => s.testFlag .CF

def jnbI : Handler := jcc fun s => !s.testFlag .CF

def jnbeI : Handler := jcc fun s => !s.testFlag .CF && !s.testFlag .ZF

def jncI : Handler := jcc fun s => !s.testFlag .CF

def jneI : Handler := jcc fun s => !s.testFlag .ZF

def jngI : Handler := jcc fun s => s.testFlag .ZF || s.testFlag .SF != s.testFlag .OF

def jngeI : Handler := jcc fun s => s.testFlag .SF != s.testFlag .OF

def jnlI : Handler := jcc fun s => s.testFlag .SF == s.testFlag .OF

def jnleI : Handler := jcc fun s => !s.testFlag .ZF && s.testFlag .SF == s.testFlag .OF

def jnoI : Handler := jcc fun s => !s.testFlag .OF

def jnpI : Handler := jcc fun s => !s.testFlag .PF

def jnsI : Handler := jcc fun s => !s.testFlag .SF

def joI : Handler := jcc fun s => s.testFlag .OF

def jpI : Handler := jcc fun s => s.testFlag .PF

def jpeI : Handler := jcc fun s => s.testFlag .PF

def jpoI : Handler := jcc fun s => !s.testFlag .PF

def jsI : Handler := jcc fun s => s.testFlag .SF

def jmpI : Handler := fun insn => do
  jumpTo insn.op1
  return some 0

/-- The target is read before the return address is pushed. -/
def callI : Handler := fun insn => do
  advance insn
  let s ← get
  push32 s.eip
  setEip (s.branchTarget insn.op1)
  return some 0

def retI : Handler := fun insn => do
  let s ← get
  setEip (s.read32 (s.reg .esp))
  addEsp 4
  (if insn.opCount = 1 then addEsp (insn.op1.imm.setWidth 32) else return ())
  return some 0

/-- The family branches when the decremented `ECX` is zero and the flag condition holds. -/
def loopcc (cond : Machine → Bool) : Handler := fun insn => do
  advance insn
  let s ← get
  setReg .ecx (s.reg .ecx - 1)
  (if s.reg .ecx - 1 = 0 ∧ cond s then
    if insn.op1.size = 1 then setEip (s.eip + signExtend8_32 (insn.op1.imm.setWidth 8))
    else if insn.op1.size = 4 then setEip (insn.op1.imm.setWidth 32)
    else return ()
  else return ())
  return some 0

def loopI : Handler := loopcc fun _ => true

def loopeI : Handler := loopcc fun s => s.testFlag .ZF

def loopneI : Handler := loopcc fun s => !s.testFlag .ZF

def loopnzI : Handler := loopcc fun s => !s.testFlag .ZF

def loopzI : Handler := loopcc fun s => s.testFlag .ZF

/-- `base == 0x10` selects 16-bit bounds. -/
def widthBound (r : X86Reg) : Width := if regsSize r = 0x10 then .word else .dword

def boundI : Handler := fun insn => do
  advance insn
  let s ← get
  if insn.op1.type ≠ .reg ∨ insn.op2.type ≠ .mem then return some (-1)
  else do
    let rsrc1 ← load (widthBound insn.op1.reg) (.mem (s.effAddr insn.op2.mem).toNat)
    let rsrc2 ← load (widthBound insn.op1.reg)
      (.mem ((s.effAddr insn.op2.mem).toNat + (widthBound insn.op1.reg).bytes))
    let r ← load (widthBound insn.op1.reg) (regs insn.op1.reg)
    if r < rsrc1 ∨ rsrc2 < r then return some (-5) else return some 0

end I386Vm
