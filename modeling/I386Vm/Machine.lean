import I386Vm.Capstone
import I386Vm.Flags
import I386Vm.Lib.Bytes
import I386Vm.Lib.Prog
import Mathlib.Logic.Function.Basic

/-!
# The emulated machine

The global variables of `instr.c` and `flags.c`, the pointers into them that the handlers follow,
and the helpers at the end of `instr.c` that every handler shares.

Guest memory is `mem`, allocated as `UINT32_MAX` bytes; here it is a byte at every host offset
from `mem`, so that an access past the last byte stays visible as one at an offset from
`UINT32_MAX` on. A handler that C leaves undefined (a null or wild pointer, an uninitialised
variable, a shift out of range, a division by zero) ends in a `Fault`.
-/

namespace I386Vm

open Bytes Prog

/-- The register variables other than `eip` and `eflags`. -/
inductive Var
  | eax | ecx | edx | ebx | esp | ebp | esi | edi | cs | ds | es | fs | gs | ss
  deriving DecidableEq

structure GDTR where
  limit : BitVec 16
  base : BitVec 32
  deriving DecidableEq

structure Machine where
  reg : Var → BitVec 32
  eip : BitVec 32
  eflags : BitVec 32
  mem : ℕ → BitVec 8
  gdtr : GDTR
  idtr : GDTR
  ldtr : BitVec 16
  cr0 : BitVec 32
  /-- What the caller of `reg_val` finds as its value when it ends without a `return`. -/
  noReturn : X86Reg → BitVec 32

/-- The bytes that `initialize` allocates for `mem`, `UINT32_MAX`. -/
def memSize : ℕ := 0xFFFFFFFF

/-- All zero but `eflags`, for concrete runs. -/
def Machine.blank : Machine where
  reg _ := 0
  eip := 0
  eflags := eflagsInit
  mem _ := 0
  gdtr := ⟨0, 0⟩
  idtr := ⟨0, 0⟩
  ldtr := 0
  cr0 := 0
  noReturn _ := 0

/-- Where a handler's run leaves the C language. -/
inductive Fault
  | null | wild | uninit | shift | divide | table | loop
  deriving DecidableEq

abbrev Exec := Prog Machine Fault

/-- What a handler returns; `none` where it ends without a `return`. -/
abbrev Ret := Option (BitVec 32)

abbrev Handler := CsInsn → Exec Ret

/-! ## Widths and pointers -/

/-- The widths of an access through a pointer: `uint8_t`, `uint16_t`, `uint32_t`. -/
inductive Width
  | byte | word | dword
  deriving DecidableEq

namespace Width

def bytes : Width → ℕ
  | byte => 1
  | word => 2
  | dword => 4

def bits (w : Width) : ℕ := 8 * w.bytes

def size (w : Width) : BitVec 8 := .ofNat 8 w.bytes

end Width

/-- `switch (base)` over a size of `regs_size`: the default is 32 bits. -/
def widthOfBase (base : BitVec 8) : Width :=
  if base = 0x8 then .byte else if base = 0x10 then .word else .dword

/-- `if (s == 4) … else if (s == 2) … else …` -/
def widthOr8 (s : BitVec 8) : Width :=
  if s = 4 then .dword else if s = 2 then .word else .byte

/-- `if (s == 1) … else if (s == 2) … else …` -/
def widthOr32 (s : BitVec 8) : Width :=
  if s = 1 then .byte else if s = 2 then .word else .dword

/-- A pointer to a register variable or to `mem + i`; `wild` is one read past the end of a table
or never set. -/
inductive Ptr
  | var (v : Var)
  | eip
  | eflags
  | mem (i : ℕ)
  | null
  | wild
  deriving DecidableEq

def Ptr.Valid (p : Ptr) : Prop := p ≠ .null ∧ p ≠ .wild

namespace Machine

variable (s : Machine)

def setReg (v : Var) (x : BitVec 32) : Machine := { s with reg := Function.update s.reg v x }

/-- `*p` at width `w`, zero-extended. -/
def peek (w : Width) : Ptr → BitVec 32
  | .var v => low w.bits (s.reg v)
  | .eip => low w.bits s.eip
  | .eflags => low w.bits s.eflags
  | .mem i => readLE s.mem i w.bytes
  | .null => 0
  | .wild => 0

/-- `*p = x` at width `w`. -/
def poke (w : Width) (p : Ptr) (x : BitVec 32) : Machine :=
  match p with
  | .var v => s.setReg v (merge w.bits (s.reg v) x)
  | .eip => { s with eip := merge w.bits s.eip x }
  | .eflags => { s with eflags := merge w.bits s.eflags x }
  | .mem i => { s with mem := writeLE s.mem i w.bytes x }
  | .null => s
  | .wild => s

/-! ## `flags.c` on `eflags` -/

def setFlag (f : Flag) : Machine := { s with eflags := s.eflags ||| f.mask }

def clearFlag (f : Flag) : Machine := { s with eflags := s.eflags &&& ~~~f.mask }

def complementFlag (f : Flag) : Machine := { s with eflags := s.eflags ^^^ f.mask }

def testFlag (f : Flag) : Bool := s.eflags &&& f.mask ≠ 0

/-- `c ? set_Flag(f) : clear_Flag(f)` -/
def assignFlag (f : Flag) (c : Bool) : Machine := if c then s.setFlag f else s.clearFlag f

/-- `test_Flag(CF)` as the number the arithmetic adds. -/
def carry : BitVec 32 := if s.testFlag .CF then 1 else 0

end Machine

/-! ## The register tables -/

def regs : X86Reg → Ptr
  | .invalid => .null
  | .ah => .var .eax
  | .al => .var .eax
  | .ax => .var .eax
  | .bh => .var .ebx
  | .bl => .var .ebx
  | .bp => .var .ebp
  | .bpl => .null
  | .bx => .var .ebx
  | .ch => .var .ecx
  | .cl => .var .ecx
  | .cs => .var .cs
  | .cx => .var .ecx
  | .dh => .var .edx
  | .di => .var .edi
  | .dil => .null
  | .dl => .var .edx
  | .ds => .var .ds
  | .dx => .var .edx
  | .eax => .var .eax
  | .ebp => .var .ebp
  | .ebx => .var .ebx
  | .ecx => .var .ecx
  | .edi => .var .edi
  | .edx => .var .edx
  | .eflags => .eflags
  | .eip => .eip
  | .eiz => .null
  | .es => .var .es
  | .esi => .var .esi
  | .esp => .var .esp
  | .fpsw => .null
  | .fs => .var .fs
  | .gs => .var .gs
  | .ip => .eip
  | .rax => .null
  | .rbp => .null
  | .rbx => .null
  | .rcx => .null
  | .rdi => .null
  | .rdx => .null
  | .rip => .null
  | .riz => .null
  | .rsi => .null
  | .rsp => .null
  | .si => .var .esi
  | .sil => .null
  | .sp => .var .esp
  | .spl => .null
  | .ss => .var .ss
  | .other _ => .wild

def regsSize : X86Reg → BitVec 8
  | .invalid => 0
  | .ah => 0x08
  | .al => 0x08
  | .ax => 0x10
  | .bh => 0x08
  | .bl => 0x08
  | .bp => 0x10
  | .bpl => 0
  | .bx => 0x10
  | .ch => 0x08
  | .cl => 0x08
  | .cs => 0x10
  | .cx => 0x10
  | .dh => 0x08
  | .di => 0x10
  | .dil => 0
  | .dl => 0x08
  | .ds => 0x10
  | .dx => 0x10
  | .eax => 0x20
  | .ebp => 0x20
  | .ebx => 0x20
  | .ecx => 0x20
  | .edi => 0x20
  | .edx => 0x20
  | .eflags => 0x20
  | .eip => 0x20
  | .eiz => 0
  | .es => 0x10
  | .esi => 0x20
  | .esp => 0x20
  | .fpsw => 0
  | .fs => 0x10
  | .gs => 0x10
  | .ip => 0x10
  | .rax => 0
  | .rbp => 0
  | .rbx => 0
  | .rcx => 0
  | .rdi => 0
  | .rdx => 0
  | .rip => 0
  | .riz => 0
  | .rsi => 0
  | .rsp => 0
  | .si => 0x10
  | .sil => 0
  | .sp => 0x10
  | .spl => 0
  | .ss => 0x10
  | .other _ => 0

/-- The number of descriptors of the table, and the bytes each takes in C. -/
def gdtEntries : ℕ := 0x9

def gdtDescriptorSize : ℕ := 10

namespace Machine

variable (s : Machine)

/-- `reg_val`, `none` where it ends without a `return`. -/
def regVal? (r : X86Reg) : Option (BitVec 32) :=
  match r with
  | .other _ => some (-1)
  | r => if regs r ≠ .null ∧ regsSize r ≠ 0 then some (s.peek (widthOfBase (regsSize r)) (regs r))
    else none

def regVal (r : X86Reg) : BitVec 32 := (s.regVal? r).getD (s.noReturn r)

/-- The host offset of the descriptor a selector names. -/
def gdtDescriptor (selector : BitVec 16) : ℕ :=
  s.gdtr.base.toNat + ((selector >>> 3) &&& 0x1FFF).toNat % gdtEntries * gdtDescriptorSize

/-- `base_low | (base_mid << 16) | (base_high << 24)` of the descriptor. -/
def getGdtBase (selector : BitVec 16) : BitVec 32 :=
  readLE s.mem (s.gdtDescriptor selector + 2) 2
    ||| (readLE s.mem (s.gdtDescriptor selector + 4) 1 <<< 16)
    ||| (readLE s.mem (s.gdtDescriptor selector + 7) 1 <<< 24)

def getGdtLimit (selector : BitVec 16) : BitVec 32 := readLE s.mem (s.gdtDescriptor selector) 2

def effAddr (m : X86OpMem) : BitVec 32 :=
  (if m.segment ≠ .invalid then s.getGdtBase ((s.regVal m.segment).setWidth 16) else 0)
    + (if m.base ≠ .invalid then s.regVal m.base else 0)
    + (if m.index ≠ .invalid then s.regVal m.index else 0) * (if m.scale ≠ 0 then m.scale else 1)
    + m.disp.setWidth 32

/-- `if (op.type == X86_OP_REG) t = regs[op.reg]; else t = mem + eff_addr(op.mem);` -/
def opPtr (op : CsX86Op) : Ptr :=
  if op.type = .reg then regs op.reg else .mem (s.effAddr op.mem).toNat

/-! ## `write16` to `read32`: the index of each byte wraps at `2^32` -/

def write8 (addr : BitVec 32) (value : BitVec 8) : Machine :=
  { s with mem := Function.update s.mem addr.toNat value }

def write16 (addr : BitVec 32) (value : BitVec 16) : Machine :=
  (s.write8 addr (value.setWidth 8)).write8 (addr + 1) ((value >>> 8).setWidth 8)

def write32 (addr value : BitVec 32) : Machine :=
  (((s.write8 addr (value.setWidth 8)).write8 (addr + 1) ((value >>> 8).setWidth 8)).write8
    (addr + 2) ((value >>> 16).setWidth 8)).write8 (addr + 3) ((value >>> 24).setWidth 8)

def read8 (addr : BitVec 32) : BitVec 32 := (s.mem addr.toNat).setWidth 32

def read16 (addr : BitVec 32) : BitVec 32 := s.read8 addr ||| (s.read8 (addr + 1) <<< 8)

def read32 (addr : BitVec 32) : BitVec 32 :=
  s.read8 addr ||| (s.read8 (addr + 1) <<< 8) ||| (s.read8 (addr + 2) <<< 16)
    ||| (s.read8 (addr + 3) <<< 24)

end Machine

/-! ## Extensions and powers -/

def signExtend8_32 (v : BitVec 8) : BitVec 32 :=
  if v &&& 0x80 ≠ 0 then v.setWidth 32 ||| 0xFFFFFF00 else v.setWidth 32

def signExtend16_32 (v : BitVec 16) : BitVec 32 :=
  if v &&& 0x8000 ≠ 0 then v.setWidth 32 ||| 0xFFFF0000 else v.setWidth 32

def signExtend8_16 (v : BitVec 8) : BitVec 16 :=
  if v &&& 0x80 ≠ 0 then v.setWidth 16 ||| 0xFF00 else v.setWidth 16

def signExtend32_64 (v : BitVec 32) : BitVec 64 :=
  if v &&& 0x80000000 ≠ 0 then v.setWidth 64 ||| 0xFFFFFFFF00000000 else v.setWidth 64

def zeroExtend8_32 (v : BitVec 8) : BitVec 32 := v.setWidth 32 &&& 0x000000FF

def zeroExtend16_32 (v : BitVec 16) : BitVec 32 := v.setWidth 32 &&& 0x0000FFFF

def zeroExtend8_16 (v : BitVec 8) : BitVec 16 := v.setWidth 16 &&& 0x00FF

def powI (b : BitVec 32) : ℕ → BitVec 32
  | 0 => 1
  | exp + 1 => powI b exp * b

/-! ## What the handlers are made of -/

def Machine.advance (s : Machine) (insn : CsInsn) : Machine :=
  { s with eip := s.eip + insn.size.setWidth 32 }

def advance (insn : CsInsn) : Exec Unit := modify (·.advance insn)

def load (w : Width) (p : Ptr) : Exec (BitVec 32) := do
  let s ← get
  if p = .null then throw .null
  else if p = .wild then throw .wild
  else return s.peek w p

def store (w : Width) (p : Ptr) (x : BitVec 32) : Exec Unit :=
  if p = .null then throw .null
  else if p = .wild then throw .wild
  else modify (·.poke w p x)

def setReg (v : Var) (x : BitVec 32) : Exec Unit := modify (·.setReg v x)

/-- `*((uint8_t *) &v + 1)`, the `ah` of `eax`. -/
def loadHigh (v : Var) : Exec (BitVec 32) := do
  let s ← get
  return low 8 (s.reg v >>> 8)

def storeHigh (v : Var) (x : BitVec 32) : Exec Unit :=
  modify fun s => s.setReg v ((s.reg v &&& 0xFFFF00FF) ||| (low 8 x <<< 8))

def setFlag (f : Flag) : Exec Unit := modify (·.setFlag f)

def clearFlag (f : Flag) : Exec Unit := modify (·.clearFlag f)

def complementFlag (f : Flag) : Exec Unit := modify (·.complementFlag f)

/-- `c ? set_Flag(f) : clear_Flag(f)` -/
def assignFlag (f : Flag) (c : Bool) : Exec Unit := modify (·.assignFlag f c)

def testFlag (f : Flag) : Exec Bool := do
  let s ← get
  return s.testFlag f

/-- `*p = f(*p)` at width `w`: the value before and the value read back. -/
def rmw (w : Width) (p : Ptr) (f : BitVec 32 → BitVec 32) : Exec (BitVec 32 × BitVec 32) := do
  let old ← load w p
  store w p (f old)
  let res ← load w p
  return (old, res)

/-- The six status flags of an addition or a subtraction, the carry computed by the handler. -/
def arithFlags (carry : Bool) (val1 val2 res : BitVec 32) (base : BitVec 8) : Exec Unit := do
  assignFlag .CF carry
  assignFlag .OF (overflow val1 val2 res base)
  assignFlag .SF (sign res base)
  assignFlag .ZF (zero res)
  assignFlag .AF (adjust val1 val2 res)
  assignFlag .PF (parity res)

/-- The flags of a logical operation: `SF`, `ZF`, `PF` of the result, no carry, no overflow. -/
def logicFlags (res : BitVec 32) (base : BitVec 8) : Exec Unit := do
  assignFlag .SF (sign res base)
  assignFlag .ZF (zero res)
  assignFlag .PF (parity res)
  clearFlag .CF
  clearFlag .OF

/-- The source cut to the width of an 8- or 16-bit register destination: `val & 0xFF` and so on. -/
def cut (w : Width) (val : BitVec 32) : BitVec 32 :=
  match w with
  | .byte => val &&& 0xFF
  | .word => val &&& 0xFFFF
  | .dword => val

/-- The source operand of `adc_i`, `add_i`, `and_i`, `or_i`, `xor_i`, `arpl_i`, `bsf_i`, `bsr_i`:
a memory operand is read at its own size. -/
def srcBySize (op : CsX86Op) : Exec (BitVec 32) := do
  let s ← get
  if op.type = .reg then return s.regVal op.reg
  else if op.type = .imm then return op.imm.setWidth 32
  else if op.type = .mem then load (widthOr8 op.size) (.mem (s.effAddr op.mem).toNat)
  else throw .uninit

/-- The source operand of `mov_i`, `movsx_i`, `movzx_i`, `push_i`, `test_i`: a memory operand is
read as 32 bits whatever its size. -/
def srcWide (op : CsX86Op) : Exec (BitVec 32) := do
  let s ← get
  if op.type = .reg then return s.regVal op.reg
  else if op.type = .imm then return op.imm.setWidth 32
  else if op.type = .mem then load .dword (.mem (s.effAddr op.mem).toNat)
  else throw .uninit

/-- The immediate of `cmp_i` and `sub_i`: one byte is sign-extended to a wider first operand. -/
def immExtended (op1 op2 : CsX86Op) : BitVec 32 :=
  if op2.size = 1 then
    if op1.size = 2 then (signExtend8_16 (op2.imm.setWidth 8)).setWidth 32
    else if op1.size = 4 then signExtend8_32 (op2.imm.setWidth 8)
    else op2.imm.setWidth 32
  else op2.imm.setWidth 32

/-- The target of a jump or call: a register, an immediate or 32 bits of memory. -/
def Machine.branchTarget (s : Machine) (op : CsX86Op) : BitVec 32 :=
  if op.type = .reg then s.regVal op.reg
  else if op.type = .imm then op.imm.setWidth 32
  else s.peek .dword (.mem (s.effAddr op.mem).toNat)

/-- A C shift amount, which must lie in `0..31`. -/
def shiftAmount (n : ℤ) : Exec ℕ :=
  if 0 ≤ n ∧ n < 32 then return n.toNat else throw .shift

end I386Vm
