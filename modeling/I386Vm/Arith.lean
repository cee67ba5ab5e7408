import I386Vm.Machine

/-!
# Arithmetic and logical handlers

Addition, subtraction, comparison, the bitwise operations, multiplication and division, and the
decimal adjustments. A handler's destination is a register, accessed at the size the table
`regs_size` gives it, or memory, accessed at whatever width that handler has; where the widths
differ between handlers, the definitions differ with them.
-/

namespace I386Vm

open Bytes

/-! ## Read-modify-write of a destination -/

/-- `switch (regs_size[r])` over `*p = f(*p)`, `f` told the width. -/
def rmwReg (r : X86Reg) (f : Width → BitVec 32 → BitVec 32) : Exec (BitVec 32 × BitVec 32) :=
  rmw (widthOfBase (regsSize r)) (regs r) (f (widthOfBase (regsSize r)))

/-- A destination read and written by `adc_i`, `add_i` and `and_i`: memory at its operand's size. -/
def rmwDst (op : CsX86Op) (freg : Width → BitVec 32 → BitVec 32) (fmem : BitVec 32 → BitVec 32) :
    Exec (BitVec 32 × BitVec 32) := do
  let s ← get
  if op.type = .reg then rmwReg op.reg freg
  else if op.type = .mem then rmw (widthOr8 op.size) (.mem (s.effAddr op.mem).toNat) fmem
  else throw .uninit

/-! ## Addition -/

def adcI : Handler := fun insn => do
  advance insn
  let val2 ← srcBySize insn.op2
  let s ← get
  let r ← rmwDst insn.op1 (fun w old => old + (cut w val2 + s.carry))
    (fun old => old + (val2 + s.carry))
  arithFlags (r.2 < r.1) r.1 val2 r.2 (insn.op1.size * 8)
  return some 0

def addI : Handler := fun insn => do
  advance insn
  let val2 ← srcBySize insn.op2
  let r ← rmwDst insn.op1 (fun w old => old + cut w val2) (fun old => old + val2)
  arithFlags (r.2 < r.1) r.1 val2 r.2 (insn.op1.size * 8)
  return some 0

/-! ## Subtraction and comparison -/

/-- The second operand of `sub_i`: memory as 32 bits, one-byte immediates sign-extended. -/
def subSrc (op1 op2 : CsX86Op) : Exec (BitVec 32) := do
  let s ← get
  if op2.type = .reg then return s.regVal op2.reg
  else if op2.type = .imm then return immExtended op1 op2
  else if op2.type = .mem then load .dword (.mem (s.effAddr op2.mem).toNat)
  else throw .uninit

/-- The destination of `sub_i`: memory as 32 bits. -/
def subDst (op1 : CsX86Op) (val2 : BitVec 32) : Exec (BitVec 32 × BitVec 32) := do
  let s ← get
  if op1.type = .reg then rmwReg op1.reg fun w old => old - cut w val2
  else if op1.type = .mem then rmw .dword (.mem (s.effAddr op1.mem).toNat) (· - val2)
  else throw .uninit

def subI : Handler := fun insn => do
  advance insn
  let val2 ← subSrc insn.op1 insn.op2
  let r ← subDst insn.op1 val2
  arithFlags (r.1 < val2) r.1 val2 r.2 (insn.op1.size * 8)
  return some 0

/-- The second operand of `cmp_i`, at its own size. -/
def cmpSrc (op1 op2 : CsX86Op) : Exec (BitVec 32) := do
  let s ← get
  if op2.type = .reg then load (widthOr32 op2.size) (regs op2.reg)
  else if op2.type = .imm then return immExtended op1 op2
  else if op2.type = .mem then load (widthOr32 op2.size) (.mem (s.effAddr op2.mem).toNat)
  else throw .uninit

/-- The first operand of `cmp_i` and the difference, which stays a 32-bit number. -/
def cmpDst (op1 : CsX86Op) (val2 : BitVec 32) : Exec (BitVec 32 × BitVec 32) := do
  let s ← get
  if op1.type = .reg then do
    let val1 ← load (widthOr32 op1.size) (regs op1.reg)
    return (val1, val1 - cut (widthOr32 op1.size) val2)
  else if op1.type = .mem then do
    let val1 ← load (widthOr32 op1.size) (.mem (s.effAddr op1.mem).toNat)
    return (val1, val1 - val2)
  else throw .uninit

def cmpI : Handler := fun insn => do
  advance insn
  let val2 ← cmpSrc insn.op1 insn.op2
  let r ← cmpDst insn.op1 val2
  arithFlags (r.1 < val2) r.1 val2 r.2 (insn.op1.size * 8)
  return some 0

/-- The second operand of `sbb_i`; a one-byte operand of a wider destination is set only when it is
an immediate. -/
def sbbSrc (op1 op2 : CsX86Op) : Exec (BitVec 32) := do
  let s ← get
  if op2.type = .imm then
    if op2.size = 1 ∧ (op1.size = 2 ∨ op1.size = 4) then
      if op1.size = 2 then return (signExtend8_16 (op2.imm.setWidth 8)).setWidth 32
      else return signExtend8_32 (op2.imm.setWidth 8)
    else return op2.imm.setWidth 32
  else if op2.size = 2 then load .word (s.opPtr op2)
  else if op2.size = 4 then load .dword (s.opPtr op2)
  else if op1.size = 1 ∧ op2.size = 1 then load .byte (s.opPtr op2)
  else throw .uninit

/-- `OF` and `AF` are computed after `CF` has been overwritten, with the new `CF`. -/
def sbbI : Handler := fun insn => do
  advance insn
  let s ← get
  let val ← sbbSrc insn.op1 insn.op2
  let r ← rmw (widthOr32 insn.op1.size) (s.opPtr insn.op1) (· - val - s.carry)
  assignFlag .CF (r.1 < val + s.carry)
  let t ← get
  assignFlag .OF (overflow r.1 (val + t.carry) r.2 (insn.op1.size * 8))
  assignFlag .SF (sign r.2 (insn.op1.size * 8))
  assignFlag .ZF (zero r.2)
  assignFlag .AF (adjust r.1 (val + t.carry) r.2)
  assignFlag .PF (parity r.2)
  return some 0

/-! ## Increment, decrement, negation -/

/-- `switch (regs_size[r])` without a default: a register of no size leaves both values 0. -/
def stepReg (r : X86Reg) (f : BitVec 32 → BitVec 32) : Exec (BitVec 32 × BitVec 32) :=
  if regsSize r = 0x8 ∨ regsSize r = 0x10 ∨ regsSize r = 0x20 then rmwReg r fun _ => f
  else return (0, 0)

def incI : Handler := fun insn => do
  advance insn
  let s ← get
  let r ← (if insn.op1.type = .reg then stepReg insn.op1.reg (· + 1)
    else if insn.op1.type = .mem then
      rmw (widthOr8 insn.op1.size) (.mem (s.effAddr insn.op1.mem).toNat) (· + 1)
    else return (0, 0))
  arithFlags (r.2 < r.1) r.1 1 r.2 (insn.op1.size * 8)
  return some 0

/-- A memory operand is decremented as 32 bits. -/
def decI : Handler := fun insn => do
  advance insn
  let s ← get
  let r ← (if insn.op1.type = .reg then stepReg insn.op1.reg (· - 1)
    else if insn.op1.type = .mem then
      rmw .dword (.mem (s.effAddr insn.op1.mem).toNat) (· - 1)
    else return (0, 0))
  arithFlags (r.1 < 1) r.1 1 r.2 (insn.op1.size * 8)
  return some 0

/-- `if (op1.type = X86_OP_REG)` assigns, so the operand is always taken for a register. -/
def negI : Handler := fun insn => do
  advance insn
  let old ← load (widthOr32 insn.op1.size) (regs insn.op1.reg)
  assignFlag .CF (!zero old)
  let r ← rmw (widthOr32 insn.op1.size) (regs insn.op1.reg) (0 - ·)
  assignFlag .OF (overflow 0 r.1 r.2 (insn.op1.size * 8))
  assignFlag .SF (sign r.2 (insn.op1.size * 8))
  assignFlag .PF (parity r.2)
  assignFlag .ZF (zero r.2)
  return some 0

/-- The same assignment as in `neg_i`. -/
def notI : Handler := fun insn => do
  advance insn
  let _ ← rmw (widthOr32 insn.op1.size) (regs insn.op1.reg) (~~~·)
  return some 0

/-! ## Bitwise operations -/

def andI : Handler := fun insn => do
  advance insn
  let val ← srcBySize insn.op2
  let r ← rmwDst insn.op1 (fun w old => old &&& cut w val) (fun old => old &&& val)
  logicFlags r.2 (if insn.op1.type = .reg then regsSize insn.op1.reg else insn.op1.size * 8)
  return some 0

/-- `or_i` and `xor_i`: a memory destination is addressed and sized by the second operand, and its
sign bit looked for at `s1 * 4`. -/
def orXor (f : BitVec 32 → BitVec 32 → BitVec 32) : Handler := fun insn => do
  advance insn
  let val ← srcBySize insn.op2
  let s ← get
  let r ← (if insn.op1.type = .reg then rmwReg insn.op1.reg fun w old => f old (cut w val)
    else if insn.op1.type = .mem then
      rmw (widthOr8 insn.op2.size) (.mem (s.effAddr insn.op2.mem).toNat) fun old => f old val
    else throw .uninit)
  logicFlags r.2 (if insn.op1.type = .reg then regsSize insn.op1.reg else insn.op1.size * 4)
  return some 0

def orI : Handler := orXor (· ||| ·)

def xorI : Handler := orXor (· ^^^ ·)

def testI : Handler := fun insn => do
  advance insn
  let val ← srcWide insn.op2
  let s ← get
  let res ← (if insn.op1.type = .reg then do
      let old ← load (widthOfBase (regsSize insn.op1.reg)) (regs insn.op1.reg)
      return old &&& cut (widthOfBase (regsSize insn.op1.reg)) val
    else if insn.op1.type = .mem then do
      let old ← load .dword (.mem (s.effAddr insn.op1.mem).toNat)
      return old &&& val
    else throw .uninit)
  logicFlags res (if insn.op1.type = .reg then regsSize insn.op1.reg else 0x20)
  return some 0

/-- `*p & 0x3 < val & 0x3` is `(*p & (0x3 < val)) & 0x3`. -/
def arplI : Handler := fun insn => do
  advance insn
  let val ← srcBySize insn.op2
  let s ← get
  let old ← (if insn.op1.type = .reg then load .byte (regs insn.op1.reg)
    else if insn.op1.type = .mem then load .byte (.mem (s.effAddr insn.op1.mem).toNat)
    else throw .wild)
  (if (old &&& (if 3 < val then 1 else 0)) &&& 3 ≠ 0 then do
    setFlag .ZF
    store .byte (s.opPtr insn.op1) ((old &&& 0xFC) ||| (val &&& 3))
  else clearFlag .ZF)
  return some 0

/-! ## Multiplication and division -/

def assignCfOf (c : Bool) : Exec Unit := do
  assignFlag .CF c
  assignFlag .OF c

/-- The factor is read from the second operand. -/
def mulI : Handler := fun insn => do
  advance insn
  let s ← get
  let val ← load (widthOr32 insn.op1.size) (s.opPtr insn.op2)
  (if insn.op1.size = 1 then do
    store .word (.var .eax) (low 8 (s.reg .eax) * val)
    let ah ← loadHigh .eax
    assignCfOf (!zero ah)
  else if insn.op1.size = 2 then do
    store .word (.var .eax) (low 16 (s.reg .eax) * val)
    store .word (.var .edx) ((low 16 (s.reg .eax) * val) >>> 16)
    assignCfOf (!zero ((low 16 (s.reg .eax) * val) >>> 16))
  else do
    -- `eax * val` is a product of two `uint32_t`, cut before it is widened
    setReg .eax (s.reg .eax * val)
    setReg .edx 0
    assignCfOf false)
  return some 0

/-- The divisor is read from the second operand; a zero divisor stops the host. -/
def divI : Handler := fun insn => do
  advance insn
  let s ← get
  let val ← load (widthOr32 insn.op1.size) (s.opPtr insn.op2)
  if val = 0 then throw .divide
  else if insn.op1.size = 1 then
    if 0xFF < low 16 (s.reg .eax) / val then return some (-1000)
    else do
      store .byte (.var .eax) (low 16 (s.reg .eax) / val)
      storeHigh .eax (low 16 (s.reg .eax) % val)
      return some 0
  else if insn.op1.size = 2 then
    if 0xFFFF < ((low 16 (s.reg .edx) <<< 16) ||| low 16 (s.reg .eax)) / val then
      return some (-1000)
    else do
      store .word (.var .eax) (((low 16 (s.reg .edx) <<< 16) ||| low 16 (s.reg .eax)) / val)
      store .word (.var .edx) (((low 16 (s.reg .edx) <<< 16) ||| low 16 (s.reg .eax)) % val)
      return some 0
  else
    if 0xFFFFFFFF < (s.reg .edx ++ s.reg .eax) / val.setWidth 64 then return some (-1000)
    else do
      setReg .eax (((s.reg .edx ++ s.reg .eax) / val.setWidth 64).setWidth 32)
      setReg .edx (((s.reg .edx ++ s.reg .eax) % val.setWidth 64).setWidth 32)
      return some 0

/-- The quotient of `n` bits does not fit in `int8_t`, `int16_t` or `int32_t`. -/
def quotientTooBig {n : ℕ} (bits : ℕ) (res : BitVec n) : Bool :=
  2 ^ (bits - 1) - 1 < res.toInt ∨ res.toInt < -2 ^ (bits - 1)

/-- As `div_i` with signed operands. In 16 bits `*ax` is sign-extended before it is or-ed to the
high half; the host stops on a zero divisor and on the quotient that overflows the dividend. -/
def idivI : Handler := fun insn => do
  advance insn
  let s ← get
  let val ← load (widthOr32 insn.op1.size) (s.opPtr insn.op2)
  if val = 0 then throw .divide
  else if insn.op1.size = 1 then do
    let ax := (s.reg .eax).setWidth 16
    let d := (val.setWidth 8).signExtend 16
    if quotientTooBig 8 (ax.sdiv d) then return some (-1000)
    else do
      store .byte (.var .eax) ((ax.sdiv d).setWidth 32)
      storeHigh .eax ((ax.srem d).setWidth 32)
      return some 0
  else if insn.op1.size = 2 then do
    let div := (low 16 (s.reg .edx) <<< 16) ||| ((s.reg .eax).setWidth 16).signExtend 32
    let d := (val.setWidth 16).signExtend 32
    if div = .intMin 32 ∧ d = -1 then throw .divide
    else if quotientTooBig 16 (div.sdiv d) then return some (-1000)
    else do
      store .word (.var .eax) (div.sdiv d)
      store .word (.var .edx) (div.srem d)
      return some 0
  else do
    let div := s.reg .edx ++ s.reg .eax
    let d := val.signExtend 64
    if div = .intMin 64 ∧ d = -1 then throw .divide
    else if quotientTooBig 32 (div.sdiv d) then return some (-1000)
    else do
      setReg .eax ((div.sdiv d).setWidth 32)
      setReg .edx ((div.srem d).setWidth 32)
      return some 0

/-- A product of `int16_t` leaves their range; one of `int32_t` is cut before it is compared. -/
def imulTooBig (w : Width) (x y : BitVec 32) : Bool :=
  w = .word ∧ quotientTooBig 16 ((x.setWidth 16).signExtend 32 * (y.setWidth 16).signExtend 32)

/-- `*p = *q * imm`, and the flags from `*q` as it is afterwards. -/
def imulImm (w : Width) (p q : Ptr) (imm : BitVec 32) : Exec Unit := do
  let val ← load w q
  store w p (val * imm)
  let after ← load w q
  assignCfOf (imulTooBig w after imm)

/-- The forms by opcode: `0xF6` and `0xF7` with one operand, `0x0F` with two, `0x6B` with a byte
and `0x69` with a full immediate. -/
def imulI : Handler := fun insn => do
  advance insn
  let s ← get
  (if insn.byte0 = 0xF6 then do
    let val ← load .byte (s.opPtr insn.op1)
    let al ← load .byte (.var .eax)
    store .word (.var .eax)
      (((al.setWidth 8).signExtend 16 * (val.setWidth 8).signExtend 16).setWidth 32)
    let ax ← load .word (.var .eax)
    assignCfOf (ax.setWidth 16 ≠ signExtend8_16 (ax.setWidth 8))
  else if insn.byte0 = 0xF7 then
    if insn.op1.size = 2 then do
      let val ← load .word (s.opPtr insn.op1)
      let ax ← load .word (.var .eax)
      store .word (.var .edx)
        (((ax.setWidth 16).signExtend 32 * (val.setWidth 16).signExtend 32) >>> 16)
      store .word (.var .eax) ((ax.setWidth 16).signExtend 32 * (val.setWidth 16).signExtend 32)
      assignCfOf ((ax.setWidth 16).signExtend 32 * (val.setWidth 16).signExtend 32 ≠
        signExtend16_32 ((ax * val).setWidth 16))
    else do
      let val ← load .dword (s.opPtr insn.op1)
      let eax ← load .dword (.var .eax)
      -- a product of two 32-bit numbers, cut to `uint32_t` before it is widened
      setReg .edx 0
      setReg .eax (eax * val)
      assignCfOf ((eax * val).setWidth 64 ≠ signExtend32_64 (eax * val))
  else if insn.byte0 = 0x0F then do
    let rm ← load (if insn.op1.size = 2 then .word else .dword) (s.opPtr insn.op2)
    let r ← rmw (if insn.op1.size = 2 then .word else .dword) (regs insn.op1.reg) (· * rm)
    assignCfOf (imulTooBig (if insn.op1.size = 2 then .word else .dword) r.1 rm)
  else if insn.byte0 = 0x6B then
    if insn.opCount = 3 then
      if insn.op1.size = 2 then
        imulImm .word (regs insn.op1.reg) (s.opPtr insn.op2)
          ((signExtend8_16 (insn.op3.imm.setWidth 8)).setWidth 32)
      else
        imulImm .dword (regs insn.op1.reg) (s.opPtr insn.op2)
          (signExtend8_32 (insn.op3.imm.setWidth 8))
    else
      if insn.op1.size = 2 then
        imulImm .word (regs insn.op1.reg) (regs insn.op1.reg)
          ((signExtend8_16 (insn.op2.imm.setWidth 8)).setWidth 32)
      else
        imulImm .dword (regs insn.op1.reg) (regs insn.op1.reg)
          (signExtend8_32 (insn.op2.imm.setWidth 8))
  else
    if insn.opCount = 3 then
      imulImm (if insn.op1.size = 2 then .word else .dword) (regs insn.op1.reg)
        (s.opPtr insn.op2) (insn.op3.imm.setWidth 32)
    else do
      -- the product is overwritten: `res = *p = imm`
      let val ← load (if insn.op1.size = 2 then .word else .dword) (regs insn.op1.reg)
      store (if insn.op1.size = 2 then .word else .dword) (regs insn.op1.reg)
        (val * insn.op2.imm.setWidth 32)
      store (if insn.op1.size = 2 then .word else .dword) (regs insn.op1.reg)
        (insn.op2.imm.setWidth 32)
      assignCfOf false)
  return some 0

/-! ## Decimal adjustments -/

def alFlags (invertZero : Bool) : Exec Unit := do
  let al ← load .byte (.var .eax)
  assignFlag .SF (sign al 8)
  assignFlag .ZF (xor invertZero (zero al))
  assignFlag .PF (parity al)

/-- `*al & 0x0F > 9` is `*al & (0x0F > 9)`, the lowest bit of `AL`. -/
def aaaI : Handler := fun insn => do
  advance insn
  let al ← load .byte (.var .eax)
  let af ← testFlag .AF
  (if al &&& (if 0x0F > 9 then 1 else 0) ≠ 0 ∨ af then do
    store .byte (.var .eax) ((al + 6) &&& 0x0F)
    let ah ← loadHigh .eax
    storeHigh .eax (ah + 1)
    setFlag .AF
    setFlag .CF
  else do
    clearFlag .AF
    clearFlag .ZF)
  return some 0

/-- `zero(*al) ? clear_Flag(ZF) : set_Flag(ZF)`, here and in `aam_i`. -/
def aadI : Handler := fun insn => do
  advance insn
  let al ← load .byte (.var .eax)
  let ah ← loadHigh .eax
  store .byte (.var .eax) (ah * 10 + al)
  storeHigh .eax 0
  alFlags true
  return some 0

def aamI : Handler := fun insn => do
  advance insn
  let al ← load .byte (.var .eax)
  storeHigh .eax (al / 10)
  store .byte (.var .eax) (al % 10)
  alFlags true
  return some 0

def aasI : Handler := fun insn => do
  advance insn
  let al ← load .byte (.var .eax)
  let af ← testFlag .AF
  (if al &&& 0x0F > 9 ∨ af then do
    store .byte (.var .eax) ((al - 6) &&& 0x0F)
    let ah ← loadHigh .eax
    storeHigh .eax (ah - 1)
    setFlag .AF
    setFlag .CF
  else do
    clearFlag .AF
    clearFlag .CF)
  return some 0

/-- `daa_i` and `das_i`: the two adjustments of `AL`, by 6 and by 0x60. -/
def adjustAl (f : BitVec 32 → BitVec 32 → BitVec 32) : Handler := fun insn => do
  advance insn
  let al ← load .byte (.var .eax)
  let af ← testFlag .AF
  (if al &&& 0xF > 9 ∨ af then do
    store .byte (.var .eax) (f al 6)
    setFlag .AF
  else clearFlag .AF)
  let al ← load .byte (.var .eax)
  let cf ← testFlag .CF
  (if al > 0x9F ∨ cf then do
    store .byte (.var .eax) (f al 0x60)
    setFlag .CF
  else clearFlag .CF)
  alFlags false
  return some 0

def daaI : Handler := adjustAl (· + ·)

def dasI : Handler := adjustAl (· - ·)

end I386Vm
