import I386Vm.Machine

/-!
# Bit tests, scans, shifts and rotations

Every C shift here goes through `shiftAmount`, so that a handler which shifts by a negative amount
or by 32 and more ends in a `Fault`.
-/

namespace I386Vm

open Bytes

/-- `a % b` of the handlers, where a zero `b` stops the host. -/
def modulo (a b : ℕ) : Exec ℕ := if b = 0 then throw .divide else return a % b

/-- `while ((val >> temp) & 0x1 == 0) { temp += step; *p = temp; }`, which C reads as
`(val >> temp) & (0x1 == 0)`. -/
def scan (w : Width) (p : Ptr) (val : BitVec 32) (step : ℤ) : ℕ → ℤ → Exec Unit
  | 0, _ => throw .loop
  | n + 1, temp => do
    let k ← shiftAmount temp
    if (val >>> k) &&& (if (1 : ℕ) = 0 then 1 else 0) ≠ 0 then do
      store w p (BitVec.ofInt 32 (temp + step))
      scan w p val step n (temp + step)
    else return ()

/-- `bsf_i` and `bsr_i`: where the loop starts by the width, and its direction. -/
def bitScan (start : Width → ℤ) (step : ℤ) : Handler := fun insn => do
  advance insn
  let val ← srcBySize insn.op2
  if val = 0 then do
    setFlag .ZF
    return some 0
  else if insn.op1.type ≠ .reg then return some (-1)
  else do
    clearFlag .ZF
    (if regsSize insn.op1.reg = 0x10 then
      scan .word (regs insn.op1.reg) val step 33 (start .word)
    else scan .dword (regs insn.op1.reg) val step 33 (start .dword))
    return some 0

def bsfI : Handler := bitScan (fun _ => 0) 1

def bsrI : Handler := bitScan (fun w => if w = .word then 15 else 31) (-1)

/-- `b == 0x1` selects 16 bits, which no size of `regs_size` is. -/
def widthBt (b : BitVec 8) : Width := if b = 0x1 then .word else .dword

/-- The bit offset and its modulus: a register is read with its own size, the modulus of an
immediate is 8. -/
def bitOffset (op : CsX86Op) : Exec (BitVec 32 × BitVec 8) := do
  if op.type = .reg then do
    let val2 ← load (widthBt (regsSize op.reg)) (regs op.reg)
    return (val2, regsSize op.reg)
  else return (op.imm.setWidth 32, 0x8)

/-- The value of a memory operand is chosen by the sizes of both operands. -/
def btI : Handler := fun insn => do
  advance insn
  let s ← get
  let val1 ← (if insn.op1.type = .reg then
      load (widthBt (regsSize insn.op1.reg)) (regs insn.op1.reg)
    else
      load (if insn.op1.size = 4 then .dword else if insn.op2.size = 2 then .word else .byte)
        (.mem (s.effAddr insn.op1.mem).toNat))
  let off ← bitOffset insn.op2
  let j ← modulo off.1.toNat off.2.toNat
  let k ← shiftAmount j
  assignFlag .CF (val1 >>> k ≠ 0)
  return some 0

/-- `*p = f(*p, 2^(val2 % b))`, with `CF` from the value before. -/
def bitModify (w : Width) (p : Ptr) (val2 : BitVec 32) (b : BitVec 8)
    (f : BitVec 32 → BitVec 32 → BitVec 32) : Exec Unit := do
  let val1 ← load w p
  let j ← modulo val2.toNat b.toNat
  let k ← shiftAmount j
  assignFlag .CF (val1 >>> k ≠ 0)
  store w p (f val1 (powI 2 k))

/-- `btc_i` and `btr_i`: with a memory operand the value is copied through a pointer that was never
set. -/
def bitChange (f : Width → BitVec 32 → BitVec 32 → BitVec 32) : Handler := fun insn => do
  advance insn
  let off ← bitOffset insn.op2
  (if insn.op1.type = .reg then
    bitModify (widthBt (regsSize insn.op1.reg)) (regs insn.op1.reg) off.1 (regsSize insn.op1.reg)
      (f (widthBt (regsSize insn.op1.reg)))
  else throw .wild)
  return some 0

def btcI : Handler := bitChange fun _ val1 pow => val1 ^^^ pow

def btrI : Handler := bitChange fun w val1 pow =>
  val1 &&& ((if w = .word then 0xFFFF else 0xFFFFFFFF) - pow)

/-- A memory operand is taken as 32 bits. -/
def btsI : Handler := fun insn => do
  advance insn
  let off ← bitOffset insn.op2
  let s ← get
  (if insn.op1.type = .reg then
    bitModify (widthBt (regsSize insn.op1.reg)) (regs insn.op1.reg) off.1 (regsSize insn.op1.reg)
      (· ||| ·)
  else bitModify .dword (.mem (s.effAddr insn.op1.mem).toNat) off.1 0x20 (· ||| ·))
  return some 0

/-- The `uint8_t` count: an immediate, or the low byte of a register. -/
def countOf (op : CsX86Op) : Exec (BitVec 32) := do
  if op.type = .imm then return (op.imm.setWidth 8).setWidth 32
  else load .byte (regs op.reg)

def shiftFlags (res : BitVec 32) (base : BitVec 8) : Exec Unit := do
  assignFlag .ZF (zero res)
  assignFlag .PF (parity res)
  assignFlag .SF (sign res base)

/-- `sal_i` and `shl_i`. The `msb_before` of the source is the sign bit after the shift. -/
def shiftLeft : Handler := fun insn => do
  advance insn
  let n ← countOf insn.op2
  let count ← modulo n.toNat (insn.op1.size.toNat * 8)
  if count = 0 then return some 0
  else if insn.op1.type ≠ .reg then return some (-1)
  else do
    let val ← load (widthOr32 insn.op1.size) (regs insn.op1.reg)
    let k ← shiftAmount (insn.op1.size.toNat * 8 - count)
    assignFlag .CF ((val >>> k) &&& 1 ≠ 0)
    let j ← shiftAmount count
    store (widthOr32 insn.op1.size) (regs insn.op1.reg) (val <<< j)
    let res ← load (widthOr32 insn.op1.size) (regs insn.op1.reg)
    let cf ← testFlag .CF
    (if count = 1 then
      assignFlag .OF (xor ((res >>> (insn.op1.size.toNat * 8 - 1)) &&& 1 ≠ 0) cf)
    else return ())
    shiftFlags res (insn.op1.size * 8)
    return some 0

def salI : Handler := shiftLeft

def shlI : Handler := shiftLeft

def asSigned (w : Width) (v : BitVec 32) : BitVec 32 :=
  match w with
  | .byte => (v.setWidth 8).signExtend 32
  | .word => (v.setWidth 16).signExtend 32
  | .dword => v

def sarI : Handler := fun insn => do
  advance insn
  let n ← countOf insn.op2
  let count ← modulo n.toNat (insn.op1.size.toNat * 8)
  if count = 0 then return some 0
  else if insn.op1.type ≠ .reg then return some (-1)
  else do
    let val ← load (widthOr32 insn.op1.size) (regs insn.op1.reg)
    let k ← shiftAmount (count - 1)
    assignFlag .CF ((asSigned (widthOr32 insn.op1.size) val).sshiftRight k &&& 1 ≠ 0)
    let j ← shiftAmount count
    store (widthOr32 insn.op1.size) (regs insn.op1.reg)
      ((asSigned (widthOr32 insn.op1.size) val).sshiftRight j)
    let res ← load (widthOr32 insn.op1.size) (regs insn.op1.reg)
    (if count = 1 then clearFlag .OF else return ())
    shiftFlags res (insn.op1.size * 8)
    return some 0

/-- `OF` of a single shift is the sign bit of the result; of a longer one it is cleared. -/
def shrI : Handler := fun insn => do
  advance insn
  let n ← countOf insn.op2
  let count ← modulo n.toNat (insn.op1.size.toNat * 8)
  if count = 0 then return some 0
  else if insn.op1.type ≠ .reg then return some (-1)
  else do
    let val ← load (widthOr32 insn.op1.size) (regs insn.op1.reg)
    let k ← shiftAmount (count - 1)
    assignFlag .CF ((val >>> k) &&& 1 ≠ 0)
    let j ← shiftAmount count
    store (widthOr32 insn.op1.size) (regs insn.op1.reg) (val >>> j)
    let res ← load (widthOr32 insn.op1.size) (regs insn.op1.reg)
    (if count = 1 then do
      let m ← shiftAmount (insn.op1.size.toNat * 8 - 1)
      assignFlag .OF (res &&& (1 <<< m) ≠ 0)
    else clearFlag .OF)
    shiftFlags res (insn.op1.size * 8)
    return some 0

/-- `UNIMPLEMENTED` in the source. -/
def shldI : Handler := fun insn => do
  advance insn
  return some 0

/-- The width is that of the second operand, and the 16-bit flags are those of the source
register. A second operand of neither 2 nor 4 bytes leaves `r16` unset. -/
def shrdI : Handler := fun insn => do
  advance insn
  let count ← countOf insn.op3
  let s ← get
  if insn.op2.type ≠ .reg then return some 1
  else if count.toNat % 32 = 0 then return some 0
  else if insn.op2.size ≠ 4 ∧ insn.op2.size ≠ 2 then throw .wild
  else do
    let _ ← load (widthOr32 insn.op2.size) (regs insn.op2.reg)
    if insn.op2.size.toNat * 8 ≤ count.toNat % 32 then return some 0
    else do
      let x ← load (widthOr32 insn.op2.size) (s.opPtr insn.op1)
      let j ← shiftAmount (count.toNat % 32)
      let k ← shiftAmount (j - 1)
      assignFlag .CF ((x >>> k) &&& 1 ≠ 0)
      store (widthOr32 insn.op2.size) (s.opPtr insn.op1) (x >>> j)
      let m ← shiftAmount (insn.op2.size.toNat * 8 - j)
      let temp ← load (widthOr32 insn.op2.size) (regs insn.op2.reg)
      let z ← load (widthOr32 insn.op2.size) (s.opPtr insn.op1)
      store (widthOr32 insn.op2.size) (s.opPtr insn.op1) (z ||| (temp <<< m))
      let res ← load (widthOr32 insn.op2.size)
        (if insn.op2.size = 4 then s.opPtr insn.op1 else regs insn.op2.reg)
      assignFlag .SF (sign res (insn.op2.size * 8))
      assignFlag .ZF (zero res)
      assignFlag .PF (parity res)
      return some 0

def rolI : Handler := fun insn => do
  advance insn
  let n ← countOf insn.op2
  let s ← get
  let count ← modulo n.toNat (insn.op1.size.toNat * 8)
  let val ← load (widthOr32 insn.op1.size) (s.opPtr insn.op1)
  let k ← shiftAmount (insn.op1.size.toNat * 8 - count)
  let j ← shiftAmount count
  store (widthOr32 insn.op1.size) (s.opPtr insn.op1) ((val <<< j) ||| (val >>> k))
  assignFlag .CF ((val >>> k) &&& 1 ≠ 0)
  return some 0

def rorI : Handler := fun insn => do
  advance insn
  let n ← countOf insn.op2
  let s ← get
  let count ← modulo n.toNat (insn.op1.size.toNat * 8)
  let val ← load (widthOr32 insn.op1.size) (s.opPtr insn.op1)
  let k ← shiftAmount (insn.op1.size.toNat * 8 - count)
  let j ← shiftAmount count
  store (widthOr32 insn.op1.size) (s.opPtr insn.op1) ((val >>> j) ||| (val <<< k))
  assignFlag .CF ((low (widthOr32 insn.op1.size).bits (val <<< k) >>> k) &&& 1 ≠ 0)
  return some 0

def rclI : Handler := fun insn => do
  advance insn
  let n ← countOf insn.op2
  let s ← get
  let count ← modulo n.toNat (insn.op1.size.toNat * 8 + 1)
  let val ← load (widthOr32 insn.op1.size) (s.opPtr insn.op1)
  let k ← shiftAmount (insn.op1.size.toNat * 8 + 1 - count)
  let i ← shiftAmount (count - 1)
  let m ← shiftAmount (insn.op1.size.toNat * 8 - count)
  let j ← shiftAmount count
  assignFlag .CF (val >>> m ≠ 0)
  store (widthOr32 insn.op1.size) (s.opPtr insn.op1)
    ((val <<< j) ||| ((val >>> k) ||| (s.carry <<< i)))
  return some 0

def rcrI : Handler := fun insn => do
  advance insn
  let n ← countOf insn.op2
  let s ← get
  let count ← modulo n.toNat (insn.op1.size.toNat * 8 + 1)
  let val ← load (widthOr32 insn.op1.size) (s.opPtr insn.op1)
  let k ← shiftAmount (insn.op1.size.toNat * 8 + 1 - count)
  let j ← shiftAmount count
  let i ← shiftAmount (count - 1)
  assignFlag .CF ((val >>> i) &&& 1 ≠ 0)
  store (widthOr32 insn.op1.size) (s.opPtr insn.op1)
    ((val >>> j) ||| ((val <<< k) ||| (s.carry <<< j)))
  return some 0

end I386Vm
