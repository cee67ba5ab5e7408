import I386Vm.Machine

/-!
# String instructions

The elements are addressed by `ESI` and `EDI` as offsets into `mem`; only the stores of `stos_i` go
through the segment `ES`. A repeated instruction does one element per dispatch and leaves `eip` in
place until `ECX` is zero.
-/

namespace I386Vm

/-- `!test_Flag(DF) ? n : -n` -/
def Machine.stride (s : Machine) (n : ℕ) : BitVec 32 :=
  if s.testFlag .DF then -BitVec.ofNat 32 n else BitVec.ofNat 32 n

/-- `v += !test_Flag(DF) ? n : -n` -/
def stepVar (v : Var) (n : ℕ) : Exec Unit := modify fun s => s.setReg v (s.reg v + s.stride n)

/-- `cmpsb_i`, `cmpsw_i`, `cmpsd_i`: the difference is cut to the width. -/
def cmps (w : Width) : Handler := fun insn => do
  advance insn
  let s ← get
  let op1 ← load w (.mem (s.reg .esi).toNat)
  let op2 ← load w (.mem (s.reg .edi).toNat)
  arithFlags (op1 < op2) op1 op2 (cut w (op1 - op2)) (w.size * 8)
  stepVar .edi w.bytes
  stepVar .esi w.bytes
  return some 0

def cmpsbI : Handler := cmps .byte

def cmpswI : Handler := cmps .word

def cmpsdI : Handler := cmps .dword

/-- The difference stays a 32-bit number, and `EDI` does not move. -/
def scasI : Handler := fun insn => do
  advance insn
  let s ← get
  let o1 ← load (widthOr32 insn.op1.size) (.var .eax)
  let o2 ← load (widthOr32 insn.op1.size) (.mem (s.reg .edi).toNat)
  arithFlags (o1 < o2) o1 o2 (o1 - o2) (insn.op1.size * 8)
  return some 0

/-- The address is read from the first operand, which is the accumulator. -/
def lodsI : Handler := fun insn => do
  advance insn
  let s ← get
  let val ← load (widthOr32 insn.op1.size) (.mem (s.effAddr insn.op1.mem).toNat)
  store (widthOr32 insn.op1.size) (.var .eax) val
  return some 0

def lodsOf (w : Width) : Handler := fun insn => do
  advance insn
  let s ← get
  let val ← load w (.mem (s.reg .esi).toNat)
  store w (.var .eax) val
  return some 0

def lodsbI : Handler := lodsOf .byte

def lodswI : Handler := lodsOf .word

def lodsdI : Handler := lodsOf .dword

/-- The store of one element, at `ES` and `EDI`. -/
def stosElem (w : Width) : Exec Unit := do
  let s ← get
  store w (.mem (s.getGdtBase ((s.reg .es).setWidth 16) + s.reg .edi).toNat) (s.reg .eax)
  stepVar .edi w.bytes

/-- It ends without a `return`. -/
def stosI : Handler := fun insn => do
  advance insn
  stosElem (widthOr32 insn.op1.size)
  return none

def decEcx : Exec Unit := modify fun s => s.setReg .ecx (s.reg .ecx - 1)

/-- `if (!ecx) eip += insn->size` -/
def advanceIfDone (insn : CsInsn) : Exec Unit := do
  let s ← get
  if s.reg .ecx = 0 then advance insn else return ()

def repStosI : Handler := fun insn => do
  stosElem (widthOr32 insn.op1.size)
  decEcx
  advanceIfDone insn
  return some 0

/-- The transfer of one element, without segments. -/
def movsElem (w : Width) : Exec Unit := do
  let s ← get
  let val ← load w (.mem (s.reg .esi).toNat)
  store w (.mem (s.reg .edi).toNat) val

def movsI : Handler := fun insn => do
  advance insn
  movsElem (widthOr32 insn.op1.size)
  stepVar .edi (widthOr32 insn.op1.size).bytes
  stepVar .esi (widthOr32 insn.op1.size).bytes
  return some 0

def repMovsI : Handler := fun insn => do
  movsElem (widthOr32 insn.op1.size)
  decEcx
  stepVar .edi (widthOr32 insn.op1.size).bytes
  stepVar .esi (widthOr32 insn.op1.size).bytes
  advanceIfDone insn
  return some 0

/-- `UNIMPLEMENTED` in the source, as is `rep_outs_i`. -/
def repInsI : Handler := fun insn => do
  advance insn
  return some 0

def repOutsI : Handler := fun insn => do
  advance insn
  return some 0

end I386Vm
