import I386Vm.Proofs.ResultFlags

/-!
# The i386

What the machine is to emulate: the processor of the manual with a flat address space, for the
instructions on general registers and memory that compilers emit most. There are no segments, no
privileges and no faults, and every address is there; an access wraps at `2^32`.

Words of every width are 32-bit words below `2^bits`, and what an instruction leaves in the flags is
said of the numbers they stand for. The flags that the manual leaves undefined, those of
`Instr.undefined`, stay.
-/

namespace I386Vm

open Bytes TwosComplement

inductive Gpr
  | eax | ecx | edx | ebx | esp | ebp | esi | edi
  deriving DecidableEq

@[ext] structure Cpu where
  reg : Gpr → BitVec 32
  eip : BitVec 32
  flag : Flag → Bool
  mem : BitVec 32 → BitVec 8

/-! ## Operands -/

/-- `[base + index * 2^scale + disp]` -/
structure Address where
  base : Option Gpr
  index : Option Gpr
  scale : Fin 4
  disp : BitVec 32

inductive Loc
  | reg (r : Gpr)
  | mem (a : Address)

/-- An immediate has the width of the instruction. -/
inductive Src (w : Width)
  | loc (l : Loc)
  | imm (v : BitVec w.bits)

/-- A location with its address computed. -/
inductive Place
  | reg (r : Gpr)
  | mem (a : BitVec 32)

namespace Cpu

variable (c : Cpu) (w : Width)

def goto (x : BitVec 32) : Cpu := { c with eip := x }

def setReg (r : Gpr) (x : BitVec 32) : Cpu := { c with reg := Function.update c.reg r x }

def setFlag (f : Flag) (b : Bool) : Cpu := { c with flag := Function.update c.flag f b }

/-- The bytes from an address on. -/
def bytesAt (a : BitVec 32) (k : ℕ) : BitVec 8 := c.mem (a + BitVec.ofNat 32 k)

def load : Place → BitVec 32
  | .reg r => low w.bits (c.reg r)
  | .mem a => readLE (c.bytesAt a) 0 w.bytes

def store (p : Place) (x : BitVec 32) : Cpu :=
  match p with
  | .reg r => c.setReg r (merge w.bits (c.reg r) x)
  | .mem a => { c with mem := fun b =>
      if (b - a).toNat < w.bytes then byteOf (b - a).toNat x else c.mem b }

def address (a : Address) : BitVec 32 :=
  a.base.elim 0 c.reg + a.index.elim 0 c.reg * BitVec.ofNat 32 (2 ^ (a.scale : ℕ)) + a.disp

def place : Loc → Place
  | .reg r => .reg r
  | .mem a => .mem (c.address a)

def get (l : Loc) : BitVec 32 := c.load w (c.place l)

def put (l : Loc) (x : BitVec 32) : Cpu := c.store w (c.place l) x

def operand {w : Width} : Src w → BitVec 32
  | .loc l => c.get w l
  | .imm v => v.setWidth 32

def push (x : BitVec 32) : Cpu :=
  (c.setReg .esp (c.reg .esp - 4)).store .dword (.mem (c.reg .esp - 4)) x

/-- The word on top of the stack. -/
def top : BitVec 32 := c.load .dword (.mem (c.reg .esp))

variable (p : Place) (x : BitVec 32)

@[simp] theorem flag_store : (c.store w p x).flag = c.flag := by
  cases p <;> rfl

@[simp] theorem eip_store : (c.store w p x).eip = c.eip := by
  cases p <;> rfl

/-- What is stored at a place is loaded from it. -/
theorem load_store : (c.store w p x).load w p = low w.bits x := by
  cases p with
  | reg r =>
    change low w.bits (Function.update c.reg r (merge w.bits (c.reg r) x) r) = _
    rw [Function.update_self, low_merge]
  | mem a =>
    refine readLE_of_bytes fun k hk => ?_
    have hk4 : k < 4 := by cases w <;> simp only [Width.bytes] at hk <;> omega
    have hsub : (a + BitVec.ofNat 32 (0 + k) - a).toNat = k := by
      rw [Nat.zero_add, BitVec.add_comm, BitVec.add_sub_cancel, BitVec.toNat_ofNat]
      omega
    change (if (a + BitVec.ofNat 32 (0 + k) - a).toNat < w.bytes then _ else _) = _
    rw [hsub, if_pos hk]

end Cpu

/-! ## Conditions -/

inductive Cond
  | o | no | b | ae | e | ne | be | a | s | ns | p | np | l | ge | le | g
  deriving DecidableEq

namespace Cond

def holds (flag : Flag → Bool) : Cond → Bool
  | o => flag .OF
  | no => !flag .OF
  | b => flag .CF
  | ae => !flag .CF
  | e => flag .ZF
  | ne => !flag .ZF
  | be => flag .CF || flag .ZF
  | a => !flag .CF && !flag .ZF
  | s => flag .SF
  | ns => !flag .SF
  | p => flag .PF
  | np => !flag .PF
  | l => flag .SF != flag .OF
  | ge => flag .SF == flag .OF
  | le => flag .ZF || flag .SF != flag .OF
  | g => !flag .ZF && flag .SF == flag .OF

/-- The flags that a condition looks at. -/
def flags : Cond → List Flag
  | o => [.OF]
  | no => [.OF]
  | b => [.CF]
  | ae => [.CF]
  | e => [.ZF]
  | ne => [.ZF]
  | be => [.CF, .ZF]
  | a => [.CF, .ZF]
  | s => [.SF]
  | ns => [.SF]
  | p => [.PF]
  | np => [.PF]
  | l => [.SF, .OF]
  | ge => [.SF, .OF]
  | le => [.ZF, .SF, .OF]
  | g => [.ZF, .SF, .OF]

end Cond

/-! ## The flags of an operation -/

structure Status where
  cf : Bool
  of : Bool
  sf : Bool
  zf : Bool
  af : Bool
  pf : Bool

/-- `SF`, `ZF` and `PF` describe the result. -/
def Status.ofResult (w : Width) (r : BitVec 32) (cf of af : Bool) : Status where
  cf := cf
  of := of
  sf := 2 ^ (w.bits - 1) ≤ r.toNat
  zf := r.toNat = 0
  af := af
  pf := EvenParity r.toNat

/-- The six flags, and the others as they were. -/
def Status.over (st : Status) (old : Flag → Bool) : Flag → Bool
  | .CF => st.cf
  | .OF => st.of
  | .SF => st.sf
  | .ZF => st.zf
  | .AF => st.af
  | .PF => st.pf
  | f => old f

def Cpu.setStatus (c : Cpu) (st : Status) : Cpu := { c with flag := st.over c.flag }

/-- The operations on two operands that set the flags. -/
inductive Alu
  | add | adc | sub | sbb | cmp | and | or | xor | test
  deriving DecidableEq

namespace Alu

def carryIn (op : Alu) (cf : Bool) : ℕ :=
  match op with
  | adc => cf.toNat
  | sbb => cf.toNat
  | _ => 0

/-- `CMP` and `TEST` set the flags alone. -/
def Writes (op : Alu) : Prop := op ≠ cmp ∧ op ≠ test

instance (op : Alu) : Decidable op.Writes := inferInstanceAs (Decidable (_ ∧ _))

variable (w : Width) (a b : BitVec 32) (k : ℕ)

def sum : BitVec 32 := low w.bits (a + (b + BitVec.ofNat 32 k))

def difference : BitVec 32 := low w.bits (a - b - BitVec.ofNat 32 k)

def sumStatus : Status :=
  .ofResult w (sum w a b k) (2 ^ w.bits ≤ a.toNat + b.toNat + k)
    (¬ InRange (2 ^ (w.bits - 1)) (w.signed a + w.signed b + k))
    (16 ≤ a.toNat % 16 + b.toNat % 16 + k)

def differenceStatus : Status :=
  .ofResult w (difference w a b k) (a.toNat < b.toNat + k)
    (¬ InRange (2 ^ (w.bits - 1)) (w.signed a - w.signed b - k))
    (a.toNat % 16 < b.toNat % 16 + k)

def result : Alu → BitVec 32
  | add => sum w a b k
  | adc => sum w a b k
  | sub => difference w a b k
  | sbb => difference w a b k
  | cmp => difference w a b k
  | and => a &&& b
  | or => a ||| b
  | xor => a ^^^ b
  | test => a &&& b

def status (af : Bool) (op : Alu) : Status :=
  match op with
  | add => sumStatus w a b k
  | adc => sumStatus w a b k
  | sub => differenceStatus w a b k
  | sbb => differenceStatus w a b k
  | cmp => differenceStatus w a b k
  | _ => .ofResult w (op.result w a b k) false false af

end Alu

/-! ## Shifts -/

inductive Shift
  | shl | shr | sar
  deriving DecidableEq

/-- An immediate or `CL`. -/
inductive Count
  | imm (n : BitVec 8)
  | cl

/-- The count modulo 32. -/
def Cpu.count (c : Cpu) : Count → ℕ
  | .imm n => n.toNat % 32
  | .cl => (low 8 (c.reg .ecx)).toNat % 32

namespace Shift

variable (w : Width) (x : BitVec 32) (k : ℕ)

def result : Shift → BitVec 32
  | shl => low w.bits (x <<< k)
  | shr => x >>> k
  | sar => low w.bits (((x.setWidth w.bits).signExtend 32).sshiftRight k)

/-- The last bit that is shifted out. -/
def carry : Shift → Bool
  | shl => x.getLsbD (w.bits - k)
  | shr => x.getLsbD (k - 1)
  | sar => ((x.setWidth w.bits).signExtend 32).getLsbD (k - 1)

/-- `OF` of a shift by 1: whether it changes the sign. -/
def overflow : Shift → Bool
  | shl => (result w x 1 shl).getLsbD (w.bits - 1) != carry w x 1 shl
  | shr => x.getLsbD (w.bits - 1)
  | sar => false

def status (old : Flag → Bool) (op : Shift) : Status :=
  .ofResult w (op.result w x k) (op.carry w x k)
    (if k = 1 then op.overflow w x else old .OF) (old .AF)

end Shift

/-- A shift by 0 changes no flag. -/
def Cpu.shift (c : Cpu) (op : Shift) (w : Width) (dst : Loc) (k : ℕ) : Cpu :=
  if k = 0 then c
  else (c.put w dst (op.result w (c.get w dst) k)).setStatus (op.status w (c.get w dst) k c.flag)

/-! ## Products -/

/-- The low half of the signed product, and whether that is not all of it in `CF` and `OF`. -/
def Cpu.multiply (c : Cpu) (dst : Gpr) (a b : BitVec 32) : Cpu :=
  let cut : Bool := ¬ InRange (2 ^ 31) (a.toInt * b.toInt)
  ((c.setReg dst (a * b)).setFlag .CF cut).setFlag .OF cut

/-! ## Instructions -/

inductive Instr
  | nop
  | mov (w : Width) (dst : Loc) (src : Src w)
  | movzx (w v : Width) (dst : Gpr) (src : Loc)
  | movsx (w v : Width) (dst : Gpr) (src : Loc)
  | lea (dst : Gpr) (a : Address)
  | xchg (w : Width) (dst src : Loc)
  | alu (op : Alu) (w : Width) (dst : Loc) (src : Src w)
  | inc (w : Width) (dst : Loc)
  | dec (w : Width) (dst : Loc)
  | neg (w : Width) (dst : Loc)
  | not (w : Width) (dst : Loc)
  | shift (op : Shift) (w : Width) (dst : Loc) (count : Count)
  | imul (dst : Gpr) (src : Loc)
  | imulImm (dst : Gpr) (src : Loc) (v : BitVec 32)
  | push (src : Src .dword)
  | pop (dst : Gpr)
  | leave
  | cwde
  | cdq
  | setcc (k : Cond) (dst : Loc)
  | clc
  | stc
  | cmc
  | jmp (target : Src .dword)
  | jcc (k : Cond) (target : BitVec 32)
  | call (target : Src .dword)
  | ret (bytes : BitVec 32)

/-- What an instruction of `n` bytes at `eip` does. -/
def Instr.exec (i : Instr) (n : BitVec 32) (c : Cpu) : Cpu :=
  let next := c.eip + n
  match i with
  | nop => c.goto next
  | mov w dst src => (c.put w dst (c.operand src)).goto next
  | movzx w v dst src => (c.put w (.reg dst) (c.get v src)).goto next
  | movsx w v dst src =>
    (c.put w (.reg dst) (((c.get v src).setWidth v.bits).signExtend 32)).goto next
  | lea dst a => (c.setReg dst (c.address a)).goto next
  | xchg w dst src =>
    ((c.put w src (c.get w dst)).store w (c.place dst) (c.get w src)).goto next
  | alu op w dst src =>
    let a := c.get w dst
    let b := c.operand src
    let k := op.carryIn (c.flag .CF)
    ((if op.Writes then c.put w dst (op.result w a b k) else c).setStatus
      (op.status w a b k (c.flag .AF))).goto next
  | inc w dst =>
    let a := c.get w dst
    ((c.put w dst (Alu.sum w a 1 0)).setStatus
      { Alu.sumStatus w a 1 0 with cf := c.flag .CF }).goto next
  | dec w dst =>
    let a := c.get w dst
    ((c.put w dst (Alu.difference w a 1 0)).setStatus
      { Alu.differenceStatus w a 1 0 with cf := c.flag .CF }).goto next
  | neg w dst =>
    let a := c.get w dst
    ((c.put w dst (Alu.difference w 0 a 0)).setStatus (Alu.differenceStatus w 0 a 0)).goto next
  | not w dst => (c.put w dst (~~~c.get w dst)).goto next
  | shift op w dst count => (c.shift op w dst (c.count count)).goto next
  | imul dst src => (c.multiply dst (c.reg dst) (c.get .dword src)).goto next
  | imulImm dst src v => (c.multiply dst (c.get .dword src) v).goto next
  | push src => (c.push (c.operand src)).goto next
  | pop dst => ((c.setReg .esp (c.reg .esp + 4)).setReg dst c.top).goto next
  | leave =>
    ((c.setReg .esp (c.reg .ebp + 4)).setReg .ebp (c.load .dword (.mem (c.reg .ebp)))).goto next
  | cwde => (c.setReg .eax (((c.reg .eax).setWidth 16).signExtend 32)).goto next
  | cdq => (c.setReg .edx (if (c.reg .eax).msb then -1 else 0)).goto next
  | setcc k dst => (c.put .byte dst (if k.holds c.flag then 1 else 0)).goto next
  | clc => (c.setFlag .CF false).goto next
  | stc => (c.setFlag .CF true).goto next
  | cmc => (c.setFlag .CF (!c.flag .CF)).goto next
  | jmp target => c.goto (c.operand target)
  | jcc k target => c.goto (if k.holds c.flag then target else next)
  | call target => (c.push next).goto (c.operand target)
  | ret bytes => (c.setReg .esp (c.reg .esp + 4 + bytes)).goto c.top

def Alu.undefined : Alu → List Flag
  | and => [.AF]
  | or => [.AF]
  | xor => [.AF]
  | test => [.AF]
  | _ => []

/-- Of a shift by `k`. -/
def Shift.undefined (w : Width) (k : ℕ) (op : Shift) : List Flag :=
  if k = 0 then []
  else .AF :: ((if k = 1 then [] else [.OF]) ++ if w.bits ≤ k ∧ op ≠ sar then [.CF] else [])

/-- The flags that the manual leaves undefined. -/
def Instr.undefined (c : Cpu) : Instr → List Flag
  | alu op _ _ _ => op.undefined
  | shift op w _ count => op.undefined w (c.count count)
  | imul _ _ => [.SF, .ZF, .AF, .PF]
  | imulImm _ _ _ => [.SF, .ZF, .AF, .PF]
  | _ => []

end I386Vm
