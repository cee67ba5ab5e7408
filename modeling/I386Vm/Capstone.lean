import Mathlib.Data.Nat.Notation

/-!
# Decoded instructions

What the handlers read of Capstone's `cs_insn`: the mnemonic, the size, the opcode and prefix bytes
and up to eight operands. An operand is a union in C, and some handlers read it under another kind
than its own: `neg_i` and `not_i` take the first word of a memory operand, its segment, for a
register, `lods_i` takes a register for the segment of a memory operand, `or_i` and `xor_i` take
a register or an immediate for a memory operand, and `imul_i` takes a register or a memory operand
for an immediate. Those overlays are kept; the others, which no instruction of the i386 leads to,
read as zero.
-/

namespace I386Vm

/-- `x86_reg`, in the order of the tables `regs` and `regs_size`; the registers from id 50 on
(`CR0`, `DR7` and the rest) are past their end. -/
inductive X86Reg
  | invalid | ah | al | ax | bh | bl | bp | bpl | bx | ch
  | cl | cs | cx | dh | di | dil | dl | ds | dx | eax
  | ebp | ebx | ecx | edi | edx | eflags | eip | eiz | es | esi
  | esp | fpsw | fs | gs | ip | rax | rbp | rbx | rcx | rdi
  | rdx | rip | riz | rsi | rsp | si | sil | sp | spl | ss
  | other (id : ℕ)
  deriving DecidableEq

namespace X86Reg

/-- The registers of the tables, by their ids. -/
def ids : List X86Reg :=
  [invalid, ah, al, ax, bh, bl, bp, bpl, bx, ch, cl, cs, cx, dh, di, dil, dl, ds, dx, eax, ebp, ebx,
    ecx, edi, edx, eflags, eip, eiz, es, esi, esp, fpsw, fs, gs, ip, rax, rbp, rbx, rcx, rdi, rdx,
    rip, riz, rsi, rsp, si, sil, sp, spl, ss]

def ofId (id : ℕ) : X86Reg := ids.getD id (other id)

def id (r : X86Reg) : ℕ :=
  match r with
  | other id => id
  | r => ids.idxOf r

/-- `EIP`, `IP` and `EFLAGS`, which no instruction of 32-bit code has as an explicit operand. -/
def Control (r : X86Reg) : Prop := r = eip ∨ r = ip ∨ r = eflags

instance (r : X86Reg) : Decidable r.Control := inferInstanceAs (Decidable (_ ∨ _ ∨ _))

end X86Reg

inductive X86OpType
  | invalid | reg | imm | mem
  deriving DecidableEq

structure X86OpMem where
  segment : X86Reg
  base : X86Reg
  index : X86Reg
  scale : BitVec 32
  disp : BitVec 64
  deriving DecidableEq

/-- The tag and the union of a `cs_x86_op`. -/
inductive OpVal
  | invalid
  | reg (r : X86Reg)
  | imm (v : BitVec 64)
  | mem (m : X86OpMem)
  deriving DecidableEq

structure CsX86Op where
  val : OpVal
  size : BitVec 8
  deriving DecidableEq

namespace CsX86Op

def type (op : CsX86Op) : X86OpType :=
  match op.val with
  | .invalid => .invalid
  | .reg _ => .reg
  | .imm _ => .imm
  | .mem _ => .mem

def reg (op : CsX86Op) : X86Reg :=
  match op.val with
  | .invalid => .invalid
  | .reg r => r
  | .imm _ => .invalid
  | .mem m => m.segment

/-- A register lies in the low half, the segment and the base of a memory operand in both. -/
def imm (op : CsX86Op) : BitVec 64 :=
  match op.val with
  | .invalid => 0
  | .reg r => .ofNat 64 r.id
  | .imm v => v
  | .mem m => (.ofNat 32 m.base.id : BitVec 32) ++ (.ofNat 32 m.segment.id : BitVec 32)

/-- The segment and the base lie where an immediate has its low and its high half. -/
def mem (op : CsX86Op) : X86OpMem :=
  match op.val with
  | .invalid => ⟨.invalid, .invalid, .invalid, 0, 0⟩
  | .reg r => ⟨r, .invalid, .invalid, 0, 0⟩
  | .imm v => ⟨.ofId (v.setWidth 32).toNat, .ofId (v >>> 32).toNat, .invalid, 0, 0⟩
  | .mem m => m

/-- No register the operand names is `EIP`, `IP` or `EFLAGS`. -/
def Plain (op : CsX86Op) : Prop :=
  match op.val with
  | .invalid => True
  | .reg r => ¬ r.Control
  | .imm _ => True
  | .mem m => ¬ m.segment.Control ∧ ¬ m.base.Control ∧ ¬ m.index.Control

instance (op : CsX86Op) : Decidable op.Plain :=
  match op with
  | ⟨.invalid, _⟩ => isTrue trivial
  | ⟨.reg r, _⟩ => inferInstanceAs (Decidable (¬ r.Control))
  | ⟨.imm _, _⟩ => isTrue trivial
  | ⟨.mem m, _⟩ => inferInstanceAs (Decidable (¬ m.segment.Control ∧ _))

end CsX86Op

/-- `cs_insn` with its `detail->x86`. -/
structure CsInsn where
  mnemonic : String
  size : BitVec 16
  bytes : List (BitVec 8)
  prefixes : List (BitVec 8)
  opCount : BitVec 8
  operands : List CsX86Op

namespace CsInsn

variable (insn : CsInsn)

/-- `operands[i]`, zero-filled past the last operand. -/
def op (i : ℕ) : CsX86Op := insn.operands.getD i ⟨.invalid, 0⟩

abbrev op1 : CsX86Op := insn.op 0

abbrev op2 : CsX86Op := insn.op 1

abbrev op3 : CsX86Op := insn.op 2

def byte0 : BitVec 8 := insn.bytes.getD 0 0

/-- The repeat or lock prefix. -/
def prefix0 : BitVec 8 := insn.prefixes.getD 0 0

/-- The operand-size prefix. -/
def prefix2 : BitVec 8 := insn.prefixes.getD 2 0

/-- An instruction given by its mnemonic, size and operands alone, for concrete runs. -/
def bare (mnemonic : String) (size : BitVec 16) (operands : List CsX86Op) : CsInsn :=
  ⟨mnemonic, size, [], [], .ofNat 8 operands.length, operands⟩

/-- What Capstone promises of an instruction of 32-bit code: it has a length, and no operand names
`EIP`, `IP` or `EFLAGS`. -/
class Decoded : Prop where
  pos : 0 < insn.size
  le : insn.size ≤ 15
  plain : ∀ op ∈ insn.operands, op.Plain

end CsInsn

end I386Vm
