import I386Vm.Proofs.Abstraction
import I386Vm.Proofs.Logic

/-!
# Which instructions of the i386 a decoded instruction is

`CsInsn.Denotes` reads a decoded instruction as one of the i386, by its mnemonic and operands, and
`Instr.handler` is the handler that the dispatcher calls for it. `Instr.Supported` leaves out the
forms in which the handler accesses memory with another width or at another place than the
operand's.
-/

namespace I386Vm

open Bytes Prog

namespace Cond

def suffix : Cond → String
  | o => "o"
  | no => "no"
  | b => "b"
  | ae => "ae"
  | e => "e"
  | ne => "ne"
  | be => "be"
  | a => "a"
  | s => "s"
  | ns => "ns"
  | p => "p"
  | np => "np"
  | l => "l"
  | ge => "ge"
  | le => "le"
  | g => "g"

def jump : Cond → Handler
  | o => joI
  | no => jnoI
  | b => jbI
  | ae => jaeI
  | e => jeI
  | ne => jneI
  | be => jbeI
  | a => jaI
  | s => jsI
  | ns => jnsI
  | p => jpI
  | np => jnpI
  | l => jlI
  | ge => jgeI
  | le => jleI
  | g => jgI

def set : Cond → Handler
  | o => setoI
  | no => setnoI
  | b => setbI
  | ae => setaeI
  | e => seteI
  | ne => setneI
  | be => setbeI
  | a => setaI
  | s => setsI
  | ns => setnsI
  | p => setpI
  | np => setnpI
  | l => setlI
  | ge => setgeI
  | le => setleI
  | g => setgI

end Cond

namespace Alu

def mnemonic : Alu → String
  | add => "add"
  | adc => "adc"
  | sub => "sub"
  | sbb => "sbb"
  | cmp => "cmp"
  | and => "and"
  | or => "or"
  | xor => "xor"
  | test => "test"

def handler : Alu → Handler
  | add => addI
  | adc => adcI
  | sub => subI
  | sbb => sbbI
  | cmp => cmpI
  | and => andI
  | or => orI
  | xor => xorI
  | test => testI

end Alu

namespace Shift

def mnemonic : Shift → String
  | shl => "shl"
  | shr => "shr"
  | sar => "sar"

def handler : Shift → Handler
  | shl => shlI
  | shr => shrI
  | sar => sarI

end Shift

namespace Instr

def mnemonic : Instr → String
  | nop => "nop"
  | mov _ _ _ => "mov"
  | movzx _ _ _ _ => "movzx"
  | movsx _ _ _ _ => "movsx"
  | lea _ _ => "lea"
  | xchg _ _ _ => "xchg"
  | alu op _ _ _ => op.mnemonic
  | inc _ _ => "inc"
  | dec _ _ => "dec"
  | neg _ _ => "neg"
  | not _ _ => "not"
  | shift op _ _ _ => op.mnemonic
  | imul _ _ => "imul"
  | imulImm _ _ _ => "imul"
  | push _ => "push"
  | pop _ => "pop"
  | leave => "leave"
  | cwde => "cwde"
  | cdq => "cdq"
  | setcc k _ => "set" ++ k.suffix
  | clc => "clc"
  | stc => "stc"
  | cmc => "cmc"
  | jmp _ => "jmp"
  | jcc k _ => "j" ++ k.suffix
  | call _ => "call"
  | ret _ => "ret"

def handler : Instr → Handler
  | nop => nopI
  | mov _ _ _ => movI
  | movzx _ _ _ _ => movzxI
  | movsx _ _ _ _ => movsxI
  | lea _ _ => leaI
  | xchg _ _ _ => xchgI
  | alu op _ _ _ => op.handler
  | inc _ _ => incI
  | dec _ _ => decI
  | neg _ _ => negI
  | not _ _ => notI
  | shift op _ _ _ => op.handler
  | imul _ _ => imulI
  | imulImm _ _ _ => imulI
  | push _ => pushI
  | pop _ => popI
  | leave => leaveI
  | cwde => cwdeI
  | cdq => cdqI
  | setcc k _ => k.set
  | clc => clcI
  | stc => stcI
  | cmc => cmcI
  | jmp _ => jmpI
  | jcc k _ => k.jump
  | call _ => callI
  | ret _ => retI

end Instr

section Table

variable (host : Host)

set_option maxRecDepth 8000

theorem handlerOf_jump (k : Cond) : handlerOf host ("j" ++ k.suffix) = some k.jump := by
  cases k <;> rfl

theorem handlerOf_set (k : Cond) : handlerOf host ("set" ++ k.suffix) = some k.set := by
  cases k <;> rfl

theorem handlerOf_alu (op : Alu) : handlerOf host op.mnemonic = some op.handler := by
  cases op <;> rfl

theorem handlerOf_shift (op : Shift) : handlerOf host op.mnemonic = some op.handler := by
  cases op <;> rfl

theorem handlerOf_mnemonic (i : Instr) : handlerOf host i.mnemonic = some i.handler := by
  cases i with
  | alu op => exact handlerOf_alu host op
  | shift op => exact handlerOf_shift host op
  | setcc k => exact handlerOf_set host k
  | jcc k => exact handlerOf_jump host k
  | _ => rfl

end Table

/-- The operand is the count. -/
def CsX86Op.NamesCount (op : CsX86Op) : Count → Prop
  | .imm n => ∃ x : BitVec 64, op.val = .imm x ∧ x.setWidth 8 = n
  | .cl => op.val = .reg .cl

/-- The third operand is the immediate, a full one or one of a byte that is extended. -/
def CsInsn.HasFactor (insn : CsInsn) (v : BitVec 32) : Prop :=
  insn.opCount = 3 ∧ ∃ x : BitVec 64, insn.op3.val = .imm x ∧ x.setWidth 32 = v ∧
    (insn.byte0 = 0x69 ∨ insn.byte0 = 0x6B ∧ (x.setWidth 8).signExtend 64 = x)

/-- The operands of the instruction are those of the decoded one; `IMUL` has no prefix. -/
def Instr.Operands (insn : CsInsn) : Instr → Prop
  | mov w dst src => insn.op1.Names w dst ∧ insn.op2.NamesSrc w src
  | movzx w v dst src => insn.op1.Names w (.reg dst) ∧ insn.op2.Names v src
  | movsx w v dst src => insn.op1.Names w (.reg dst) ∧ insn.op2.Names v src
  | lea dst a => insn.op1.Names .dword (.reg dst) ∧
      (∃ m, insn.op2.val = .mem m ∧ m.Names a) ∧ insn.prefix0 ≠ 0x66
  | xchg w dst src => insn.op1.Names w dst ∧ insn.op2.Names w src
  | alu _ w dst src => insn.op1.Names w dst ∧ insn.op2.NamesSrc w src
  | inc w dst => insn.op1.Names w dst
  | dec w dst => insn.op1.Names w dst
  | neg w dst => insn.op1.Names w dst
  | not w dst => insn.op1.Names w dst
  | shift _ w dst count => insn.op1.Names w dst ∧ insn.op2.NamesCount count
  | imul dst src => insn.op1.Names .dword (.reg dst) ∧ insn.op2.Names .dword src ∧
      insn.byte0 = 0x0F
  | imulImm dst src v => insn.op1.Names .dword (.reg dst) ∧ insn.op2.Names .dword src ∧
      insn.HasFactor v
  | push src => insn.op1.NamesSrc .dword src
  | pop dst => insn.op1.Names .dword (.reg dst)
  | leave => insn.prefix0 ≠ 0x66
  | setcc _ dst => insn.op1.Names .byte dst
  | jmp target => insn.op1.NamesSrc .dword target
  | jcc _ target => insn.op1.NamesSrc .dword (.imm target)
  | call target => insn.op1.NamesSrc .dword target
  | ret bytes => insn.retBytes = bytes
  | _ => True

structure CsInsn.Denotes (insn : CsInsn) (i : Instr) : Prop where
  mnemonic : insn.mnemonic = i.mnemonic
  operands : i.Operands insn

theorem CsInsn.Denotes.dispatcher_eq {insn : CsInsn} {i : Instr} (h : insn.Denotes i)
    (host : Host) : dispatcher host insn.mnemonic insn = i.handler insn := by
  unfold dispatcher
  rw [h.mnemonic, handlerOf_mnemonic]

def Loc.IsMem : Loc → Prop
  | .reg _ => False
  | .mem _ => True

def Src.IsMem {w : Width} : Src w → Prop
  | .loc l => l.IsMem
  | .imm _ => False

/-- `sub_i` and `test_i` access memory as 32 bits, and `or_i` and `xor_i` change it elsewhere. -/
def Alu.Supported (op : Alu) (w : Width) (dst : Loc) (src : Src w) : Prop :=
  match op with
  | sub => dst.IsMem ∨ src.IsMem → w = .dword
  | test => (dst.IsMem → w = .dword) ∧ ¬ src.IsMem
  | or => ¬ dst.IsMem
  | xor => ¬ dst.IsMem
  | _ => True

/-- `mov_i` and `dec_i` write memory as 32 bits, `neg_i` and `not_i` take it for a register, and the
shifts refuse it; these take the count modulo the width. -/
def Instr.Supported : Instr → Prop
  | mov w dst _ => dst.IsMem → w = .dword
  | movzx w v _ _ => v.bytes < w.bytes
  | movsx w v _ _ => v.bytes < w.bytes
  | alu op w dst src => op.Supported w dst src
  | dec w dst => dst.IsMem → w = .dword
  | neg _ dst => ¬ dst.IsMem
  | not _ dst => ¬ dst.IsMem
  | shift _ w dst count => ¬ dst.IsMem ∧ (w = .dword ∨ ∃ n, count = .imm n ∧ n.toNat % 32 < w.bits)
  | _ => True

/-- The location does not run past the last address. -/
def Cpu.Fits (c : Cpu) (w : Width) (l : Loc) : Prop := (c.place l).Fits w

def Cpu.FitsSrc (c : Cpu) {w : Width} : Src w → Prop
  | .loc l => c.Fits w l
  | .imm _ => True

/-- None of the memory operands runs past the last address; the stack may. -/
def Instr.Fits (c : Cpu) : Instr → Prop
  | mov w dst src => c.Fits w dst ∧ c.FitsSrc src
  | movzx _ v _ src => c.Fits v src
  | movsx _ v _ src => c.Fits v src
  | xchg w dst src => c.Fits w dst ∧ c.Fits w src
  | alu _ w dst src => c.Fits w dst ∧ c.FitsSrc src
  | inc w dst => c.Fits w dst
  | dec w dst => c.Fits w dst
  | neg w dst => c.Fits w dst
  | not w dst => c.Fits w dst
  | shift _ w dst _ => c.Fits w dst
  | imul _ src => c.Fits .dword src
  | imulImm _ src _ => c.Fits .dword src
  | push src => c.FitsSrc src
  | setcc _ dst => c.Fits .byte dst
  | jmp target => c.FitsSrc target
  | call target => c.FitsSrc target
  | _ => True

namespace CsX86Op

variable {w : Width} {op : CsX86Op} {l : Loc} {src : Src w} {s : Machine}

theorem Names.type_mem (h : op.Names w l) : op.type = .mem ↔ l.IsMem := by
  rcases h.cases with ⟨r, x, rfl, rfl, -⟩ | ⟨a, m, rfl, rfl, -⟩
  · exact iff_of_false (by simp [type]) id
  · exact iff_of_true rfl trivial

theorem Names.type_reg (h : op.Names w l) (hl : ¬ l.IsMem) : op.type = .reg := by
  rcases h.cases with ⟨r, x, rfl, rfl, -⟩ | ⟨a, m, rfl, rfl, -⟩
  · rfl
  · exact absurd trivial hl

theorem NamesSrc.size (h : op.NamesSrc w src) : op.size = w.size := by
  cases src with
  | loc l => exact h.1
  | imm v => exact h.1

theorem NamesSrc.loc_or_imm (h : op.NamesSrc w src) : op.IsLoc w ∨ op.type = .imm := by
  cases src with
  | loc l => exact .inl h.isLoc
  | imm v =>
    obtain ⟨-, x, hx, -⟩ := h
    exact .inr (by simp [type, hx])

theorem NamesSrc.logic (h : op.NamesSrc w src) : op.IsLogicSource w :=
  h.loc_or_imm.imp_right fun ht => ⟨ht, h.size⟩

theorem NamesSrc.type_ne_mem (h : op.NamesSrc w src) (hs : ¬ src.IsMem) : op.type ≠ .mem := by
  cases src with
  | loc l => exact fun ht => hs (h.type_mem.1 ht)
  | imm v =>
    obtain ⟨-, x, hx, -⟩ := h
    simp [type, hx]

theorem NamesSrc.operand_eq (h : op.NamesSrc w src) (hf : s.abs.FitsSrc src) :
    op.operand w s = s.abs.operand src := by
  cases src with
  | loc l =>
    have hn : op.Names w l := h
    rw [hn.isLoc.operand_eq, Machine.value_names hn hf]
    rfl
  | imm v =>
    obtain ⟨-, x, hx, hv⟩ := h
    have ht : op.type = .imm := by simp [type, hx]
    unfold operand imm
    rw [if_pos ht, hx]
    exact hv

end CsX86Op

theorem Cpu.load_lt (c : Cpu) (w : Width) (p : Place) : (c.load w p).toNat < 2 ^ w.bits := by
  cases p with
  | reg r => exact toNat_low_lt _ _
  | mem a => exact toNat_readLE_lt _ _ _

theorem Cpu.operand_lt (c : Cpu) {w : Width} (src : Src w) :
    (c.operand src).toNat < 2 ^ w.bits := by
  cases src with
  | loc l => exact c.load_lt w _
  | imm v =>
    change (v.setWidth 32).toNat < 2 ^ w.bits
    rw [BitVec.toNat_setWidth]
    exact lt_of_le_of_lt (Nat.mod_le _ _) v.isLt

end I386Vm
