import I386Vm.Lib.Leads
import I386Vm.Proofs.ControlFlow
import I386Vm.Proofs.Exit
import I386Vm.Proofs.FlagUse
import I386Vm.Proofs.Scalings

/-!
# The loop against the i386

One instruction first: whatever the dispatcher calls for a supported instruction ends with 0, and
leaves the registers, memory, `eip` and each flag that the i386 does, of those that are not
undefined, exactly where `Instr.Faithful` and `Instr.Right` say (`dispatcher_refines`).

Then a run. Beside the i386 there is kept which flags the machine is known to have the same. As long
as every instruction is supported, its operands fit, it looks at known flags alone and it is
faithful, the loop follows the run, and at the next instruction that meets the first three it goes
wrong just where that one is not faithful (`loop_follows`).
-/

namespace I386Vm

open Bytes Relation

section Instruction

variable {insn : CsInsn} {i : Instr} {s : Machine}

theorem handler_refines (h : i.Operands insn) (hs : i.Supported) (hf : i.Fits s.abs) :
    ∃ t, (i.handler insn).run s = .ok (some 0, t) ∧
      Refines i (insn.size.setWidth 32) s t := by
  cases i with
  | nop => exact nopI_refines
  | mov w dst src => exact movI_refines h.1 h.2 hf.1 hf.2 hs
  | movzx w v dst src => exact movzxI_refines h.1 h.2 hf hs
  | movsx w v dst src => exact movsxI_refines h.1 h.2 hf hs
  | lea dst a =>
    obtain ⟨h1, ⟨m, h2, hm⟩, hpre⟩ := h
    exact leaI_refines h1 h2 hm hpre
  | xchg w dst src => exact xchgI_refines h.1 h.2 hf.1 hf.2
  | alu op w dst src => exact alu_refines h.1 h.2 hf.1 hf.2 hs
  | inc w dst => exact incI_refines h hf
  | dec w dst => exact decI_refines h hf hs
  | neg w dst =>
    rcases dst with r | a
    · exact negI_refines h
    · exact absurd trivial hs
  | not w dst =>
    rcases dst with r | a
    · exact notI_refines h
    · exact absurd trivial hs
  | shift op w dst count =>
    rcases dst with r | a
    · exact shift_refines h.1 h.2 hs
    · exact absurd trivial hs.1
  | imul dst src => exact imulI_refines h.1 h.2.1 hf h.2.2
  | imulImm dst src v => exact imulImm_refines h.1 h.2.1 hf h.2.2
  | push src => exact pushI_refines h hf
  | pop dst => exact popI_refines h
  | leave => exact leaveI_refines h
  | cwde => exact cwdeI_refines
  | cdq => exact cdqI_refines
  | setcc k dst => exact setcc_refines h hf
  | clc => exact clcI_refines
  | stc => exact stcI_refines
  | cmc => exact cmcI_refines
  | jmp target => exact jmpI_refines h hf
  | jcc k target => exact jcc_refines h
  | call target => exact callI_refines h hf
  | ret bytes =>
    obtain rfl := h
    exact retI_refines

/-- What the dispatcher calls for an instruction does what the i386 does, exactly where it says. -/
theorem dispatcher_refines (host : Host) (hd : insn.Denotes i) (hs : i.Supported)
    (hf : i.Fits s.abs) : ∃ t, (dispatcher host insn.mnemonic insn).run s = .ok (some 0, t) ∧
      Refines i (insn.size.setWidth 32) s t := by
  rw [hd.dispatcher_eq]
  exact handler_refines hd.operands hs hf

end Instruction

theorem subAlBl_denotes : subAlBl.Denotes (.alu .sub .byte (.reg .eax) (.loc (.reg .ebx))) :=
  ⟨rfl, ⟨rfl, rfl⟩, rfl, rfl⟩

/-- `SUB AL, BL` of 3 and 5. -/
theorem dispatcher_refines_sub : ∃ t, (dispatcher .silent "sub" subAlBl).run (twice 3 5) =
      .ok (some 0, t) ∧
    Refines (.alu .sub .byte (.reg .eax) (.loc (.reg .ebx))) 2 (twice 3 5) t :=
  @dispatcher_refines subAlBl _ (twice 3 5) .silent subAlBl_denotes
    (fun h => h.elim False.elim False.elim) ⟨trivial, trivial⟩

/-- The instruction that the bytes at an address begin with, and its length. -/
structure Code where
  decode : (ℕ → BitVec 8) → BitVec 32 → Option (Instr × BitVec 32)
  congr : ∀ {b b' : ℕ → BitVec 8} {a : BitVec 32} {i : Instr} {n : BitVec 32},
    decode b a = some (i, n) → (∀ k < n.toNat, b' k = b k) → decode b' a = some (i, n)

/-- `cs_disasm` gives the instruction when it has its bytes. -/
def Reads (disasm : Disasm) (code : Code) : Prop :=
  ∀ b a (len : BitVec 32) i n, code.decode b a = some (i, n) → n.toNat ≤ len.toNat →
    ∃ insn, disasm b a len = some insn ∧ insn.Denotes i ∧ insn.size.setWidth 32 = n

/-- The loop goes on. -/
def LoopTurn (host : Host) (disasm : Disasm) (limit : BitVec 32) (s t : Machine) : Prop :=
  iteration host disasm limit s = .ok (some t)

/-- The i386, and the flags that the machine is known to have the same. -/
structure Tracked where
  cpu : Cpu
  known : Flag → Prop

namespace Tracked

variable (code : Code) (limit : BitVec 32) (x : Tracked) (i : Instr) (n : BitVec 32)

/-- The next instruction, of `n` bytes below the end of the program and of memory, is one that the
handlers support, and looks at known flags alone. -/
structure Ready : Prop where
  fetched : code.decode (x.cpu.bytesAt x.cpu.eip) x.cpu.eip = some (i, n)
  inside : n.toNat ≤ (limit - x.cpu.eip).toNat
  below : x.cpu.eip.toNat + n.toNat ≤ 2 ^ 32
  supported : i.Supported
  fits : i.Fits x.cpu
  known : ∀ f ∈ i.reads, x.known f

def next : Tracked where
  cpu := i.exec n x.cpu
  known f := f ∉ i.undefined x.cpu ∧ (i.Sets x.cpu f ∨ x.known f) ∧ i.Right x.cpu f

/-- The machine stands for the i386, but for the flags that are not known. -/
structure Shown (s : Machine) : Prop where
  data : s.abs.Alike x.cpu
  flags : ∀ f, x.known f → s.testFlag f = x.cpu.flag f

end Tracked

/-- The next iteration does to the registers, memory and `eip` what the i386 does exactly where the
instruction is faithful, and leaves a flag that it should have known exactly where it is right. -/
def NextExact (host : Host) (disasm : Disasm) (code : Code) (limit : BitVec 32) (x : Tracked)
    (s : Machine) : Prop :=
  ∀ i n, x.Ready code limit i n → ∃ t, LoopTurn host disasm limit s t ∧
    (t.abs.Alike (i.exec n x.cpu) ↔ i.Faithful n x.cpu) ∧
    ∀ f ∉ i.undefined x.cpu, i.Sets x.cpu f ∨ x.known f →
      (t.testFlag f = (i.exec n x.cpu).flag f ↔ i.Right x.cpu f)

inductive TrackedStep (code : Code) (limit : BitVec 32) : Tracked → Tracked → Prop
  | exec {x : Tracked} {i : Instr} {n : BitVec 32} (ready : x.Ready code limit i n)
      (faithful : i.Faithful n x.cpu) : TrackedStep code limit x (x.next i n)

/-- The rule of one instruction. -/
theorem leads_exec {code : Code} {limit : BitVec 32} {P Q : Tracked → Prop} (h : ∀ x, P x → ∃ i n,
    x.Ready code limit i n ∧ i.Faithful n x.cpu ∧ Q (x.next i n)) :
    Leads (TrackedStep code limit) P Q := by
  intro x hx
  obtain ⟨i, n, hr, hf, hq⟩ := h x hx
  exact ⟨_, .single (.exec hr hf), hq⟩

/-- The program is in memory, below its end and that of the loop. -/
structure Loaded (program : List (BitVec 8)) (org limit : BitVec 32) (c : Cpu) : Prop where
  bytes : ∀ k < program.length, some (c.bytesAt org k) = program[k]?
  below : org.toNat + program.length ≤ 2 ^ 32
  inside : program.length ≤ (limit - org).toNat

section Loaded

variable {program : List (BitVec 8)} {org limit : BitVec 32} {c : Cpu} {x : Tracked} {k : ℕ}

theorem Loaded.byte (hl : Loaded program org limit c) (heip : x.cpu.eip = org + BitVec.ofNat 32 k)
    (hmem : x.cpu.mem = c.mem) {j : ℕ} (hj : k + j < program.length) :
    some (x.cpu.bytesAt x.cpu.eip j) = program[k + j]? := by
  have haddr : org + BitVec.ofNat 32 k + BitVec.ofNat 32 j = org + BitVec.ofNat 32 (k + j) := by
    rw [BitVec.add_assoc, BitVec.ofNat_add]
  rw [← hl.bytes (k + j) hj]
  unfold Cpu.bytesAt
  rw [hmem, heip, haddr]

theorem Loaded.bounds (hl : Loaded program org limit c)
    (heip : x.cpu.eip = org + BitVec.ofNat 32 k) {n : ℕ} (hk : k + n ≤ program.length) :
    n ≤ (limit - x.cpu.eip).toNat ∧ x.cpu.eip.toNat + n ≤ 2 ^ 32 := by
  have hbelow := hl.below
  have hinside := hl.inside
  rw [heip]
  constructor
  all_goals bv_omega

/-- At byte `k` of the program the instruction there is ready. -/
theorem Loaded.ready (hl : Loaded program org limit c)
    (heip : x.cpu.eip = org + BitVec.ofNat 32 k) (hmem : x.cpu.mem = c.mem) {code : Code}
    {i : Instr} {n : BitVec 32} (hk : k + n.toNat ≤ program.length)
    (hi : code.decode (fun j => program.getD (k + j) 0) (org + BitVec.ofNat 32 k) = some (i, n))
    (hs : i.Supported) (hf : i.Fits x.cpu) (hr : ∀ f ∈ i.reads, x.known f) :
    x.Ready code limit i n := by
  obtain ⟨hinside, hbelow⟩ := hl.bounds heip hk
  refine ⟨?_, hinside, hbelow, hs, hf, hr⟩
  rw [← heip] at hi
  refine code.congr hi fun j hj => ?_
  have hbyte := hl.byte heip hmem (show k + j < program.length by omega)
  rw [List.getD_eq_getElem?_getD, ← hbyte]
  rfl

end Loaded

section Loop

variable {host : Host} {disasm : Disasm} {code : Code} {limit : BitVec 32}

/-- The instruction that the i386 is at is the one that the loop disassembles. -/
theorem Tracked.Ready.fetch {x : Tracked} {i : Instr} {n : BitVec 32} {s : Machine}
    (hdis : Reads disasm code) (hr : x.Ready code limit i n) (hs : x.Shown s) :
    ∃ insn, disasm (fun k => s.mem (s.eip.toNat + k)) s.eip (limit - s.eip) = some insn ∧
      insn.Denotes i ∧ insn.size.setWidth 32 = n := by
  have heip : s.eip = x.cpu.eip := hs.data.eip
  have hbelow := hr.below
  have hinside := hr.inside
  rw [← heip] at hbelow hinside
  have hbytes : ∀ k < n.toNat, s.mem (s.eip.toNat + k) = x.cpu.bytesAt x.cpu.eip k := by
    intro k hk
    rw [← heip, ← Machine.bytesAt_eq (by omega)]
    exact congrFun hs.data.mem _
  have hcode := code.congr hr.fetched hbytes
  rw [← heip] at hcode
  exact hdis _ _ _ _ _ hcode hinside

theorem loopTurn_of_run {s t : Machine} {insn : CsInsn}
    (hfetch : s.fetch disasm (limit - s.eip) = some insn)
    (hrun : (dispatcher host insn.mnemonic insn).run s = .ok (some 0, t)) :
    LoopTurn host disasm limit s t :=
  exists_blindStep_iff.1 ⟨_, blindStep_of_run hfetch hrun⟩

variable (hdis : Reads disasm code)
include hdis

/-- What the loop disassembles and runs at the next instruction, and where that goes wrong. -/
theorem ready_run {x : Tracked} {i : Instr} {n : BitVec 32} {s : Machine}
    (hr : x.Ready code limit i n) (hs : x.Shown s) : ∃ insn t,
      disasm (fun k => s.mem (s.eip.toNat + k)) s.eip (limit - s.eip) = some insn ∧
      insn.Denotes i ∧ (dispatcher host insn.mnemonic insn).run s = .ok (some 0, t) ∧
      (t.abs.Alike (i.exec n x.cpu) ↔ i.Faithful n x.cpu) ∧
      ∀ f ∉ i.undefined x.cpu, i.Sets x.cpu f ∨ x.known f →
        (t.testFlag f = (i.exec n x.cpu).flag f ↔ i.Right x.cpu f) := by
  obtain ⟨insn, hfetch, hdenotes, rfl⟩ := hr.fetch hdis hs
  have hfits : i.Fits s.abs := by
    rw [hs.data.withFlag]
    exact Instr.fits_withFlag.2 hr.fits
  obtain ⟨t, hrun, hrefines⟩ := handler_refines hdenotes.operands hr.supported hfits
  rw [← hdenotes.dispatcher_eq host] at hrun
  obtain ⟨hdata, hflags⟩ := hrefines.transfer _ hs.data fun f hf => hs.flags f (hr.known f hf)
  exact ⟨insn, t, hfetch, hdenotes, hrun, hdata, fun f hu hf =>
    hflags f hu (hf.imp_right (hs.flags f))⟩

theorem nextExact_of_shown {x : Tracked} {s : Machine} (hs : x.Shown s) :
    NextExact host disasm code limit x s := by
  intro i n hr
  obtain ⟨insn, t, hfetch, -, hrun, h⟩ := @ready_run host _ _ _ hdis _ _ _ _ hr hs
  exact ⟨t, loopTurn_of_run hfetch hrun, h⟩

theorem simulates_loop : Simulates Tracked.Shown (TrackedStep code limit)
    (LoopTurn host disasm limit) := by
  rintro _ _ s ⟨hr, hfaithful⟩ hs
  obtain ⟨t, hstep, hdata, hflags⟩ := nextExact_of_shown hdis hs _ _ hr
  exact ⟨t, .single hstep, hdata.2 hfaithful, fun f hf => (hflags f hf.1 hf.2.1).2 hf.2.2⟩

/-- The loop follows every run of the i386 whose instructions look at known flags and are faithful,
and it goes wrong at the next one exactly where that one is not. -/
theorem loop_follows {x y : Tracked} {s : Machine}
    (hrun : ReflTransGen (TrackedStep code limit) x y) (hs : x.Shown s) :
    ∃ t, ReflTransGen (LoopTurn host disasm limit) s t ∧ y.Shown t ∧
      NextExact host disasm code limit y t := by
  obtain ⟨t, hst, ht⟩ := (simulates_loop hdis).run hrun hs
  exact ⟨t, hst, ht, nextExact_of_shown hdis ht⟩

end Loop

def Gpr.ofCode : ℕ → Gpr
  | 0 => .eax
  | 1 => .ecx
  | 2 => .edx
  | 3 => .ebx
  | 4 => .esp
  | 5 => .ebp
  | 6 => .esi
  | _ => .edi

/-- The operations of the opcodes `00` to `3F`, by their upper bits. -/
def Alu.table : List Alu := [.add, .or, .adc, .sbb, .and, .sub, .xor, .cmp]

def Cond.table : List Cond :=
  [.o, .no, .b, .ae, .e, .ne, .be, .a, .s, .ns, .p, .np, .l, .ge, .le, .g]

/-- The target of a jump by a byte. -/
def rel8 (a : BitVec 32) (b : BitVec 8) : BitVec 32 := a + 2 + b.signExtend 32

/-- `op r/m32, r32` on two registers, `Jcc rel8` and `JMP rel8`. -/
def twoBytes (b₀ b₁ : BitVec 8) (a : BitVec 32) : Option Instr :=
  if b₀.toNat % 8 = 1 ∧ 0xC0 ≤ b₁ then
    Alu.table[b₀.toNat / 8]?.map fun op => .alu op .dword (.reg (.ofCode (b₁.toNat % 8)))
      (.loc (.reg (.ofCode (b₁.toNat / 8 % 8))))
  else if b₀ = 0xEB then some (.jmp (.imm (rel8 a b₁)))
  else if 0x70 ≤ b₀ then
    Cond.table[b₀.toNat - 0x70]?.map (.jcc · (rel8 a b₁))
  else none

def twoByteCode : Code where
  decode b a := (twoBytes (b 0) (b 1) a).map (·, 2)
  congr := by
    intro b b' a i n h hb
    obtain ⟨j, hj, hn⟩ := Option.map_eq_some_iff.1 h
    cases hn
    rw [hb 0 (by decide), hb 1 (by decide), hj]
    rfl

/-- What the disassembler makes of an instruction of two bytes. -/
def twoByteInsn : Instr → CsInsn
  | .alu op _ (.reg r) (.loc (.reg q)) =>
    .bare op.mnemonic 2 [⟨.reg ((r.name .dword).getD .invalid), 4⟩,
      ⟨.reg ((q.name .dword).getD .invalid), 4⟩]
  | .jmp (.imm v) => .bare "jmp" 2 [⟨.imm (v.setWidth 64), 4⟩]
  | .jcc k v => .bare ("j" ++ k.suffix) 2 [⟨.imm (v.setWidth 64), 4⟩]
  | _ => .bare "" 2 []

def twoByteDisasm : Disasm := fun b a len =>
  if 2 ≤ len.toNat then (twoBytes (b 0) (b 1) a).map twoByteInsn else none

theorem twoByteInsn_denotes {b₀ b₁ : BitVec 8} {a : BitVec 32} {i : Instr}
    (h : twoBytes b₀ b₁ a = some i) :
    (twoByteInsn i).Denotes i ∧ (twoByteInsn i).size.setWidth 32 = 2 := by
  have hname (r : Gpr) : r.name .dword = some ((r.name .dword).getD .invalid) := by
    cases r <;> rfl
  have himm (v : BitVec 32) : (v.setWidth 64).setWidth 32 = v.setWidth 32 :=
    BitVec.setWidth_setWidth_of_le v (by decide)
  unfold twoBytes at h
  split_ifs at h
  · obtain ⟨op, -, rfl⟩ := Option.map_eq_some_iff.1 h
    exact ⟨⟨rfl, ⟨rfl, hname _⟩, rfl, hname _⟩, rfl⟩
  · cases h
    exact ⟨⟨rfl, rfl, _, rfl, himm _⟩, rfl⟩
  · obtain ⟨k, -, rfl⟩ := Option.map_eq_some_iff.1 h
    exact ⟨⟨rfl, rfl, _, rfl, himm _⟩, rfl⟩

theorem twoByteDisasm_reads : Reads twoByteDisasm twoByteCode := by
  intro b a len i n h hlen
  obtain ⟨j, hj, hn⟩ := Option.map_eq_some_iff.1 h
  cases hn
  obtain ⟨hd, hsize⟩ := twoByteInsn_denotes hj
  refine ⟨twoByteInsn i, ?_, hd, hsize⟩
  unfold twoByteDisasm
  rw [if_pos (show 2 ≤ len.toNat from hlen), hj]
  rfl

theorem difference_dword (v u : BitVec 32) : Alu.difference .dword v u 0 = v - u :=
  (low_dword _).trans (BitVec.sub_zero _)

theorem sub_exec_reg (d : Cpu) (r q : Gpr) :
    ((Instr.alu .sub .dword (.reg r) (.loc (.reg q))).exec 2 d).reg =
      Function.update d.reg r (d.get .dword (.reg r) - d.get .dword (.reg q)) := by
  change Function.update d.reg r
    (merge Width.dword.bits (d.reg r) (Alu.difference .dword _ _ 0)) = _
  rw [merge_dword, difference_dword]
  rfl

theorem mov_exec_reg (d : Cpu) (r : Gpr) (v n : BitVec 32) :
    ((Instr.mov .dword (.reg r) (.imm v)).exec n d).reg = Function.update d.reg r v := by
  change Function.update d.reg r
    (merge Width.dword.bits (d.reg r) (BitVec.setWidth 32 v)) = _
  rw [merge_dword, BitVec.setWidth_eq]

/-- At 0, with 7 and 2 in the registers:
```
0: cmp eax, ebx
2: je  14
4: sub eax, ebx
``` -/
def sevenTwo : Machine :=
  { twice 7 2 with
    mem := fun i => ([0x39, 0xD8, 0x74, 0x0A, 0x29, 0xD8] : List (BitVec 8))[i]?.getD 0 }

/-- With no flag known. -/
def subtracting : Tracked := ⟨sevenTwo.abs, fun _ => False⟩

def subtracted : Tracked :=
  ((subtracting.next (.alu .cmp .dword (.reg .eax) (.loc (.reg .ebx))) 2).next (.jcc .e 14) 2).next
    (.alu .sub .dword (.reg .eax) (.loc (.reg .ebx))) 2

theorem subtracting_runs : ReflTransGen (TrackedStep twoByteCode 16) subtracting subtracted := by
  have hcmp : TrackedStep twoByteCode 16 subtracting _ :=
    .exec (i := .alu .cmp .dword (.reg .eax) (.loc (.reg .ebx)))
      ⟨rfl, by decide, by decide, trivial, ⟨trivial, trivial⟩, fun _ h => by cases h⟩ trivial
  have hzf : (subtracting.next (.alu .cmp .dword (.reg .eax) (.loc (.reg .ebx))) 2).known .ZF :=
    ⟨List.not_mem_nil, .inl ⟨by simp [Instr.writes], trivial⟩, by simp [Instr.Right, Alu.Right]⟩
  have hje : TrackedStep twoByteCode 16
      (subtracting.next (.alu .cmp .dword (.reg .eax) (.loc (.reg .ebx))) 2) _ :=
    .exec (i := .jcc .e 14) ⟨rfl, by decide, by decide, trivial, trivial,
      fun f hf => List.mem_singleton.1 hf ▸ hzf⟩ fun h => absurd h (by decide)
  have hsub : TrackedStep twoByteCode 16 _ subtracted :=
    .exec (i := .alu .sub .dword (.reg .eax) (.loc (.reg .ebx)))
      ⟨rfl, by decide, by decide, fun h => h.elim False.elim False.elim, ⟨trivial, trivial⟩,
        fun _ h => by cases h⟩ trivial
  exact .tail (.tail (.single hcmp) hje) hsub

theorem loop_follows_subtract : ∃ t,
    ReflTransGen (LoopTurn .silent twoByteDisasm 16) sevenTwo t ∧ subtracted.Shown t ∧
      NextExact .silent twoByteDisasm twoByteCode 16 subtracted t :=
  loop_follows twoByteDisasm_reads subtracting_runs ⟨⟨rfl, rfl, rfl⟩, fun _ h => h.elim⟩

example : subtracted.cpu.reg .eax = 5 ∧ subtracted.cpu.eip = 6 := by decide

end I386Vm
