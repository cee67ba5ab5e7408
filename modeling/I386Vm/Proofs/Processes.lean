import I386Vm.Proofs.Emulation

/-!
# Processes

A process is a run of the i386 with an operating system, which has a state of its own and answers
`INT 0x80` with a value for `EAX` and a memory or ends the process. Where its instructions are ready
and faithful, and its system calls are among those that the host serves and are not answered
`0xdeadbeef` (`ProcessStep`), `blind_elf_main` makes the system calls that the process does, with
the same registers and memory, gives it the same answers, and is left when it ends
(`process_followed`).
-/

namespace I386Vm

open Bytes

/-- What a system call is answered, and the state of the system afterwards. -/
structure SysAnswer (σ : Type) where
  eax : BitVec 32
  mem : BitVec 32 → BitVec 8
  state : σ

/-- The answer of a system, as its state is, to the registers and memory of a process, none where
the process ends. -/
abbrev Os (σ : Type) :=
  σ → (Gpr → BitVec 32) → (BitVec 32 → BitVec 8) → Option (SysAnswer σ)

/-- What a system call finds, and what it is answered. -/
structure SysCall where
  reg : Gpr → BitVec 32
  mem : BitVec 32 → BitVec 8
  answer : Option (BitVec 32)

/-- The host in each of its states, and the state that the system call of a machine leaves. -/
structure World (σ : Type) where
  host : σ → Host
  next : σ → Machine → σ

/-- The calls that are followed, as the state, the registers and the memory are. -/
abbrev Calls (σ : Type) := σ → (Gpr → BitVec 32) → (BitVec 32 → BitVec 8) → Prop

/-- The handlers answer the calls of `N` as the operating system does. -/
structure ServesAs {σ : Type} (world : World σ) (os : Os σ) (N : Calls σ) : Prop where
  inside : ∀ w reg mem, N w reg mem → (reg .eax).toNat < nsyscalls
  exits : ∀ w (s : Machine), N w s.abs.reg s.abs.mem → os w s.abs.reg s.abs.mem = none →
    ((world.host w).syscalls (s.reg .eax).toNat s).1 = deadbeef
  answers : ∀ w (s : Machine) a, N w s.abs.reg s.abs.mem → os w s.abs.reg s.abs.mem = some a →
    ((world.host w).syscalls (s.reg .eax).toNat s).1 = a.eax ∧
      (∀ b : BitVec 32, ((world.host w).syscalls (s.reg .eax).toNat s).2 b.toNat = a.mem b) ∧
      world.next w s = a.state

/-- `cs_disasm` knows `CD 80`. -/
def ReadsCalls (disasm : Disasm) : Prop :=
  ∀ (b : ℕ → BitVec 8) a (len : BitVec 32), b 0 = 0xCD → b 1 = 0x80 → 2 ≤ len.toNat →
    ∃ insn, disasm b a len = some insn ∧ insn.IsInt80 ∧ insn.size = 2 ∧ insn.byte0 = 0xCD

instance CsInsn.decidableIsInt80 (insn : CsInsn) : Decidable insn.IsInt80 :=
  inferInstanceAs (Decidable (_ ∧ _))

/-- The state of the host after an iteration. -/
def World.after {σ : Type} (world : World σ) (w : σ) : Option Decision → σ
  | none => w
  | some d => if d.insn.IsInt80 then world.next w (d.before.advance d.insn) else w

/-- An iteration of `blind_elf_main`, with the host as it is. -/
inductive WorldStep {σ : Type} (world : World σ) (disasm : Disasm) (limit : BitVec 32) :
    Machine × σ → Option Decision → Option (Machine × σ) → Prop
  | step {s : Machine} {w : σ} {d : Option Decision} {o : Option Machine}
      (blind : BlindStep (world.host w) disasm limit s d o) :
      WorldStep world disasm limit (s, w) d (o.map fun t => (t, world.after w d))

namespace Tracked

variable (x : Tracked)

/-- At a system call, below the end of the program and of memory. -/
structure AtCall (limit : BitVec 32) : Prop where
  byte0 : x.cpu.bytesAt x.cpu.eip 0 = 0xCD
  byte1 : x.cpu.bytesAt x.cpu.eip 1 = 0x80
  inside : 2 ≤ (limit - x.cpu.eip).toNat
  below : x.cpu.eip.toNat + 2 ≤ 2 ^ 32

def answered (v : BitVec 32) (m : BitVec 32 → BitVec 8) : Tracked :=
  { x with cpu := { x.cpu.setReg .eax v with eip := x.cpu.eip + 2, mem := m } }

end Tracked

/-- An instruction, or a system call; one that is answered `0xdeadbeef` is not followed. -/
inductive ProcessStep {σ : Type} (code : Code) (os : Os σ) (N : Calls σ) (limit : BitVec 32) :
    Tracked × σ → Option SysCall → Option (Tracked × σ) → Prop
  | exec {x : Tracked} {w : σ} {i : Instr} {n : BitVec 32} (ready : x.Ready code limit i n)
      (faithful : i.Faithful n x.cpu) :
      ProcessStep code os N limit (x, w) none (some (x.next i n, w))
  | call {x : Tracked} {w : σ} {a : SysAnswer σ} (at_call : x.AtCall limit)
      (followed : N w x.cpu.reg x.cpu.mem) (answer : os w x.cpu.reg x.cpu.mem = some a)
      (goes : a.eax ≠ deadbeef) : ProcessStep code os N limit (x, w)
        (some ⟨x.cpu.reg, x.cpu.mem, some a.eax⟩) (some (x.answered a.eax a.mem, a.state))
  | exit {x : Tracked} {w : σ} (at_call : x.AtCall limit) (followed : N w x.cpu.reg x.cpu.mem)
      (answer : os w x.cpu.reg x.cpu.mem = none) :
      ProcessStep code os N limit (x, w) (some ⟨x.cpu.reg, x.cpu.mem, none⟩) none

/-- The machine stands for the process, and the host is in the state of its system. -/
def InStep {σ : Type} (p : Tracked × σ) (q : Machine × σ) : Prop := p.1.Shown q.1 ∧ p.2 = q.2

/-- The system call that the loop has made, if it is one. -/
def Decision.sysCall (d : Decision) : Option SysCall :=
  if d.insn.IsInt80 then
    some ⟨d.before.abs.reg, d.before.abs.mem,
      if d.leaves then none else some (d.after.reg .eax)⟩
  else none

section Followed

variable {σ : Type} {world : World σ} {disasm : Disasm} {code : Code} {os : Os σ} {N : Calls σ}
  {limit : BitVec 32} {x : Tracked} {s : Machine} {w : σ}

theorem Instr.mnemonic_ne_int (i : Instr) : i.mnemonic ≠ "int" := by
  cases i with
  | alu op => cases op <;> simp [Instr.mnemonic, Alu.mnemonic]
  | shift op => cases op <;> simp [Instr.mnemonic, Shift.mnemonic]
  | setcc k => cases k <;> simp [Instr.mnemonic, Cond.suffix]
  | jcc k => cases k <;> simp [Instr.mnemonic, Cond.suffix]
  | _ => simp [Instr.mnemonic]

theorem Machine.abs_answered (s : Machine) (insn : CsInsn) (a : BitVec 32 × (ℕ → BitVec 8)) :
    ((s.advance insn).answered a).abs = { s.abs.setReg .eax a.1 with
      eip := s.eip + insn.size.setWidth 32, mem := fun b => a.2 b.toNat } :=
  @Machine.abs_setReg { s.advance insn with mem := a.2 } .eax a.1

/-- An instruction of the process is no system call of the loop. -/
theorem exec_followed (hdis : Reads disasm code) {i : Instr} {n : BitVec 32}
    (hr : x.Ready code limit i n) (hf : i.Faithful n x.cpu) (hs : x.Shown s) :
    ∃ d t, WorldStep world disasm limit (s, w) (some d) (some (t, w)) ∧ d.sysCall = none ∧
      (x.next i n).Shown t := by
  obtain ⟨insn, t, hfetch, hdenotes, hrun, hdata, hflags⟩ :=
    @ready_run (world.host w) _ _ _ hdis _ _ _ _ hr hs
  have hstep := @blindStep_of_run (world.host w) _ limit _ _ _ hfetch hrun
  have hint : ¬ insn.IsInt80 := fun h => i.mnemonic_ne_int (hdenotes.mnemonic.symm.trans h.1)
  have hworld := @WorldStep.step _ world _ _ _ _ _ _ hstep
  simp only [Option.map_some, World.after, if_neg hint] at hworld
  exact ⟨_, t, hworld, if_neg hint, hdata.2 hf, fun f hf => (hflags f hf.1 hf.2.1).2 hf.2.2⟩

/-- At a system call the loop is at one. -/
theorem Tracked.AtCall.fetch (hcalls : ReadsCalls disasm) (hc : x.AtCall limit) (hs : x.Shown s) :
    ∃ insn, s.fetch disasm (limit - s.eip) = some insn ∧ insn.IsInt80 ∧ insn.size = 2 ∧
      insn.byte0 = 0xCD := by
  have heip : s.eip = x.cpu.eip := hs.data.eip
  have hbelow := hc.below
  have hbyte {k : ℕ} (hk : k < 2) : s.mem (s.eip.toNat + k) = x.cpu.bytesAt x.cpu.eip k := by
    rw [← Machine.bytesAt_eq (by rw [heip]; omega), heip]
    exact congrFun hs.data.mem _
  refine hcalls _ _ _ ?_ ?_ ?_
  · exact (hbyte (by decide)).trans hc.byte0
  · exact (hbyte (by decide)).trans hc.byte1
  · rw [heip]
    exact hc.inside

/-- The loop makes the system call, and is left if it ends the process. -/
theorem call_step (hcalls : ReadsCalls disasm) (hos : ServesAs world os N) (hc : x.AtCall limit)
    (hs : x.Shown s) (hn : N w x.cpu.reg x.cpu.mem) :
    ∃ insn : CsInsn, insn.IsInt80 ∧ insn.size = 2 ∧ ∀ v m,
      (world.host w).syscalls (s.reg .eax).toNat (s.advance insn) = (v, m) →
      BlindStep (world.host w) disasm limit s
        (some ⟨⟨insn, s, some v, 0, (s.advance insn).answered (v, m)⟩, decide (v = deadbeef)⟩)
        (if v = deadbeef then none else some ((s.advance insn).answered (v, m))) := by
  obtain ⟨insn, hfetch, hi, hsize, hbyte⟩ := hc.fetch hcalls hs
  have hreg : s.reg .eax = x.cpu.reg .eax := congrFun hs.data.reg .eax
  have hlt : (s.reg .eax).toNat < nsyscalls := by
    rw [hreg]
    exact hos.inside _ _ _ hn
  refine ⟨insn, hi, hsize, fun v m hvm => ?_⟩
  have hrun := @intI_0x80_of_lt (world.host w) insn s hi.2 hlt
  rw [← dispatcher_int, ← hi.1, hvm] at hrun
  have hends (t : Machine) :
      Executed.endsBlind ⟨insn, s, some v, 0, t⟩ = decide (v = deadbeef) := by
    rw [Bool.eq_iff_iff, Executed.endsBlind_iff, decide_eq_true_iff]
    exact ⟨fun h => Option.some.inj h.2, fun h => ⟨hbyte, congrArg some h⟩⟩
  have hstep :=
    @BlindStep.execute (world.host w) disasm limit ⟨insn, s, some v, 0, _⟩ hfetch hrun
  rw [hends] at hstep
  simp only [decide_eq_true_iff] at hstep
  exact hstep

theorem sysCall_of_int80 {d : Decision} (hi : d.insn.IsInt80) : d.sysCall =
    some ⟨d.before.abs.reg, d.before.abs.mem,
      if d.leaves then none else some (d.after.reg .eax)⟩ :=
  if_pos hi

theorem call_followed (hcalls : ReadsCalls disasm) (hos : ServesAs world os N)
    (hc : x.AtCall limit) (hs : x.Shown s) (hn : N w x.cpu.reg x.cpu.mem) {a : SysAnswer σ}
    (ha : os w x.cpu.reg x.cpu.mem = some a) (hne : a.eax ≠ deadbeef) :
    ∃ d t, WorldStep world disasm limit (s, w) (some d) (some (t, a.state)) ∧
      d.sysCall = some ⟨x.cpu.reg, x.cpu.mem, some a.eax⟩ ∧
      (x.answered a.eax a.mem).Shown t := by
  obtain ⟨insn, hi, hsize, hstep⟩ := call_step hcalls hos hc hs hn
  have hreg : s.abs.reg = x.cpu.reg := hs.data.reg
  have hmem : s.abs.mem = x.cpu.mem := hs.data.mem
  rw [← hreg, ← hmem] at ha hn
  obtain ⟨hv, hm, hnext⟩ := hos.answers w (s.advance insn) a hn ha
  have hblind := hstep _ _ (Prod.ext hv rfl)
  rw [if_neg hne] at hblind
  have hworld := @WorldStep.step _ world _ _ _ _ _ _ hblind
  simp only [Option.map_some, World.after, if_pos hi, hnext] at hworld
  refine ⟨_, _, hworld, ?_, ?_, hs.flags⟩
  · rw [sysCall_of_int80 hi, if_neg (by simpa using hne), Machine.eax_answered, ← hreg, ← hmem]
  · rw [Machine.abs_answered, hsize]
    refine ⟨?_, ?_, ?_⟩
    · exact congrArg (Function.update · .eax a.eax) hreg
    · exact congrArg (· + 2) hs.data.eip
    · exact funext hm

theorem exit_followed (hcalls : ReadsCalls disasm) (hos : ServesAs world os N)
    (hc : x.AtCall limit) (hs : x.Shown s) (hn : N w x.cpu.reg x.cpu.mem)
    (ha : os w x.cpu.reg x.cpu.mem = none) :
    ∃ d, WorldStep world disasm limit (s, w) (some d) none ∧
      d.sysCall = some ⟨x.cpu.reg, x.cpu.mem, none⟩ := by
  obtain ⟨insn, hi, -, hstep⟩ := call_step hcalls hos hc hs hn
  have hreg : s.abs.reg = x.cpu.reg := hs.data.reg
  have hmem : s.abs.mem = x.cpu.mem := hs.data.mem
  rw [← hreg, ← hmem] at ha hn
  have hblind := hstep deadbeef _ (Prod.ext (hos.exits w (s.advance insn) hn ha) rfl)
  rw [if_pos rfl] at hblind
  refine ⟨_, .step hblind, ?_⟩
  rw [sysCall_of_int80 hi, if_pos (by simp), ← hreg, ← hmem]

/-- Every process from `p` on is followed from `q` on: `blind_elf_main` makes its system calls, in
the same order, with the same registers, memory and answers, and is left when it ends. -/
def Followed (step : Tracked × σ → Option SysCall → Option (Tracked × σ) → Prop) (world : World σ)
    (disasm : Disasm) (limit : BitVec 32) (p : Tracked × σ) (q : Machine × σ) : Prop :=
  ∀ es o, Trace step p es o → ∃ ds o', Trace (WorldStep world disasm limit) q ds o' ∧
    ds.filterMap Decision.sysCall = es ∧ Option.Rel InStep o o'

/-- A process is followed by every machine that stands for it. -/
theorem process_followed (hdis : Reads disasm code) (hcalls : ReadsCalls disasm)
    (hos : ServesAs world os N) (hs : x.Shown s) :
    Followed (ProcessStep code os N limit) world disasm limit (x, w) (s, w) := by
  intro es o h
  refine h.observed (R := InStep) ?_ ⟨hs, rfl⟩
  rintro y e o ⟨u, w⟩ hstep ⟨hu, hw⟩
  cases hstep with
  | exec ready faithful =>
    obtain rfl := hw
    obtain ⟨d, t, hd, hcall, ht⟩ := exec_followed hdis ready faithful hu
    exact ⟨_, _, .one hd, by simp [hcall], .some ⟨ht, rfl⟩⟩
  | call at_call followed answer goes =>
    obtain rfl := hw
    obtain ⟨d, t, hd, hcall, ht⟩ := call_followed hcalls hos at_call hu followed answer goes
    exact ⟨_, _, .one hd, by simp [hcall], .some ⟨ht, rfl⟩⟩
  | exit at_call followed answer =>
    obtain rfl := hw
    obtain ⟨d, hd, hcall⟩ := exit_followed hcalls hos at_call hu followed answer
    exact ⟨_, _, .leave hd, by simp [hcall], .none⟩

end Followed

/-- Two bytes, or `MOV r32, imm32`. -/
def shortCode : Code where
  decode b a :=
    if 0xB8 ≤ b 0 ∧ b 0 ≤ 0xBF then
      some (.mov .dword (.reg (.ofCode ((b 0).toNat % 8))) (.imm (readLE b 1 4)), 5)
    else twoByteCode.decode b a
  congr := by
    intro b b' a i n h hb
    split_ifs at h with hmov
    · cases h
      have hword : (readLE b' 1 4 : BitVec 32) = readLE b 1 4 :=
        readLE_congr fun k _ hk => hb k hk
      rw [hb 0 (by decide), if_pos hmov]
      exact congrArg (fun v : BitVec 32 =>
        some (Instr.mov .dword (.reg (.ofCode ((b 0).toNat % 8))) (.imm v), (5 : BitVec 32))) hword
    · have hn : n = 2 := by
        obtain ⟨j, -, hn⟩ := Option.map_eq_some_iff.1 h
        cases hn
        rfl
      rw [hb 0 (by rw [hn]; decide), if_neg hmov]
      exact twoByteCode.congr h hb

def shortDisasm : Disasm := fun b a len =>
  if b 0 = 0xCD ∧ b 1 = 0x80 then if 2 ≤ len.toNat then some int80Insn else none
  else if 0xB8 ≤ b 0 ∧ b 0 ≤ 0xBF then
    if 5 ≤ len.toNat then
      some (.bare "mov" 5
        [⟨.reg (((Gpr.ofCode ((b 0).toNat % 8)).name .dword).getD .invalid), 4⟩,
          ⟨.imm ((readLE b 1 4 : BitVec 32).setWidth 64), 4⟩])
    else none
  else twoByteDisasm b a len

theorem shortDisasm_reads : Reads shortDisasm shortCode := by
  intro b a len i n h hlen
  have hname (r : Gpr) : r.name .dword = some ((r.name .dword).getD .invalid) := by
    cases r <;> rfl
  unfold shortDisasm
  unfold shortCode at h
  dsimp only at h
  split_ifs at h with hmov
  · cases h
    rw [if_neg fun hint => absurd (hint.1 ▸ hmov.2) (by decide), if_pos hmov,
      if_pos (show 5 ≤ len.toNat from hlen)]
    refine ⟨_, rfl, ⟨rfl, ⟨rfl, hname _⟩, rfl, _, rfl, ?_⟩, rfl⟩
    exact BitVec.setWidth_setWidth_of_le _ (by decide)
  · by_cases hint : b 0 = 0xCD ∧ b 1 = 0x80
    · obtain ⟨j, hj, -⟩ := Option.map_eq_some_iff.1 h
      rw [hint.1, hint.2] at hj
      cases hj
    · rw [if_neg hint, if_neg hmov]
      exact twoByteDisasm_reads _ _ _ _ _ h hlen

theorem shortDisasm_readsCalls : ReadsCalls shortDisasm := by
  intro b a len h0 h1 hlen
  refine ⟨int80Insn, ?_, ⟨rfl, rfl⟩, rfl, rfl⟩
  unfold shortDisasm
  rw [if_pos ⟨h0, h1⟩, if_pos hlen]

/-- ```
0:  mov eax, 20
5:  int 0x80
7:  mov ebx, 41
12: sub eax, ebx
14: int 0x80
```
`getpid`, and where that is 42 `exit`. -/
def askPid : List (BitVec 8) :=
  [0xB8, 0x14, 0, 0, 0, 0xCD, 0x80, 0xBB, 0x29, 0, 0, 0, 0x29, 0xD8, 0xCD, 0x80]

section AskPid

variable {σ : Type} {os : Os σ} {N : Calls σ} {org limit : BitVec 32} {x : Tracked} {w : σ}

theorem Loaded.atCall {program : List (BitVec 8)} {c : Cpu} (hl : Loaded program org limit c)
    {k : ℕ} (heip : x.cpu.eip = org + BitVec.ofNat 32 k) (hmem : x.cpu.mem = c.mem)
    (h0 : program[k]? = some 0xCD) (h1 : program[k + 1]? = some 0x80) : x.AtCall limit := by
  obtain ⟨hk, -⟩ := List.getElem?_eq_some_iff.1 h1
  obtain ⟨hinside, hbelow⟩ := hl.bounds heip (n := 2) hk
  refine ⟨?_, ?_, hinside, hbelow⟩
  · exact Option.some.inj ((hl.byte heip hmem (j := 0) (by omega)).trans h0)
  · exact Option.some.inj ((hl.byte heip hmem (j := 1) hk).trans h1)

/-- What is left of 42. -/
theorem eax_of_mov_sub {c : Cpu} (h : c.reg .eax = 42) :
    ((Instr.alu .sub .dword (.reg .eax) (.loc (.reg .ebx))).exec 2
      ((Instr.mov .dword (.reg .ebx) (.imm 41)).exec 5 c)).reg .eax = 1 := by
  have hmov : ((Instr.mov .dword (.reg .ebx) (.imm 41)).exec 5 c).reg =
      Function.update c.reg .ebx 41 := mov_exec_reg c .ebx 41 5
  rw [sub_exec_reg, Function.update_self, Cpu.get_dword_reg, Cpu.get_dword_reg, hmov,
    Function.update_self, Function.update_of_ne (by decide), h]
  rfl

/-- A process that begins with these makes both system calls where `getpid` is 42, and comes to
nothing below its first instruction. -/
theorem askPid_runs (hl : Loaded askPid x.cpu.eip limit x.cpu) {w' : σ}
    (hpid : ∀ reg, reg .eax = 20 → N w reg x.cpu.mem ∧
      os w reg x.cpu.mem = some ⟨42, x.cpu.mem, w'⟩)
    (hexit : ∀ reg, reg .eax = 1 → N w' reg x.cpu.mem ∧ os w' reg x.cpu.mem = none) :
    ∃ es, Trace (fun p e o => x.cpu.eip.toNat ≤ p.1.cpu.eip.toNat ∧
        ProcessStep shortCode os N limit p e o) (x, w) es none ∧
      es.map (fun e => (e.reg .eax, e.answer)) = [(20, some 42), (1, none)] := by
  have habove {k : ℕ} (hk : k ≤ 14) {y : Tracked} (hy : y.cpu.eip = x.cpu.eip + BitVec.ofNat 32 k) :
      x.cpu.eip.toNat ≤ y.cpu.eip.toNat := by
    have hbelow := hl.below
    change _ + 16 ≤ 2 ^ 32 at hbelow
    rw [hy]
    bv_omega
  let x₁ := x.next (.mov .dword (.reg .eax) (.imm 20)) 5
  let x₂ := x₁.answered 42 x.cpu.mem
  let x₃ := x₂.next (.mov .dword (.reg .ebx) (.imm 41)) 5
  let x₄ := x₃.next (.alu .sub .dword (.reg .eax) (.loc (.reg .ebx))) 2
  have h₀ : x.cpu.eip = x.cpu.eip + BitVec.ofNat 32 0 := (BitVec.add_zero _).symm
  have h₁ : x₁.cpu.eip = x.cpu.eip + BitVec.ofNat 32 5 := rfl
  have h₂ : x₂.cpu.eip = x.cpu.eip + BitVec.ofNat 32 7 := by
    change x₁.cpu.eip + 2 = _
    bv_omega
  have h₃ : x₃.cpu.eip = x.cpu.eip + BitVec.ofNat 32 12 := by
    change x₂.cpu.eip + 5 = _
    bv_omega
  have h₄ : x₄.cpu.eip = x.cpu.eip + BitVec.ofNat 32 14 := by
    change x₃.cpu.eip + 2 = _
    bv_omega
  have hask : x₁.cpu.reg .eax = 20 :=
    (congrFun (mov_exec_reg x.cpu .eax 20 5) .eax).trans (Function.update_self ..)
  have hanswer : x₂.cpu.reg .eax = 42 := Function.update_self Gpr.eax 42 x₁.cpu.reg
  have hone : x₄.cpu.reg .eax = 1 := eax_of_mov_sub hanswer
  have hask₂ := hpid _ hask
  have hexit₂ := hexit _ hone
  have hmov₁ : x.Ready shortCode limit (.mov .dword (.reg .eax) (.imm 20)) 5 :=
    hl.ready h₀ rfl (by decide) rfl (fun h => h.elim) ⟨trivial, trivial⟩ fun _ h => by cases h
  have hmov₂ : x₂.Ready shortCode limit (.mov .dword (.reg .ebx) (.imm 41)) 5 :=
    hl.ready h₂ rfl (by decide) rfl (fun h => h.elim) ⟨trivial, trivial⟩ fun _ h => by cases h
  have hsub : x₃.Ready shortCode limit (.alu .sub .dword (.reg .eax) (.loc (.reg .ebx))) 2 :=
    hl.ready h₃ rfl (by decide) rfl (fun h => h.elim False.elim False.elim) ⟨trivial, trivial⟩
      fun _ h => by cases h
  have hlast : ProcessStep shortCode os N limit (x₄, w') (some ⟨x₄.cpu.reg, x₄.cpu.mem, none⟩)
    none := .exit (hl.atCall h₄ rfl rfl rfl) hexit₂.1 hexit₂.2
  have hfirst : ProcessStep shortCode os N limit (x₁, w) (some ⟨x₁.cpu.reg, x₁.cpu.mem, some 42⟩)
    (some (x₂, w')) := .call (hl.atCall h₁ rfl rfl rfl) hask₂.1 hask₂.2
      (by decide : (42 : BitVec 32) ≠ deadbeef)
  refine ⟨_, .next ⟨le_refl _, .exec hmov₁ trivial⟩ (.next ⟨habove (by decide) h₁, hfirst⟩
    (.next ⟨habove (by decide) h₂, .exec hmov₂ trivial⟩
      (.next ⟨habove (by decide) h₃, .exec hsub trivial⟩
        (.leave ⟨habove (by decide) h₄, hlast⟩)))), ?_⟩
  change [(x₁.cpu.reg .eax, some 42), (x₄.cpu.reg .eax, none)] = _
  rw [hask, hone]

end AskPid

/-- `askPid` at 0. -/
def asking : Machine := { Machine.blank with mem := fun i => askPid.getD i 0 }

/-- A kernel where `getpid` returns 42, and `read` one `Z`. -/
def Kernel.little : Kernel :=
  { Kernel.zero with
    syscall := fun c s =>
      match c with
      | ⟨.sysGetpid, _⟩ => ⟨.ok 42, s.mem, fun _ => 0⟩
      | ⟨.sysRead, [_, .ptr p, _]⟩ =>
        ⟨.ok 1, Function.update s.mem (p - Kernel.zero.mem).toNat 0x5A, fun _ => 0⟩
      | _ => ⟨.ok 0, s.mem, fun _ => 0⟩ }

/-- The state of the host is how often it was asked. -/
def World.pid : World ℕ := ⟨fun _ => Kernel.little.host .silent, fun w _ => w + 1⟩

def pidOs : Os ℕ := fun w reg mem => if reg .eax = 1 then none else some ⟨42, mem, w + 1⟩

theorem servesAs_pid : ServesAs .pid pidOs fun _ reg _ => reg .eax = 1 ∨ reg .eax = 20 where
  inside w reg mem hn := by
    rcases hn with hn | hn
    all_goals
      rw [hn]
      decide
  exits w s hn hos := by
    have heax : s.reg .eax = 1 := by
      by_contra heax
      have hsome : pidOs w s.abs.reg s.abs.mem = some _ := if_neg heax
      rw [hos] at hsome
      cases hsome
    rw [heax]
    rfl
  answers w s a hn hos := by
    unfold pidOs at hos
    split at hos
    · cases hos
    · rename_i hne
      cases hos
      have heax : s.reg .eax = 20 := hn.resolve_left hne
      rw [heax]
      exact ⟨(by decide : ((42 : BitVec 64) - 0).setWidth 32 = (42 : BitVec 32)), fun _ => rfl, rfl⟩

/-- The program at 0, with its two system calls. -/
theorem process_followed_askPid : ∃ es ds o',
    Trace (ProcessStep shortCode pidOs (fun _ reg _ => reg .eax = 1 ∨ reg .eax = 20) 16)
      (⟨asking.abs, fun _ => False⟩, 0) es none ∧
    es.map (fun e => (e.reg .eax, e.answer)) = [(20, some 42), (1, none)] ∧
    Trace (WorldStep .pid shortDisasm 16) (asking, 0) ds o' ∧
      ds.filterMap Decision.sysCall = es ∧ Option.Rel InStep (none : Option (Tracked × ℕ)) o' := by
  have hloaded : Loaded askPid asking.abs.eip 16 asking.abs := ⟨by decide, by decide, by decide⟩
  obtain ⟨es, hes, hcalls⟩ := @askPid_runs ℕ pidOs (fun _ reg _ => reg .eax = 1 ∨ reg .eax = 20) 16
    ⟨asking.abs, fun _ => False⟩ 0 hloaded 1
    (fun reg hreg => ⟨.inr hreg, if_neg (by rw [hreg]; decide)⟩)
    fun reg hreg => ⟨.inl hreg, if_pos hreg⟩
  have hsteps := hes.mono fun _ _ _ h => h.2
  have hshown : (⟨asking.abs, fun _ => False⟩ : Tracked).Shown asking :=
    ⟨⟨rfl, rfl, rfl⟩, fun _ h => h.elim⟩
  obtain ⟨ds, o', hds, hsame, ho⟩ := process_followed shortDisasm_reads shortDisasm_readsCalls
    servesAs_pid hshown es none hsteps
  exact ⟨es, ds, o', hsteps, hcalls, hds, hsame, ho⟩

end I386Vm
