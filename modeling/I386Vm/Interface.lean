import I386Vm.Debugger
import I386Vm.Dispatch
import I386Vm.Lib.Trace
import I386Vm.Syscalls

/-!
# The loops step by step

`blind_elf_main` executes one instruction after the other. `interface_elf_main` waits for a command:
`s` executes one instruction, `c` all up to a breakpoint, `n` all up to the address that follows
this instruction. Both compare what the handler returned with `0xdeadbeef`, the first only where the
instruction's first byte is `0xCD`. What is drawn on the screen is left out.
-/

namespace I386Vm

/-- An instruction, the machine before and after it, and what the handler returned; `found` is what
the caller reads as the result of a handler that ended without a `return`. -/
structure Executed where
  insn : CsInsn
  before : Machine
  res : Ret
  found : BitVec 32
  after : Machine

namespace Executed

variable (e : Executed)

/-- The test of `blind_elf_main`. -/
def endsBlind : Bool := exits e.insn e.res

/-- The test of `interface_elf_main`: `0xdeadbeef == res`. -/
def endsInterface : Bool := e.res.getD e.found = deadbeef

end Executed

/-- An executed instruction, and whether the loop is left at it. -/
structure Decision extends Executed where
  leaves : Bool

section Loops

variable (host : Host) (disasm : Disasm)

/-- `cs_disasm` at `eip`, with so many bytes. -/
def Machine.fetch (s : Machine) (len : BitVec 32) : Option CsInsn :=
  disasm (fun i => s.mem (s.eip.toNat + i)) s.eip len

/-- The handler of the instruction runs to its end. -/
def Executed.Runs (e : Executed) : Prop :=
  (dispatcher host e.insn.mnemonic e.insn).run e.before = .ok (e.res, e.after)

inductive BlindStep (limit : BitVec 32) : Machine → Option Decision → Option Machine → Prop
  | undecoded {s : Machine} (fetched : s.fetch disasm (limit - s.eip) = none) :
      BlindStep limit s none none
  | execute {e : Executed}
      (fetched : e.before.fetch disasm (limit - e.before.eip) = some e.insn)
      (runs : e.Runs host) :
      BlindStep limit e.before (some ⟨e, e.endsBlind⟩)
        (if e.endsBlind then none else some e.after)

/-- What the interface is about to do. -/
inductive Mode
  | prompt
  | one
  | toBreakpoint
  | toAddress (stop : BitVec 32)

structure Terminal where
  machine : Machine
  debugger : Debugger
  mode : Mode

/-- A key of the user, with the number that is asked for; `view` is any other one. -/
inductive Command
  | s
  | c
  | n
  | b (dir : BitVec 32)
  | d (dir : BitVec 32)
  | q
  | view

namespace Terminal

variable (σ : Terminal)

def withMode (m : Mode) : Terminal := { σ with mode := m }

/-- `ins[0].size` past `eip`, where `n` stops. -/
def next (insn : CsInsn) : Terminal :=
  σ.withMode (.toAddress (σ.machine.eip + insn.size.setWidth 32))

/-- `none` where the interface is left: on `q`, and on an `n` that disassembles nothing. -/
def command : Command → Option Terminal
  | .s => some (σ.withMode .one)
  | .c => some (σ.withMode .toBreakpoint)
  | .n => (σ.machine.fetch disasm 16).map σ.next
  | .b dir => some { σ with debugger := σ.debugger.cmdB dir }
  | .d dir => some { σ with debugger := σ.debugger.cmdD dir }
  | .q => none
  | .view => some σ

/-- The loop goes on with an instruction. -/
def executes : Bool :=
  match σ.mode with
  | .prompt => false
  | .one => true
  | .toBreakpoint => !σ.debugger.stopsAt σ.machine.eip
  | .toAddress stop => σ.machine.eip ≠ stop

/-- After an instruction that does not end the run. -/
def after (t : Machine) : Terminal where
  machine := t
  debugger := σ.debugger
  mode := match σ.mode with
    | .one => .prompt
    | m => m

end Terminal

inductive InterfaceStep : Terminal → Option Decision → Option Terminal → Prop
  | command {σ : Terminal} (mode : σ.mode = .prompt) (key : Command) :
      InterfaceStep σ none (σ.command disasm key)
  | stop {σ : Terminal} (executes : σ.executes = false) :
      InterfaceStep σ none (some (σ.withMode .prompt))
  | undecoded {σ : Terminal} (executes : σ.executes = true)
      (fetched : σ.machine.fetch disasm 16 = none) : InterfaceStep σ none none
  | execute {σ : Terminal} {e : Executed} (executes : σ.executes = true)
      (before : e.before = σ.machine) (fetched : σ.machine.fetch disasm 16 = some e.insn)
      (runs : e.Runs host) :
      InterfaceStep σ (some ⟨e, e.endsInterface⟩)
        (if e.endsInterface then none else some (σ.after e.after))

/-- The decisions of a run of either loop. -/
inductive MainRun : List Decision → Prop
  | blind {limit : BitVec 32} {s : Machine} {ds : List Decision} {o : Option Machine}
      (trace : Trace (BlindStep host disasm limit) s ds o) : MainRun ds
  | interface {σ : Terminal} {ds : List Decision} {o : Option Terminal}
      (trace : Trace (InterfaceStep host disasm) σ ds o) : MainRun ds

end Loops

end I386Vm
