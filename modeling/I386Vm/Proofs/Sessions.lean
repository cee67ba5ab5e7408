import I386Vm.Interface

/-!
# The debugger shows the program's own run

A session at the interface is any sequence of keys. The machine moves only by executing the
instruction at `eip`, so every session goes through a part of the run that the program has without
it, and `s` key by key goes through all of it (`session_iff_run`). That run is the one of
`blind_elf_main` as long as `cs_disasm` gives the same instruction for both and the interface does
not take a result for the end (`session_iff_blind`).

`c` and `n` come back to the prompt at the first machine of the run, the one they start at included,
whose `eip` is where they stop (`lasting_stops_iff`).
-/

namespace I386Vm

section Sessions

variable (host : Host) (disasm : Disasm)

/-- The machine by itself: the instruction at `eip`, disassembled from 16 bytes. -/
inductive MachineStep : Machine → Option Executed → Option Machine → Prop
  | execute {e : Executed} (fetched : e.before.fetch disasm 16 = some e.insn) (runs : e.Runs host)
      (goes : e.endsInterface = false) : MachineStep e.before (some e) (some e.after)

/-- A step of the interface other than a command. -/
def AutoStep (σ : Terminal) (d : Option Decision) (o : Option Terminal) : Prop :=
  σ.mode ≠ .prompt ∧ InterfaceStep host disasm σ d o

/-- `c` and `n`, which go on after an instruction. -/
def Mode.Lasting (m : Mode) : Prop := m ≠ .prompt ∧ m ≠ .one

/-- Where `c` and `n` stop. -/
def Terminal.stops (σ : Terminal) (eip : BitVec 32) : Bool :=
  match σ.mode with
  | .prompt => true
  | .one => false
  | .toBreakpoint => σ.debugger.stopsAt eip
  | .toAddress stop => eip = stop

variable {host disasm} {σ σ' τ : Terminal} {d : Option Decision}

theorem Terminal.executes_eq (σ : Terminal) : σ.executes = !σ.stops σ.machine.eip := by
  unfold executes stops
  cases σ.mode <;> simp

/-- A command leaves the machine alone. -/
theorem command_machine {key : Command} (h : σ.command disasm key = some τ) :
    τ.machine = σ.machine := by
  cases key with
  | n =>
    obtain ⟨insn, -, rfl⟩ := Option.map_eq_some_iff.1 h
    rfl
  | q => cases h
  | _ =>
    cases h
    rfl

/-- A step that goes on is a command, a stop or an instruction. -/
theorem InterfaceStep.inv (h : InterfaceStep host disasm σ d (some τ)) :
    (d = none ∧ σ.mode = .prompt ∧ ∃ key, σ.command disasm key = some τ) ∨
    (d = none ∧ σ.executes = false ∧ τ = σ.withMode .prompt) ∨
    ∃ e : Executed, d = some ⟨e, e.endsInterface⟩ ∧ σ.executes = true ∧ e.before = σ.machine ∧
      MachineStep host disasm σ.machine (some e) (some e.after) ∧ τ = σ.after e.after := by
  generalize ho : some τ = o at h
  rcases h with ⟨mode, key⟩ | executes | _ | ⟨executes, before, fetched, runs⟩
  · exact .inl ⟨rfl, mode, key, rfl⟩
  · exact .inr (.inl ⟨rfl, executes, Option.some.inj ho⟩)
  · cases ho
  · rename_i e
    by_cases hends : e.endsInterface = true
    · rw [if_pos hends] at ho
      cases ho
    · rw [if_neg hends] at ho
      rw [← before] at fetched
      have hstep := MachineStep.execute fetched runs (Bool.not_eq_true _ ▸ hends)
      rw [before] at hstep
      exact .inr (.inr ⟨e, rfl, executes, before, hstep, Option.some.inj ho⟩)

/-- The machine answers a step of the interface with an instruction or not at all. -/
theorem machine_answers {s : Machine} (h : InterfaceStep host disasm σ d (some τ))
    (hs : σ.machine = s) :
    ∃ t, Trace (MachineStep host disasm) s (d.toList.map Decision.toExecuted) (some t) ∧
      τ.machine = t := by
  rcases h.inv with ⟨rfl, -, key, hkey⟩ | ⟨rfl, -, rfl⟩ | ⟨e, rfl, -, -, hstep, rfl⟩
  · exact ⟨s, .here s, (command_machine hkey).trans hs⟩
  · exact ⟨s, .here s, hs⟩
  · rw [← hs]
    exact ⟨_, .one hstep, rfl⟩

theorem machine_answers_session {ds : List Decision}
    (h : Trace (InterfaceStep host disasm) σ ds (some τ)) :
    Trace (MachineStep host disasm) σ.machine (ds.map Decision.toExecuted) (some τ.machine) := by
  obtain ⟨t, ht, rfl⟩ := h.simulate (R := fun σ s => σ.machine = s) (P := fun _ => True)
    (fun _ _ _ _ hstep _ hs => machine_answers hstep hs) (fun _ _ => trivial) rfl
  exact ht

/-- The key `s` executes one instruction and comes back to the prompt. -/
theorem session_answers {s t : Machine} {e : Option Executed}
    (h : MachineStep host disasm s e (some t)) (hs : σ.machine = s) (hmode : σ.mode = .prompt) :
    Trace (InterfaceStep host disasm) σ (e.toList.map fun e => ⟨e, e.endsInterface⟩)
      (some ⟨t, σ.debugger, .prompt⟩) := by
  cases h with
  | @execute e fetched runs goes =>
    have hkey : InterfaceStep host disasm σ none (some (σ.withMode .one)) :=
      .command hmode .s
    have hstep : InterfaceStep host disasm (σ.withMode .one) (some ⟨e, e.endsInterface⟩)
        (if e.endsInterface then none else some ((σ.withMode .one).after e.after)) :=
      .execute rfl hs.symm (by rw [← fetched, ← hs]; rfl) runs
    rw [if_neg (by simp [goes])] at hstep
    exact Trace.next hkey (.one hstep)

/-- A session can show a list of instructions and end with a machine exactly where the machine by
itself executes them and ends there. -/
theorem session_iff_run (hmode : σ.mode = .prompt) (es : List Executed) (t : Machine) :
    (∃ ds τ, Trace (InterfaceStep host disasm) σ ds (some τ) ∧ ds.map Decision.toExecuted = es ∧
      τ.machine = t) ↔ Trace (MachineStep host disasm) σ.machine es (some t) := by
  constructor
  · rintro ⟨ds, τ, htrace, rfl, rfl⟩
    exact machine_answers_session htrace
  · intro h
    obtain ⟨τ, hτ, ht, -⟩ := h.simulate (P := fun _ => True)
      (R := fun s (σ : Terminal) => σ.machine = s ∧ σ.mode = .prompt)
      (fun _ _ _ _ hstep _ hs => ⟨_, session_answers hstep hs.1 hs.2, rfl, rfl⟩)
      (fun _ _ => trivial) ⟨rfl, hmode⟩
    exact ⟨_, τ, hτ, by rw [List.map_map]; exact List.map_id es, ht⟩

section Blind

variable {limit : BitVec 32} (hdis : ∀ m a (len : BitVec 32), 15 ≤ len →
  disasm m a len = disasm m a 16)
include hdis

/-- No instruction is longer than 15 bytes. -/
theorem fetch_eq {s : Machine} (hfits : 15 ≤ limit - s.eip) :
    s.fetch disasm (limit - s.eip) = s.fetch disasm 16 :=
  hdis _ _ _ hfits

theorem blind_answers {s t u : Machine} {e : Option Executed}
    (h : MachineStep host disasm s e (some t))
    (hfits : ∀ x ∈ e.toList, 15 ≤ limit - x.before.eip) (hu : s = u) :
    ∃ v, Trace (BlindStep host disasm limit) u (e.toList.map fun e => ⟨e, e.endsBlind⟩) (some v) ∧
      t = v := by
  subst hu
  cases h with
  | @execute e fetched runs goes =>
    have hends : ¬ e.endsBlind = true := by
      intro hb
      have hi : e.endsInterface = true := by
        unfold Executed.endsBlind exits at hb
        unfold Executed.endsInterface
        simp only [Bool.and_eq_true, decide_eq_true_iff] at hb
        rw [hb.2]
        rfl
      rw [goes] at hi
      cases hi
    have hstep := @BlindStep.execute host disasm limit _
      ((fetch_eq hdis (hfits e List.mem_cons_self)).trans fetched) runs
    rw [if_neg hends] at hstep
    exact ⟨_, .one hstep, rfl⟩

theorem machine_answers_blind {s t u : Machine} {d : Option Decision}
    (h : BlindStep host disasm limit s d (some t))
    (hP : ∀ x ∈ d.toList, 15 ≤ limit - x.before.eip ∧ x.endsInterface = false) (hu : s = u) :
    ∃ v, Trace (MachineStep host disasm) u (d.toList.map Decision.toExecuted) (some v) ∧
      t = v := by
  subst hu
  generalize ho : some t = o at h
  rcases h with _ | ⟨fetched, runs⟩
  · cases ho
  · rename_i e
    obtain ⟨hfits, hgoes⟩ := hP _ List.mem_cons_self
    split at ho
    · cases ho
    · cases ho
      have hstep := MachineStep.execute ((fetch_eq hdis hfits).symm.trans fetched) runs hgoes
      exact ⟨_, .one hstep, rfl⟩

/-- A session can show a list of instructions and end with a machine exactly where
`blind_elf_main` executes them and goes on from there, and none of them has a result that the
interface takes for the end. -/
theorem session_iff_blind (hmode : σ.mode = .prompt) {es : List Executed} {t : Machine}
    (hfits : ∀ e ∈ es, 15 ≤ limit - e.before.eip) :
    (∃ ds τ, Trace (InterfaceStep host disasm) σ ds (some τ) ∧ ds.map Decision.toExecuted = es ∧
      τ.machine = t) ↔
    Trace (BlindStep host disasm limit) σ.machine (es.map fun e => ⟨e, e.endsBlind⟩) (some t) ∧
      ∀ e ∈ es, e.endsInterface = false := by
  rw [session_iff_run hmode]
  constructor
  · intro h
    obtain ⟨v, hv, rfl⟩ := h.simulate
      (fun _ _ _ _ hstep hP hu => blind_answers hdis hstep hP hu) hfits rfl
    refine ⟨hv, h.forall_mem ?_⟩
    rintro s e o ⟨fetched, runs, goes⟩
    exact goes
  · rintro ⟨h, hgoes⟩
    obtain ⟨v, hv, rfl⟩ := h.simulate
      (fun _ _ _ _ hstep hP hu => machine_answers_blind hdis hstep hP hu)
      (List.forall_mem_map.2 fun e he => ⟨hfits e he, hgoes e he⟩) rfl
    rw [List.map_map] at hv
    exact List.map_id es ▸ hv

end Blind

/-- `STC`, `CMC` and, for all other bytes, `NOP`. -/
def carryDisasm : Disasm := fun b _ _ => some (.bare
  (if b 0 = 0xF9 then "stc" else if b 0 = 0xF5 then "cmc" else "nop") 1 [])

/-- The three of them at 0. -/
def carrying : Machine :=
  { Machine.blank with mem := fun i => ([0xF9, 0xF5, 0x90] : List (BitVec 8)).getD i 0 }

def stcRun : Executed :=
  ⟨.bare "stc" 1 [], carrying, some 0, 0, (carrying.advance (.bare "stc" 1 [])).setFlag .CF⟩

def cmcRun : Executed :=
  ⟨.bare "cmc" 1 [], stcRun.after, some 0, 0,
    (stcRun.after.advance (.bare "cmc" 1 [])).complementFlag .CF⟩

def nopRun : Executed :=
  ⟨.bare "nop" 1 [], cmcRun.after, some 0, 0, cmcRun.after.advance (.bare "nop" 1 [])⟩

/-- What the user sees at first, with nothing set. -/
def Terminal.first : Terminal := ⟨carrying, .start fun _ => 0, .prompt⟩

/-- The three instructions in either loop. -/
theorem session_iff_blind_carry : ∃ ds τ,
    Trace (InterfaceStep .silent carryDisasm) .first ds (some τ) ∧
      ds.map Decision.toExecuted = [stcRun, cmcRun, nopRun] ∧ τ.machine = nopRun.after := by
  have hstc := @BlindStep.execute .silent carryDisasm 32 stcRun rfl rfl
  have hcmc := @BlindStep.execute .silent carryDisasm 32 cmcRun rfl rfl
  have hnop := @BlindStep.execute .silent carryDisasm 32 nopRun rfl rfl
  exact (@session_iff_blind .silent carryDisasm .first 32 (fun _ _ _ _ => rfl) rfl _ _
    (by decide)).2 ⟨.next hstc (.next hcmc (.one hnop)), by decide⟩

theorem Terminal.after_of_lasting (h : σ.mode.Lasting) (t : Machine) :
    σ.after t = { σ with machine := t } := by
  obtain ⟨-, hone⟩ := h
  unfold after
  split
  · rename_i hm
    exact absurd hm hone
  · rfl

theorem stops_of_trace (hm : σ.mode.Lasting) {ds : List Decision}
    (h : Trace (AutoStep host disasm) σ ds (some τ)) (hmode : τ.mode = .prompt) :
    Trace (MachineStep host disasm) σ.machine (ds.map Decision.toExecuted) (some τ.machine) ∧
      (∀ e ∈ ds.map Decision.toExecuted, σ.stops e.before.eip = false) ∧
      σ.stops τ.machine.eip = true ∧ τ = { σ with machine := τ.machine, mode := .prompt } := by
  generalize ho : some τ = o at h
  induction h with
  | here s =>
    cases ho
    exact absurd hmode hm.1
  | leave => cases ho
  | @next σ σ' d ds o first rest ih =>
    subst ho
    obtain ⟨-, hstep⟩ := first
    rcases hstep.inv with ⟨-, hp, -⟩ | ⟨rfl, hexec, rfl⟩ | ⟨e, rfl, hexec, hbefore, hmach, rfl⟩
    · exact absurd hp hm.1
    · rw [σ.executes_eq, Bool.not_eq_false'] at hexec
      -- nothing but a command follows a stop
      generalize hu : σ.withMode .prompt = υ at rest
      cases rest with
      | here =>
        subst hu
        exact ⟨.here _, by simp, hexec, rfl⟩
      | next first => exact absurd (by rw [← hu]; rfl) first.1
    · rw [σ.executes_eq, Bool.not_eq_true'] at hexec
      rw [σ.after_of_lasting hm] at ih
      obtain ⟨htrace, hno, hyes, hτ⟩ := ih hm rfl
      rw [List.map_append]
      exact ⟨Trace.next hmach htrace,
        List.forall_mem_cons.2 ⟨by rw [hbefore]; exact hexec, hno⟩, hyes, hτ⟩

theorem trace_of_stops (hm : σ.mode.Lasting) {es : List Executed} {s t : Machine}
    (h : Trace (MachineStep host disasm) s es (some t)) (hs : σ.machine = s)
    (hno : ∀ e ∈ es, σ.stops e.before.eip = false) (hyes : σ.stops t.eip = true) :
    ∃ ds, Trace (AutoStep host disasm) σ ds (some { σ with machine := t, mode := .prompt }) ∧
      ds.map Decision.toExecuted = es := by
  generalize ho : some t = o at h
  induction h generalizing σ with
  | here s =>
    cases ho
    subst hs
    have hexec : σ.executes = false := by
      rw [σ.executes_eq, hyes]
      rfl
    exact ⟨_, .one ⟨hm.1, .stop hexec⟩, rfl⟩
  | leave => cases ho
  | next first rest ih =>
    rcases first with ⟨fetched, runs, goes⟩
    rename_i e
    obtain ⟨hfirst, hrest⟩ := List.forall_mem_append.1 hno
    have hexec : σ.executes = true := by
      rw [σ.executes_eq, hs, hfirst e List.mem_cons_self]
      rfl
    have hstep : InterfaceStep host disasm σ (some ⟨e, e.endsInterface⟩) _ :=
      .execute hexec hs.symm (by rw [hs]; exact fetched) runs
    rw [if_neg (by simp [goes]), σ.after_of_lasting hm] at hstep
    obtain ⟨ds, hds, hmap⟩ := @ih { σ with machine := e.after } hm rfl hrest hyes ho
    exact ⟨_, Trace.next ⟨hm.1, hstep⟩ hds, by rw [List.map_append, hmap]; rfl⟩

/-- The prompt comes back at the first machine of the run that has an address to stop at, and with
nothing else changed. -/
theorem lasting_stops_iff (hm : σ.mode.Lasting) {es : List Executed} :
    (∃ ds, Trace (AutoStep host disasm) σ ds (some τ) ∧ τ.mode = .prompt ∧
      ds.map Decision.toExecuted = es) ↔
    Trace (MachineStep host disasm) σ.machine es (some τ.machine) ∧
      (∀ e ∈ es, σ.stops e.before.eip = false) ∧ σ.stops τ.machine.eip = true ∧
      τ = { σ with machine := τ.machine, mode := .prompt } := by
  constructor
  · rintro ⟨ds, h, hmode, rfl⟩
    exact stops_of_trace hm h hmode
  · rintro ⟨h, hno, hyes, hτ⟩
    obtain ⟨ds, hds, hmap⟩ := trace_of_stops hm h rfl hno hyes
    rw [← hτ] at hds
    exact ⟨ds, hds, by rw [hτ], hmap⟩

end Sessions

/-- `c` with a breakpoint at 3, from 0. -/
def Terminal.continuing : Terminal :=
  ⟨carrying, (Debugger.start fun _ => 0).cmdB 3, .toBreakpoint⟩

theorem lasting_stops_carry : ∃ ds, Trace (AutoStep .silent carryDisasm) .continuing ds
      (some { Terminal.continuing with machine := nopRun.after, mode := .prompt }) ∧
    Mode.prompt = .prompt ∧ ds.map Decision.toExecuted = [stcRun, cmcRun, nopRun] := by
  have hstc := @MachineStep.execute .silent carryDisasm stcRun rfl rfl rfl
  have hcmc := @MachineStep.execute .silent carryDisasm cmcRun rfl rfl rfl
  have hnop := @MachineStep.execute .silent carryDisasm nopRun rfl rfl rfl
  have hm : Terminal.continuing.mode.Lasting := by simp [Terminal.continuing, Mode.Lasting]
  exact (lasting_stops_iff hm).2
    ⟨.next hstc (.next hcmc (.one hnop)), by decide, by decide, rfl⟩

end I386Vm
