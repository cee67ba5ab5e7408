import I386Vm.Interface
import I386Vm.Proofs.Frame
import I386Vm.Proofs.Results

/-!
# The loops leave when the guest asks for it

`exit` is signalled by the value `0xdeadbeef`, which no other handler and no other entry of the
table of system calls returns by itself. The value of a system call is still the kernel's, that of a
handler without a `return` is anything, `exit_group` has no entry, and a prefixed `INT` does not
begin with `0xCD`. Where none of these is the case both loops are left at the `INT 0x80` of an
`exit` and nowhere else.
-/

namespace I386Vm

open Prog

/-- `INT 0x80`, whatever its prefixes. -/
def CsInsn.IsInt80 (insn : CsInsn) : Prop := insn.mnemonic = "int" ∧ insn.intNumber = 0x80

namespace Executed

variable (e : Executed)

/-- The system call is `exit` or `exit_group`. -/
def AsksToExit : Prop :=
  e.insn.IsInt80 ∧ (e.before.reg .eax = 1 ∨ e.before.reg .eax = 252)

/-- Nothing that can go wrong with the signal does. -/
structure Meets (k : Kernel) : Prop where
  notGroup : e.insn.IsInt80 → e.before.reg .eax ≠ 252
  unprefixed : e.insn.IsInt80 → e.before.reg .eax = 1 → e.insn.byte0 = 0xCD
  answer : e.insn.IsInt80 → e.before.reg .eax ≠ 1 →
    ¬ k.Coincides (e.before.reg .eax).toNat (e.before.advance e.insn)
  found : e.insn.mnemonic ∈ unreturned → e.found ≠ deadbeef

end Executed

/-- The loop is left exactly when the guest asks for it, and the other loop would do the same. -/
def Decision.Right (d : Decision) : Prop :=
  (d.leaves = true ↔ d.AsksToExit) ∧ (d.endsBlind = true ↔ d.endsInterface = true)

section Dispatch

variable {host : Host} {insn : CsInsn} {s : Machine}

set_option maxRecDepth 4000 in
theorem unreturned_subset : "int" :: unreturned ⊆ inss := by
  intro m hm
  revert m
  decide

theorem dispatcher_int (host : Host) (insn : CsInsn) :
    dispatcher host "int" insn = intI host insn := by
  rcases dispatcher_cases (results_table host) "int" insn with ⟨-, h, hh, heq⟩ | ⟨hm, -⟩
  · rw [heq]
    cases hh with
    | int => rfl
    | missing _ hint => exact absurd rfl hint
    | harmless _ hint => exact absurd rfl hint
  · exact absurd (unreturned_subset List.mem_cons_self) hm

/-- Any other instruction returns a harmless value, unless its handler has no `return`. -/
theorem dispatcher_other {r : Ret} {t : Machine} (hm : insn.mnemonic ≠ "int")
    (h : (dispatcher host insn.mnemonic insn).run s = .ok (r, t)) :
    insn.mnemonic ∈ unreturned ∧ r = none ∨ insn.mnemonic ∉ unreturned ∧ Harmless r := by
  have hcases := dispatcher_cases (results_table host) insn.mnemonic insn
  rcases hcases with ⟨-, f, hf, heq⟩ | ⟨hn, heq⟩
  · rw [heq] at h
    generalize insn.mnemonic = m at hf hm ⊢
    cases hf with
    | int => exact absurd rfl hm
    | missing hmem _ returns => exact .inl ⟨hmem, (returns insn).out _ _ _ h⟩
    | harmless hmem _ returns => exact .inr ⟨hmem, (returns insn).out _ _ _ h⟩
  · rw [heq] at h
    cases h
    exact .inr ⟨fun hmem => hn (unreturned_subset (List.mem_cons_of_mem _ hmem)),
      _, rfl, by decide⟩

/-- An `INT` of another number returns a harmless value. -/
theorem intI_harmless {r : Ret} {t : Machine} (hn : insn.intNumber ≠ 0x80)
    (h : (intI host insn).run s = .ok (r, t)) : Harmless r := by
  by_cases h0 : insn.intNumber = 0
  · rw [intI_zero h0] at h
    cases h
    exact ⟨_, rfl, by decide⟩
  · rw [intI_other h0 hn] at h
    cases h
    exact ⟨_, rfl, by decide⟩

theorem intI_0x80_result {k : Kernel} {ports : Host} {r : Ret} {t : Machine}
    (hn : insn.intNumber = 0x80) (h : (intI (k.host ports) insn).run s = .ok (r, t)) :
    r = some ((k.action (s.reg .eax).toNat (s.advance insn)).run k (s.advance insn)).1 := by
  rcases Nat.lt_or_ge (s.reg .eax).toNat nsyscalls with hlt | hle
  · rw [intI_0x80_of_lt hn hlt] at h
    cases h
    rfl
  · rw [intI_0x80_of_le hn hle] at h
    cases h

end Dispatch

section Instruction

variable {k : Kernel} {ports : Host} {e : Executed}

theorem Executed.endsBlind_iff :
    e.endsBlind = true ↔ e.insn.byte0 = 0xCD ∧ e.res = some deadbeef := by
  unfold Executed.endsBlind exits deadbeef
  rw [Bool.and_eq_true, decide_eq_true_iff, decide_eq_true_iff]

theorem Executed.endsInterface_iff : e.endsInterface = true ↔ e.res.getD e.found = deadbeef :=
  decide_eq_true_iff

/-- Both loops leave where they should, and at the same instructions. -/
def Executed.Sound (e : Executed) : Prop :=
  (e.endsInterface = true ↔ e.AsksToExit) ∧ (e.endsBlind = true ↔ e.endsInterface = true)

/-- A result that cannot be mistaken, of an instruction that asks for nothing. -/
theorem sound_of_harmless (hint : ¬ e.insn.IsInt80) (h : Harmless e.res) : e.Sound := by
  obtain ⟨x, hx, hne⟩ := h
  have hinterface : ¬ e.endsInterface = true := by
    rw [Executed.endsInterface_iff, hx]
    exact hne
  have hblind : ¬ e.endsBlind = true := by
    rw [Executed.endsBlind_iff, hx]
    exact fun hb => hne (Option.some.inj hb.2)
  exact ⟨iff_of_false hinterface fun hasks => hint hasks.1, iff_of_false hblind hinterface⟩

theorem meets_iff_of_not_int (hint : ¬ e.insn.IsInt80) :
    e.Meets k ↔ (e.insn.mnemonic ∈ unreturned → e.found ≠ deadbeef) := by
  constructor
  · intro hmeets
    exact hmeets.found
  · intro hfound
    exact ⟨fun h => absurd h hint, fun h => absurd h hint, fun h => absurd h hint, hfound⟩

/-- Without a `return` the blind loop, whose test names the opcode of `INT`, goes on. -/
theorem sound_iff_of_none (hint : ¬ e.insn.IsInt80) (h : e.res = none) :
    e.Sound ↔ e.found ≠ deadbeef := by
  have hblind : ¬ e.endsBlind = true := by
    rw [Executed.endsBlind_iff, h]
    exact fun hb => by cases hb.2
  have hasks : ¬ e.AsksToExit := fun hasks => hint hasks.1
  unfold Executed.Sound
  rw [Executed.endsInterface_iff, h, iff_false_right hasks, iff_false_left hblind]
  exact and_self_iff

theorem sound_iff_of_int80 (hint : e.insn.IsInt80) {x : BitVec 32} (hx : e.res = some x) :
    e.Sound ↔ (x = deadbeef ↔ e.before.reg .eax = 1 ∨ e.before.reg .eax = 252) ∧
      (x = deadbeef → e.insn.byte0 = 0xCD) := by
  unfold Executed.Sound Executed.AsksToExit
  rw [Executed.endsInterface_iff, Executed.endsBlind_iff, hx, and_iff_right hint]
  simp only [Option.getD_some, Option.some.injEq]
  tauto

/-- Of the entries 1 and 252 the first returns `0xdeadbeef` and the second 0. -/
theorem meets_iff_of_int80 (hint : e.insn.IsInt80) {x : BitVec 32}
    (hx : x = ((k.action (e.before.reg .eax).toNat (e.before.advance e.insn)).run k
      (e.before.advance e.insn)).1) :
    ((x = deadbeef ↔ e.before.reg .eax = 1 ∨ e.before.reg .eax = 252) ∧
      (x = deadbeef → e.insn.byte0 = 0xCD)) ↔ e.Meets k := by
  have hm : e.insn.mnemonic ∉ unreturned := by
    rw [hint.1]
    decide
  by_cases h1 : e.before.reg .eax = 1
  · have hbeef : x = deadbeef := by
      rw [hx, h1]
      rfl
    constructor
    · rintro ⟨-, hbyte⟩
      exact ⟨fun _ => by rw [h1]; decide, fun _ _ => hbyte hbeef, fun _ h => absurd h1 h,
        fun h => absurd h hm⟩
    · intro hmeets
      exact ⟨iff_of_true hbeef (.inl h1), fun _ => hmeets.unprefixed hint h1⟩
  · by_cases h252 : e.before.reg .eax = 252
    · have hzero : x = 0 := by
        rw [hx, h252]
        rfl
      refine iff_of_false (fun h => ?_) fun hmeets => hmeets.notGroup hint h252
      have hbeef := h.1.2 (.inr h252)
      rw [hzero] at hbeef
      exact absurd hbeef (by decide)
    · have hn : (e.before.reg .eax).toNat ≠ 1 := fun hn => h1 (BitVec.eq_of_toNat_eq hn)
      have hiff : x = deadbeef ↔ k.Coincides (e.before.reg .eax).toNat
          (e.before.advance e.insn) := by
        rw [hx]
        exact result_eq_deadbeef_iff k hn _
      constructor
      · rintro ⟨hx, -⟩
        refine ⟨fun _ => h252, fun _ h => absurd h h1, fun _ _ hc => ?_, fun h => absurd h hm⟩
        rcases hx.1 (hiff.2 hc) with h | h
        · exact h1 h
        · exact h252 h
      · intro hmeets
        have hne : x ≠ deadbeef := fun h => hmeets.answer hint h1 (hiff.1 h)
        exact ⟨iff_of_false hne (not_or.2 ⟨h1, h252⟩), fun h => absurd h hne⟩

theorem sound_iff_meets (hruns : e.Runs (k.host ports)) : e.Sound ↔ e.Meets k := by
  by_cases hmn : e.insn.mnemonic = "int"
  · have hrun := hruns
    unfold Executed.Runs at hrun
    rw [hmn, dispatcher_int] at hrun
    have hm : e.insn.mnemonic ∉ unreturned := by
      rw [hmn]
      decide
    by_cases hn : e.insn.intNumber = 0x80
    · have hint : e.insn.IsInt80 := ⟨hmn, hn⟩
      rw [sound_iff_of_int80 hint (intI_0x80_result hn hrun)]
      exact meets_iff_of_int80 hint rfl
    · have hint : ¬ e.insn.IsInt80 := fun h => hn h.2
      rw [meets_iff_of_not_int hint]
      exact iff_of_true (sound_of_harmless hint (intI_harmless hn hrun)) fun h => absurd h hm
  · have hint : ¬ e.insn.IsInt80 := fun h => hmn h.1
    rw [meets_iff_of_not_int hint]
    rcases dispatcher_other hmn hruns with ⟨hm, hnone⟩ | ⟨hm, hharmless⟩
    · rw [sound_iff_of_none hint hnone]
      exact (imp_iff_right hm).symm
    · exact iff_of_true (sound_of_harmless hint hharmless) fun h => absurd h hm

end Instruction

/-- The steps of the blind loop are the iterations. -/
theorem exists_blindStep_iff {host : Host} {disasm : Disasm} {limit : BitVec 32} {s : Machine}
    {o : Option Machine} :
    (∃ d, BlindStep host disasm limit s d o) ↔ iteration host disasm limit s = .ok o := by
  unfold iteration
  constructor
  · rintro ⟨d, h⟩
    cases h with
    | undecoded fetched =>
      unfold Machine.fetch at fetched
      rw [fetched]
      rfl
    | @execute e fetched runs =>
      unfold Machine.fetch at fetched
      unfold Executed.Runs at runs
      rw [fetched]
      change (do let r ← (dispatcher host e.insn.mnemonic e.insn).run e.before; _) = _
      rw [runs]
      rfl
  · intro h
    split at h
    · rename_i hnone
      cases h
      exact ⟨none, .undecoded hnone⟩
    · rename_i insn hsome
      rcases hrun : (dispatcher host insn.mnemonic insn).run s with err | ⟨r, t⟩
      · rw [hrun] at h
        cases h
      · rw [hrun] at h
        cases h
        exact ⟨_, @BlindStep.execute host disasm limit ⟨insn, s, r, 0, t⟩ hsome hrun⟩

/-- A handler that ends with 0 does not leave the loop. -/
theorem blindStep_of_run {host : Host} {disasm : Disasm} {limit : BitVec 32} {s t : Machine}
    {insn : CsInsn} (hfetch : s.fetch disasm (limit - s.eip) = some insn)
    (hrun : (dispatcher host insn.mnemonic insn).run s = .ok (some 0, t)) :
    BlindStep host disasm limit s (some ⟨⟨insn, s, some 0, 0, t⟩, false⟩) (some t) := by
  have hgoes : Executed.endsBlind ⟨insn, s, some 0, 0, t⟩ = false := by
    simp [Executed.endsBlind, exits]
  have hstep :=
    @BlindStep.execute host disasm limit ⟨insn, s, some 0, 0, t⟩ hfetch hrun
  rw [hgoes] at hstep
  exact hstep

section Runs

variable {k : Kernel} {ports : Host} {disasm : Disasm} {ds : List Decision}

theorem right_iff_of_blind {limit : BitVec 32} (s : Machine) (d : Decision) (o : Option Machine)
    (h : BlindStep (k.host ports) disasm limit s (some d) o) : d.Right ↔ d.Meets k := by
  cases h with
  | @execute e fetched runs =>
    rw [← sound_iff_meets runs]
    constructor
    · rintro ⟨hasks, heq⟩
      exact ⟨heq.symm.trans hasks, heq⟩
    · rintro ⟨hasks, heq⟩
      exact ⟨heq.trans hasks, heq⟩

theorem right_iff_of_interface (σ : Terminal) (d : Decision) (o : Option Terminal)
    (h : InterfaceStep (k.host ports) disasm σ (some d) o) : d.Right ↔ d.Meets k := by
  cases h with
  | execute executes before fetched runs => exact sound_iff_meets runs

/-- In a run of either loop all decisions are right exactly when every executed instruction meets
the conditions. -/
theorem right_iff_meets (h : MainRun (k.host ports) disasm ds) :
    (∀ d ∈ ds, d.Right) ↔ ∀ d ∈ ds, d.Meets k := by
  have hstep : ∀ d ∈ ds, (d.Right ↔ d.Meets k) := by
    cases h with
    | blind trace => exact trace.forall_mem right_iff_of_blind
    | interface trace => exact trace.forall_mem right_iff_of_interface
  exact forall₂_congr hstep

/-- An `INT 0x80` on its own, with the number `n` in `EAX`. -/
def int80Run (n : BitVec 32) : Executed where
  insn := int80Insn
  before := Machine.blank.setReg .eax n
  res := some ((Kernel.zero.host .silent).syscalls n.toNat
    ((Machine.blank.setReg .eax n).advance int80Insn)).1
  found := 0
  after := ((Machine.blank.setReg .eax n).advance int80Insn).answered
    ((Kernel.zero.host .silent).syscalls n.toNat
      ((Machine.blank.setReg .eax n).advance int80Insn))

theorem int80Run_runs {n : BitVec 32} (hn : n.toNat < nsyscalls) :
    (int80Run n).Runs (Kernel.zero.host .silent) := by
  have hrun := @intI_0x80_of_lt (Kernel.zero.host .silent) int80Insn (Machine.blank.setReg .eax n)
    rfl (by rwa [Machine.reg_setReg])
  unfold Executed.Runs
  change (dispatcher _ "int" int80Insn).run _ = _
  rw [dispatcher_int]
  rwa [Machine.reg_setReg] at hrun

/-- `EXIT` leaves the blind loop. -/
theorem right_exit : MainRun (Kernel.zero.host .silent) (fun _ _ _ => some int80Insn)
    [⟨int80Run 1, true⟩] ∧ Decision.Right ⟨int80Run 1, true⟩ := by
  have hruns : (int80Run 1).Runs (Kernel.zero.host .silent) := int80Run_runs (by decide)
  have hrun : MainRun (Kernel.zero.host .silent) (fun _ _ _ => some int80Insn)
      [⟨int80Run 1, true⟩] :=
    .blind (.leave (@BlindStep.execute _ _ 0 (int80Run 1) rfl hruns))
  refine ⟨hrun, (right_iff_meets hrun).2 (fun d hd => ?_) _ (List.mem_singleton_self _)⟩
  obtain rfl := List.mem_singleton.1 hd
  exact ⟨fun _ => by decide, fun _ _ => rfl, fun _ h => absurd rfl h, fun _ => by decide⟩

/-- `EXIT_GROUP` has no entry in the table, and the loop goes on after it. -/
theorem not_right_exit_group : ¬ ∀ (k : Kernel) (ports : Host) (disasm : Disasm)
    (ds : List Decision), MainRun (k.host ports) disasm ds → ∀ d ∈ ds, d.Right := by
  intro hall
  have hruns : (int80Run 252).Runs (Kernel.zero.host .silent) := int80Run_runs (by decide)
  have hrun : MainRun (Kernel.zero.host .silent) (fun _ _ _ => some int80Insn)
      [⟨int80Run 252, false⟩] :=
    .blind (.next (@BlindStep.execute _ _ 0 (int80Run 252) rfl hruns) (.here _))
  have hright := hall _ _ _ _ hrun _ (List.mem_singleton_self _)
  have hleaves : false = true := hright.1.2 ⟨⟨rfl, rfl⟩, .inr rfl⟩
  cases hleaves

end Runs

end I386Vm
