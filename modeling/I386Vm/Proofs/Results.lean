import I386Vm.Dispatch
import I386Vm.Proofs.Interrupts
import I386Vm.Proofs.ThreadArea
import Mathlib.Data.List.Forall2
import Mathlib.Tactic.CasesM

/-!
# What the handlers return

Of the dispatch table only `int_i` can return `0xdeadbeef`: the other handlers return a few small
numbers, and five of them nothing at all. Of the table of system calls only `do_exit` returns it by
itself; the others return what the kernel answers or a small number.
-/

namespace I386Vm

open Prog

set_option synthInstance.maxSize 10000

/-- The mnemonics of the handlers without a `return`. -/
def unreturned : List String := ["stos", "stosb", "stosw", "stosd", "verr"]

/-- A result that both loops go on with. -/
def Harmless (r : Ret) : Prop := ∃ x, r = some x ∧ x ≠ deadbeef

/-- What the table says of a handler's results by its mnemonic. -/
inductive Results (host : Host) : String → Handler → Prop
  | int : Results host "int" (intI host)
  | missing {m : String} {h : Handler} (hm : m ∈ unreturned) (hint : m ≠ "int")
      (returns : ∀ insn, Returns (· = none) (h insn)) : Results host m h
  | harmless {m : String} {h : Handler} (hm : m ∉ unreturned) (hint : m ≠ "int")
      (returns : ∀ insn, Returns Harmless (h insn)) : Results host m h

/-- The handlers but the null at the end of the table are sequences. -/
theorem returns_of {Q : Ret → Prop} {h : Handler} {α : Type} {x : CsInsn → Exec α}
    {f : CsInsn → α → Exec Ret} (e : h = fun insn => x insn >>= f insn)
    (k : ∀ insn a, Returns Q (f insn a)) (insn : CsInsn) : Returns Q (h insn) := by
  have hf := k insn
  rw [e]
  infer_instance

instance : Returns (· = none) (pure none : Exec Ret) := .pure rfl

instance : Returns Harmless (pure (some 0) : Exec Ret) := .pure ⟨_, rfl, by decide⟩

instance : Returns Harmless (pure (some 1) : Exec Ret) := .pure ⟨_, rfl, by decide⟩

instance : Returns Harmless (pure (some (-1)) : Exec Ret) := .pure ⟨_, rfl, by decide⟩

instance : Returns Harmless (pure (some (-5)) : Exec Ret) := .pure ⟨_, rfl, by decide⟩

instance : Returns Harmless (pure (some (-1000)) : Exec Ret) := .pure ⟨_, rfl, by decide⟩

instance (c : Prop) [Decidable c] :
    Returns Harmless (pure (some (if c then 1 else 0)) : Exec Ret) :=
  .pure ⟨_, rfl, by split <;> decide⟩

/-- The handler of interrupt 4 is `unimplemented`. -/
instance (host : Host) : Returns Harmless
    (do let res ← intDispatcher host 0x4; return some res : Exec Ret) := by
  rw [intDispatcher_other (by decide)]
  exact .pure ⟨_, rfl, by decide⟩

theorem returns_null (insn : CsInsn) : Returns Harmless (nullHandler insn) :=
  Returns.throw Fault.null

theorem results_table (host : Host) : List.Forall₂ (Results host) inss (instructions host) := by
  unfold inss instructions
  constructorm* List.Forall₂ _ _ _
  all_goals first
    | with_reducible exact .int
    | exact .harmless (by simp [unreturned]) (by simp) (returns_of rfl fun _ _ => inferInstance)
    | exact .harmless (by simp [unreturned]) (by simp) returns_null
    | exact .missing (by simp [unreturned]) (by simp) (returns_of rfl fun _ _ => inferInstance)

/-- What the function returns without asking the kernel is not `0xdeadbeef`. -/
def NoSignal (h : Syscall32bits) : Prop := ∀ k s x m, h k s = .done x m → x ≠ deadbeef

theorem noSignal_pass (nr : Sys) (args : Kernel → Machine → List Arg) : NoSignal (pass nr args) :=
  fun _ _ _ _ h => by cases h

theorem noSignal_passAddress (nr : Sys) (args : Kernel → Machine → List Arg) :
    NoSignal (passAddress nr args) :=
  fun _ _ _ _ h => by cases h

theorem noSignal_noBody : NoSignal noBody := fun _ _ _ _ h => by cases h

theorem noSignal_unimpl : NoSignal unimpl := fun _ _ _ _ h => by
  cases h
  decide

theorem noSignal_doPoll : NoSignal doPoll := by
  intro k s x m h
  unfold doPoll at h
  split at h <;> cases h
  decide

theorem noSignal_doExecve : NoSignal doExecve := by
  intro k s x m h
  unfold doExecve at h
  split at h <;> cases h

theorem noSignal_doIoctl : NoSignal doIoctl := by
  intro k s x m h
  unfold doIoctl at h
  repeat' split at h
  all_goals cases h
  decide

theorem noSignal_setThreadArea : NoSignal setThreadArea := by
  intro k s x m h
  unfold setThreadArea at h
  rw [doSetThreadArea_run] at h
  rcases hpick : s.pickEntry s.arg1.toNat with _ | index <;> rw [hpick] at h <;> cases h <;> decide

theorem noSignal_getD {l : List Syscall32bits} (hl : ∀ h ∈ l, NoSignal h) (n : ℕ) :
    NoSignal (l.getD n unimpl) := by
  rw [List.getD_eq_getElem?_getD]
  rcases hn : l[n]? with _ | h
  · exact noSignal_unimpl
  · exact hl h (List.mem_of_getElem? hn)

theorem noSignal_replicate (n : ℕ) : ∀ h ∈ List.replicate n unimpl, NoSignal h := by
  intro h hh
  rw [(List.mem_replicate.1 hh).2]
  exact noSignal_unimpl

/-- The entries after `do_restart_syscall` and `do_exit`. -/
theorem noSignal_old : (syscallsOld.drop 2).Forall NoSignal := by
  repeat' apply And.intro
  all_goals first
    | exact noSignal_pass _ _
    | exact noSignal_passAddress _ _
    | exact noSignal_noBody
    | exact noSignal_unimpl
    | exact noSignal_doPoll
    | exact noSignal_doExecve
    | exact noSignal_doIoctl

theorem drop_syscalls : syscalls.drop 2 =
    syscallsOld.drop 2 ++ List.replicate 52 unimpl ++ setThreadArea :: List.replicate 14 unimpl
      ++ doSetTidAddress :: List.replicate 193 unimpl := rfl

/-- Every entry but that of `exit`. -/
theorem noSignal_syscalls {n : ℕ} (hn : n ≠ 1) : NoSignal (syscalls.getD n unimpl) := by
  rcases n with _ | _ | n
  · exact noSignal_pass _ _
  · exact absurd rfl hn
  · have hl : ∀ h ∈ syscalls.drop 2, NoSignal h := by
      rw [drop_syscalls]
      simp only [List.forall_mem_append, List.forall_mem_cons]
      have hold := List.forall_iff_forall_mem.1 noSignal_old
      exact ⟨⟨⟨hold, noSignal_replicate 52⟩, noSignal_setThreadArea, noSignal_replicate 14⟩,
        noSignal_pass _ _, noSignal_replicate 193⟩
    have hdrop : syscalls.getD (n + 2) unimpl = (syscalls.drop 2).getD n unimpl := by
      rw [List.getD_eq_getElem?_getD, List.getD_eq_getElem?_getD, List.getElem?_drop,
        Nat.add_comm]
    rw [hdrop]
    exact noSignal_getD hl n

/-- The kernel's answer makes the handler return `0xdeadbeef`, or what stands in for the result of a
handler that gives none is `0xdeadbeef`. -/
def Kernel.Coincides (k : Kernel) (n : ℕ) (s : Machine) : Prop :=
  match k.action n s with
  | .done _ _ => False
  | .undefined => k.garbage s = deadbeef
  | .call c base _ => ((k.syscall c s).answer.ret - base).setWidth 32 = deadbeef

theorem result_eq_deadbeef_iff (k : Kernel) {n : ℕ} (hn : n ≠ 1) (s : Machine) :
    ((k.action n s).run k s).1 = deadbeef ↔ k.Coincides n s := by
  have hsignal := noSignal_syscalls hn k s
  unfold Kernel.Coincides
  change ∀ x m, k.action n s = .done x m → x ≠ deadbeef at hsignal
  rcases h : k.action n s with ⟨x, m⟩ | _ | ⟨c, base, back⟩
  · exact iff_of_false (hsignal x m h) id
  · exact Iff.rfl
  · exact Iff.rfl

end I386Vm
