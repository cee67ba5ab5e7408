import I386Vm.Proofs.Elements
import I386Vm.Proofs.Progress

/-!
# Moves of many elements

`REP MOVS` against as many `MOVS`, and `MOVS` against `LODS` and `STOS`. `rep_movs_i` moves an
element before it looks at `ECX`, so a count of zero moves elements all the same, `2^32` of them.
The `lods` handlers never move `ESI`, so `LODS` and `STOS` are not a `MOVS`.
-/

namespace I386Vm

open Bytes Prog

def repMovsMnemonics : List String := ["rep movsb", "rep movsw", "rep movsd"]

set_option maxRecDepth 4000 in
theorem handlerOf_repMovs (host : Host) {m : String} (hm : m ∈ repMovsMnemonics) :
    handlerOf host m = some repMovsI := by
  simp only [repMovsMnemonics, List.mem_cons, List.not_mem_nil, or_false] at hm
  rcases hm with rfl | rfl | rfl <;> rfl

theorem dispatcher_repMovs (host : Host) {m : String} (hm : m ∈ repMovsMnemonics)
    (insn : CsInsn) : dispatcher host m insn = repMovsI insn := by
  unfold dispatcher
  rw [handlerOf_repMovs host hm]

/-- Dispatching the instruction `k` times takes `s` to `t`, where `eip` has left it for the first
time. -/
inductive Leaves (host : Host) (m : String) (insn : CsInsn) : ℕ → Machine → Machine → Prop
  | last {s t : Machine} {r : Ret} (run : (dispatcher host m insn).run s = .ok (r, t))
      (left : t.eip ≠ s.eip) : Leaves host m insn 1 s t
  | again {k : ℕ} {s t u : Machine} {r : Ret} (run : (dispatcher host m insn).run s = .ok (r, t))
      (stays : t.eip = s.eip) (rest : Leaves host m insn k t u) : Leaves host m insn (k + 1) s u

/-- Same memory, pointers and direction. -/
structure SameStrings (s t : Machine) : Prop where
  mem : t.mem = s.mem
  esi : t.reg .esi = s.reg .esi
  edi : t.reg .edi = s.reg .edi
  df : t.testFlag .DF = s.testFlag .DF

/-- Dispatched until `eip` leaves it, with `n` in `ECX`, `REP MOVS` takes `max n 1` dispatches, ends
behind itself with `ECX` zero, and moves what `n` executions of `MOVS` move. -/
def RepIsIterated (host : Host) (m : String) (rep movs : CsInsn) (s : Machine) : Prop :=
  ∃ t u, Leaves host m rep (max (s.reg .ecx).toNat 1) s t ∧
    t.eip = s.eip + rep.size.setWidth 32 ∧ t.reg .ecx = 0 ∧
    (repeated (movsI movs) (s.reg .ecx).toNat).run s = .ok ((), u) ∧
    t.mem = u.mem ∧ t.reg .esi = u.reg .esi ∧ t.reg .edi = u.reg .edi

section Rep

variable {w : Width} {host : Host} {m : String} {rep movs : CsInsn} {s t : Machine}

theorem SameStrings.moved (h : SameStrings s t) (w : Width) :
    SameStrings (s.moved w) (t.moved w) := by
  have hstride := Machine.stride_congr h.df w.bytes
  unfold Machine.moved Machine.poke Machine.peek
  constructor
  · simp only [Machine.setReg]
    rw [h.mem, h.esi, h.edi]
  · simp [h.esi, hstride]
  · simp only [Machine.reg_setReg_of_ne _ (by decide : Var.edi ≠ .esi), Machine.reg_setReg]
    rw [h.edi, hstride]
  · exact h.df

/-- A dispatch of `REP MOVS` and an execution of `MOVS` move the same element. -/
theorem SameStrings.step (h : SameStrings s t) :
    SameStrings ((s.advance movs).moved w) (t.repMoved w) := by
  have hs : SameStrings (s.advance movs) (t.setReg .ecx (t.reg .ecx - 1)) := by
    refine ⟨h.mem, ?_, ?_, h.df⟩
    · rw [Machine.reg_setReg_of_ne _ (by decide)]
      exact h.esi
    · rw [Machine.reg_setReg_of_ne _ (by decide)]
      exact h.edi
  exact hs.moved w

/-- From a count of `n + 1` it takes that many dispatches; a count of zero is one of `2^32`. -/
theorem leaves_of_count (hm : m ∈ repMovsMnemonics) (hrep : rep.op1.size = w.size)
    (hmovs : movs.op1.size = w.size) [rep.Decoded] :
    ∀ (n : ℕ) (s s' : Machine), SameStrings s' s → (s.reg .ecx - 1).toNat = n →
      ∃ t u, Leaves host m rep (n + 1) s t ∧ t.eip = s.eip + rep.size.setWidth 32 ∧
        t.reg .ecx = 0 ∧ (repeated (movsI movs) (n + 1)).run s' = .ok ((), u) ∧
        SameStrings u t := by
  intro n
  induction n with
  | zero =>
    intro s s' hsame hn
    have hecx : s.reg .ecx - 1 = 0 := by bv_omega
    have hrun := @repMovsI_run w rep s hrep
    rw [if_pos hecx, ← dispatcher_repMovs host hm] at hrun
    have hstep : SameStrings ((s'.advance movs).moved w) (s.repMoved w) := hsame.step
    exact ⟨_, _, .last hrun (advance_eip_ne s rep), rfl, hecx,
      repeated_succ_run (movsI_run hmovs) 0, hstep.mem, hstep.esi, hstep.edi, hstep.df⟩
  | succ n ih =>
    intro s s' hsame hn
    have hecx : s.reg .ecx - 1 ≠ 0 := by bv_omega
    have hrun := @repMovsI_run w rep s hrep
    rw [if_neg hecx, ← dispatcher_repMovs host hm] at hrun
    have hcount : ((s.repMoved w).reg .ecx - 1).toNat = n := by
      change (s.reg .ecx - 1 - 1).toNat = n
      bv_omega
    obtain ⟨t, u, hleaves, heip, hzero, hmoves, hlast⟩ := ih _ _ hsame.step hcount
    exact ⟨t, u, .again hrun rfl hleaves, heip, hzero,
      (repeated_succ_run (movsI_run hmovs) (n + 1)).trans hmoves, hlast⟩

theorem repIsIterated_of_ne (hm : m ∈ repMovsMnemonics) (hrep : rep.op1.size = w.size)
    (hmovs : movs.op1.size = w.size) [rep.Decoded] (hecx : s.reg .ecx ≠ 0) :
    RepIsIterated host m rep movs s := by
  obtain ⟨t, u, hleaves, heip, hzero, hmoves, hlast⟩ :=
    @leaves_of_count w host m rep movs hm hrep hmovs _ _ s s ⟨rfl, rfl, rfl, rfl⟩ rfl
  have hcount : (s.reg .ecx - 1).toNat + 1 = (s.reg .ecx).toNat := by bv_omega
  rw [hcount] at hleaves hmoves
  refine ⟨t, u, ?_, heip, hzero, hmoves, hlast.mem, hlast.esi, hlast.edi⟩
  rwa [max_eq_left (by omega)]

theorem not_repIsIterated_of_zero (hm : m ∈ repMovsMnemonics) (hrep : rep.op1.size = w.size)
    (hecx : s.reg .ecx = 0) : ¬ RepIsIterated host m rep movs s := by
  rintro ⟨t, u, hleaves, -⟩
  have hrun := @repMovsI_run w rep s hrep
  have hne : s.reg .ecx - 1 ≠ 0 := by
    rw [hecx]
    decide
  rw [if_neg hne, ← dispatcher_repMovs host hm] at hrun
  rw [hecx] at hleaves
  change Leaves host m rep 1 s t at hleaves
  cases hleaves with
  | last run left =>
    rw [hrun] at run
    cases run
    exact left rfl
  | again run stays rest => cases rest

/-- `REP MOVS` is iterated `MOVS` exactly for the counts other than zero. -/
theorem repIsIterated_iff (hm : m ∈ repMovsMnemonics) (hrep : rep.op1.size = w.size)
    (hmovs : movs.op1.size = w.size) [rep.Decoded] :
    RepIsIterated host m rep movs s ↔ s.reg .ecx ≠ 0 :=
  ⟨fun h hecx => not_repIsIterated_of_zero hm hrep hecx h, repIsIterated_of_ne hm hrep hmovs⟩

end Rep

def repMovsb : CsInsn := .bare "rep movsb" 2 [⟨.mem ⟨.es, .edi, .invalid, 1, 0⟩, 1⟩]

def movsb : CsInsn := .bare "movsb" 1 [⟨.mem ⟨.es, .edi, .invalid, 1, 0⟩, 1⟩]

theorem repMovsb_decoded : repMovsb.Decoded := ⟨by decide, by decide, by decide⟩

theorem repIsIterated_three :
    RepIsIterated .silent "rep movsb" repMovsb movsb (Machine.blank.setReg .ecx 3) := by
  have hd := repMovsb_decoded
  exact (@repIsIterated_iff .byte .silent "rep movsb" repMovsb movsb _ (by decide) (by decide)
    (by decide) hd).2 (by decide)

/-- With a count of zero `eip` does not leave the instruction at the first dispatch. -/
theorem not_repIsIterated_zero : ¬ ∀ (w : Width) (host : Host) (m : String) (rep movs : CsInsn)
    (s : Machine), m ∈ repMovsMnemonics → rep.op1.size = w.size → movs.op1.size = w.size →
      rep.Decoded → RepIsIterated host m rep movs s := by
  intro hall
  have hrep := hall .byte .silent "rep movsb" repMovsb movsb .blank (by decide) (by decide)
    (by decide) repMovsb_decoded
  exact @not_repIsIterated_of_zero .byte .silent "rep movsb" repMovsb movsb .blank (by decide)
    (by decide) rfl hrep

/-- `n` times a load and then a store give the memory and the pointers of `n` moves. -/
def MovesAlike (lods : Handler) (load store move : CsInsn) (n : ℕ) (s : Machine) : Prop :=
  ∃ t u, (repeated (do let _ ← lods load; stosI store) n).run s = .ok ((), t) ∧
    (repeated (movsI move) n).run s = .ok ((), u) ∧
    t.mem = u.mem ∧ t.reg .esi = u.reg .esi ∧ t.reg .edi = u.reg .edi

section Lods

variable {w : Width} {lods : Handler} {load store move : CsInsn} {s : Machine}

/-- A load and a store leave `ESI` where it was. -/
theorem lodsStos_esi (hl : lods ∈ w.lods) (hload : load.op1.size = w.size)
    (hstore : store.op1.size = w.size) (n : ℕ) (s : Machine) :
    ∃ t, (repeated (do let _ ← lods load; stosI store) n).run s = .ok ((), t) ∧
      t.reg .esi = s.reg .esi := by
  have hstep : ∀ (_ : ℕ) (u : Machine), u.reg .esi = s.reg .esi → ∃ a t,
      (do let _ ← lods load; stosI store : Exec Ret).run u = .ok (a, t) ∧
        t.reg .esi = s.reg .esi := by
    intro _ u hu
    obtain ⟨val, hrun⟩ := lods_run hl hload u
    refine ⟨_, _, (run_bind_ok hrun).trans (stosI_run hstore), ?_⟩
    rw [← hu]
    rfl
  exact repeated_spec hstep n 0 s rfl

/-- `n` moves leave `ESI` at element `n`. -/
theorem movs_esi (hmove : move.op1.size = w.size) (n : ℕ) (s : Machine) :
    ∃ t, (repeated (movsI move) n).run s = .ok ((), t) ∧ t.reg .esi = s.elem .esi w n := by
  have hstep : ∀ (i : ℕ) (u : Machine),
      u.reg .esi = s.elem .esi w i ∧ u.testFlag .DF = s.testFlag .DF →
      ∃ a t, (movsI move).run u = .ok (a, t) ∧ t.reg .esi = s.elem .esi w (i + 1) ∧
        t.testFlag .DF = s.testFlag .DF := by
    rintro i u ⟨hesi, hdf⟩
    refine ⟨_, _, movsI_run hmove, ?_, hdf⟩
    rw [s.elem_succ, ← hesi, ← Machine.stride_congr hdf]
    exact Machine.reg_setReg ..
  obtain ⟨t, hrun, hesi, -⟩ := repeated_spec hstep n 0 s ⟨by simp, rfl⟩
  rw [Nat.zero_add] at hesi
  exact ⟨t, hrun, hesi⟩

theorem MovesAlike.dvd (hl : lods ∈ w.lods) (hload : load.op1.size = w.size)
    (hstore : store.op1.size = w.size) (hmove : move.op1.size = w.size) {n : ℕ}
    (h : MovesAlike lods load store move n s) : 2 ^ 32 ∣ n * w.bytes := by
  obtain ⟨t, u, hpair, hmoves, -, hesi, -⟩ := h
  obtain ⟨t', hpair', ht⟩ := lodsStos_esi hl hload hstore n s
  obtain ⟨u', hmoves', hu⟩ := movs_esi hmove n s
  rw [hpair] at hpair'
  rw [hmoves] at hmoves'
  cases hpair'
  cases hmoves'
  rw [ht, hu] at hesi
  exact s.elem_eq_iff.1 hesi.symm

/-- From no state is a load and a store a move, nor any number of them that fits in the address
space. -/
theorem lodsStos_ne_movs (hl : lods ∈ w.lods) (hload : load.op1.size = w.size)
    (hstore : store.op1.size = w.size) (hmove : move.op1.size = w.size) (s : Machine) :
    ¬ MovesAlike lods load store move 1 s ∧
      ∀ n, 0 < n → n * w.bytes < 2 ^ 32 → ¬ MovesAlike lods load store move n s := by
  have hpos : 0 < w.bytes := by cases w <;> decide
  have hno (n : ℕ) (hn : 0 < n) (hlt : n * w.bytes < 2 ^ 32) :
      ¬ MovesAlike lods load store move n s := fun h =>
    absurd (Nat.le_of_dvd (Nat.mul_pos hn hpos) (h.dvd hl hload hstore hmove)) (by omega)
  exact ⟨hno 1 (by decide) (by cases w <;> decide), hno⟩

end Lods

def lodsb : CsInsn := .bare "lodsb" 1 [⟨.reg .al, 1⟩, ⟨.mem ⟨.invalid, .esi, .invalid, 1, 0⟩, 1⟩]

def stosb : CsInsn := .bare "stosb" 1 [⟨.mem ⟨.es, .edi, .invalid, 1, 0⟩, 1⟩, ⟨.reg .al, 1⟩]

theorem lodsStos_ne_movs_byte : ¬ MovesAlike lodsbI lodsb stosb movsb 1 .blank :=
  (@lodsStos_ne_movs .byte lodsbI lodsb stosb movsb (by simp [Width.lods]) (by decide) (by decide)
    (by decide) .blank).1

/-- `LODSB` leaves `ESI` at 0, `MOVSB` moves it to 1. -/
theorem not_movesAlike : ¬ ∀ (w : Width) (lods : Handler) (load store move : CsInsn) (n : ℕ)
    (s : Machine), lods ∈ w.lods → load.op1.size = w.size → store.op1.size = w.size →
      move.op1.size = w.size → MovesAlike lods load store move n s := by
  intro hall
  have hone := hall .byte lodsbI lodsb stosb movsb 1 .blank (by simp [Width.lods]) (by decide)
    (by decide) (by decide)
  have hdvd := @MovesAlike.dvd .byte lodsbI lodsb stosb movsb .blank (by simp [Width.lods])
    (by decide) (by decide) (by decide) 1 hone
  revert hdvd
  decide

end I386Vm
