import I386Vm.Proofs.Elements
import I386Vm.Proofs.SameFlags

/-!
# Scans

`SCAS` should compare the accumulator with one element after the other, and `CMPS` the elements of
two strings. The `cmps` handlers move both pointers. `scas_i` never moves `EDI`, so every `SCAS`
compares with the same element, and a loop of them that does not end at once never ends.
-/

namespace I386Vm

open Bytes Prog

/-- Each of `n` scans, and what follows them, begins with `EDI` one element further. -/
def ScasAdvances (w : Width) (insn : CsInsn) (n : ℕ) (s : Machine) : Prop :=
  ∀ i ≤ n, ∃ t, (repeated (scasI insn) i).run s = .ok ((), t) ∧ t.reg .edi = s.elem .edi w i

/-- `n` comparisons move both pointers `n` elements. -/
def CmpsAdvances (w : Width) (insn : CsInsn) (n : ℕ) (s : Machine) : Prop :=
  ∃ t, (repeated (w.cmpsI insn) n).run s = .ok ((), t) ∧
    t.reg .esi = s.elem .esi w n ∧ t.reg .edi = s.elem .edi w n

/-- `k` executions of `SCAS`, the last of them the first to set `ZF`; between two of them the loop
jumps back. -/
inductive ScanStops (insn : CsInsn) : ℕ → Machine → Machine → Prop
  | found {s t : Machine} {r : Ret} (run : (scasI insn).run s = .ok (r, t))
      (stop : t.testFlag .ZF) : ScanStops insn 1 s t
  | next {k : ℕ} {s t u : Machine} {r : Ret} (pc : BitVec 32)
      (run : (scasI insn).run s = .ok (r, t)) (go : t.testFlag .ZF = false)
      (rest : ScanStops insn k { t with eip := pc } u) : ScanStops insn (k + 1) s u

/-- The first byte from `EDI` on that equals `AL` is `m` bytes away. -/
structure FirstMatch (m : ℕ) (s : Machine) : Prop where
  hit : s.mem (s.elem .edi .byte m).toNat = (s.reg .eax).setWidth 8
  miss : ∀ j < m, s.mem (s.elem .edi .byte j).toNat ≠ (s.reg .eax).setWidth 8

section Scas

variable {w : Width} {insn : CsInsn} {s t u : Machine} {n m : ℕ}

/-- A scan changes flags and `eip` alone. -/
theorem scas_step (hs : insn.op1.size = w.size) (s : Machine) :
    ∃ t, (scasI insn).run s = .ok (some 0, t) ∧ SameData s t ∧
      t.testFlag .ZF = zero (s.peek w (.var .eax) - s.peek w (.mem (s.reg .edi).toNat)) := by
  refine ⟨_, scasI_run hs rfl rfl, ?_, ?_⟩
  · exact (SameData.advance s insn).trans (Machine.sameData_withArith ..)
  · rw [Machine.testFlag_withArith]

theorem scas_edi (hs : insn.op1.size = w.size) (n : ℕ) (s : Machine) :
    ∃ t, (repeated (scasI insn) n).run s = .ok ((), t) ∧ t.reg .edi = s.reg .edi := by
  have hstep : ∀ (_ : ℕ) (u : Machine), u.reg .edi = s.reg .edi →
      ∃ a t, (scasI insn).run u = .ok (a, t) ∧ t.reg .edi = s.reg .edi := by
    intro _ u hu
    obtain ⟨t, hrun, hdata, -⟩ := scas_step hs u
    exact ⟨_, t, hrun, by rw [hdata.reg, hu]⟩
  exact repeated_spec hstep n 0 s rfl

theorem scasAdvances_iff (hs : insn.op1.size = w.size) : ScasAdvances w insn n s ↔ n = 0 := by
  constructor
  · intro h
    by_contra hn
    obtain ⟨t, hrun, hedi⟩ := h 1 (by omega)
    obtain ⟨t', hrun', hedi'⟩ := scas_edi hs 1 s
    rw [hrun] at hrun'
    cases hrun'
    rw [hedi'] at hedi
    have hdvd := s.elem_eq_iff.1 hedi.symm
    revert hdvd
    cases w <;> decide
  · rintro rfl i hi
    obtain rfl : i = 0 := by omega
    exact ⟨s, rfl, by simp⟩

theorem scasb_found_iff (s : Machine) :
    zero (s.peek .byte (.var .eax) - s.peek .byte (.mem (s.reg .edi).toNat)) = true ↔
      s.mem (s.reg .edi).toNat = (s.reg .eax).setWidth 8 := by
  have heax : s.peek .byte (.var .eax) = ((s.reg .eax).setWidth 8).setWidth 32 := rfl
  have hmem : s.peek .byte (.mem (s.reg .edi).toNat) =
      (s.mem (s.reg .edi).toNat).setWidth 32 := by
    simp [Machine.peek, Width.bytes, readLE]
  rw [heax, hmem]
  unfold zero
  rw [decide_eq_true_iff]
  constructor <;> intro h <;> bv_omega

theorem ScanStops.eq_one (hs : insn.op1.size = 1) (h : ScanStops insn n s t) :
    n = 1 ∧ s.mem (s.reg .edi).toNat = (s.reg .eax).setWidth 8 := by
  induction h with
  | @found s t r run stop =>
    obtain ⟨t', hrun, -, hzf⟩ := @scas_step .byte insn hs s
    rw [run] at hrun
    cases hrun
    rw [hzf] at stop
    exact ⟨rfl, (scasb_found_iff s).1 stop⟩
  | @next k s t u r pc run go rest ih =>
    obtain ⟨t', hrun, hdata, hzf⟩ := @scas_step .byte insn hs s
    rw [run] at hrun
    cases hrun
    -- the next scan would look at the same byte
    have hmatch := ih.2
    change t.mem (t.reg .edi).toNat = (t.reg .eax).setWidth 8 at hmatch
    rw [hdata.mem, hdata.reg] at hmatch
    rw [hzf, (scasb_found_iff s).2 hmatch] at go
    cases go

theorem scanStops_iff (hs : insn.op1.size = 1) (hm : FirstMatch m s) :
    (∃ t, ScanStops insn (m + 1) s t) ↔ m = 0 := by
  constructor
  · rintro ⟨t, h⟩
    have := (h.eq_one hs).1
    omega
  · rintro rfl
    obtain ⟨t, hrun, -, hzf⟩ := @scas_step .byte insn hs s
    have hhit := hm.hit
    rw [Machine.elem_zero] at hhit
    exact ⟨t, .found hrun (hzf.trans ((scasb_found_iff s).2 hhit))⟩

end Scas

theorem cmpsAdvances (w : Width) (insn : CsInsn) (n : ℕ) (s : Machine) :
    CmpsAdvances w insn n s := by
  have hstep : ∀ (i : ℕ) (u : Machine), u.reg .esi = s.elem .esi w i ∧
      u.reg .edi = s.elem .edi w i ∧ u.stride w.bytes = s.stride w.bytes →
      ∃ a t, (cmps w insn).run u = .ok (a, t) ∧ t.reg .esi = s.elem .esi w (i + 1) ∧
        t.reg .edi = s.elem .edi w (i + 1) ∧ t.stride w.bytes = s.stride w.bytes := by
    rintro i u ⟨hesi, hedi, hstride⟩
    obtain ⟨t, hrun, hesi', hedi', hstride'⟩ := cmps_step w insn u
    refine ⟨_, t, hrun, ?_, ?_, hstride'.trans hstride⟩
    · rw [hesi', s.elem_succ, hesi, hstride]
    · rw [hedi', s.elem_succ, hedi, hstride]
  obtain ⟨t, hrun, hesi, hedi, -⟩ := repeated_spec hstep n 0 s ⟨by simp, by simp, rfl⟩
  rw [Nat.zero_add] at hesi hedi
  unfold CmpsAdvances
  rw [w.cmpsI_eq]
  exact ⟨t, hrun, hesi, hedi⟩

/-- The comparisons of strings always advance; the scans do so over no element at all, and a loop of
them stops at the first match only if that is the byte it begins at. -/
theorem scans_advance_iff {w : Width} {scas : CsInsn} (hs : scas.op1.size = w.size) (cmps : CsInsn)
    (n : ℕ) (s : Machine) :
    (ScasAdvances w scas n s ↔ n = 0) ∧ CmpsAdvances w cmps n s ∧
      ∀ (scasb : CsInsn) (m : ℕ), scasb.op1.size = 1 → FirstMatch m s →
        ((∃ t, ScanStops scasb (m + 1) s t) ↔ m = 0) :=
  ⟨scasAdvances_iff hs, cmpsAdvances w cmps n s, fun _ _ hb hm => scanStops_iff hb hm⟩

def scasb : CsInsn := .bare "scasb" 1 [⟨.reg .al, 1⟩, ⟨.mem ⟨.es, .edi, .invalid, 1, 0⟩, 1⟩]

theorem scans_advance_none :
    ScasAdvances .byte scasb 0 .blank ∧ ∃ t, ScanStops scasb 1 .blank t := by
  have hm : FirstMatch 0 .blank := ⟨by decide, fun _ hj => absurd hj (by omega)⟩
  obtain ⟨hscas, -, hstops⟩ := @scans_advance_iff .byte scasb (by decide) scasb 0 .blank
  exact ⟨hscas.2 rfl, (hstops scasb 0 (by decide) hm).2 rfl⟩

/-- One `SCASB` leaves `EDI` at 0. -/
theorem not_scasAdvances : ¬ ∀ (w : Width) (insn : CsInsn) (n : ℕ) (s : Machine),
    insn.op1.size = w.size → ScasAdvances w insn n s := by
  intro hall
  have hone := (@scasAdvances_iff .byte scasb .blank 1 (by decide)).1
    (hall .byte scasb 1 .blank (by decide))
  cases hone

end I386Vm
