import I386Vm.Proofs.Counts

/-!
# Bit scans

The condition of the loops is the value shifted and then and-ed with `0x1 == 0`, which is 0, so that
no loop takes a step: a scan that finds something clears `ZF` and leaves the destination as it was.
-/

namespace I386Vm

open Bytes Prog

/-- The amounts that the loop shifts by, until it ends or the fuel does. -/
def scanShifts (val : BitVec 32) (step : ℤ) : ℕ → ℤ → List ℤ
  | 0, _ => []
  | n + 1, temp =>
    temp :: if (val >>> temp.toNat) &&& (if (1 : ℕ) = 0 then 1 else 0) ≠ 0 then
      scanShifts val step n (temp + step) else []

/-- The loop faults on a shift exactly where one of its amounts is none of C. -/
theorem scan_ne_shift_iff {w : Width} {p : Ptr} (hp : p.Valid) {val : BitVec 32} {step : ℤ} :
    ∀ (n : ℕ) (temp : ℤ) (s : Machine), (scan w p val step n temp).run s ≠ .error .shift ↔
      ∀ k ∈ scanShifts val step n temp, 0 ≤ k ∧ k < 32
  | 0, _, _ => by
    refine iff_of_true (fun h => ?_) fun k hk => ?_
    · cases h
    · cases hk
  | n + 1, temp, s => by
    unfold scan scanShifts
    by_cases htemp : 0 ≤ temp ∧ temp < 32
    · rw [run_bind_ok (shiftAmount_run (n := temp.toNat) (by omega) (by omega) s),
        List.forall_mem_cons, and_iff_right htemp]
      by_cases hloop : (val >>> temp.toNat) &&& (if (1 : ℕ) = 0 then 1 else 0) ≠ 0
      · rw [if_pos hloop, if_pos hloop, run_bind_ok (store_run hp _)]
        exact scan_ne_shift_iff hp n _ _
      · rw [if_neg hloop, if_neg hloop]
        refine iff_of_true (fun h => ?_) fun k hk => ?_
        · cases h
        · cases hk
    · rw [run_bind_error (shiftAmount_error (by omega) s), List.forall_mem_cons]
      exact iff_of_false (fun h => h rfl) fun h => htemp h.1

section Runs

variable {w : Width} {p : Ptr} {val : BitVec 32} {step temp : ℤ} {n : ℕ}

theorem scan_run (htemp : 0 ≤ temp) (hlt : temp < 32) (s : Machine) :
    (scan w p val step (n + 1) temp).run s = .ok ((), s) := by
  unfold scan
  rw [run_bind_ok (shiftAmount_run (n := temp.toNat) (by omega) (by omega) s), if_neg (by simp)]
  rfl

theorem scanShifts_eq : scanShifts val step (n + 1) temp = [temp] := by
  simp [scanShifts]

end Runs

/-- The lowest set bit. -/
def IsLowest (v : BitVec 32) (i : ℕ) : Prop :=
  v.getLsbD i = true ∧ ∀ k < i, v.getLsbD k = false

/-- The highest set bit. -/
def IsHighest (v : BitVec 32) (i : ℕ) : Prop :=
  v.getLsbD i = true ∧ ∀ k > i, v.getLsbD k = false

/-- Nothing but `ZF` changes where the value is zero; else the destination `p` is the index that `P`
describes. -/
def Scanned (P : BitVec 32 → ℕ → Prop) (w : Width) (v : BitVec 32) (p : Ptr) (s t : Machine) :
    Prop :=
  if v = 0 then t.testFlag .ZF = true ∧ SameBut [.ZF] s t
  else t.testFlag .ZF = false ∧ ∃ i, P v i ∧ SameBut [.ZF] (s.poke w p (BitVec.ofNat 32 i)) t

/-- The handler returns and has found the index, and the loop, from `temp` on, shifts by amounts of
the width only. -/
def Scans (handler : Handler) (temp step : ℤ) (P : BitVec 32 → ℕ → Prop) (w : Width)
    (insn : CsInsn) (s : Machine) : Prop :=
  (∃ r t, (handler insn).run s = .ok (r, t) ∧
    Scanned P w (insn.op2.value w s) (s.opPtr insn.op1) (s.advance insn) t) ∧
  (insn.op2.value w s ≠ 0 →
    ∀ k ∈ scanShifts (insn.op2.value w s) step 33 temp, 0 ≤ k ∧ k < w.bits)

section Laws

variable {w : Width} {insn : CsInsn} {s : Machine} {start : Width → ℤ} {step : ℤ}

theorem IsLowest.lt {v : BitVec 32} {i : ℕ} (h : IsLowest v i) : i < 32 :=
  BitVec.lt_of_getLsbD h.1

theorem IsHighest.lt {v : BitVec 32} {i : ℕ} (h : IsHighest v i) : i < 32 :=
  BitVec.lt_of_getLsbD h.1

variable (hw : w ≠ .byte) (hdst : insn.op1.IsLoc w) (hreg : insn.op1.type = .reg)
  (hsrc : insn.op2.IsLoc w) (hstart : 0 ≤ start w ∧ start w < w.bits)
include hw hdst hreg hsrc hstart

/-- Only `ZF` is assigned. -/
theorem bitScan_run : (bitScan start step insn).run s =
    .ok (some 0, (s.advance insn).assignFlag .ZF (insn.op2.value w s = 0)) := by
  have hbits := w.bits_le
  have hptr : regs insn.op1.reg = s.opPtr insn.op1 := (Machine.opPtr_of_reg hreg).symm
  have hscan : (if regsSize insn.op1.reg = 0x10 then
        scan .word (regs insn.op1.reg) (insn.op2.value w s) step 33 (start .word)
      else scan .dword (regs insn.op1.reg) (insn.op2.value w s) step 33 (start .dword)) =
      scan w (regs insn.op1.reg) (insn.op2.value w s) step 33 (start w) := by
    rw [(lowRegs_spec (hdst.reg_mem hreg)).2.2.2]
    cases w with
    | byte => exact absurd rfl hw
    | word => rfl
    | dword => rfl
  unfold bitScan
  rw [run_bind_ok (advance_run s insn), run_bind_ok hsrc.srcBySize_run,
    hsrc.value_congr (SameData.advance s insn)]
  by_cases h0 : insn.op2.value w s = 0
  · rw [if_pos h0, decide_eq_true h0]
    rfl
  · rw [if_neg h0, if_neg (not_not.2 hreg), decide_eq_false h0, hscan]
    have hclear : (clearFlag .ZF).run (s.advance insn) =
        .ok ((), (s.advance insn).assignFlag .ZF false) := rfl
    rw [run_bind_ok hclear, run_bind_ok (scan_run hstart.1 (by omega) _)]
    rfl

theorem scans_iff {P : BitVec 32 → ℕ → Prop} (hP : ∀ v i, P v i → i < 32) :
    Scans (bitScan start step) (start w) step P w insn s ↔
      insn.op2.value w s = 0 ∨ P (insn.op2.value w s) (insn.op1.value w s).toNat := by
  have hsafe := hdst.safe s
  have hdst_val : (s.advance insn).peek w (s.opPtr insn.op1) = insn.op1.value w s :=
    hdst.peek_eq (SameData.advance s insn)
  have hzf (c : Bool) : ((s.advance insn).assignFlag .ZF c).testFlag .ZF = c := by
    rw [Machine.testFlag_assignFlag, if_pos rfl]
  have hshifts : ∀ k ∈ [start w], 0 ≤ k ∧ k < w.bits := List.forall_mem_singleton.2 hstart
  unfold Scans Scanned
  rw [bitScan_run hw hdst hreg hsrc hstart, exists_run_iff, hzf, scanShifts_eq,
    and_iff_left (fun _ => hshifts), decide_eq_true_iff, decide_eq_false_iff_not]
  split_ifs with h0
  · exact iff_of_true ⟨h0, SameBut.assignFlag _ (List.mem_singleton.2 rfl) _⟩ (.inl h0)
  · rw [and_iff_right h0, or_iff_right h0]
    -- the destination is what it was
    constructor
    · rintro ⟨i, hi, hsame⟩
      have hi32 := hP _ _ hi
      have hlt : i < 2 ^ w.bits := hi32.trans_le (by cases w <;> decide)
      rw [SameBut.assignFlag_iff (List.mem_singleton.2 rfl)] at hsame
      have hpeek := hsame.sameData.peek w (s.opPtr insn.op1)
      rw [Machine.peek_poke _ _ (hdst.valid s), hdst_val] at hpeek
      have hval : (insn.op1.value w s).toNat = i := by
        rw [hpeek, toNat_low, BitVec.toNat_ofNat, Nat.mod_eq_of_lt (a := i) (by omega),
          Nat.mod_eq_of_lt hlt]
      rwa [hval]
    · intro hi
      refine ⟨_, hi, ?_⟩
      rw [SameBut.assignFlag_iff (List.mem_singleton.2 rfl), Machine.poke_eq_self]
      · exact SameBut.refl _
      · rw [BitVec.ofNat_toNat, BitVec.setWidth_eq, hdst_val, CsX86Op.IsLoc.low_value]

end Laws

/-- The scans do so exactly where there is nothing to find or the destination holds it already. -/
theorem bitScans_iff {w : Width} {insn : CsInsn} {dst src : CsX86Op} {s : Machine} (hw : w ≠ .byte)
    (h : insn.operands = [dst, src]) (hdst : dst.IsLoc w) (hreg : dst.type = .reg)
    (hsrc : src.IsLoc w) :
    (Scans bsfI 0 1 IsLowest w insn s ↔
      src.value w s = 0 ∨ IsLowest (src.value w s) (dst.value w s).toNat) ∧
    (Scans bsrI (w.bits - 1) (-1) IsHighest w insn s ↔
      src.value w s = 0 ∨ IsHighest (src.value w s) (dst.value w s).toNat) := by
  have h1 : insn.op1 = dst := op1_of_cons h
  have h2 : insn.op2 = src := op2_of_cons h
  have hpos := w.bits_pos
  subst h1 h2
  constructor
  · exact @scans_iff w insn s (fun _ => 0) 1 hw hdst hreg hsrc ⟨le_rfl, by omega⟩ _
      fun _ _ => IsLowest.lt
  · have hstart : (w.bits : ℤ) - 1 = if w = .word then 15 else 31 := by
      cases w with
      | byte => exact absurd rfl hw
      | word => rfl
      | dword => rfl
    rw [hstart]
    refine @scans_iff w insn s (fun w => if w = .word then 15 else 31) (-1) hw hdst hreg hsrc ?_ _
      fun _ _ => IsHighest.lt
    omega

/-- `BSF EAX, EBX`, and with another handler `BSR EAX, EBX` -/
def bsfEaxEbx : CsInsn := .bare "bsf" 3 [⟨.reg .eax, 4⟩, ⟨.reg .ebx, 4⟩]

/-- The only bit of 2 is found where `EAX` is 1 before. -/
theorem bitScans_two : Scans bsfI 0 1 IsLowest .dword bsfEaxEbx (twice 1 2) ∧
    Scans bsrI 31 (-1) IsHighest .dword bsfEaxEbx (twice 1 2) := by
  have hall := @bitScans_iff .dword bsfEaxEbx ⟨.reg .eax, 4⟩ ⟨.reg .ebx, 4⟩ (twice 1 2) (by decide)
    rfl (by decide) rfl (by decide)
  have hlow : IsLowest 2 1 := ⟨rfl, by decide⟩
  have hhigh : IsHighest 2 1 := by
    refine ⟨rfl, fun k hk => ?_⟩
    exact Nat.testBit_lt_two_pow ((show 2 < 2 ^ 2 by decide).trans_le
      (Nat.pow_le_pow_right Nat.two_pos hk))
  exact ⟨hall.1.2 (.inr hlow), hall.2.2 (.inr hhigh)⟩

/-- `BSF EAX, EBX` of 1 leaves 3 in `EAX`. -/
theorem bsfI_not_scans : ¬ ∀ (w : Width) (insn : CsInsn) (dst src : CsX86Op) (s : Machine),
    w ≠ .byte → insn.operands = [dst, src] → dst.IsLoc w → dst.type = .reg → src.IsLoc w →
    Scans bsfI 0 1 IsLowest w insn s := by
  intro hall
  have hscan := hall .dword bsfEaxEbx ⟨.reg .eax, 4⟩ ⟨.reg .ebx, 4⟩ (twice 3 1) (by decide) rfl
    (by decide) rfl (by decide)
  rcases (@scans_iff .dword bsfEaxEbx (twice 3 1) (fun _ => 0) 1 (by decide) (by decide) rfl
    (by decide) (by decide) _ fun _ _ => IsLowest.lt).1 hscan with h | ⟨h, -⟩
  · exact absurd h (by decide)
  · exact absurd h (by decide)

end I386Vm
