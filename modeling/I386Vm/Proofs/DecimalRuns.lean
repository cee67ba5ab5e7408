import I386Vm.Proofs.Decimal

/-!
# Runs of the decimal instructions

From the lowest byte up: `AL` holds a byte of the first number, the arithmetic handler takes the
byte of the second and the adjustment follows, and `AL` is stored. What stores it and puts the next
byte there leaves `CF` alone.
-/

namespace I386Vm

open Bytes Prog

/-- A run along the bytes of two numbers, the lowest first, from `s` to `v`: each pair is what `AL`
and the operand of the arithmetic handler hold when it starts. `ds` are the bytes stored. -/
inductive DecimalRun (d : Decimal) :
    Machine → List (BitVec 8 × BitVec 8) → List (BitVec 8) → Machine → Prop
  | nil {s : Machine} : DecimalRun d s [] [] s
  | cons {s t u s' v : Machine} {insn insn' : CsInsn} {l : List (BitVec 8 × BitVec 8)}
      {ds : List (BitVec 8)} (h1 : insn.op1 = opAl) (h2 : insn.op2.IsByte)
      (arith : (d.arith insn).run s = .ok (some 0, t))
      (adjust : (d.adjust insn').run t = .ok (some 0, u))
      (carry : s'.testFlag .CF = u.testFlag .CF) (rest : DecimalRun d s' l ds v) :
      DecimalRun d s ((s.al, insn.op2.byte s) :: l) (u.al :: ds) v

namespace Decimal

variable (d : Decimal) {insn insn' : CsInsn} {s t u v : Machine}

theorem arith_accu (h1 : insn.op1 = opAl) (h2 : insn.op2.IsByte) (insn' : CsInsn) :
    ∃ t u, (d.arith insn).run s = .ok (some 0, t) ∧ (d.adjust insn').run t = .ok (some 0, u) ∧
      u.accu = d.round (insn.op2.byte s).toNat s.accu := by
  cases d with
  | daa =>
    obtain ⟨t, ht, hacc⟩ := @adcI_accu insn s h1 h2
    obtain ⟨u, hu, hacc'⟩ := @daaI_accu insn' t
    exact ⟨t, u, ht, hu, by rw [hacc', hacc]; rfl⟩
  | das =>
    obtain ⟨t, ht, hacc⟩ := @sbbI_accu insn s h1 h2
    obtain ⟨u, hu, hacc'⟩ := @dasI_accu insn' t
    exact ⟨t, u, ht, hu, by rw [hacc', hacc]; rfl⟩
  | aaa =>
    obtain ⟨t, ht, hacc⟩ := @adcI_accu insn s h1 h2
    obtain ⟨u, hu, hacc'⟩ := @aaaI_accu insn' t
    exact ⟨t, u, ht, hu, by rw [hacc', hacc]; rfl⟩
  | aas =>
    obtain ⟨t, ht, hacc⟩ := @sbbI_accu insn s h1 h2
    obtain ⟨u, hu, hacc'⟩ := @aasI_accu insn' t
    exact ⟨t, u, ht, hu, by rw [hacc', hacc]; rfl⟩

/-- The arithmetic on `AL` and a byte ends, and so does the adjustment, in every state. -/
def Ends : Prop :=
  (∀ (insn : CsInsn) (s : Machine), insn.op1 = opAl → insn.op2.IsByte →
    ∃ t, (d.arith insn).run s = .ok (some 0, t)) ∧
  ∀ (insn : CsInsn) (s : Machine), ∃ t, (d.adjust insn).run s = .ok (some 0, t)

theorem ends : d.Ends := by
  constructor
  · intro insn s h1 h2
    obtain ⟨t, -, ht, -, -⟩ := @arith_accu d insn s h1 h2 insn
    exact ⟨t, ht⟩
  · intro insn s
    cases d with
    | daa =>
      obtain ⟨t, ht, -⟩ := @daaI_accu insn s
      exact ⟨t, ht⟩
    | das =>
      obtain ⟨t, ht, -⟩ := @dasI_accu insn s
      exact ⟨t, ht⟩
    | aaa =>
      obtain ⟨t, ht, -⟩ := @aaaI_accu insn s
      exact ⟨t, ht⟩
    | aas =>
      obtain ⟨t, ht, -⟩ := @aasI_accu insn s
      exact ⟨t, ht⟩

theorem step_of_run (h1 : insn.op1 = opAl) (h2 : insn.op2.IsByte)
    (harith : (d.arith insn).run s = .ok (some 0, t))
    (hadjust : (d.adjust insn').run t = .ok (some 0, u)) :
    (u.al, u.testFlag .CF) = d.step (s.testFlag .CF) s.al (insn.op2.byte s) := by
  obtain ⟨t', u', ht, hu, hacc⟩ := @arith_accu d insn s h1 h2 insn'
  rw [harith] at ht
  cases ht
  rw [hadjust] at hu
  cases hu
  have hround : u.accu = d.round (insn.op2.byte s).toNat ⟨s.al.toNat, false, s.testFlag .CF⟩ :=
    hacc.trans (d.round_af _ _ _ _ _)
  have hal : BitVec.ofNat 8 u.accu.al = u.al :=
    (BitVec.ofNat_toNat 8 u.al).trans (BitVec.setWidth_eq u.al)
  unfold step
  rw [← hround, hal]
  rfl

end Decimal

namespace DecimalRun

variable {d : Decimal} {s v : Machine} {l : List (BitVec 8 × BitVec 8)} {ds : List (BitVec 8)}

/-- The bytes stored and the carry are those of the chain of steps. -/
theorem spec (h : DecimalRun d s l ds v) :
    ds = Limbs.limbs d.step (s.testFlag .CF) l ∧
      v.testFlag .CF = Limbs.carry d.step (s.testFlag .CF) l := by
  induction h with
  | nil => exact ⟨rfl, rfl⟩
  | @cons s t u s' v insn insn' l ds h1 h2 arith adjust carry rest ih =>
    have hstep := d.step_of_run h1 h2 arith adjust
    obtain ⟨hds, hc⟩ := ih
    rw [carry] at hds hc
    unfold Limbs.limbs Limbs.carry
    rw [← hstep]
    exact ⟨by rw [hds], hc⟩

theorem isResult_iff (h : DecimalRun d s l ds v) (hl : ∀ p ∈ l, d.Valid p.1 ∧ d.Valid p.2)
    (hc : s.testFlag .CF = false) :
    d.IsResult l ds (v.testFlag .CF) ↔ d.SumsAdjust l := by
  obtain ⟨hds, hv⟩ := h.spec
  rw [hds, hv, hc]
  exact d.isResult_chain_iff hl

end DecimalRun

section Runs

variable {s v : Machine} {l : List (BitVec 8 × BitVec 8)} {ds : List (BitVec 8)}

/-- Packed addition is right exactly when no two bytes and the carry of the digits below sum to
`0xFA` up to `0xFF`. -/
theorem daa_isResult_iff (hl : ∀ p ∈ l, Decimal.daa.Valid p.1 ∧ Decimal.daa.Valid p.2)
    (hc : s.testFlag .CF = false) (h : DecimalRun .daa s l ds v) :
    Decimal.daa.Ends ∧
      (Decimal.daa.IsResult l ds (v.testFlag .CF) ↔ Decimal.daa.SumsAdjust l) :=
  ⟨Decimal.daa.ends, h.isResult_iff hl hc⟩

theorem das_isResult (hl : ∀ p ∈ l, Decimal.das.Valid p.1 ∧ Decimal.das.Valid p.2)
    (hc : s.testFlag .CF = false) (h : DecimalRun .das s l ds v) :
    Decimal.das.Ends ∧ Decimal.das.IsResult l ds (v.testFlag .CF) :=
  ⟨Decimal.das.ends, (h.isResult_iff hl hc).2 fun _ _ _ => trivial⟩

/-- Unpacked addition is right exactly when `aaa_i` takes every sum of two digits and the carry for
what it is, and unpacked subtraction always. -/
theorem aaa_isResult_iff (hl : ∀ p ∈ l, Decimal.aaa.Valid p.1 ∧ Decimal.aaa.Valid p.2)
    (hc : s.testFlag .CF = false) : (Decimal.aaa.Ends ∧ Decimal.aas.Ends) ∧
      (DecimalRun .aaa s l ds v →
        (Decimal.aaa.IsResult l ds (v.testFlag .CF) ↔ Decimal.aaa.SumsAdjust l)) ∧
      (DecimalRun .aas s l ds v → Decimal.aas.IsResult l ds (v.testFlag .CF)) :=
  ⟨⟨Decimal.aaa.ends, Decimal.aas.ends⟩, fun h => h.isResult_iff hl hc,
    fun h => (h.isResult_iff hl hc).2 fun _ _ _ => trivial⟩

end Runs

/-- `AL` and `BL` hold the two bytes, and `CF` is `c`. -/
def decimalStart (c : Bool) (a b : BitVec 8) : Machine :=
  ((Machine.blank.setReg .eax (a.setWidth 32)).setReg .ebx (b.setWidth 32)).assignFlag .CF c

theorem testFlag_decimalStart (c : Bool) (a b : BitVec 8) :
    (decimalStart c a b).testFlag .CF = c := by
  rw [decimalStart, Machine.testFlag_assignFlag, if_pos rfl]

theorem setWidth_byte (x : BitVec 8) : (x.setWidth 32).setWidth 8 = x := by
  rw [BitVec.setWidth_setWidth_of_le _ (by decide), BitVec.setWidth_eq]

theorem al_decimalStart (c : Bool) (a b : BitVec 8) : (decimalStart c a b).al = a := by
  unfold decimalStart Machine.al
  rw [(SameData.assignFlag _ _ _).reg, Machine.reg_setReg_of_ne _ (by decide), Machine.reg_setReg]
  exact setWidth_byte a

def alBl : CsInsn := .bare "" 2 [opAl, ⟨.reg .bl, 1⟩]

theorem byte_decimalStart (c : Bool) (a b : BitVec 8) :
    alBl.op2.byte (decimalStart c a b) = b := by
  have hreg : (decimalStart c a b).reg .ebx = b.setWidth 32 := by
    unfold decimalStart
    rw [(SameData.assignFlag _ _ _).reg, Machine.reg_setReg]
  change (low 8 ((decimalStart c a b).reg .ebx)).setWidth 8 = b
  rw [hreg, setWidth_low]
  exact setWidth_byte b

theorem valid_of_all {d : Decimal} {l : List (BitVec 8 × BitVec 8)}
    (h : (l.all fun p => d.Valid p.1 && d.Valid p.2) = true) :
    ∀ p ∈ l, d.Valid p.1 ∧ d.Valid p.2 := by
  intro p hp
  have hpair := List.all_eq_true.1 h p hp
  rwa [Bool.and_eq_true, decide_eq_true_iff, decide_eq_true_iff] at hpair

/-- Every two numbers have a run. -/
theorem exists_decimalRun (d : Decimal) (c : Bool) (l : List (BitVec 8 × BitVec 8)) :
    ∃ s v ds, s.testFlag .CF = c ∧ DecimalRun d s l ds v := by
  induction l generalizing c with
  | nil => exact ⟨_, _, [], testFlag_decimalStart c 0 0, .nil⟩
  | cons p l ih =>
    have h2 : alBl.op2.IsByte := .inl (by decide)
    obtain ⟨t, u, ht, hu, -⟩ := @Decimal.arith_accu d alBl (decimalStart c p.1 p.2) rfl h2 alBl
    obtain ⟨s', v, ds, hs', h⟩ := ih (u.testFlag .CF)
    have hrun := DecimalRun.cons rfl h2 ht hu hs' h
    rw [al_decimalStart, byte_decimalStart] at hrun
    exact ⟨_, v, _, testFlag_decimalStart c p.1 p.2, hrun⟩

/-- 38 + 45 = 83, and 1238 + 3945 = 5183, in packed digits. -/
theorem daa_isResult_carry : ∃ s v ds, DecimalRun .daa s [(0x38, 0x45), (0x12, 0x39)] ds v ∧
    Decimal.daa.IsResult [(0x38, 0x45), (0x12, 0x39)] ds (v.testFlag .CF) := by
  obtain ⟨s, v, ds, hc, h⟩ := exists_decimalRun .daa false [(0x38, 0x45), (0x12, 0x39)]
  refine ⟨s, v, ds, h, (daa_isResult_iff (valid_of_all rfl) hc h).2.2 ?_⟩
  rintro (_ | _ | i) p hp
  · cases hp
    decide
  · cases hp
    decide
  · cases hp

/-- `0x99` and `0x61` sum to `0xFA`, which the first adjustment wraps to 0: 99 + 61 gives 00 and no
carry. -/
theorem daa_not_isResult : ¬ ∀ (s v : Machine) (l : List (BitVec 8 × BitVec 8))
    (ds : List (BitVec 8)), l ≠ [] → (∀ p ∈ l, Decimal.daa.Valid p.1 ∧ Decimal.daa.Valid p.2) →
      s.testFlag .CF = false → DecimalRun .daa s l ds v →
      Decimal.daa.IsResult l ds (v.testFlag .CF) := by
  intro hall
  obtain ⟨s, v, ds, hc, h⟩ := exists_decimalRun .daa false [(0x99, 0x61)]
  have hvalid : ∀ p ∈ [((0x99 : BitVec 8), (0x61 : BitVec 8))],
      Decimal.daa.Valid p.1 ∧ Decimal.daa.Valid p.2 := valid_of_all rfl
  have hadjust := (h.isResult_iff hvalid hc).1 (hall s v _ ds (by simp) hvalid hc h)
  exact absurd (hadjust 0 _ rfl) (by decide)

/-- 2000 - 1 = 1999 in packed digits. -/
theorem das_isResult_borrow : ∃ s v ds, DecimalRun .das s [(0x00, 0x01), (0x20, 0x00)] ds v ∧
    Decimal.das.IsResult [(0x00, 0x01), (0x20, 0x00)] ds (v.testFlag .CF) := by
  obtain ⟨s, v, ds, hc, h⟩ := exists_decimalRun .das false [(0x00, 0x01), (0x20, 0x00)]
  exact ⟨s, v, ds, h, (das_isResult (valid_of_all rfl) hc h).2⟩

/-- 46 + 85 = 131 in one digit a byte, where the two sums 11 and 13 are odd. -/
theorem aaa_isResult_digits : ∃ s v ds, DecimalRun .aaa s [(6, 5), (4, 8)] ds v ∧
    Decimal.aaa.IsResult [(6, 5), (4, 8)] ds (v.testFlag .CF) := by
  obtain ⟨s, v, ds, hc, h⟩ := exists_decimalRun .aaa false [(6, 5), (4, 8)]
  refine ⟨s, v, ds, h, ((aaa_isResult_iff (valid_of_all rfl) hc).2.1 h).2 ?_⟩
  rintro (_ | _ | i) p hp
  · cases hp
    decide
  · cases hp
    decide
  · cases hp

/-- 3 + 4 gives 13: the lowest bit of 7 is taken for a digit above 9. -/
theorem aaa_not_isResult : ¬ ∀ (s v : Machine) (l : List (BitVec 8 × BitVec 8))
    (ds : List (BitVec 8)), l ≠ [] → (∀ p ∈ l, Decimal.aaa.Valid p.1 ∧ Decimal.aaa.Valid p.2) →
      s.testFlag .CF = false →
      (DecimalRun .aaa s l ds v → Decimal.aaa.IsResult l ds (v.testFlag .CF)) ∧
      (DecimalRun .aas s l ds v → Decimal.aas.IsResult l ds (v.testFlag .CF)) := by
  intro hall
  obtain ⟨s, v, ds, hc, h⟩ := exists_decimalRun .aaa false [(3, 4)]
  have hvalid : ∀ p ∈ [((3 : BitVec 8), (4 : BitVec 8))],
      Decimal.aaa.Valid p.1 ∧ Decimal.aaa.Valid p.2 := valid_of_all rfl
  have hadjust := (h.isResult_iff hvalid hc).1 ((hall s v _ ds (by simp) hvalid hc).1 h)
  exact absurd (hadjust 0 _ rfl) (by decide)

end I386Vm
