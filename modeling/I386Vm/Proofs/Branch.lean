import I386Vm.Proofs.Compare

/-!
# Compare and branch, compare and set

A conditional jump takes its target when its condition holds of the flags, so after `CMP` the jumps
decide relations between the operands. The unsigned ones and the tests for equality decide the
relations they are named after. The signed ones read `SF ≠ OF`, which is `FlagsLess`, and `jle_i`
asks for `ZF` as well, so that all eight are right only on the operands of `SignedRange`.
-/

namespace I386Vm

open Bytes Prog

/-- Every jump of the handler goes to its target when `rel` holds and falls through otherwise. -/
def Branches (h : Handler) (rel : Prop) (s : Machine) : Prop :=
  ∀ (j : CsInsn) [j.Decoded],
    (rel → (h j).run s = .ok (some 0, { s with eip := s.branchTarget j.op1 })) ∧
    (¬ rel → (h j).run s = .ok (some 0, s.advance j))

theorem jcc_run (cond : Machine → Bool) (j : CsInsn) [j.Decoded] {s : Machine}
    (hc : cond (s.advance j) = cond s) :
    (jcc cond j).run s = .ok (some 0, if cond s then { s with eip := s.branchTarget j.op1 }
      else s.advance j) := by
  have ht : (s.advance j).branchTarget j.op1 = s.branchTarget j.op1 :=
    (SameData.advance s j).branchTarget (SafePtr.plain_op j 0)
  unfold jcc
  rw [run_bind_ok (advance_run s j), run_bind_ok run_get_ok, hc]
  cases cond s with
  | true =>
    have hj : (jumpTo j.op1).run (s.advance j) =
        .ok ((), { s.advance j with eip := (s.advance j).branchTarget j.op1 }) := rfl
    rw [if_pos rfl, if_pos rfl, run_bind_ok hj, ht]
    rfl
  | false => rfl

theorem exists_far_target (s : Machine) :
    ∃ j : CsInsn, j.Decoded ∧ s.branchTarget j.op1 ≠ (s.advance j).eip := by
  refine ⟨.bare "" 2 [⟨.imm ((s.eip + 3).setWidth 64), 4⟩], ⟨by simp [CsInsn.bare],
    by simp [CsInsn.bare], by simp [CsInsn.bare, CsX86Op.Plain]⟩, ?_⟩
  have ht : s.branchTarget (CsInsn.bare "" 2 [⟨.imm ((s.eip + 3).setWidth 64), 4⟩]).op1 =
      s.eip + 3 := by
    simp [Machine.branchTarget, CsInsn.bare, CsInsn.op, CsX86Op.type, CsX86Op.imm]
  rw [ht]
  simp [Machine.advance, CsInsn.bare]

theorem branches_jcc_iff {cond : Machine → Bool} {rel : Prop} {s : Machine}
    (hc : ∀ j, cond (s.advance j) = cond s) :
    Branches (jcc cond) rel s ↔ (cond s = true ↔ rel) := by
  constructor
  · intro h
    obtain ⟨j, hj, hne⟩ := exists_far_target s
    obtain ⟨hyes, hno⟩ := h j
    rw [jcc_run cond j (hc j)] at hyes hno
    have heip {t u : Machine} (htu : (Except.ok (some 0, t) : Except Fault (Ret × Machine)) =
        .ok (some 0, u)) : t.eip = u.eip := by
      cases htu
      rfl
    constructor
    · intro hs
      by_contra hr
      have := heip (hno hr)
      rw [if_pos hs] at this
      exact hne this
    · intro hr
      by_contra hs
      have := heip (hyes hr)
      rw [if_neg hs] at this
      exact hne this.symm
  · intro h j _
    rw [jcc_run cond j (hc j)]
    refine ⟨fun hr => by rw [if_pos (h.2 hr)], fun hr => by rw [if_neg (mt h.1 hr)]⟩

/-- The eight signed jumps decide the order of `a` and `b`. -/
structure SignedJumps (a b : ℤ) (s : Machine) : Prop where
  jl : Branches jlI (a < b) s
  jnge : Branches jngeI (a < b) s
  jge : Branches jgeI (b ≤ a) s
  jnl : Branches jnlI (b ≤ a) s
  jle : Branches jleI (a ≤ b) s
  jng : Branches jngI (a ≤ b) s
  jg : Branches jgI (b < a) s
  jnle : Branches jnleI (b < a) s

theorem signedJumps_iff_conds {a b : ℤ} {s : Machine} :
    SignedJumps a b s ↔
      ((s.testFlag .SF != s.testFlag .OF) = true ↔ a < b) ∧
      ((s.testFlag .SF == s.testFlag .OF) = true ↔ b ≤ a) ∧
      ((s.testFlag .ZF && s.testFlag .SF != s.testFlag .OF) = true ↔ a ≤ b) ∧
      ((s.testFlag .ZF || s.testFlag .SF != s.testFlag .OF) = true ↔ a ≤ b) ∧
      ((!s.testFlag .ZF && s.testFlag .SF == s.testFlag .OF) = true ↔ b < a) := by
  constructor
  · intro h
    exact ⟨(branches_jcc_iff fun _ => rfl).1 h.jl, (branches_jcc_iff fun _ => rfl).1 h.jge,
      (branches_jcc_iff fun _ => rfl).1 h.jle, (branches_jcc_iff fun _ => rfl).1 h.jng,
      (branches_jcc_iff fun _ => rfl).1 h.jg⟩
  · rintro ⟨hl, hge, hle, hng, hg⟩
    exact {
      jl := (branches_jcc_iff fun _ => rfl).2 hl
      jnge := (branches_jcc_iff fun _ => rfl).2 hl
      jge := (branches_jcc_iff fun _ => rfl).2 hge
      jnl := (branches_jcc_iff fun _ => rfl).2 hge
      jle := (branches_jcc_iff fun _ => rfl).2 hle
      jng := (branches_jcc_iff fun _ => rfl).2 hng
      jg := (branches_jcc_iff fun _ => rfl).2 hg
      jnle := (branches_jcc_iff fun _ => rfl).2 hg }

theorem signedJumps_iff_flags {a b : ℤ} {s : Machine} :
    SignedJumps a b s ↔
      (s.testFlag .SF ≠ s.testFlag .OF ↔ a < b) ∧
      (s.testFlag .ZF = true ∧ s.testFlag .SF ≠ s.testFlag .OF ↔ a ≤ b) ∧
      (s.testFlag .ZF = true ∨ s.testFlag .SF ≠ s.testFlag .OF ↔ a ≤ b) := by
  rw [signedJumps_iff_conds]
  generalize s.testFlag .SF = sf
  generalize s.testFlag .OF = of
  generalize s.testFlag .ZF = zf
  have hba : b ≤ a ↔ ¬ a < b := not_lt.symm
  have hab : b < a ↔ ¬ a ≤ b := not_le.symm
  rw [hba, hab]
  cases sf <;> cases of <;> cases zf <;> simp

/-- The operands on which all eight are right. -/
def SignedRange (w : Width) (a b : ℤ) : Prop :=
  (0 ≤ b ∧ b < a) ∨ (w = .dword ∧ b < 0 ∧ 0 ≤ a ∧ a - b < 2 ^ 31)

section Cmp

variable {w : Width} {insn : CsInsn} {s : Machine}

theorem cmp_flags (w : Width) (insn : CsInsn) (s : Machine) :
    ((s.cmp insn w).testFlag .CF = true ↔
      (insn.op1.value w s).toNat < (insn.op2.value w s).toNat) ∧
    ((s.cmp insn w).testFlag .ZF = true ↔ insn.op1.value w s = insn.op2.value w s) ∧
    ((s.cmp insn w).testFlag .SF ≠ (s.cmp insn w).testFlag .OF ↔
      FlagsLess w (w.signed (insn.op1.value w s)) (w.signed (insn.op2.value w s))) := by
  unfold Machine.cmp
  simp only [Machine.testFlag_withArith]
  refine ⟨?_, ?_, ?_⟩
  · rw [decide_eq_true_iff]
    rfl
  · exact zero_sub_iff _ _
  · exact sign_ne_overflow_iff (CsX86Op.IsLoc.value_lt _ _ _) (CsX86Op.IsLoc.value_lt _ _ _)

theorem signedJumps_cmp_iff (w : Width) (insn : CsInsn) (s : Machine) :
    SignedJumps (w.signed (insn.op1.value w s)) (w.signed (insn.op2.value w s)) (s.cmp insn w) ↔
      SignedRange w (w.signed (insn.op1.value w s)) (w.signed (insn.op2.value w s)) := by
  obtain ⟨-, hz, hl⟩ := cmp_flags w insn s
  rw [← w.signed_inj (CsX86Op.IsLoc.value_lt _ _ _) (CsX86Op.IsLoc.value_lt _ _ _)] at hz
  rw [signedJumps_iff_flags, hz, hl]
  generalize w.signed (insn.op1.value w s) = a
  generalize w.signed (insn.op2.value w s) = b
  unfold FlagsLess SignedRange
  cases w with
  | byte =>
    simp [Width.bits, Width.bytes]
    omega
  | word =>
    simp [Width.bits, Width.bytes]
    omega
  | dword =>
    simp [Width.bits, Width.bytes]
    omega

/-- The signed jumps after `CMP` decide the signed order exactly on `SignedRange`. -/
theorem cmp_signedJumps_iff (h1 : insn.op1.IsLoc w) (h2 : insn.op2.IsLoc w) :
    (∃ t, (cmpI insn).run s = .ok (some 0, t) ∧
      SignedJumps (w.signed (insn.op1.value w s)) (w.signed (insn.op2.value w s)) t) ↔
      SignedRange w (w.signed (insn.op1.value w s)) (w.signed (insn.op2.value w s)) := by
  rw [cmpI_run h1 h2, exists_ok_iff]
  exact signedJumps_cmp_iff w insn s

/-- `2 > 1`, and the jumps agree. -/
theorem cmp_signedJumps_two_one : ∃ t, (cmpI cmpEaxEbx).run
    ((Machine.blank.setReg .eax 2).setReg .ebx 1) = .ok (some 0, t) ∧ SignedJumps 2 1 t := by
  have h := @cmp_signedJumps_iff .dword cmpEaxEbx
    ((Machine.blank.setReg .eax 2).setReg .ebx 1) cmpEaxEbx_isLoc.1 cmpEaxEbx_isLoc.2
  exact h.2 (.inl ⟨by decide, by decide⟩)

/-- Equal operands: `jle_i` asks for `SF ≠ OF` as well as `ZF`. -/
theorem cmp_signedJumps_fails : ¬ ∀ (w : Width) (insn : CsInsn) (s : Machine),
    insn.op1.IsLoc w → insn.op2.IsLoc w → ∃ t, (cmpI insn).run s = .ok (some 0, t) ∧
      SignedJumps (w.signed (insn.op1.value w s)) (w.signed (insn.op2.value w s)) t := by
  intro h
  obtain ⟨h1, h2⟩ := cmpEaxEbx_isLoc
  obtain ⟨t, ht, hj⟩ := h .dword cmpEaxEbx .blank h1 h2
  rw [cmpI_run h1 h2] at ht
  cases ht
  have hr := (signedJumps_cmp_iff _ _ _).1 hj
  revert hr
  unfold SignedRange
  decide

/-- The thirteen unsigned jumps and tests for equality decide the relations of `a` and `b`. -/
structure UnsignedJumps (a b : ℕ) (s : Machine) : Prop where
  ja : Branches jaI (b < a) s
  jnbe : Branches jnbeI (b < a) s
  jae : Branches jaeI (b ≤ a) s
  jnb : Branches jnbI (b ≤ a) s
  jnc : Branches jncI (b ≤ a) s
  jb : Branches jbI (a < b) s
  jnae : Branches jnaeI (a < b) s
  jc : Branches jcI (a < b) s
  jbe : Branches jbeI (a ≤ b) s
  jna : Branches jnaI (a ≤ b) s
  je : Branches jeI (a = b) s
  jz : Branches jzI (a = b) s
  jne : Branches jneI (a ≠ b) s

theorem unsignedJumps_of_flags {a b : ℕ} {s : Machine} (hc : s.testFlag .CF = true ↔ a < b)
    (hz : s.testFlag .ZF = true ↔ a = b) : UnsignedJumps a b s := by
  have ha : (!s.testFlag .CF && !s.testFlag .ZF) = true ↔ b < a := by
    rw [Bool.and_eq_true, Bool.not_eq_true', Bool.not_eq_true', ← Bool.not_eq_true,
      ← Bool.not_eq_true, hc, hz]
    omega
  have hae : (!s.testFlag .CF) = true ↔ b ≤ a := by
    rw [Bool.not_eq_true', ← Bool.not_eq_true, hc, not_lt]
  have hbe : (s.testFlag .CF || s.testFlag .ZF) = true ↔ a ≤ b := by
    rw [Bool.or_eq_true, hc, hz]
    omega
  have hne : (!s.testFlag .ZF) = true ↔ a ≠ b := by
    rw [Bool.not_eq_true', ← Bool.not_eq_true, hz]
  exact {
    ja := (branches_jcc_iff fun _ => rfl).2 ha
    jnbe := (branches_jcc_iff fun _ => rfl).2 ha
    jae := (branches_jcc_iff fun _ => rfl).2 hae
    jnb := (branches_jcc_iff fun _ => rfl).2 hae
    jnc := (branches_jcc_iff fun _ => rfl).2 hae
    jb := (branches_jcc_iff fun _ => rfl).2 hc
    jnae := (branches_jcc_iff fun _ => rfl).2 hc
    jc := (branches_jcc_iff fun _ => rfl).2 hc
    jbe := (branches_jcc_iff fun _ => rfl).2 hbe
    jna := (branches_jcc_iff fun _ => rfl).2 hbe
    je := (branches_jcc_iff fun _ => rfl).2 hz
    jz := (branches_jcc_iff fun _ => rfl).2 hz
    jne := (branches_jcc_iff fun _ => rfl).2 hne }

/-- After `CMP` the unsigned jumps and the tests for equality decide the relations of the
operands. -/
theorem cmp_unsignedJumps (h1 : insn.op1.IsLoc w) (h2 : insn.op2.IsLoc w) :
    ∃ t, (cmpI insn).run s = .ok (some 0, t) ∧
      UnsignedJumps (insn.op1.value w s).toNat (insn.op2.value w s).toNat t := by
  obtain ⟨hc, hz, -⟩ := cmp_flags w insn s
  rw [← BitVec.toNat_inj] at hz
  exact ⟨_, cmpI_run h1 h2, unsignedJumps_of_flags hc hz⟩

def cmpMemBl : CsInsn :=
  .bare "cmp" 6 [⟨.mem ⟨.invalid, .invalid, .invalid, 1, 0x10⟩, 1⟩, ⟨.reg .bl, 1⟩]

/-- On 8 bits, with a memory operand: `0x01` is below `0xFF`. -/
theorem cmp_unsignedJumps_byte : ∃ t, (cmpI cmpMemBl).run
    { Machine.blank.setReg .ebx 0xFF with mem := fun i => if i = 0x10 then 1 else 0 } =
      .ok (some 0, t) ∧ UnsignedJumps 0x01 0xFF t := by
  have hl : cmpMemBl.op1.IsLoc .byte ∧ cmpMemBl.op2.IsLoc .byte := by decide
  exact cmp_unsignedJumps hl.1 hl.2

end Cmp

end I386Vm
