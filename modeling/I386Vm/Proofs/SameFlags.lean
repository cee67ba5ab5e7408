import I386Vm.Proofs.Compare

/-!
# Four subtractions, one set of flags

`SUB`, `CMP`, `CMPS` and `SCAS` of the same operands agree on `OF`, `AF` and `PF`, which look at the
low bits alone. They agree on `CF`, `SF` and `ZF` on 32 bits; on 8 and 16 bits `CMP` and `SCAS` see
the borrow above the operand in `SF`, and `SUB` sees the bytes above its memory operands in `CF`.
-/

namespace I386Vm

open Bytes Prog

def SameStatus (t u : Machine) : Prop :=
  ∀ f ∈ [Flag.CF, .OF, .SF, .ZF, .AF, .PF], t.testFlag f = u.testFlag f

theorem SameStatus.symm {t u : Machine} (h : SameStatus t u) : SameStatus u t :=
  fun f hf => (h f hf).symm

theorem SameStatus.trans {t u v : Machine} (h : SameStatus t u) (g : SameStatus u v) :
    SameStatus t v :=
  fun f hf => (h f hf).trans (g f hf)

section Low

variable {w : Width} {a b r a' b' r' : BitVec 32}

theorem getLsbD_congr_low {n : ℕ} (h : low n a = low n a') {i : ℕ} (hi : i < n) :
    a.getLsbD i = a'.getLsbD i := by
  have hbit := congrArg (fun v => v.getLsbD i) h
  simpa [getLsbD_low, hi] using hbit

theorem overflow_congr (ha : low w.bits a = low w.bits a') (hb : low w.bits b = low w.bits b')
    (hr : low w.bits r = low w.bits r') :
    overflow a b r (w.size * 8) = overflow a' b' r' (w.size * 8) := by
  have hi : w.bits - 1 < w.bits := by
    have := w.eight_le_bits
    omega
  rw [overflow_eq, overflow_eq, getLsbD_congr_low ha hi, getLsbD_congr_low hb hi,
    getLsbD_congr_low hr hi]

theorem adjust_congr (ha : low w.bits a = low w.bits a') (hb : low w.bits b = low w.bits b')
    (hr : low w.bits r = low w.bits r') : adjust a b r = adjust a' b' r' := by
  have hi : 4 < w.bits := lt_of_lt_of_le (by decide) w.eight_le_bits
  have hmask : (0x10 : BitVec 32) = BitVec.twoPow 32 4 := by decide
  unfold adjust
  rw [hmask, BitVec.and_twoPow, BitVec.and_twoPow]
  simp only [BitVec.getLsbD_xor, getLsbD_congr_low ha hi, getLsbD_congr_low hb hi,
    getLsbD_congr_low hr hi]

theorem parity_congr (hr : low w.bits r = low w.bits r') : parity r = parity r' := by
  have h8 : r.setWidth 8 = r'.setWidth 8 := by
    apply BitVec.eq_of_getLsbD_eq
    intro i hi
    rw [BitVec.getLsbD_setWidth, BitVec.getLsbD_setWidth,
      getLsbD_congr_low hr (lt_of_lt_of_le hi w.eight_le_bits)]
  unfold parity
  rw [h8]

/-- Operands and results with the same low bits leave the same flags when `CF`, `SF` and `ZF`
are. -/
theorem sameStatus_withArith_iff {t u : Machine} {c c' : Bool} (ha : low w.bits a = low w.bits a')
    (hb : low w.bits b = low w.bits b') (hr : low w.bits r = low w.bits r') :
    SameStatus (t.withArith c a b r (w.size * 8)) (u.withArith c' a' b' r' (w.size * 8)) ↔
      c = c' ∧ sign r (w.size * 8) = sign r' (w.size * 8) ∧ zero r = zero r' := by
  unfold SameStatus
  simp only [List.forall_mem_cons, Machine.testFlag_withArith, overflow_congr ha hb hr,
    adjust_congr ha hb hr, parity_congr hr, List.not_mem_nil, true_and]
  tauto

end Low

def Width.cmpsI : Width → Handler
  | .byte => cmpsbI
  | .word => cmpswI
  | .dword => cmpsdI

theorem Width.cmpsI_eq (w : Width) : w.cmpsI = cmps w := by
  cases w <;> rfl

section Runs

variable {w : Width} {insn : CsInsn} {s : Machine} {a b : BitVec 32}

theorem cmpsI_run (h1 : s.peek w (.mem (s.reg .esi).toNat) = a)
    (h2 : s.peek w (.mem (s.reg .edi).toNat) = b) :
    ∃ t, (w.cmpsI insn).run s = .ok (some 0, t) ∧
      SameStatus t (s.withArith (a < b) a b (low w.bits (a - b)) (w.size * 8)) := by
  rw [w.cmpsI_eq]
  unfold cmps
  rw [run_bind_ok (advance_run s insn), run_bind_ok run_get_ok, run_bind_ok (load_run (.mem _)),
    run_bind_ok (load_run (.mem _)), run_bind_ok (arithFlags_run _ _ _ _ _ _), cut_eq_low]
  refine ⟨_, rfl, fun f _ => ?_⟩
  rw [← h1, ← h2]
  change ((s.advance insn).withArith _ _ _ _ _).testFlag f = _
  rw [Machine.testFlag_withArith, Machine.testFlag_withArith]
  cases f <;> rfl

theorem scasI_run (hs : insn.op1.size = w.size) (h1 : s.peek w (.var .eax) = a)
    (h2 : s.peek w (.mem (s.reg .edi).toNat) = b) :
    (scasI insn).run s =
      .ok (some 0, (s.advance insn).withArith (a < b) a b (a - b) (w.size * 8)) := by
  unfold scasI
  rw [run_bind_ok (advance_run s insn), run_bind_ok run_get_ok, hs, widthOr32_size,
    run_bind_ok (load_run (.var _)), run_bind_ok (load_run (.mem _)),
    run_bind_ok (arithFlags_run _ _ _ _ _ _), ← h1, ← h2]
  rfl

end Runs

/-- The number in the bytes that follow a memory operand in its 32-bit word. -/
def CsX86Op.above (op : CsX86Op) (w : Width) (s : Machine) : ℕ :=
  if op.type = .mem then (s.peek .dword (s.opPtr op)).toNat / 2 ^ w.bits else 0

theorem CsX86Op.above_of_reg {op : CsX86Op} {w : Width} {s : Machine} (ht : op.type = .reg) :
    op.above w s = 0 :=
  if_neg (by simp [ht])

theorem CsX86Op.IsLoc.toNat_wide {op : CsX86Op} {w : Width} {s : Machine} (h : op.IsLoc w) :
    (op.wide w s).toNat = (op.value w s).toNat + 2 ^ w.bits * op.above w s := by
  have hlow := congrArg BitVec.toNat (low_wide op w s)
  rw [toNat_low] at hlow
  rw [← hlow]
  rcases h.cases with ⟨ht, -⟩ | ⟨ht, -⟩
  · rw [CsX86Op.wide_of_reg ht, CsX86Op.above_of_reg ht, mul_zero, add_zero,
      Nat.mod_eq_of_lt (CsX86Op.IsLoc.value_lt op w s)]
  · unfold CsX86Op.above
    rw [CsX86Op.wide_of_mem ht, if_pos ht, Nat.mod_add_div]

/-- The operands hold `a` and `b`. -/
structure Holds (w : Width) (a b : BitVec 32) (insn : CsInsn) (s : Machine) : Prop where
  loc1 : insn.op1.IsLoc w
  loc2 : insn.op2.IsLoc w
  value1 : insn.op1.value w s = a
  value2 : insn.op2.value w s = b

theorem Holds.lt {w : Width} {a b : BitVec 32} {insn : CsInsn} {s : Machine}
    (h : Holds w a b insn s) : a.toNat < 2 ^ w.bits ∧ b.toNat < 2 ^ w.bits := by
  rw [← h.value1, ← h.value2]
  exact ⟨CsX86Op.IsLoc.value_lt _ _ _, CsX86Op.IsLoc.value_lt _ _ _⟩

/-- Where the borrow of a narrow subtraction is invisible in `SF`. -/
def BorrowFits (w : Width) (a b : ℕ) : Prop := w = .dword ∨ b ≤ a + 2 ^ (w.bits - 1)

/-- Where the bytes `h1` and `h2` above the operands of `SUB` are invisible in `CF`, `SF`, `ZF`. -/
def AboveFits (w : Width) (a b h1 h2 : ℕ) : Prop :=
  h1 = h2 ∨ (h1 < h2 ∧ a < b) ∨ (h2 < h1 ∧ b + 2 ^ (w.bits - 1) ≤ a)

section Agreement

variable {w : Width} {a b : BitVec 32}

theorem zero_low_sub (ha : a.toNat < 2 ^ w.bits) (hb : b.toNat < 2 ^ w.bits) :
    zero (low w.bits (a - b)) = zero (a - b) := by
  rw [Bool.eq_iff_iff, zero_sub_iff]
  unfold zero
  rw [decide_eq_true_iff, ← BitVec.toNat_inj, toNat_low, BitVec.toNat_sub,
    ← @BitVec.toNat_inj 32]
  change _ = 0 ↔ _
  cases w <;> norm_num [Width.bits, Width.bytes, reduceCtorEq] at ha hb ⊢ <;> omega

theorem borrowFits_iff {m n : ℕ} :
    BorrowFits w m n ↔ 2 ^ w.bits = 2 ^ 32 ∨ n ≤ m + 2 ^ (w.bits - 1) := by
  have hw : w = .dword ↔ 2 ^ w.bits = 2 ^ 32 := by cases w <;> decide
  unfold BorrowFits
  rw [hw]

theorem toNat_low_sub_of_lt (hb : b.toNat < 2 ^ w.bits) (h : a.toNat < b.toNat) :
    (low w.bits (a - b)).toNat = 2 ^ w.bits - (b.toNat - a.toNat) := by
  obtain ⟨k, hk⟩ := Nat.pow_dvd_pow 2 w.bits_le
  have hs := BitVec.toNat_sub_of_lt (BitVec.lt_def.2 h)
  have hpos : 0 < k := Nat.pos_of_ne_zero fun h0 => by simp [h0] at hk
  have hsplit : 2 ^ w.bits * k = 2 ^ w.bits * (k - 1) + 2 ^ w.bits := by
    rw [← Nat.mul_succ, Nat.succ_eq_add_one, Nat.sub_add_cancel hpos]
  have hsub : 2 ^ 32 - (b.toNat - a.toNat) =
      2 ^ w.bits * (k - 1) + (2 ^ w.bits - (b.toNat - a.toNat)) := by omega
  rw [toNat_low, hs, hsub, Nat.mul_add_mod]
  exact Nat.mod_eq_of_lt (by omega)

/-- The difference cut to the width and the one that is not have the same sign exactly where the
borrow fits. -/
theorem sign_low_sub_iff (ha : a.toNat < 2 ^ w.bits) (hb : b.toNat < 2 ^ w.bits) :
    sign (a - b) (w.size * 8) = sign (low w.bits (a - b)) (w.size * 8) ↔
      BorrowFits w a.toNat b.toNat := by
  rw [sign_eq, sign_eq, decide_eq_decide, borrowFits_iff]
  obtain ⟨hhalf, hpos, hwords⟩ := w.two_pow_bits
  rcases toNat_sub_cases a b with ⟨h, hs⟩ | ⟨h, hs⟩
  · rw [toNat_low, hs, Nat.mod_eq_of_lt (by omega)]
    exact iff_of_true Iff.rfl (.inr (by omega))
  · -- with a borrow the wide difference is negative, whatever the width
    rw [toNat_low_sub_of_lt hb h, hs]
    omega

/-- Bytes above the low ones move a number by a multiple of the width. -/
theorem mul_two_pow_add_le {h1 h2 : ℕ} (h : h1 < h2) :
    2 ^ w.bits * h1 + 2 ^ w.bits ≤ 2 ^ w.bits * h2 := by
  rw [← Nat.mul_succ]
  exact Nat.mul_le_mul_left _ h

theorem above_le {x : BitVec 32} {n h1 : ℕ} (hx : x.toNat = n + 2 ^ w.bits * h1) :
    2 ^ w.bits * h1 + 2 ^ w.bits ≤ 2 ^ 32 := by
  obtain ⟨k, hk⟩ := Nat.pow_dvd_pow 2 w.bits_le
  have hxl : 2 ^ w.bits * h1 < 2 ^ 32 := by
    have := x.isLt
    omega
  rw [hk] at hxl ⊢
  exact mul_two_pow_add_le (Nat.lt_of_mul_lt_mul_left hxl)

/-- The wide subtraction of `SUB` in memory has the carry, sign and zero of the narrow one exactly
where the bytes above fit. -/
theorem wide_sub_iff {x y : BitVec 32} {h1 h2 : ℕ} (ha : a.toNat < 2 ^ w.bits)
    (hb : b.toNat < 2 ^ w.bits) (hx : x.toNat = a.toNat + 2 ^ w.bits * h1)
    (hy : y.toNat = b.toNat + 2 ^ w.bits * h2) (hf : BorrowFits w a.toNat b.toNat) :
    (decide (x < y) = decide (a < b) ∧ sign (x - y) (w.size * 8) = sign (a - b) (w.size * 8) ∧
      zero (x - y) = zero (a - b)) ↔ AboveFits w a.toNat b.toNat h1 h2 := by
  have hxl := above_le hx
  have hyl := above_le hy
  obtain ⟨hhalf, hpos, hwords⟩ := w.two_pow_bits
  rw [decide_eq_decide, sign_eq, sign_eq, decide_eq_decide, Bool.eq_iff_iff, zero_sub_iff,
    zero_sub_iff, ← @BitVec.toNat_inj 32 x, ← @BitVec.toNat_inj 32 a, BitVec.lt_def,
    BitVec.lt_def]
  rw [borrowFits_iff] at hf
  unfold AboveFits
  -- what is above decides whether the wide subtraction borrows, unless it cancels
  rcases lt_trichotomy h1 h2 with h | rfl | h
  · have hstep := mul_two_pow_add_le (w := w) h
    have hlt : x.toNat < y.toNat := by omega
    have hs' := BitVec.toNat_sub_of_lt (BitVec.lt_def.2 hlt)
    rcases toNat_sub_cases a b with ⟨_, hs⟩ | ⟨_, hs⟩ <;> rw [hs, hs'] <;> omega
  · rcases toNat_sub_cases a b with ⟨_, hs⟩ | ⟨_, hs⟩ <;>
      rcases toNat_sub_cases x y with ⟨_, hs'⟩ | ⟨_, hs'⟩ <;> rw [hs, hs'] <;> omega
  · have hstep := mul_two_pow_add_le (w := w) h
    have hle : y.toNat ≤ x.toNat := by omega
    have hs' := BitVec.toNat_sub_of_le (BitVec.le_def.2 hle)
    rcases toNat_sub_cases a b with ⟨_, hs⟩ | ⟨_, hs⟩ <;> rw [hs, hs'] <;> omega

theorem cmp_sameStatus_cmps_iff {t u : Machine} (ha : a.toNat < 2 ^ w.bits)
    (hb : b.toNat < 2 ^ w.bits) :
    SameStatus (t.withArith (a < b) a b (a - b) (w.size * 8))
      (u.withArith (a < b) a b (low w.bits (a - b)) (w.size * 8)) ↔
      BorrowFits w a.toNat b.toNat := by
  rw [sameStatus_withArith_iff rfl rfl (low_low _ _).symm, sign_low_sub_iff ha hb]
  exact ⟨fun h => h.2.1, fun h => ⟨rfl, h, (zero_low_sub ha hb).symm⟩⟩

theorem carry_reg_iff {y : BitVec 32} {h2 : ℕ} (ha : a.toNat < 2 ^ w.bits)
    (hy : y.toNat = b.toNat + 2 ^ w.bits * h2) :
    decide (a < y) = decide (a < b) ↔ AboveFits w a.toNat b.toNat 0 h2 := by
  rw [decide_eq_decide, BitVec.lt_def, BitVec.lt_def, hy]
  unfold AboveFits
  rcases Nat.eq_zero_or_pos h2 with rfl | hpos
  · simp
  · have hbig : 2 ^ w.bits ≤ 2 ^ w.bits * h2 := Nat.le_mul_of_pos_right _ hpos
    omega

theorem low_wide_sub {op1 op2 : CsX86Op} {s : Machine} :
    low w.bits (op1.wide w s - op2.wide w s) = low w.bits (op1.value w s - op2.value w s) := by
  rw [← low_wide op1, ← low_wide op2, low_sub_low w.bits_le, low_low_sub w.bits_le]

theorem sub_sameStatus_cmp_iff {insn : CsInsn} {s t : Machine} (h : Holds w a b insn s)
    (hf : BorrowFits w a.toNat b.toNat) :
    SameStatus (s.sub insn w) (t.withArith (a < b) a b (a - b) (w.size * 8)) ↔
      AboveFits w a.toNat b.toNat (insn.op1.above w s) (insn.op2.above w s) := by
  obtain ⟨ha, hb⟩ := h.lt
  obtain ⟨h1, h2, rfl, rfl⟩ := h
  have hla : low w.bits (insn.op1.wide w s) = low w.bits (insn.op1.value w s) := by
    rw [low_wide, CsX86Op.IsLoc.low_value]
  have hlb : low w.bits (insn.op2.wide w s) = low w.bits (insn.op2.value w s) := by
    rw [low_wide, CsX86Op.IsLoc.low_value]
  unfold Machine.sub
  rcases h1.cases with ⟨ht, -⟩ | ⟨ht, -⟩
  · -- a register: the result is cut to the width, only the carry sees the wide operand
    have hres : insn.op1.subResult w s (insn.op2.wide w s) =
        low w.bits (insn.op1.value w s - insn.op2.value w s) := by
      rw [CsX86Op.subResult_of_reg ht, ← low_sub_low w.bits_le, low_wide]
    have hz := zero_low_sub ha hb
    rw [sameStatus_withArith_iff hla hlb (by rw [hres, low_low]), hres, CsX86Op.wide_of_reg ht,
      CsX86Op.above_of_reg ht, ← carry_reg_iff ha h2.toNat_wide]
    exact ⟨fun h => h.1, fun h => ⟨h, ((sign_low_sub_iff ha hb).2 hf).symm, hz⟩⟩
  · rw [CsX86Op.subResult_of_mem ht, sameStatus_withArith_iff hla hlb low_wide_sub]
    exact wide_sub_iff ha hb h1.toNat_wide h2.toNat_wide hf

end Agreement

section Four

variable {w : Width} {a b : BitVec 32} {sub cmp cmps scas : CsInsn} {s₁ s₂ s₃ s₄ : Machine}

/-- The four handlers run, and leave the same status flags. -/
def FourAgree (w : Width) (sub cmp cmps scas : CsInsn) (s₁ s₂ s₃ s₄ : Machine) : Prop :=
  ∃ t₁ t₂ t₃ t₄, (subI sub).run s₁ = .ok (some 0, t₁) ∧ (cmpI cmp).run s₂ = .ok (some 0, t₂) ∧
    (w.cmpsI cmps).run s₃ = .ok (some 0, t₃) ∧ (scasI scas).run s₄ = .ok (some 0, t₄) ∧
    SameStatus t₁ t₂ ∧ SameStatus t₂ t₃ ∧ SameStatus t₃ t₄

/-- `CMPS` finds `a` at `ESI` and `b` at `EDI`. -/
def HoldsCmps (w : Width) (a b : BitVec 32) (s : Machine) : Prop :=
  s.peek w (.mem (s.reg .esi).toNat) = a ∧ s.peek w (.mem (s.reg .edi).toNat) = b

/-- `SCAS` finds `a` in the accumulator and `b` at `EDI`. -/
def HoldsScas (w : Width) (a b : BitVec 32) (insn : CsInsn) (s : Machine) : Prop :=
  insn.op1.size = w.size ∧ s.peek w (.var .eax) = a ∧ s.peek w (.mem (s.reg .edi).toNat) = b

theorem Holds.cmp_eq (h : Holds w a b cmp s₂) :
    s₂.cmp cmp w = (s₂.advance cmp).withArith (a < b) a b (a - b) (w.size * 8) := by
  unfold Machine.cmp
  rw [h.value1, h.value2]

section Given

variable (hsub : Holds w a b sub s₁) (hcmp : Holds w a b cmp s₂) (hcmps : HoldsCmps w a b s₃)
include hsub hcmp hcmps

theorem FourAgree.fits (h : FourAgree w sub cmp cmps scas s₁ s₂ s₃ s₄) :
    BorrowFits w a.toNat b.toNat ∧
      AboveFits w a.toNat b.toNat (sub.op1.above w s₁) (sub.op2.above w s₁) := by
  obtain ⟨ha, hb⟩ := hcmp.lt
  obtain ⟨t, hrun, ht⟩ := @cmpsI_run w cmps _ _ _ hcmps.1 hcmps.2
  obtain ⟨t₁, t₂, t₃, -, h1, h2, h3, -, h12, h23, -⟩ := h
  rw [subI_run hsub.loc1 hsub.loc2] at h1
  rw [cmpI_run hcmp.loc1 hcmp.loc2] at h2
  rw [hrun] at h3
  cases h1
  cases h2
  cases h3
  rw [hcmp.cmp_eq] at h12 h23
  have hf := (cmp_sameStatus_cmps_iff ha hb).1 (h23.trans ht)
  exact ⟨hf, (sub_sameStatus_cmp_iff hsub hf).1 h12⟩

theorem fourAgree_of_fits (hscas : HoldsScas w a b scas s₄) (hf : BorrowFits w a.toNat b.toNat)
    (habove : AboveFits w a.toNat b.toNat (sub.op1.above w s₁) (sub.op2.above w s₁)) :
    FourAgree w sub cmp cmps scas s₁ s₂ s₃ s₄ := by
  obtain ⟨ha, hb⟩ := hcmp.lt
  obtain ⟨t, hrun, ht⟩ := @cmpsI_run w cmps _ _ _ hcmps.1 hcmps.2
  have h12 : SameStatus (s₁.sub sub w) (s₂.cmp cmp w) := by
    rw [hcmp.cmp_eq]
    exact (sub_sameStatus_cmp_iff hsub hf).2 habove
  have h23 : SameStatus (s₂.cmp cmp w) t := by
    rw [hcmp.cmp_eq]
    exact ((cmp_sameStatus_cmps_iff ha hb).2 hf).trans ht.symm
  have h24 : SameStatus (s₂.cmp cmp w)
      ((s₄.advance scas).withArith (a < b) a b (a - b) (w.size * 8)) := by
    rw [hcmp.cmp_eq, sameStatus_withArith_iff rfl rfl rfl]
    exact ⟨rfl, rfl, rfl⟩
  exact ⟨_, _, t, _, subI_run hsub.loc1 hsub.loc2, cmpI_run hcmp.loc1 hcmp.loc2, hrun,
    scasI_run hscas.1 hscas.2.1 hscas.2.2, h12, h23, h23.symm.trans h24⟩

end Given

/-- The four subtractions of `a` and `b` leave the same status flags exactly when the borrow fits
and so do the bytes above the operands of `SUB`. -/
theorem fourAgree_iff (hsub : Holds w a b sub s₁) (hcmp : Holds w a b cmp s₂)
    (hcmps : HoldsCmps w a b s₃) (hscas : HoldsScas w a b scas s₄) :
    FourAgree w sub cmp cmps scas s₁ s₂ s₃ s₄ ↔ BorrowFits w a.toNat b.toNat ∧
      AboveFits w a.toNat b.toNat (sub.op1.above w s₁) (sub.op2.above w s₁) := by
  constructor
  · exact fun h => h.fits hsub hcmp hcmps
  · exact fun h => fourAgree_of_fits hsub hcmp hcmps hscas h.1 h.2

/-- `x` in `EAX` and at `ESI`, `y` in `EBX` and at `EDI`. -/
def twice (x y : BitVec 8) : Machine where
  reg v := if v = .eax then x.setWidth 32 else if v = .ebx then y.setWidth 32
    else if v = .edi then 4 else 0
  eip := 0
  eflags := eflagsInit
  mem i := if i = 0 then x else if i = 4 then y else 0
  gdtr := ⟨0, 0⟩
  idtr := ⟨0, 0⟩
  ldtr := 0
  cr0 := 0
  noReturn _ := 0

theorem fourAgree_two_one : FourAgree .dword cmpEaxEbx cmpEaxEbx cmpEaxEbx cmpEaxEbx
    (twice 2 1) (twice 2 1) (twice 2 1) (twice 2 1) := by
  have h : Holds .dword 2 1 cmpEaxEbx (twice 2 1) := ⟨by decide, by decide, by decide, by decide⟩
  have hcmps : HoldsCmps .dword 2 1 (twice 2 1) := ⟨by decide, by decide⟩
  have hscas : HoldsScas .dword 2 1 cmpEaxEbx (twice 2 1) := ⟨by decide, by decide, by decide⟩
  exact (fourAgree_iff h h hcmps hscas).2 ⟨.inl rfl, .inl rfl⟩

def cmpAlBl : CsInsn := .bare "cmp" 2 [⟨.reg .al, 1⟩, ⟨.reg .bl, 1⟩]

/-- On 8 bits 0 − 0x81 borrows past the sign bit: `CMP` says negative, `CMPS` does not. -/
theorem fourAgree_fails : ¬ ∀ (w : Width) (a b : BitVec 32) (sub cmp cmps scas : CsInsn)
    (s₁ s₂ s₃ s₄ : Machine), Holds w a b sub s₁ → Holds w a b cmp s₂ → HoldsCmps w a b s₃ →
      HoldsScas w a b scas s₄ → FourAgree w sub cmp cmps scas s₁ s₂ s₃ s₄ := by
  intro hall
  have h : Holds .byte 0 0x81 cmpAlBl (twice 0 0x81) :=
    ⟨by decide, by decide, by decide, by decide⟩
  have hcmps : HoldsCmps .byte 0 0x81 (twice 0 0x81) := ⟨by decide, by decide⟩
  have hscas : HoldsScas .byte 0 0x81 cmpAlBl (twice 0 0x81) :=
    ⟨by decide, by decide, by decide⟩
  obtain ⟨hf, -⟩ := (hall .byte 0 0x81 cmpAlBl cmpAlBl cmpAlBl cmpAlBl _ _ _ _ h h hcmps
    hscas).fits h h hcmps
  revert hf
  unfold BorrowFits
  decide

end Four

end I386Vm
