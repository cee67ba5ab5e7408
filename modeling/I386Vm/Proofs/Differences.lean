import I386Vm.Proofs.ResultFlags
import I386Vm.Proofs.SameFlags

/-!
# `SUB` and `SBB`

Both compute `OF` by the test of an addition, which is right where the difference has the sign of
the minuend. `sub_i` sees the bytes above a narrow memory operand. `sbb_i` adds the carry to the
second operand before it compares, and takes `OF` and `AF` with the carry out added to it.
-/

namespace I386Vm

open Bytes Prog TwosComplement

/-! ## A difference and its flags -/

section Flags

variable {w : Width} {a b k : BitVec 32} {c : ℕ}

section

variable (ha : a.toNat < 2 ^ w.bits) (hk : k.toNat = c)

include ha hk

/-- The minuend is the sum of the difference, the subtrahend and the carry. -/
theorem toNat_of_low_sub :
    a.toNat = ((low w.bits (a - b - k)).toNat + b.toNat + c) % 2 ^ w.bits := by
  have hadd : a - (b + k) + (b + k) = a := BitVec.sub_add_cancel a (b + k)
  have hnat : a.toNat = ((a - b - k).toNat + (b.toNat + c)) % 2 ^ 32 := by
    conv_lhs => rw [← hadd, BitVec.toNat_add, BitVec.toNat_add, Nat.add_mod_mod, hk]
    rw [BitVec.sub_sub]
  calc a.toNat = a.toNat % 2 ^ w.bits := (Nat.mod_eq_of_lt ha).symm
    _ = ((a - b - k).toNat + (b.toNat + c)) % 2 ^ 32 % 2 ^ w.bits := by rw [← hnat]
    _ = ((a - b - k).toNat + (b.toNat + c)) % 2 ^ w.bits :=
      Nat.mod_mod_of_dvd _ (Nat.pow_dvd_pow 2 w.bits_le)
    _ = ((low w.bits (a - b - k)).toNat + b.toNat + c) % 2 ^ w.bits := by
      rw [toNat_low, Nat.add_assoc, Nat.mod_add_mod]

theorem toNat_of_low_sub_half :
    a.toNat = ((low w.bits (a - b - k)).toNat + b.toNat + c) % (2 * 2 ^ (w.bits - 1)) := by
  rw [← w.two_pow_bits.1]
  exact toNat_of_low_sub ha hk

theorem low_sub_value :
    ((low w.bits (a - b - k)).toNat : ℤ) = (a.toNat - b.toNat - c) % 2 ^ w.bits := by
  have h := sub_emod (toNat_of_low_sub (b := b) ha hk) (toNat_low_lt _ _)
  push_cast at h
  exact h.symm

theorem adjust_low_sub_iff (hc : c ≤ 1) : adjust a b (low w.bits (a - b - k)) = true ↔
    a.toNat % 16 < b.toNat % 16 + c := by
  rw [adjust_iff, digit_sub_iff w.dvd_two_pow_bits hc (toNat_of_low_sub ha hk)]

variable (hb : b.toNat < 2 ^ w.bits) (hc : c ≤ 1)
include hb hc

theorem keepsSign_iff : KeepsSign (2 ^ (w.bits - 1)) (w.signed a) (w.signed b + c) ↔
    (2 ^ (w.bits - 1) ≤ a.toNat ↔ 2 ^ (w.bits - 1) ≤ (low w.bits (a - b - k)).toNat) := by
  obtain ⟨hhalf, -, -⟩ := w.two_pow_bits
  have hr := toNat_low_lt w.bits (a - b - k)
  rw [signed_eq_signed ha, signed_eq_signed hb,
    half_sub_iff (by omega) (by omega) hc (toNat_of_low_sub_half ha hk) (by omega)]

/-- The test for overflow of the i386. -/
theorem not_inRange_low_sub_iff :
    ¬ InRange (2 ^ (w.bits - 1)) (w.signed a - w.signed b - c) ↔
      ¬ (2 ^ (w.bits - 1) ≤ a.toNat ↔ 2 ^ (w.bits - 1) ≤ b.toNat) ∧
      ¬ (2 ^ (w.bits - 1) ≤ a.toNat ↔ 2 ^ (w.bits - 1) ≤ (low w.bits (a - b - k)).toNat) := by
  obtain ⟨hhalf, -, -⟩ := w.two_pow_bits
  have hr := toNat_low_lt w.bits (a - b - k)
  rw [signed_eq_signed ha, signed_eq_signed hb,
    not_inRange_sub_iff (by omega) (by omega) hc (toNat_of_low_sub_half ha hk) (by omega)]

/-- The test of an addition is right where the difference has the sign of the minuend. -/
theorem overflow_low_sub_iff :
    (overflow a b (low w.bits (a - b - k)) (w.size * 8) = true ↔
      ¬ InRange (2 ^ (w.bits - 1)) (w.signed a - w.signed b - c)) ↔
      KeepsSign (2 ^ (w.bits - 1)) (w.signed a) (w.signed b + c) := by
  rw [overflow_iff ha hb (toNat_low_lt _ _), not_inRange_low_sub_iff ha hk hb hc,
    keepsSign_iff ha hk hb hc]
  by_cases hx : 2 ^ (w.bits - 1) ≤ a.toNat <;> by_cases hy : 2 ^ (w.bits - 1) ≤ b.toNat <;>
    by_cases hz : 2 ^ (w.bits - 1) ≤ (low w.bits (a - b - k)).toNat <;>
    simp only [hx, hy, hz] <;> decide

end

/-! ## The bytes above -/

/-- Where the bytes above the operands leave the comparison as it is. -/
def CarryAbove (a b h1 h2 : ℕ) : Prop := if b ≤ a then h2 ≤ h1 else h1 ≤ h2

/-- Where the bytes above the difference are zero. -/
def NothingAbove (w : Width) (a b h1 h2 : ℕ) : Prop :=
  if b ≤ a then h1 = h2 else h1 = h2 + 1 ∨ (h1 = 0 ∧ h2 + 1 = 2 ^ (32 - w.bits))

theorem add_mul_lt_iff {n u : ℕ} (d : ℕ) (hu : u < n) : u + n * d < n ↔ d = 0 := by
  rcases Nat.eq_zero_or_pos d with rfl | hd
  · simpa using hu
  · have hle := Nat.le_mul_of_pos_right n hd
    omega

section Above

variable {x y : BitVec 32} {h1 h2 : ℕ} (ha : a.toNat < 2 ^ w.bits) (hb : b.toNat < 2 ^ w.bits)
  (hx : x.toNat = a.toNat + 2 ^ w.bits * h1) (hy : y.toNat = b.toNat + 2 ^ w.bits * h2)
include ha hb hx hy

theorem carryAbove_iff : (x < y ↔ a < b) ↔ CarryAbove a.toNat b.toNat h1 h2 := by
  rw [BitVec.lt_def, BitVec.lt_def]
  unfold CarryAbove
  rcases lt_trichotomy h1 h2 with h | rfl | h
  · have hstep := mul_two_pow_add_le (w := w) h
    split_ifs <;> omega
  · split_ifs <;> omega
  · have hstep := mul_two_pow_add_le (w := w) h
    split_ifs <;> omega

theorem nothingAbove_iff :
    (x - y).toNat < 2 ^ w.bits ↔ NothingAbove w a.toNat b.toNat h1 h2 := by
  have hall : 2 ^ w.bits * 2 ^ (32 - w.bits) = 2 ^ 32 := by
    rw [← pow_add, Nat.add_sub_cancel' w.bits_le]
  have hy2 : h2 < 2 ^ (32 - w.bits) := by
    refine Nat.lt_of_mul_lt_mul_left (a := 2 ^ w.bits) ?_
    omega
  unfold NothingAbove
  rcases toNat_sub_cases x y with ⟨hle, hs⟩ | ⟨hlt, hs⟩
  · rw [hs]
    split_ifs with hab
    · obtain ⟨d, rfl⟩ : ∃ d, h1 = h2 + d := by
        refine Nat.exists_eq_add_of_le (Nat.le_of_not_lt fun h => ?_)
        have hstep := mul_two_pow_add_le (w := w) h
        omega
      have hd := add_mul_lt_iff d (show a.toNat - b.toNat < 2 ^ w.bits by omega)
      rw [Nat.mul_add] at hx
      omega
    · obtain ⟨d, rfl⟩ : ∃ d, h1 = h2 + 1 + d := by
        refine Nat.exists_eq_add_of_le (Nat.lt_of_not_le fun h => ?_)
        have hstep := Nat.mul_le_mul_left (2 ^ w.bits) h
        omega
      have hd := add_mul_lt_iff d (show a.toNat + 2 ^ w.bits - b.toNat < 2 ^ w.bits by omega)
      rw [Nat.mul_add, Nat.mul_add] at hx
      omega
  · rw [hs]
    split_ifs with hab
    · obtain ⟨d, hd⟩ : ∃ d, 2 ^ (32 - w.bits) + h1 = h2 + 1 + d :=
        Nat.exists_eq_add_of_le (by omega)
      obtain ⟨e, rfl⟩ : ∃ e, h2 = h1 + 1 + e := by
        refine Nat.exists_eq_add_of_le (Nat.lt_of_not_le fun h => ?_)
        have hstep := Nat.mul_le_mul_left (2 ^ w.bits) h
        omega
      have hprod := congrArg (2 ^ w.bits * ·) hd
      simp only [Nat.mul_add, hall] at hprod hy
      omega
    · obtain ⟨d, hd⟩ : ∃ d, 2 ^ (32 - w.bits) + h1 = h2 + 1 + d :=
        Nat.exists_eq_add_of_le (by omega)
      have hle : h1 ≤ h2 := by
        refine Nat.le_of_not_lt fun h => ?_
        have hstep := mul_two_pow_add_le (w := w) h
        omega
      have hlow := add_mul_lt_iff d (show a.toNat + 2 ^ w.bits - b.toNat < 2 ^ w.bits by omega)
      have hprod := congrArg (2 ^ w.bits * ·) hd
      simp only [Nat.mul_add, hall] at hprod
      omega

end Above

end Flags

/-! ## The subtraction of a word -/

section Subtract

variable {w : Width} {insn : CsInsn} {s : Machine} {y b : BitVec 32}

/-- The state after `y` is subtracted from the first operand, in memory from 32 bits of it. -/
def Machine.subtract (s : Machine) (insn : CsInsn) (w : Width) (y : BitVec 32) : Machine :=
  ((s.advance insn).poke (if insn.op1.type = .mem then .dword else w) (s.opPtr insn.op1)
    (insn.op1.wide w s - y)).withArith (insn.op1.wide w s < y) (insn.op1.wide w s) y
    (insn.op1.subResult w s y) (w.size * 8)

theorem testFlag_subtract (f : Flag) : (s.subtract insn w y).testFlag f =
    match f with
    | .CF => decide (insn.op1.wide w s < y)
    | .OF => overflow (insn.op1.wide w s) y (insn.op1.subResult w s y) (w.size * 8)
    | .SF => sign (insn.op1.subResult w s y) (w.size * 8)
    | .ZF => zero (insn.op1.subResult w s y)
    | .AF => adjust (insn.op1.wide w s) y (insn.op1.subResult w s y)
    | .PF => parity (insn.op1.subResult w s y)
    | f => ((s.advance insn).poke (if insn.op1.type = .mem then .dword else w) (s.opPtr insn.op1)
        (insn.op1.wide w s - y)).testFlag f :=
  Machine.testFlag_withArith _ _ _ _ _ _ f

section Low

variable (hy : low w.bits y = b)
include hy

theorem low_wide_sub_of_low :
    low w.bits (insn.op1.wide w s - y) = low w.bits (insn.op1.value w s - b) := by
  rw [← low_wide insn.op1, ← hy, low_sub_low w.bits_le, low_low_sub w.bits_le]

theorem subtract_value (h1 : insn.op1.IsLoc w) :
    (s.subtract insn w y).peek w (s.opPtr insn.op1) = low w.bits (insn.op1.value w s - b) := by
  have := h1.safe s
  rw [← low_wide_sub_of_low hy]
  unfold Machine.subtract
  rw [(Machine.sameData_withArith _ _ _ _ _ _).peek]
  split_ifs with ht
  · rw [Machine.opPtr_of_mem ht]
    change readLE (writeLE _ _ 4 _) _ w.bytes = _
    rw [← low_readLE_of_le _ (show w.bytes ≤ 4 by cases w <;> decide), readLE_writeLE]
    exact congrArg _ (low_of_le (le_refl 32) _)
  · rw [Machine.peek_poke _ _ (h1.valid s)]

theorem low_subResult :
    low w.bits (insn.op1.subResult w s y) = low w.bits (insn.op1.value w s - b) := by
  unfold CsX86Op.subResult
  split_ifs with ht
  · exact low_wide_sub_of_low hy
  · rw [low_low, ← hy, low_sub_low w.bits_le]

theorem subtract_of : (s.subtract insn w y).testFlag .OF =
    overflow (insn.op1.value w s) b (low w.bits (insn.op1.value w s - b)) (w.size * 8) := by
  refine (testFlag_subtract .OF).trans (overflow_congr ?_ ?_ ?_)
  · rw [low_wide, CsX86Op.IsLoc.low_value]
  · rw [← hy, low_low]
  · rw [low_subResult hy, low_low]

theorem subtract_af : (s.subtract insn w y).testFlag .AF =
    adjust (insn.op1.value w s) b (low w.bits (insn.op1.value w s - b)) := by
  refine (testFlag_subtract .AF).trans (@adjust_congr w _ _ _ _ _ _ ?_ ?_ ?_)
  · rw [low_wide, CsX86Op.IsLoc.low_value]
  · rw [← hy, low_low]
  · rw [low_subResult hy, low_low]

end Low

/-- A result that is wider than the operands shows where it is not negative. -/
theorem showsResult_wide_iff {a d : BitVec 32} {t : Machine}
    (hs : t.testFlag .SF = sign d (w.size * 8)) (hz : t.testFlag .ZF = zero d)
    (hp : t.testFlag .PF = parity d)
    (hsign : 2 ^ (w.bits - 1) ≤ a.toNat ↔ 2 ^ (w.bits - 1) ≤ (low w.bits d).toNat) :
    ShowsResult w t (low w.bits d).toNat ↔ 2 ^ (w.bits - 1) ≤ a.toNat ∨ d.toNat < 2 ^ w.bits := by
  obtain ⟨hhalf, hpos, -⟩ := w.two_pow_bits
  have hparity : parity d = parity (low w.bits d) := parity_congr (low_low _ _).symm
  have hle := Nat.mod_le d.toNat (2 ^ w.bits)
  rw [hsign]
  rw [sign_eq] at hs
  constructor
  · rintro ⟨hsf, -, -⟩
    rw [hs, decide_eq_true_iff] at hsf
    rw [toNat_low] at hsf ⊢
    omega
  · intro h
    constructor
    · rw [hs, decide_eq_true_iff]
      rw [toNat_low] at h ⊢
      rcases h with h | h
      · omega
      · rw [Nat.mod_eq_of_lt h]
    · rw [hz, zero_iff]
      rw [toNat_low] at h ⊢
      rcases h with h | h
      · omega
      · rw [Nat.mod_eq_of_lt h]
    · rw [hp, hparity, parity_iff]

variable {k : ℕ} (h1 : insn.op1.IsLoc w) (hb : b.toNat < 2 ^ w.bits)
  (hy : y.toNat = b.toNat + 2 ^ w.bits * k)

include hb hy in
theorem low_of_above : low w.bits y = b := by
  apply BitVec.eq_of_toNat_eq
  rw [toNat_low, hy, Nat.add_mul_mod_self_left, Nat.mod_eq_of_lt hb]

include h1 hb hy

theorem subtract_cf_iff : ((s.subtract insn w y).testFlag .CF = true ↔
      (insn.op1.value w s).toNat < b.toNat + 0) ↔
    CarryAbove (insn.op1.value w s).toNat b.toNat (insn.op1.above w s) k := by
  rw [testFlag_subtract, decide_eq_true_iff, Nat.add_zero, ← BitVec.lt_def]
  exact carryAbove_iff (CsX86Op.IsLoc.value_lt _ _ _) hb h1.toNat_wide hy

theorem subtract_shows_iff (hsign : 2 ^ (w.bits - 1) ≤ (insn.op1.value w s).toNat ↔
      2 ^ (w.bits - 1) ≤ (low w.bits (insn.op1.value w s - b)).toNat) :
    ShowsResult w (s.subtract insn w y) (low w.bits (insn.op1.value w s - b)).toNat ↔
    insn.op1.type = .reg ∨ 2 ^ (w.bits - 1) ≤ (insn.op1.value w s).toNat ∨
      NothingAbove w (insn.op1.value w s).toNat b.toNat (insn.op1.above w s) k := by
  have hlow := low_of_above hb hy
  have hflag (f : Flag) := @testFlag_subtract w insn s y f
  rcases h1.cases with ⟨ht, -⟩ | ⟨ht, -⟩
  · -- a register: the result is already cut to the width
    have hres : insn.op1.subResult w s y = low w.bits (insn.op1.value w s - b) := by
      rw [← low_subResult hlow, CsX86Op.subResult_of_reg ht, low_low]
    rw [hres] at hflag
    exact iff_of_true (showsResult_of (hflag .SF) (hflag .ZF) (hflag .PF)) (.inl ht)
  · have hne : insn.op1.type ≠ .reg := by simp [ht]
    rw [CsX86Op.subResult_of_mem ht] at hflag
    rw [← low_wide_sub_of_low hlow] at hsign ⊢
    rw [showsResult_wide_iff (hflag .SF) (hflag .ZF) (hflag .PF) hsign,
      nothingAbove_iff (CsX86Op.IsLoc.value_lt _ _ _) hb h1.toNat_wide hy]
    simp [hne]

omit h1 hb hy in
theorem low_sub_sub_zero (a : BitVec 32) : low w.bits (a - b - 0) = low w.bits (a - b) :=
  congrArg _ (BitVec.sub_zero _)

theorem toNat_subtract : (((s.subtract insn w y).peek w (s.opPtr insn.op1)).toNat : ℤ) =
    ((insn.op1.value w s).toNat - b.toNat) % 2 ^ w.bits := by
  have h := low_sub_value (b := b) (CsX86Op.IsLoc.value_lt insn.op1 w s) (k := 0) (c := 0) rfl
  rw [low_sub_sub_zero, ← subtract_value (low_of_above hb hy) h1, Nat.cast_zero, sub_zero] at h
  exact h

omit h1 in
theorem subtract_af_iff : (s.subtract insn w y).testFlag .AF = true ↔
    (insn.op1.value w s).toNat % 16 < b.toNat % 16 := by
  have h := adjust_low_sub_iff (b := b) (CsX86Op.IsLoc.value_lt insn.op1 w s) (k := 0) (c := 0) rfl
    (Nat.zero_le 1)
  rwa [low_sub_sub_zero, ← subtract_af (low_of_above hb hy), Nat.add_zero] at h

/-- `OF`, `SF`, `ZF` and `PF` are right where the difference keeps the sign of the minuend and the
bytes above leave its sign and zero alone. -/
theorem subtract_flags_iff :
    (((s.subtract insn w y).testFlag .OF = true ↔ ¬ InRange (2 ^ (w.bits - 1))
        (w.signed (insn.op1.value w s) - w.signed b)) ∧
      ShowsResult w (s.subtract insn w y)
        ((s.subtract insn w y).peek w (s.opPtr insn.op1)).toNat) ↔
    KeepsSign (2 ^ (w.bits - 1)) (w.signed (insn.op1.value w s)) (w.signed b) ∧
    (insn.op1.type = .reg ∨ 2 ^ (w.bits - 1) ≤ (insn.op1.value w s).toNat ∨
      NothingAbove w (insn.op1.value w s).toNat b.toNat (insn.op1.above w s) k) := by
  have ha := CsX86Op.IsLoc.value_lt insn.op1 w s
  have hlow := low_of_above hb hy
  have hof := overflow_low_sub_iff ha (k := 0) (c := 0) rfl hb (Nat.zero_le 1)
  have hsign := keepsSign_iff ha (k := 0) (c := 0) rfl hb (Nat.zero_le 1)
  rw [low_sub_sub_zero, ← subtract_of hlow, Nat.cast_zero, sub_zero, add_zero] at hof
  rw [low_sub_sub_zero, Nat.cast_zero, add_zero] at hsign
  rw [hof, subtract_value hlow h1, and_congr_right_iff]
  exact fun hk => subtract_shows_iff h1 hb hy (hsign.1 hk)

end Subtract

/-! ## `SUB` -/

section Sub

variable {w : Width} {insn : CsInsn} {s : Machine}

theorem sub_eq_subtract : s.sub insn w = s.subtract insn w (insn.op2.wide w s) := rfl

/-- `SUB` leaves the difference and its flags exactly where the difference keeps the sign of the
minuend and the bytes above memory operands leave the carry and the result's sign and zero alone. -/
theorem subI_isDifference_iff {a b : BitVec 32} (h : Holds w a b insn s) :
    (∃ t, (subI insn).run s = .ok (some 0, t) ∧ IsDifference w a b 0 (s.opPtr insn.op1) t) ↔
    KeepsSign (2 ^ (w.bits - 1)) (w.signed a) (w.signed b) ∧
    CarryAbove a.toNat b.toNat (insn.op1.above w s) (insn.op2.above w s) ∧
    (insn.op1.type = .reg ∨ 2 ^ (w.bits - 1) ≤ a.toNat ∨
      NothingAbove w a.toNat b.toNat (insn.op1.above w s) (insn.op2.above w s)) := by
  obtain ⟨-, hb⟩ := h.lt
  obtain ⟨h1, h2, rfl, rfl⟩ := h
  have hy := @CsX86Op.IsLoc.toNat_wide _ w s h2
  have hflags := @subtract_flags_iff w insn s _ _ _ h1 hb hy
  rw [subI_run h1 h2, sub_eq_subtract, exists_ok_iff, ← subtract_cf_iff h1 hb hy]
  constructor
  · rintro ⟨-, hcf, hof, -, hshows⟩
    rw [Nat.cast_zero, sub_zero] at hof
    obtain ⟨hk, hs⟩ := hflags.1 ⟨hof, hshows⟩
    exact ⟨hk, hcf, hs⟩
  · rintro ⟨hk, hcf, hs⟩
    obtain ⟨hof, hshows⟩ := hflags.2 ⟨hk, hs⟩
    refine ⟨?_, hcf, ?_, subtract_af_iff hb hy, hshows⟩
    · rw [toNat_subtract h1 hb hy, Nat.cast_zero, sub_zero]
    · rw [Nat.cast_zero, sub_zero]
      exact hof

end Sub

def subAlBl : CsInsn := .bare "sub" 2 [⟨.reg .al, 1⟩, ⟨.reg .bl, 1⟩]

/-- `3 - 1`. -/
theorem subI_isDifference_three : ∃ t, (subI subAlBl).run (twice 3 1) = .ok (some 0, t) ∧
    IsDifference .byte 3 1 0 (.var .eax) t :=
  (@subI_isDifference_iff .byte subAlBl (twice 3 1) 3 1
    ⟨by decide, by decide, by decide, by decide⟩).2
    ⟨by decide, by unfold CarryAbove; decide, .inl rfl⟩

/-- `0 - 1` sets `OF`. -/
theorem subI_not_isDifference : ¬ ∀ (w : Width) (a b : BitVec 32) (insn : CsInsn) (s : Machine),
    Holds w a b insn s → ∃ t, (subI insn).run s = .ok (some 0, t) ∧
      IsDifference w a b 0 (s.opPtr insn.op1) t := by
  intro hall
  have h : Holds .byte 0 1 subAlBl (twice 0 1) := ⟨by decide, by decide, by decide, by decide⟩
  obtain ⟨t, hrun, hdiff⟩ := hall .byte 0 1 subAlBl (twice 0 1) h
  rw [subI_run h.loc1 h.loc2] at hrun
  cases hrun
  have hof : ((twice 0 1).sub subAlBl .byte).testFlag .OF = true := by decide
  exact absurd (hdiff.of.1 hof) (by decide)

/-! ## `SBB` -/

section Sbb

variable {w : Width} {insn : CsInsn} {s : Machine}

/-- The state after `sbb_i`, `k` being the carry out that it leaves. -/
def Machine.sbb (s : Machine) (insn : CsInsn) (w : Width) (k : BitVec 32) : Machine :=
  ((s.advance insn).poke w (s.opPtr insn.op1)
    (insn.op1.value w s - insn.op2.value w s - s.carry)).withArith
    (insn.op1.value w s < insn.op2.value w s + s.carry) (insn.op1.value w s)
    (insn.op2.value w s + k)
    (low w.bits (insn.op1.value w s - insn.op2.value w s - s.carry)) (w.size * 8)

theorem sbbI_run (h1 : insn.op1.IsLoc w) (h2 : insn.op2.IsLoc w) :
    (sbbI insn).run s = .ok (some 0, s.sbb insn w
      (if insn.op1.value w s < insn.op2.value w s + s.carry then 1 else 0)) := by
  have hd := SameData.advance s insn
  have hrmw := @rmw_run (s.advance insn) w ((s.advance insn).opPtr insn.op1) (h1.valid _)
    (fun old => old - insn.op2.value w s - (s.advance insn).carry)
  have hcarry : (((s.advance insn).poke w (s.opPtr insn.op1)
      (insn.op1.value w s - insn.op2.value w s - s.carry)).assignFlag .CF
        (insn.op1.value w s < insn.op2.value w s + s.carry)).carry =
      if insn.op1.value w s < insn.op2.value w s + s.carry then 1 else 0 := by
    unfold Machine.carry
    rw [Machine.testFlag_assignFlag]
    simp
  unfold sbbI Machine.sbb
  rw [run_bind_ok (advance_run s insn), run_bind_ok run_get_ok,
    run_bind_ok (sbbSrc_operand h1.1 (.inl h2)), h2.operand_eq, h2.value_congr hd, h1.1,
    widthOr32_size, run_bind_ok hrmw, h1.opPtr_congr hd, h1.peek_eq hd, ← hcarry]
  rfl

section Carry

variable {a b r k : BitVec 32} {c : ℕ} (hk : k.toNat = c)
include hk

/-- `CF` is right unless the second operand and the carry make a whole turn. -/
theorem lt_add_carry_iff (hc : c ≤ 1) :
    (a < b + k ↔ a.toNat < b.toNat + c) ↔ b.toNat + c < 2 ^ 32 := by
  rw [BitVec.lt_def, BitVec.toNat_add, hk]
  omega

/-- The carry out moves `AF` where it carries across the low digit. -/
theorem adjust_add_carry_iff (hc : c ≤ 1) :
    (adjust a (b + k) r = true ↔ adjust a b r = true) ↔ c = 0 ∨ b.toNat % 16 ≠ 15 := by
  rw [adjust_iff, adjust_iff, BitVec.toNat_add, hk]
  omega

theorem overflow_add_carry (hc : c ≤ 1) (hb : b.toNat < 2 ^ w.bits)
    (h : c = 0 ∨ b.toNat % 16 ≠ 15) :
    overflow a (b + k) r (w.size * 8) = overflow a b r (w.size * 8) := by
  obtain ⟨hhalf, -, -⟩ := w.two_pow_bits
  have hdvd := w.dvd_two_pow_bits
  have hle := Nat.pow_le_pow_right Nat.two_pos w.bits_le
  have hadd : (b + k).toNat = b.toNat + c := by
    rw [BitVec.toNat_add, hk]
    exact Nat.mod_eq_of_lt (by omega)
  have hlt : (b + k).toNat < 2 ^ w.bits := by omega
  have htop : 2 ^ (w.bits - 1) ≤ (b + k).toNat ↔ 2 ^ (w.bits - 1) ≤ b.toNat := by omega
  rw [overflow_eq, overflow_eq, getLsbD_top hb, getLsbD_top hlt, decide_eq_decide.2 htop]

end Carry

theorem isDifference_sbb_iff {k : BitVec 32} {c : ℕ} (hk : k.toNat = c) (hc : c ≤ 1)
    (h1 : insn.op1.IsLoc w) :
    IsDifference w (insn.op1.value w s) (insn.op2.value w s) (s.testFlag .CF).toNat
      (s.opPtr insn.op1) (s.sbb insn w k) ↔
    (insn.op2.value w s).toNat + (s.testFlag .CF).toNat < 2 ^ 32 ∧
    KeepsSign (2 ^ (w.bits - 1)) (w.signed (insn.op1.value w s))
      (w.signed (insn.op2.value w s) + (s.testFlag .CF).toNat) ∧
    (c = 0 ∨ (insn.op2.value w s).toNat % 16 ≠ 15) := by
  have hsafe := h1.safe s
  have ha := CsX86Op.IsLoc.value_lt insn.op1 w s
  have hb := CsX86Op.IsLoc.value_lt insn.op2 w s
  have hin : (s.testFlag .CF).toNat ≤ 1 := Bool.toNat_le _
  have hflag := ((s.advance insn).poke w (s.opPtr insn.op1)
    (insn.op1.value w s - insn.op2.value w s - s.carry)).testFlag_withArith
    (insn.op1.value w s < insn.op2.value w s + s.carry) (insn.op1.value w s)
    (insn.op2.value w s + k)
    (low w.bits (insn.op1.value w s - insn.op2.value w s - s.carry)) (w.size * 8)
  change ∀ f, (s.sbb insn w k).testFlag f = _ at hflag
  have hvalue : (s.sbb insn w k).peek w (s.opPtr insn.op1) =
      low w.bits (insn.op1.value w s - insn.op2.value w s - s.carry) := by
    unfold Machine.sbb
    rw [(Machine.sameData_withArith _ _ _ _ _ _).peek, Machine.peek_poke _ _ (h1.valid s)]
  have hcf := @lt_add_carry_iff (insn.op1.value w s) (insn.op2.value w s) _ _ s.toNat_carry hin
  have hof := overflow_low_sub_iff ha s.toNat_carry hb hin
  have haf := @adjust_low_sub_iff w _ (insn.op2.value w s) _ _ ha s.toNat_carry hin
  have hadd := @adjust_add_carry_iff (insn.op1.value w s) (insn.op2.value w s)
    (low w.bits (insn.op1.value w s - insn.op2.value w s - s.carry)) _ _ hk hc
  have hover := @overflow_add_carry w (insn.op1.value w s) (insn.op2.value w s)
    (low w.bits (insn.op1.value w s - insn.op2.value w s - s.carry)) _ _ hk hc hb
  constructor
  · rintro ⟨-, hcfs, hofs, hafs, -⟩
    rw [hflag, decide_eq_true_iff] at hcfs
    rw [hflag] at hofs hafs
    have hdigit := hadd.1 (hafs.trans haf.symm)
    rw [hover hdigit] at hofs
    exact ⟨hcf.1 hcfs, hof.1 hofs, hdigit⟩
  · rintro ⟨hlt, hkeep, hdigit⟩
    constructor
    · rw [hvalue, low_sub_value ha s.toNat_carry]
    · rw [hflag, decide_eq_true_iff]
      exact hcf.2 hlt
    · rw [hflag, hover hdigit]
      exact hof.2 hkeep
    · rw [hflag]
      exact (hadd.2 hdigit).trans haf
    · rw [hvalue]
      exact showsResult_of (hflag .SF) (hflag .ZF) (hflag .PF)

/-- `SBB` leaves the difference and its flags exactly where the second operand and the carry stay
below `2^32`, the difference keeps the sign of the minuend, and the carry out that is added to the
second operand for `AF` does not cross its low digit. -/
theorem sbbI_isDifference_iff {a b : BitVec 32} (h : Holds w a b insn s) :
    (∃ t, (sbbI insn).run s = .ok (some 0, t) ∧
      IsDifference w a b (s.testFlag .CF).toNat (s.opPtr insn.op1) t) ↔
    b.toNat + (s.testFlag .CF).toNat < 2 ^ 32 ∧
    KeepsSign (2 ^ (w.bits - 1)) (w.signed a) (w.signed b + (s.testFlag .CF).toNat) ∧
    (b.toNat + (s.testFlag .CF).toNat ≤ a.toNat ∨ b.toNat % 16 ≠ 15) := by
  obtain ⟨h1, h2, rfl, rfl⟩ := h
  have hin : (s.testFlag .CF).toNat ≤ 1 := Bool.toNat_le _
  have hout : (if insn.op1.value w s < insn.op2.value w s + s.carry then 1 else 0 :
      BitVec 32).toNat = if insn.op1.value w s < insn.op2.value w s + s.carry then 1 else 0 := by
    split <;> rfl
  have hle : (if insn.op1.value w s < insn.op2.value w s + s.carry then 1 else 0) ≤ 1 := by
    split <;> decide
  rw [sbbI_run h1 h2, exists_ok_iff, isDifference_sbb_iff hout hle h1]
  refine and_congr_right fun hlt => and_congr_right fun _ => or_congr_left ?_
  have hcf := (lt_add_carry_iff (a := insn.op1.value w s) s.toNat_carry hin).2 hlt
  rw [ite_eq_right_iff, hcf]
  omega

end Sbb

def sbbAlBl : CsInsn := .bare "sbb" 2 [⟨.reg .al, 1⟩, ⟨.reg .bl, 1⟩]

/-- `3 - 1` with no carry in. -/
theorem sbbI_isDifference_three : ∃ t, (sbbI sbbAlBl).run (twice 3 1) = .ok (some 0, t) ∧
    IsDifference .byte 3 1 0 (.var .eax) t :=
  (@sbbI_isDifference_iff .byte sbbAlBl (twice 3 1) 3 1
    ⟨by decide, by decide, by decide, by decide⟩).2 ⟨by decide, by decide, .inl (by decide)⟩

/-- `0 - 1` sets `OF`. -/
theorem sbbI_not_isDifference : ¬ ∀ (w : Width) (a b : BitVec 32) (insn : CsInsn) (s : Machine),
    Holds w a b insn s → ∃ t, (sbbI insn).run s = .ok (some 0, t) ∧
      IsDifference w a b (s.testFlag .CF).toNat (s.opPtr insn.op1) t := by
  intro hall
  have h : Holds .byte 0 1 sbbAlBl (twice 0 1) := ⟨by decide, by decide, by decide, by decide⟩
  obtain ⟨t, hrun, hdiff⟩ := hall .byte 0 1 sbbAlBl (twice 0 1) h
  rw [sbbI_run h.loc1 h.loc2] at hrun
  cases hrun
  have hof : ((twice 0 1).sbb sbbAlBl .byte 1).testFlag .OF = true := by decide
  exact absurd (hdiff.of.1 hof) (by decide)

end I386Vm
