import I386Vm.Proofs.Encoding
import I386Vm.Proofs.Increments

/-!
# Where the flags of the handlers are those of the i386

For each operation, flag by flag, the operands on which what the handler computes is what the i386
leaves. `SF`, `ZF`, `PF` and `AF` are right but for the borrow that `cmp_i` leaves in a narrow
difference and the carry that `sbb_i` adds again; `OF` of a difference is right where the difference
keeps the sign of the minuend; `CF` is right but for two whole turns.
-/

namespace I386Vm

open Bytes TwosComplement

variable {w : Width} {a b r : BitVec 32} {old : Flag → Bool}

theorem ofResult_over_iff {cf cf' of of' af af' : Bool} (f : Flag) :
    (Status.ofResult w r cf of af).over old f = (Status.ofResult w r cf' of' af').over old f ↔
      match f with
      | .CF => cf = cf'
      | .OF => of = of'
      | .AF => af = af'
      | _ => True := by
  cases f with
  | CF => exact Iff.rfl
  | OF => exact Iff.rfl
  | AF => exact Iff.rfl
  | _ => exact iff_of_true rfl trivial

theorem Status.computed_eq (w : Width) (cf : Bool) (a b r : BitVec 32) :
    Status.computed w cf a b r =
      .ofResult w r cf (overflow a b r (w.size * 8)) (adjust a b r) := by
  rw [ofResult_eq]
  rfl

/-- Of the same result the handlers compute `SF`, `ZF` and `PF` as the i386 does. -/
theorem computed_over_iff {cf cf' of' af' : Bool} (f : Flag) :
    (Status.computed w cf a b r).over old f = (Status.ofResult w r cf' of' af').over old f ↔
      match f with
      | .CF => cf = cf'
      | .OF => overflow a b r (w.size * 8) = of'
      | .AF => adjust a b r = af'
      | _ => True := by
  rw [Status.computed_eq]
  exact ofResult_over_iff f

theorem decide_eq_iff {p q : Prop} [Decidable p] [Decidable q] :
    decide p = decide q ↔ (p ↔ q) := by
  rw [Bool.eq_iff_iff, decide_eq_true_iff, decide_eq_true_iff]

theorem eq_decide_iff {x : Bool} {q : Prop} [Decidable q] : x = decide q ↔ (x = true ↔ q) := by
  rw [Bool.eq_iff_iff, decide_eq_true_iff]

section Sum

variable {k : ℕ} (ha : a.toNat < 2 ^ w.bits) (hb : b.toNat < 2 ^ w.bits) (hk : k ≤ 1)
include ha hb hk

theorem sum_over_iff (f : Flag) :
    (Status.computed w (Alu.sum w a b k < a) a b (Alu.sum w a b k)).over old f =
        (Alu.sumStatus w a b k).over old f ↔
      (f = .CF → ¬ (k = 1 ∧ b.toNat = 2 ^ w.bits - 1)) := by
  have hkn : (BitVec.ofNat 32 k).toNat = k := Nat.mod_eq_of_lt (by omega)
  have hof := overflow_low_add_iff ha hb hkn hk
  have haf := @adjust_low_add_iff w a b _ k hkn hk
  unfold Alu.sumStatus
  rw [computed_over_iff]
  cases f with
  | CF =>
    rw [forall_prop_of_true rfl]
    refine decide_eq_iff.trans ⟨?_, fun h => low_add_lt_iff ha hkn h hb hk⟩
    · rintro h ⟨hone, hones⟩
      have hsum : Alu.sum w a b k = a := low_add_ones ha hkn hone hones
      rw [hsum] at h
      exact absurd (h.2 (by omega)) (BitVec.lt_irrefl a)
  | OF => exact iff_of_true (eq_decide_iff.2 hof) nofun
  | AF => exact iff_of_true (eq_decide_iff.2 haf) nofun
  | _ => exact iff_of_true trivial nofun

end Sum

/-- One more flips the top bit at the end of a half. -/
theorem getLsbD_top_add {k : BitVec 32} {c : ℕ} (hk : k.toNat = c) (hc : c ≤ 1)
    (hb : b.toNat < 2 ^ w.bits) : (b + k).getLsbD (w.bits - 1) =
      (decide (2 ^ (w.bits - 1) ≤ b.toNat) ^^
        decide (c = 1 ∧ (b.toNat + 1 = 2 ^ (w.bits - 1) ∨ b.toNat + 1 = 2 ^ w.bits))) := by
  have hxor (p q : Prop) [Decidable p] [Decidable q] :
      (decide p ^^ decide q) = decide (¬ (p ↔ q)) := by
    by_cases p <;> by_cases q <;> simp_all
  rw [getLsbD_eq_div, BitVec.toNat_add, hk, hxor, decide_eq_iff]
  cases w <;> norm_num [Width.bits, Width.bytes] at hb ⊢ <;> omega

section Difference

variable {k : ℕ} (ha : a.toNat < 2 ^ w.bits) (hb : b.toNat < 2 ^ w.bits) (hk : k ≤ 1)
include ha hb hk

/-- With a carry out `k'` added to the subtrahend where `OF` and `AF` are computed. -/
theorem difference_over_iff {cf : Bool} {k' : BitVec 32} {c : ℕ} (hk' : k'.toNat = c) (hc : c ≤ 1)
    (f : Flag) : (Status.computed w cf a (b + k') (Alu.difference w a b k)).over old f =
        (Alu.differenceStatus w a b k).over old f ↔
      (f = .CF → (cf = true ↔ a.toNat < b.toNat + k)) ∧
        (f = .OF → KeepsSign (2 ^ (w.bits - 1)) (w.signed a) (w.signed b + k) ∨
          (c = 1 ∧ (b.toNat + 1 = 2 ^ (w.bits - 1) ∨ b.toNat + 1 = 2 ^ w.bits))) ∧
        (f = .AF → c = 0 ∨ b.toNat % 16 ≠ 15) := by
  have hkn : (BitVec.ofNat 32 k).toNat = k := Nat.mod_eq_of_lt (by omega)
  have hr : (Alu.difference w a b k).toNat < 2 ^ w.bits := toNat_low_lt _ _
  have hrange := @not_inRange_low_sub_iff w a b _ k ha hkn hb hk
  have hkeep := @keepsSign_iff w a b _ k ha hkn hb hk
  have hlow := @adjust_low_sub_iff w a b _ k ha hkn hk
  have hof : overflow a (b + k') (Alu.difference w a b k) (w.size * 8) =
      decide (¬ InRange (2 ^ (w.bits - 1)) (w.signed a - w.signed b - k)) ↔
      KeepsSign (2 ^ (w.bits - 1)) (w.signed a) (w.signed b + k) ∨
        (c = 1 ∧ (b.toNat + 1 = 2 ^ (w.bits - 1) ∨ b.toNat + 1 = 2 ^ w.bits)) := by
    change _ ↔ ¬ (_ ↔ _) ∧ ¬ (_ ↔ 2 ^ (w.bits - 1) ≤ (Alu.difference w a b k).toNat) at hrange
    change _ ↔ (_ ↔ 2 ^ (w.bits - 1) ≤ (Alu.difference w a b k).toNat) at hkeep
    rw [eq_decide_iff, hrange, hkeep, overflow_eq, getLsbD_top ha, getLsbD_top hr,
      getLsbD_top_add hk' hc hb]
    by_cases hx : 2 ^ (w.bits - 1) ≤ a.toNat <;> by_cases hy : 2 ^ (w.bits - 1) ≤ b.toNat <;>
      by_cases ht : c = 1 ∧ (b.toNat + 1 = 2 ^ (w.bits - 1) ∨ b.toNat + 1 = 2 ^ w.bits) <;>
      simp [hx, hy, ht]
  have haf : adjust a (b + k') (Alu.difference w a b k) =
      decide (a.toNat % 16 < b.toNat % 16 + k) ↔ c = 0 ∨ b.toNat % 16 ≠ 15 := by
    rw [eq_decide_iff, ← hlow]
    exact adjust_add_carry_iff hk' hc
  unfold Alu.differenceStatus
  rw [computed_over_iff]
  cases f with
  | CF => simp only [eq_decide_iff, forall_const, reduceCtorEq, false_implies, and_true]
  | OF => simp only [hof, forall_const, reduceCtorEq, false_implies, and_true, true_and]
  | AF => simp only [haf, forall_const, reduceCtorEq, false_implies, true_and]
  | _ => simp

end Difference

/-- With no carry. -/
theorem difference_zero_over_iff {cf : Bool} (ha : a.toNat < 2 ^ w.bits) (hb : b.toNat < 2 ^ w.bits)
    (f : Flag) : (Status.computed w cf a b (Alu.difference w a b 0)).over old f =
        (Alu.differenceStatus w a b 0).over old f ↔
      (f = .CF → (cf = true ↔ a < b)) ∧
        (f = .OF → KeepsSign (2 ^ (w.bits - 1)) (w.signed a) (w.signed b)) := by
  have h := @difference_over_iff w a b old 0 ha hb (Nat.zero_le 1) cf 0 0 rfl (Nat.zero_le 1) f
  have hadd : b + 0 = b := BitVec.add_zero b
  rw [hadd, Nat.cast_zero, add_zero, add_zero, ← BitVec.lt_def] at h
  simpa using h

/-- The carry out that `sbb_i` leaves is that of a sum of 32 bits, and counts again in `OF` and
`AF`. -/
theorem sbb_over_iff {c : BitVec 32} {k : ℕ} (ha : a.toNat < 2 ^ w.bits)
    (hb : b.toNat < 2 ^ w.bits) (hc : c.toNat = k) (hk : k ≤ 1) (f : Flag) :
    (Status.computed w (a < b + c) a (b + if a < b + c then 1 else 0)
        (Alu.difference w a b k)).over old f = (Alu.differenceStatus w a b k).over old f ↔
      (f = .CF → b.toNat + k < 2 ^ 32) ∧
        (f = .OF → KeepsSign (2 ^ (w.bits - 1)) (w.signed a) (w.signed b + k) ∨
          (a.toNat < (b.toNat + k) % 2 ^ 32 ∧
            (b.toNat + 1 = 2 ^ (w.bits - 1) ∨ b.toNat + 1 = 2 ^ w.bits))) ∧
        (f = .AF → ¬ a.toNat < (b.toNat + k) % 2 ^ 32 ∨ b.toNat % 16 ≠ 15) := by
  have hlt : a < b + c ↔ a.toNat < (b.toNat + k) % 2 ^ 32 := by
    rw [BitVec.lt_def, BitVec.toNat_add, hc]
  have hcf : (a < b + c ↔ a.toNat < b.toNat + k) ↔ b.toNat + k < 2 ^ 32 :=
    lt_add_carry_iff hc hk
  rw [← hlt, ← hcf]
  by_cases h : a < b + c
  · rw [if_pos h, @difference_over_iff w a b old k ha hb hk _ 1 1 rfl (le_refl 1) f]
    simp [h]
  · rw [if_neg h, @difference_over_iff w a b old k ha hb hk _ 0 0 rfl (Nat.zero_le 1) f]
    simp [h]

/-- The difference that `cmp_i` keeps uncut has another sign where the borrow does not fit. -/
theorem uncut_over_iff {cf : Bool} (ha : a.toNat < 2 ^ w.bits) (hb : b.toNat < 2 ^ w.bits)
    (f : Flag) : (Status.computed w cf a b (a - b)).over old f =
        (Status.computed w cf a b (low w.bits (a - b))).over old f ↔
      (f = .SF → BorrowFits w a.toNat b.toNat) := by
  have hlow : low w.bits (a - b) = low w.bits (low w.bits (a - b)) := (low_low _ _).symm
  cases f with
  | SF =>
    rw [forall_prop_of_true rfl]
    exact sign_low_sub_iff ha hb
  | OF => exact iff_of_true (overflow_congr rfl rfl hlow) nofun
  | ZF => exact iff_of_true (zero_low_sub ha hb).symm nofun
  | AF => exact iff_of_true (adjust_congr rfl rfl hlow) nofun
  | PF => exact iff_of_true (parity_congr hlow) nofun
  | _ => exact iff_of_true rfl nofun

theorem cmp_over_iff (ha : a.toNat < 2 ^ w.bits) (hb : b.toNat < 2 ^ w.bits) (f : Flag) :
    (Status.computed w (a < b) a b (a - b)).over old f =
        (Alu.differenceStatus w a b 0).over old f ↔
      (f = .OF → KeepsSign (2 ^ (w.bits - 1)) (w.signed a) (w.signed b)) ∧
        (f = .SF → BorrowFits w a.toNat b.toNat) := by
  have hcut := @difference_zero_over_iff w a b old (a < b) ha hb f
  have hdiff : Alu.difference w a b 0 = low w.bits (a - b) :=
    congrArg (low w.bits) (BitVec.sub_zero _)
  rw [hdiff, and_iff_right fun _ => decide_eq_true_iff] at hcut
  by_cases hf : f = .SF
  · subst hf
    rw [← hcut.2 nofun, uncut_over_iff ha hb, and_iff_right (nofun : Flag.SF = .OF → _)]
  · rw [(uncut_over_iff ha hb f).2 fun h => absurd h hf, hcut,
      and_iff_left fun h => absurd h hf]

/-- `CF`, which `INC` and `DEC` should keep, is overwritten. -/
theorem keepCf_over_iff {st st' : Status} {x : Bool} (f : Flag) :
    st'.over old f = ({ st with cf := x } : Status).over old f ↔
      (f = .CF → st'.cf = x) ∧ (f ≠ .CF → st'.over old f = st.over old f) := by
  cases f <;> simp [Status.over]

theorem one_lt_two_pow (w : Width) : (1 : BitVec 32).toNat < 2 ^ w.bits :=
  Nat.one_lt_two_pow w.bits_pos.ne'

theorem inc_over_iff (ha : a.toNat < 2 ^ w.bits) (x : Bool) (f : Flag) :
    (Status.computed w (Alu.sum w a 1 0 < a) a 1 (Alu.sum w a 1 0)).over old f =
        ({ Alu.sumStatus w a 1 0 with cf := x } : Status).over old f ↔
      (f = .CF → (x = true ↔ a.toNat = 2 ^ w.bits - 1)) := by
  have hsum (g : Flag) := (@sum_over_iff w a 1 old 0 ha (one_lt_two_pow w) (Nat.zero_le 1) g).2
    fun _ h => Nat.zero_ne_one h.1
  have hcf : decide (Alu.sum w a 1 0 < a) = decide (2 ^ w.bits ≤ a.toNat + 1 + 0) := hsum .CF
  rw [keepCf_over_iff, and_iff_left fun _ => hsum f]
  refine imp_congr_right fun _ => ?_
  change decide _ = x ↔ _
  rw [hcf, eq_comm, eq_decide_iff]
  exact iff_congr Iff.rfl (by omega)

theorem dec_over_iff (ha : a.toNat < 2 ^ w.bits) (x : Bool) (f : Flag) :
    (Status.computed w (a < 1) a 1 (Alu.difference w a 1 0)).over old f =
        ({ Alu.differenceStatus w a 1 0 with cf := x } : Status).over old f ↔
      (f = .CF → (x = true ↔ a.toNat = 0)) ∧
        (f = .OF → a.toNat ≠ 0 ∧ a.toNat ≠ 2 ^ (w.bits - 1)) := by
  obtain ⟨hhalf, -, -⟩ := w.two_pow_bits
  have hdiff := @difference_zero_over_iff w a 1 old (a < 1) ha (one_lt_two_pow w) f
  have hlt : a < 1 ↔ a.toNat = 0 := Nat.lt_one_iff
  rw [and_iff_right fun _ => decide_eq_true_iff, w.signed_one, signed_eq_signed ha,
    keepsSign_one_iff (by omega)] at hdiff
  rw [keepCf_over_iff, hdiff]
  refine and_congr (imp_congr_right fun _ => ?_)
    ⟨fun h hf => h (by simp [hf]) hf, fun h _ => h⟩
  change decide _ = x ↔ _
  rw [eq_comm, eq_decide_iff, hlt]

end I386Vm
