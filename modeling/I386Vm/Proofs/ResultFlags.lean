import I386Vm.Lib.SignedWords
import I386Vm.Proofs.Adjust
import I386Vm.Proofs.Signed
import Mathlib.Algebra.Group.Even
import Mathlib.Algebra.Group.Nat.Even

/-!
# What the status flags say of a result

`SF`, `ZF` and `PF` describe the result of an operation; `CF`, `OF` and `AF` say where a sum or a
difference with a carry in left the range of the unsigned numbers, of the signed numbers and of the
low digit.
-/

namespace I386Vm

open Bytes Prog TwosComplement

/-- The two states differ in nothing but the flags of `fs`. -/
structure SameBut (fs : List Flag) (s t : Machine) : Prop where
  state : t = { s with eflags := t.eflags }
  bits : ∀ i, (∀ f ∈ fs, f.bit ≠ i) → t.eflags.getLsbD i = s.eflags.getLsbD i

namespace SameBut

variable {fs : List Flag} {s t u : Machine}

@[simp] theorem refl (s : Machine) : SameBut fs s s := ⟨rfl, fun _ _ => rfl⟩

theorem symm (h : SameBut fs s t) : SameBut fs t s := by
  refine ⟨?_, fun i hi => (h.bits i hi).symm⟩
  rw [h.state]

theorem trans (h : SameBut fs s t) (g : SameBut fs t u) : SameBut fs s u := by
  refine ⟨?_, fun i hi => (g.bits i hi).trans (h.bits i hi)⟩
  rw [g.state, h.state]

theorem assignFlag (s : Machine) {f : Flag} (hf : f ∈ fs) (c : Bool) :
    SameBut fs s (s.assignFlag f c) := by
  unfold Machine.assignFlag
  constructor
  · split <;> rfl
  · intro i hi
    have hne : f.bit ≠ i := hi f hf
    have hbit : f.mask.getLsbD i = false := by
      rw [f.mask_eq_twoPow, BitVec.getLsbD_twoPow]
      simp [hne]
    split
    · simp [Machine.setFlag, hbit]
    · by_cases hlt : i < 32
      · rw [BitVec.getLsbD_eq_getElem hlt] at hbit
        simp [Machine.clearFlag, hlt, hbit]
      · rw [BitVec.getLsbD_of_ge _ _ (by omega), BitVec.getLsbD_of_ge _ _ (by omega)]

@[simp] theorem assignFlag_iff {f : Flag} {c : Bool} (hf : f ∈ fs) :
    SameBut fs s (t.assignFlag f c) ↔ SameBut fs s t :=
  ⟨fun h => h.trans (assignFlag t hf c).symm, fun h => h.trans (assignFlag t hf c)⟩

theorem sameData (h : SameBut fs s t) : SameData s t := by
  rw [h.state]
  exact ⟨rfl, rfl, rfl, rfl⟩

end SameBut

/-- The flags that describe the result of an operation. -/
def statusFlags : List Flag := [.CF, .OF, .SF, .ZF, .AF, .PF]

namespace Machine

variable (s : Machine)

theorem sameBut_withArith (c : Bool) (val1 val2 res : BitVec 32) (base : BitVec 8) :
    SameBut statusFlags s (s.withArith c val1 val2 res base) := by
  simp [withArith, statusFlags]

/-- The state after `logicFlags`. -/
def withLogic (res : BitVec 32) (base : BitVec 8) : Machine :=
  ((((s.assignFlag .SF (sign res base)).assignFlag .ZF (zero res)).assignFlag .PF
    (parity res)).assignFlag .CF false).assignFlag .OF false

variable (res : BitVec 32) (base : BitVec 8)

theorem testFlag_withLogic (f : Flag) :
    (s.withLogic res base).testFlag f =
      match f with
      | .CF => false
      | .OF => false
      | .SF => sign res base
      | .ZF => zero res
      | .PF => parity res
      | f => s.testFlag f := by
  unfold withLogic
  simp only [testFlag_assignFlag]
  cases f <;> rfl

theorem sameBut_withLogic : SameBut statusFlags s (s.withLogic res base) := by
  simp [withLogic, statusFlags]

end Machine

theorem logicFlags_run (s : Machine) (res : BitVec 32) (base : BitVec 8) :
    (logicFlags res base).run s = .ok ((), s.withLogic res base) := rfl

/-- The number of ones in the low byte is even. -/
def EvenParity (r : ℕ) : Prop := Even ((List.range 8).countP fun i => r.testBit i)

instance (r : ℕ) : Decidable (EvenParity r) := inferInstanceAs (Decidable (Even _))

theorem parity_iff (v : BitVec 32) : parity v = true ↔ EvenParity v.toNat := by
  have hbits : ((List.range 8).filter fun i => (v.setWidth 8).getLsbD i) =
      (List.range 8).filter fun i => v.toNat.testBit i := by
    refine List.filter_congr fun i hi => ?_
    rw [BitVec.getLsbD_setWidth, decide_eq_true (List.mem_range.1 hi), Bool.true_and]
    rfl
  unfold parity EvenParity
  rw [hbits, ← List.countP_eq_length_filter, decide_eq_true_iff, Nat.even_iff]

/-- `SF`, `ZF` and `PF` of a result of the width. -/
structure ShowsResult (w : Width) (t : Machine) (r : ℕ) : Prop where
  sf : t.testFlag .SF ↔ 2 ^ (w.bits - 1) ≤ r
  zf : t.testFlag .ZF ↔ r = 0
  pf : t.testFlag .PF ↔ EvenParity r

theorem zero_iff (v : BitVec 32) : zero v = true ↔ v.toNat = 0 := by
  unfold zero
  rw [decide_eq_true_iff, ← BitVec.toNat_inj]
  rfl

theorem showsResult_of {w : Width} {t : Machine} {r : BitVec 32}
    (hs : t.testFlag .SF = sign r (w.size * 8)) (hz : t.testFlag .ZF = zero r)
    (hp : t.testFlag .PF = parity r) : ShowsResult w t r.toNat where
  sf := by rw [hs, sign_eq, decide_eq_true_iff]
  zf := by rw [hz, zero_iff]
  pf := by rw [hp, parity_iff]

/-- What the flags say of one result is true of another where the two have the same sign, zero and
parity. -/
theorem showsResult_iff {w : Width} {t : Machine} {x : BitVec 32} {base : BitVec 8} {r : ℕ}
    (hs : t.testFlag .SF = sign x base) (hz : t.testFlag .ZF = zero x)
    (hp : t.testFlag .PF = parity x) : ShowsResult w t r ↔
      (2 ^ (base.toNat - 1) ≤ x.toNat ↔ 2 ^ (w.bits - 1) ≤ r) ∧ (x.toNat = 0 ↔ r = 0) ∧
        (EvenParity x.toNat ↔ EvenParity r) := by
  rw [← parity_iff, ← zero_iff, ← decide_eq_true_iff (p := 2 ^ (base.toNat - 1) ≤ x.toNat),
    ← sign_eq_le, ← hs, ← hz, ← hp]
  exact ⟨fun ⟨hsf, hzf, hpf⟩ => ⟨hsf, hzf, hpf⟩, fun ⟨hsf, hzf, hpf⟩ => ⟨hsf, hzf, hpf⟩⟩

theorem showsResult_withLogic_iff {w : Width} (s : Machine) {x : BitVec 32} {base : BitVec 8}
    {r : ℕ} : ShowsResult w (s.withLogic x base) r ↔
      (2 ^ (base.toNat - 1) ≤ x.toNat ↔ 2 ^ (w.bits - 1) ≤ r) ∧ (x.toNat = 0 ↔ r = 0) ∧
        (EvenParity x.toNat ↔ EvenParity r) :=
  showsResult_iff (s.testFlag_withLogic x base .SF) (s.testFlag_withLogic x base .ZF)
    (s.testFlag_withLogic x base .PF)

section Bits

variable {w : Width} {a b r : BitVec 32}

theorem getLsbD_top (ha : a.toNat < 2 ^ w.bits) :
    a.getLsbD (w.bits - 1) = decide (2 ^ (w.bits - 1) ≤ a.toNat) := by
  obtain ⟨hhalf, hpos, -⟩ := w.two_pow_bits
  rw [getLsbD_eq_div, decide_eq_decide]
  rcases Nat.lt_or_ge a.toNat (2 ^ (w.bits - 1)) with hlt | hge
  · rw [Nat.div_eq_of_lt hlt]
    omega
  · rw [Nat.div_eq_of_lt_le (k := 1) (by omega) (by omega)]
    omega

/-- The operands are in one half and the result is in the other. -/
theorem overflow_iff (ha : a.toNat < 2 ^ w.bits) (hb : b.toNat < 2 ^ w.bits)
    (hr : r.toNat < 2 ^ w.bits) : overflow a b r (w.size * 8) = true ↔
      ¬ (2 ^ (w.bits - 1) ≤ a.toNat ↔ 2 ^ (w.bits - 1) ≤ r.toNat) ∧
      ¬ (2 ^ (w.bits - 1) ≤ b.toNat ↔ 2 ^ (w.bits - 1) ≤ r.toNat) := by
  rw [overflow_eq, getLsbD_top ha, getLsbD_top hb, getLsbD_top hr]
  simp

theorem signed_eq_signed (ha : a.toNat < 2 ^ w.bits) :
    w.signed a = signed (2 ^ (w.bits - 1)) a.toNat := by
  obtain ⟨hhalf, -, -⟩ := w.two_pow_bits
  have hcast : ((2 ^ w.bits : ℕ) : ℤ) = 2 ^ w.bits := by
    push_cast
    rfl
  rw [w.signed_eq ha]
  unfold signed
  split_ifs <;> omega

theorem inRange_signed (v : BitVec 32) : InRange (2 ^ (w.bits - 1)) (w.signed v) :=
  inRange_toInt w.bits_pos _

/-- A number that fits the width is what its stored word stands for. -/
theorem signed_low_setWidth {n : ℕ} (hn : w.bits ≤ n) {q : BitVec n}
    (hq : InRange (2 ^ (w.bits - 1)) q.toInt) :
    w.signed (low w.bits (q.setWidth 32)) = q.toInt := by
  have hcut : (low w.bits (q.setWidth 32)).setWidth w.bits = q.setWidth w.bits := by
    rw [setWidth_low, BitVec.setWidth_setWidth_of_le _ w.bits_le]
  unfold Width.signed
  rw [hcut, toInt_setWidth hn, bmod_of_inRange w.bits_pos hq]

theorem adjust_iff : adjust a b r = true ↔
    (a.toNat / 16 + b.toNat / 16 + r.toNat / 16) % 2 = 1 := by
  rw [adjust_eq, Accu.halfCarry, decide_eq_true_iff]

end Bits

section Arith

variable (w : Width) (a b : BitVec 32) (c : ℕ) (d : Ptr) (t : Machine)

/-- The destination holds `a + b + c` and the flags describe the sum. -/
structure IsSum : Prop where
  value : (t.peek w d).toNat = (a.toNat + b.toNat + c) % 2 ^ w.bits
  cf : t.testFlag .CF ↔ 2 ^ w.bits ≤ a.toNat + b.toNat + c
  of : t.testFlag .OF ↔ ¬ InRange (2 ^ (w.bits - 1)) (w.signed a + w.signed b + c)
  af : t.testFlag .AF ↔ 16 ≤ a.toNat % 16 + b.toNat % 16 + c
  shows : ShowsResult w t (t.peek w d).toNat

/-- The destination holds `a - b - c` and the flags describe the difference. -/
structure IsDifference : Prop where
  value : ((t.peek w d).toNat : ℤ) = (a.toNat - b.toNat - c) % 2 ^ w.bits
  cf : t.testFlag .CF ↔ a.toNat < b.toNat + c
  of : t.testFlag .OF ↔ ¬ InRange (2 ^ (w.bits - 1)) (w.signed a - w.signed b - c)
  af : t.testFlag .AF ↔ a.toNat % 16 < b.toNat % 16 + c
  shows : ShowsResult w t (t.peek w d).toNat

end Arith

end I386Vm
