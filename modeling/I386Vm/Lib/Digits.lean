import I386Vm.Lib.Limbs
import Mathlib.Data.Int.ModEq
import Mathlib.Tactic.LinearCombination

/-!
# Digits coded in words

A `Code` says which words stand for the digits of a base. Numbers are lists of such words, lowest
digit first, added (`σ = 1`) or subtracted (`σ = -1`) digit by digit. A step is `Exact` on two
words and a carry in when its word and its carry make up their sum or difference. `sums_chain_iff`
says that a chain of steps makes up the sum or the difference of the numbers exactly when every step
of it does, for a step whose mistakes show in its word.
-/

namespace Limbs

variable {w : ℕ}

/-- Which words stand for digits of the base, and for which. -/
structure Code (w : ℕ) where
  base : ℕ
  Valid : BitVec w → Prop
  digit : BitVec w → ℕ
  digit_lt : ∀ x, Valid x → digit x < base
  one_lt : 1 < base

namespace Code

variable (k : Code w) (σ : ℤ)

def number (l : List (BitVec w)) : ℕ := Nat.ofDigits k.base (l.map k.digit)

/-- Both words of every pair are digits. -/
def Valids (l : List (BitVec w × BitVec w)) : Prop := ∀ p ∈ l, k.Valid p.1 ∧ k.Valid p.2

/-- The sum or the difference of the two numbers and the carry in. -/
def total (c : Bool) (l : List (BitVec w × BitVec w)) : ℤ :=
  k.number (l.map Prod.fst) + σ * (k.number (l.map Prod.snd) + c.toNat)

/-- The carry or the borrow out: the total has more digits than the list, or is negative. -/
def carryOut (c : Bool) (l : List (BitVec w × BitVec w)) : Bool :=
  ¬ (0 ≤ k.total σ c l ∧ k.total σ c l < k.base ^ l.length)

/-- The word and the carry out make up the sum or the difference of two words and the carry in. -/
def Exact (c : Bool) (a b : BitVec w) (p : BitVec w × Bool) : Prop :=
  k.Valid p.1 ∧
    (k.digit p.1 : ℤ) + σ * k.base * p.2.toNat = k.digit a + σ * (k.digit b + c.toNat)

/-- The words and the carry out make up the total. -/
def Sums (c : Bool) (l : List (BitVec w × BitVec w)) (ds : List (BitVec w)) (c' : Bool) : Prop :=
  (∀ d ∈ ds, k.Valid d) ∧
    (k.number ds : ℤ) + σ * k.base ^ l.length * c'.toNat = k.total σ c l

@[simp] theorem number_cons (a : BitVec w) (l : List (BitVec w)) :
    k.number (a :: l) = k.digit a + k.base * k.number l := by
  unfold number
  rw [List.map_cons, Nat.ofDigits_cons]

theorem number_lt {l : List (BitVec w)} (hl : ∀ d ∈ l, k.Valid d) :
    k.number l < k.base ^ l.length := by
  have h := Nat.ofDigits_lt_base_pow_length k.one_lt (l := l.map k.digit) fun x hx => by
    obtain ⟨d, hd, rfl⟩ := List.mem_map.1 hx
    exact k.digit_lt d (hl d hd)
  rwa [List.length_map] at h

theorem number_map_lt {l : List (BitVec w × BitVec w)} (f : BitVec w × BitVec w → BitVec w)
    (hl : ∀ p ∈ l, k.Valid (f p)) : k.number (l.map f) < k.base ^ l.length := by
  have h := k.number_lt (l := l.map f) fun d hd => by
    obtain ⟨p, hp, rfl⟩ := List.mem_map.1 hd
    exact hl p hp
  rwa [List.length_map] at h

theorem total_cons {c : Bool} {a b : BitVec w} {p : BitVec w × Bool} (h : k.Exact σ c a b p)
    (l : List (BitVec w × BitVec w)) :
    k.total σ c ((a, b) :: l) = k.digit p.1 + k.base * k.total σ p.2 l := by
  unfold total
  rw [List.map_cons, List.map_cons, number_cons, number_cons]
  push_cast
  linear_combination -h.2

/-- A digit below the number moves its bounds up by one power of the base. -/
theorem bounds_cons {d : ℕ} (hd : d < k.base) (t : ℤ) (n : ℕ) :
    (0 ≤ d + k.base * t ∧ d + k.base * t < (k.base : ℤ) ^ (n + 1)) ↔
      0 ≤ t ∧ t < (k.base : ℤ) ^ n := by
  have hd' : (d : ℤ) < k.base := by exact_mod_cast hd
  have hpos : (0 : ℤ) < k.base := by linarith [Int.natCast_nonneg d]
  rw [pow_succ']
  constructor
  · rintro ⟨h0, hlt⟩
    constructor
    · by_contra ht
      have : (k.base : ℤ) * t ≤ k.base * -1 := mul_le_mul_of_nonneg_left (by omega) hpos.le
      linarith
    · exact lt_of_mul_lt_mul_left (by linarith [Int.natCast_nonneg d]) hpos.le
  · rintro ⟨h0, hlt⟩
    have hmul : (k.base : ℤ) * (t + 1) ≤ k.base * k.base ^ n :=
      mul_le_mul_of_nonneg_left (by omega) hpos.le
    exact ⟨by positivity, by linarith⟩

theorem carryOut_cons {c : Bool} {a b : BitVec w} {p : BitVec w × Bool} (h : k.Exact σ c a b p)
    (l : List (BitVec w × BitVec w)) :
    k.carryOut σ c ((a, b) :: l) = k.carryOut σ p.2 l := by
  unfold carryOut
  simp only [k.total_cons σ h, List.length_cons, k.bounds_cons (k.digit_lt _ h.1)]

/-- What a chain sums to, from what its first step makes up. -/
theorem sums_cons_iff {c c' : Bool} {a b : BitVec w} {p : BitVec w × Bool} (h : k.Exact σ c a b p)
    (l : List (BitVec w × BitVec w)) (ds : List (BitVec w)) :
    k.Sums σ c ((a, b) :: l) (p.1 :: ds) c' ↔ k.Sums σ p.2 l ds c' := by
  have hpos : (k.base : ℤ) ≠ 0 := by have := k.one_lt; omega
  unfold Sums
  rw [List.forall_mem_cons, and_iff_right h.1, k.total_cons σ h, number_cons, List.length_cons]
  refine and_congr_right fun _ => ?_
  have hleft : ((k.digit p.1 + k.base * k.number ds : ℕ) : ℤ)
      + σ * k.base ^ (l.length + 1) * c'.toNat =
      k.digit p.1 + k.base * (k.number ds + σ * k.base ^ l.length * c'.toNat) := by
    push_cast
    ring
  rw [hleft]
  constructor
  · exact fun heq => mul_left_cancel₀ hpos (add_left_cancel heq)
  · exact fun heq => by rw [heq]

/-- The lowest word of a right result is the lowest digit of it. -/
theorem digit_modEq_of_sums {c c' : Bool} {a b d : BitVec w} {l : List (BitVec w × BitVec w)}
    {ds : List (BitVec w)} (h : k.Sums σ c ((a, b) :: l) (d :: ds) c') :
    k.Valid d ∧ (k.digit d : ℤ) ≡ k.digit a + σ * (k.digit b + c.toNat) [ZMOD k.base] := by
  refine ⟨h.1 d List.mem_cons_self, ?_⟩
  have hsum := h.2
  unfold total at hsum
  rw [List.map_cons, List.map_cons, number_cons, number_cons, number_cons, List.length_cons] at hsum
  push_cast at hsum
  refine (Int.modEq_iff_dvd.2 ⟨k.number ds + σ * k.base ^ l.length * c'.toNat
    - k.number (l.map Prod.fst) - σ * k.number (l.map Prod.snd), ?_⟩)
  linear_combination -hsum

variable {σ} (hσ : σ = 1 ∨ σ = -1)
include hσ

theorem carryOut_nil (c : Bool) : k.carryOut σ c [] = c := by
  unfold carryOut total number
  rcases hσ with rfl | rfl <;> cases c <;> simp

/-- A total of two numbers below `M`, as a number below `M` and a carry. -/
theorem emod_carry_iff {A B D M c : ℕ} (hA : A < M) (hB : B < M) (hD : D < M) (hc : c ≤ 1)
    (c' : Bool) :
    (D : ℤ) + σ * M * c'.toNat = A + σ * (B + c) ↔
      (D : ℤ) = (A + σ * (B + c)) % M ∧
        (c' = true ↔ ¬ (0 ≤ A + σ * (B + c) ∧ A + σ * (B + c) < M)) := by
  generalize hT : (A : ℤ) + σ * (B + c) = T
  have hbounds : -M ≤ T ∧ T < 2 * M := by
    rcases hσ with rfl | rfl <;> constructor <;> omega
  by_cases hin : 0 ≤ T ∧ T < M
  · rw [Int.emod_eq_of_lt hin.1 hin.2]
    cases c' with
    | false => simp [hin]
    | true =>
      simp only [hin, and_self, not_true, iff_false, and_false, Bool.toNat_true]
      rcases hσ with rfl | rfl <;> omega
  · have hmod : T % M = T - σ * M := by
      rcases hσ with rfl | rfl
      · rw [← Int.emod_eq_of_lt (show 0 ≤ T - 1 * M by omega) (show T - 1 * M < M by omega)]
        rw [one_mul, Int.sub_emod_right]
      · rw [← Int.emod_eq_of_lt (show 0 ≤ T - -1 * M by omega) (show T - -1 * M < M by omega)]
        rw [neg_one_mul, sub_neg_eq_add, Int.add_emod_right]
    rw [hmod]
    cases c' with
    | false =>
      simp only [hin, not_false_eq_true, Bool.toNat_false]
      rcases hσ with rfl | rfl <;> simp <;> omega
    | true =>
      simp only [hin, not_false_eq_true, and_true, Bool.toNat_true]
      rcases hσ with rfl | rfl <;> omega

/-- The total as a number of as many digits, and what is carried out of it. -/
theorem sums_iff {c c' : Bool} {l : List (BitVec w × BitVec w)} {ds : List (BitVec w)}
    (hl : k.Valids l) (hlen : ds.length = l.length) :
    k.Sums σ c l ds c' ↔ (∀ d ∈ ds, k.Valid d) ∧
      (k.number ds : ℤ) = k.total σ c l % k.base ^ l.length ∧ c' = k.carryOut σ c l := by
  refine and_congr_right fun hds => ?_
  have hd := k.number_lt hds
  rw [hlen] at hd
  have ha := k.number_map_lt Prod.fst fun p hp => (hl p hp).1
  have hb := k.number_map_lt Prod.snd fun p hp => (hl p hp).2
  have hc : c.toNat ≤ 1 := by cases c <;> decide
  have h := emod_carry_iff hσ ha hb hd hc c'
  push_cast at h
  unfold carryOut total
  rw [Bool.eq_iff_iff (a := c'), decide_eq_true_iff]
  exact h

/-- The chain sums exactly when every step makes up its sum after the carry that the digits below
it have. -/
theorem sums_chain_iff {f : Step w} (hf : ∀ c a b, k.Valid a → k.Valid b → k.Valid (f c a b).1 →
      (k.digit (f c a b).1 : ℤ) ≡ k.digit a + σ * (k.digit b + c.toNat) [ZMOD k.base] →
      k.Exact σ c a b (f c a b))
    {c : Bool} {l : List (BitVec w × BitVec w)} (hl : k.Valids l) :
    k.Sums σ c l (limbs f c l) (carry f c l) ↔ ∀ i p, l[i]? = some p →
      k.Exact σ (k.carryOut σ c (l.take i)) p.1 p.2 (f (k.carryOut σ c (l.take i)) p.1 p.2) := by
  induction l generalizing c with
  | nil =>
    simp only [limbs, carry, Sums, total, number]
    simp
  | cons p l ih =>
    have hp := hl p List.mem_cons_self
    simp only [limbs, carry]
    by_cases h : k.Exact σ c p.1 p.2 (f c p.1 p.2)
    · rw [k.sums_cons_iff σ h, ih fun q hq => hl q (List.mem_cons_of_mem _ hq)]
      constructor
      · rintro hall (_ | i) q hq
        · cases hq
          rw [List.take_zero, k.carryOut_nil hσ]
          exact h
        · rw [List.take_succ_cons, k.carryOut_cons σ h]
          exact hall i q hq
      · intro hall i q hq
        have hi := hall (i + 1) q hq
        rwa [List.take_succ_cons, k.carryOut_cons σ h] at hi
    · constructor
      · intro hsum
        obtain ⟨hv, hm⟩ := k.digit_modEq_of_sums σ hsum
        exact absurd (hf c p.1 p.2 hp.1 hp.2 hv hm) h
      · intro hall
        have h0 := hall 0 p rfl
        rw [List.take_zero, k.carryOut_nil hσ] at h0
        exact absurd h0 h

end Code

end Limbs
