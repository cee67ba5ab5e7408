import Mathlib.Data.Nat.Digits.Defs
import Mathlib.Tactic.Linarith
import Mathlib.Tactic.Ring

/-!
# Carry chains

Numbers of many words, lowest first, added or subtracted word by word. A `Step` makes one word and
the carry out of two words and the carry in; `limbs` and `carry` run it along a list of pairs of
words. `value_limbs_fullAdd` and `value_limbs_fullSub` say what the exact steps compute, and
`chain_eq_iff` when a step that gets only the carry wrong computes the same.
-/

namespace Limbs

variable {w : ℕ}

/-- The number of a list of words, lowest first. -/
def value (l : List (BitVec w)) : ℕ := Nat.ofDigits (2 ^ w) (l.map BitVec.toNat)

abbrev Step (w : ℕ) := Bool → BitVec w → BitVec w → BitVec w × Bool

/-- The words a step makes along a list of pairs. -/
def limbs (f : Step w) : Bool → List (BitVec w × BitVec w) → List (BitVec w)
  | _, [] => []
  | c, (a, b) :: l => (f c a b).1 :: limbs f (f c a b).2 l

/-- The carry out of the last pair. -/
def carry (f : Step w) : Bool → List (BitVec w × BitVec w) → Bool
  | c, [] => c
  | c, (a, b) :: l => carry f (f c a b).2 l

def fullAdd : Step w := fun c a b =>
  (a + (b + if c then 1 else 0), 2 ^ w ≤ a.toNat + b.toNat + c.toNat)

def fullSub : Step w := fun c a b =>
  (a - b - if c then 1 else 0, a.toNat < b.toNat + c.toNat)

@[simp] theorem length_limbs (f : Step w) (c : Bool) (l : List (BitVec w × BitVec w)) :
    (limbs f c l).length = l.length := by
  induction l generalizing c with
  | nil => rfl
  | cons p l ih => rw [limbs, List.length_cons, ih, List.length_cons]

@[simp] theorem value_cons (a : BitVec w) (l : List (BitVec w)) :
    value (a :: l) = a.toNat + 2 ^ w * value l := by
  unfold value
  rw [List.map_cons, Nat.ofDigits_cons]

theorem value_lt (l : List (BitVec w)) : value l < 2 ^ (w * l.length) := by
  induction l with
  | nil => exact Nat.two_pow_pos _
  | cons a l ih =>
    have ha := a.isLt
    rw [value_cons, List.length_cons, Nat.mul_succ, Nat.pow_add, Nat.mul_comm (2 ^ (w * _))]
    have hmul : 2 ^ w * value l + 2 ^ w ≤ 2 ^ w * 2 ^ (w * l.length) := by
      rw [← Nat.mul_succ]
      exact Nat.mul_le_mul_left _ ih
    omega

theorem value_injective (hw : 0 < w) {l m : List (BitVec w)} (hlen : l.length = m.length)
    (h : value l = value m) : l = m := by
  have hlt (k : List (BitVec w)) : ∀ x ∈ k.map BitVec.toNat, x < 2 ^ w := by
    intro x hx
    obtain ⟨v, -, rfl⟩ := List.mem_map.1 hx
    exact v.isLt
  have hmap := Nat.ofDigits_inj_of_len_eq (Nat.one_lt_two_pow hw.ne') (by simpa using hlen) (hlt l)
    (hlt m) h
  exact (List.map_inj_right fun a b => BitVec.eq_of_toNat_eq).1 hmap

theorem toNat_bit (hw : 0 < w) (c : Bool) :
    (if c then 1 else 0 : BitVec w).toNat = c.toNat := by
  cases c with
  | false => simp
  | true => simpa using Nat.mod_eq_of_lt (Nat.one_lt_two_pow hw.ne')

theorem fullAdd_spec (hw : 0 < w) (c : Bool) (a b : BitVec w) :
    (fullAdd c a b).1.toNat + 2 ^ w * (fullAdd c a b).2.toNat = a.toNat + b.toNat + c.toNat := by
  have ha := a.isLt
  have hb := b.isLt
  have hc : c.toNat ≤ 1 := by cases c <;> decide
  have hone : 1 < 2 ^ w := Nat.one_lt_two_pow hw.ne'
  unfold fullAdd
  rw [BitVec.toNat_add, BitVec.toNat_add, toNat_bit hw, Nat.add_mod_mod, ← Nat.add_assoc]
  rcases Nat.lt_or_ge (a.toNat + b.toNat + c.toNat) (2 ^ w) with h | h
  · rw [Nat.mod_eq_of_lt h, decide_eq_false (not_le.2 h)]
    simp
  · rw [Nat.mod_eq_sub_mod h, Nat.mod_eq_of_lt (by omega), decide_eq_true h]
    simp
    omega

theorem fullSub_spec (hw : 0 < w) (c : Bool) (a b : BitVec w) :
    (fullSub c a b).1.toNat + b.toNat + c.toNat = a.toNat + 2 ^ w * (fullSub c a b).2.toNat := by
  have ha := a.isLt
  have hb := b.isLt
  have hc : c.toNat ≤ 1 := by cases c <;> decide
  have hone : 1 < 2 ^ w := Nat.one_lt_two_pow hw.ne'
  unfold fullSub
  rw [BitVec.toNat_sub, BitVec.toNat_sub, toNat_bit hw, Nat.add_mod_mod]
  rcases Nat.lt_or_ge a.toNat (b.toNat + c.toNat) with h | h
  · rw [Nat.mod_eq_sub_mod (by omega), Nat.mod_eq_of_lt (by omega), decide_eq_true h]
    simp
    omega
  · rw [Nat.mod_eq_sub_mod (by omega), Nat.mod_eq_sub_mod (by omega), Nat.mod_eq_of_lt (by omega),
      decide_eq_false (not_lt.2 h)]
    simp
    omega

theorem value_limbs_fullAdd (hw : 0 < w) (c : Bool) (l : List (BitVec w × BitVec w)) :
    value (limbs fullAdd c l) + 2 ^ (w * l.length) * (carry fullAdd c l).toNat =
      value (l.map Prod.fst) + value (l.map Prod.snd) + c.toNat := by
  induction l generalizing c with
  | nil => simp [limbs, carry, value]
  | cons p l ih =>
    have hstep := fullAdd_spec hw c p.1 p.2
    have hrest := ih (fullAdd c p.1 p.2).2
    simp only [limbs, carry, value_cons, List.map_cons, List.length_cons, Nat.mul_succ, Nat.pow_add]
    calc (fullAdd c p.1 p.2).1.toNat + 2 ^ w * value (limbs fullAdd (fullAdd c p.1 p.2).2 l)
          + 2 ^ (w * l.length) * 2 ^ w * (carry fullAdd (fullAdd c p.1 p.2).2 l).toNat
        = (fullAdd c p.1 p.2).1.toNat + 2 ^ w * (value (limbs fullAdd (fullAdd c p.1 p.2).2 l)
          + 2 ^ (w * l.length) * (carry fullAdd (fullAdd c p.1 p.2).2 l).toNat) := by ring
      _ = (fullAdd c p.1 p.2).1.toNat + 2 ^ w * (fullAdd c p.1 p.2).2.toNat
          + 2 ^ w * (value (l.map Prod.fst) + value (l.map Prod.snd)) := by
        rw [hrest]
        ring
      _ = p.1.toNat + 2 ^ w * value (l.map Prod.fst)
          + (p.2.toNat + 2 ^ w * value (l.map Prod.snd)) + c.toNat := by
        rw [hstep]
        ring

theorem value_limbs_fullSub (hw : 0 < w) (c : Bool) (l : List (BitVec w × BitVec w)) :
    value (limbs fullSub c l) + value (l.map Prod.snd) + c.toNat =
      value (l.map Prod.fst) + 2 ^ (w * l.length) * (carry fullSub c l).toNat := by
  induction l generalizing c with
  | nil => simp [limbs, carry, value]
  | cons p l ih =>
    have hstep := fullSub_spec hw c p.1 p.2
    have hrest := ih (fullSub c p.1 p.2).2
    simp only [limbs, carry, value_cons, List.map_cons, List.length_cons, Nat.mul_succ, Nat.pow_add]
    calc (fullSub c p.1 p.2).1.toNat + 2 ^ w * value (limbs fullSub (fullSub c p.1 p.2).2 l)
          + (p.2.toNat + 2 ^ w * value (l.map Prod.snd)) + c.toNat
        = (fullSub c p.1 p.2).1.toNat + p.2.toNat + c.toNat + 2 ^ w
          * (value (limbs fullSub (fullSub c p.1 p.2).2 l) + value (l.map Prod.snd)) := by ring
      _ = p.1.toNat + 2 ^ w * (value (limbs fullSub (fullSub c p.1 p.2).2 l)
          + value (l.map Prod.snd) + (fullSub c p.1 p.2).2.toNat) := by
        rw [hstep]
        ring
      _ = p.1.toNat + 2 ^ w * value (l.map Prod.fst)
          + 2 ^ (w * l.length) * 2 ^ w * (carry fullSub (fullSub c p.1 p.2).2 l).toNat := by
        rw [hrest]
        ring

section NoCarryIn

variable (hw : 0 < w) (l : List (BitVec w × BitVec w))
include hw

theorem carry_fullAdd : carry fullAdd false l = true ↔
    2 ^ (w * l.length) ≤ value (l.map Prod.fst) + value (l.map Prod.snd) := by
  have h := value_limbs_fullAdd hw false l
  have hlt := value_lt (limbs fullAdd false l)
  rw [length_limbs] at hlt
  rw [Bool.toNat_false, Nat.add_zero] at h
  cases hc : carry fullAdd false l <;> rw [hc] at h <;> simp at h ⊢ <;> omega

theorem carry_fullSub : carry fullSub false l = true ↔
    value (l.map Prod.fst) < value (l.map Prod.snd) := by
  have h := value_limbs_fullSub hw false l
  have hlt := value_lt (limbs fullSub false l)
  have hb := value_lt (l.map Prod.snd)
  rw [length_limbs] at hlt
  rw [List.length_map] at hb
  rw [Bool.toNat_false, Nat.add_zero] at h
  cases hc : carry fullSub false l <;> rw [hc] at h <;> simp at h ⊢ <;> omega

theorem limbs_fullAdd : value (limbs fullAdd false l) =
    (value (l.map Prod.fst) + value (l.map Prod.snd)) % 2 ^ (w * l.length) := by
  have hlt := value_lt (limbs fullAdd false l)
  rw [length_limbs] at hlt
  rw [← Nat.add_zero (_ + _), ← Bool.toNat_false, ← value_limbs_fullAdd hw false l,
    Nat.add_mul_mod_self_left, Nat.mod_eq_of_lt hlt]

theorem limbs_fullSub : (value (limbs fullSub false l) : ℤ) =
    (value (l.map Prod.fst) - value (l.map Prod.snd) : ℤ) % 2 ^ (w * l.length) := by
  have hlt := value_lt (limbs fullSub false l)
  rw [length_limbs] at hlt
  have h : ((value (limbs fullSub false l) + value (l.map Prod.snd) + false.toNat : ℕ) : ℤ) =
      (value (l.map Prod.fst) + 2 ^ (w * l.length) * (carry fullSub false l).toNat : ℕ) := by
    rw [value_limbs_fullSub hw false l]
  have hz : (value (l.map Prod.fst) - value (l.map Prod.snd) : ℤ) = value (limbs fullSub false l)
      + 2 ^ (w * l.length) * -((carry fullSub false l).toNat : ℤ) := by
    rw [Bool.toNat_false, Nat.add_zero] at h
    push_cast at h
    linarith
  rw [hz, Int.add_mul_emod_self_left]
  exact (Int.emod_eq_of_lt (Int.natCast_nonneg _) (by exact_mod_cast hlt)).symm

end NoCarryIn

theorem eq_limbs_iff (hw : 0 < w) {f : Step w} {c : Bool} {l : List (BitVec w × BitVec w)}
    {ds : List (BitVec w)} (hlen : ds.length = l.length) :
    ds = limbs f c l ↔ value ds = value (limbs f c l) :=
  ⟨fun h => by rw [h], value_injective hw (by rw [hlen, length_limbs])⟩

section Faulty

variable {f g : Step w} (hd : ∀ c a b, (f c a b).1 = (g c a b).1)
  (hne : ∀ a b, (g true a b).1 ≠ (g false a b).1)
include hd hne

/-- A wrong carry shows in the next word, or is the carry out. -/
theorem chain_ne {c c' : Bool} (h : c ≠ c') (l : List (BitVec w × BitVec w)) :
    ¬ (limbs f c l = limbs g c' l ∧ carry f c l = carry g c' l) := by
  rintro ⟨hl, hc⟩
  cases l with
  | nil => exact h hc
  | cons p l =>
    have hhead : (f c p.1 p.2).1 = (g c' p.1 p.2).1 := (List.cons.inj hl).1
    rw [hd] at hhead
    cases c <;> cases c'
    · exact h rfl
    · exact hne _ _ hhead.symm
    · exact hne _ _ hhead
    · exact h rfl

/-- The two chains make the same words and carry exactly when the carries out of every pair are the
same after the exact carry in. -/
theorem chain_eq_iff (c : Bool) (l : List (BitVec w × BitVec w)) :
    (limbs f c l = limbs g c l ∧ carry f c l = carry g c l) ↔
      ∀ i p, l[i]? = some p →
        (f (carry g c (l.take i)) p.1 p.2).2 = (g (carry g c (l.take i)) p.1 p.2).2 := by
  induction l generalizing c with
  | nil => simp [limbs, carry]
  | cons p l ih =>
    simp only [limbs, carry, hd, List.cons.injEq, true_and]
    by_cases h : (f c p.1 p.2).2 = (g c p.1 p.2).2
    · rw [h, ih]
      constructor
      · rintro hall (_ | i) q hq
        · cases hq
          exact h
        · exact hall i q hq
      · exact fun hall i q hq => hall (i + 1) q hq
    · refine ⟨fun hsame => absurd hsame (chain_ne hd hne h l), fun hall => ?_⟩
      exact absurd (hall 0 p rfl) h

end Faulty

end Limbs
