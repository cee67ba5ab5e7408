import Mathlib.Data.Int.Notation
import Mathlib.Data.Nat.Notation
import Mathlib.Tactic.SplitIfs

/-!
# Two's complement

A word is a number below `2 * h`, and its upper half, from `h` on, stands for the negative numbers.
Where the sum or the difference of two words, with a carry in, leaves the signed range shows in the
upper halves of the operands and of the result; and where it carries across the low digit in base 16
shows in the parity of the digits above.
-/

namespace TwosComplement

/-- The number that a word stands for. -/
def signed (h x : ℕ) : ℤ := if x < h then x else x - 2 * h

/-- The numbers that words stand for. -/
def InRange (h : ℕ) (z : ℤ) : Prop := -h ≤ z ∧ z < h

instance (h : ℕ) (z : ℤ) : Decidable (InRange h z) := inferInstanceAs (Decidable (_ ∧ _))

/-- `x - y` is in the range and has the sign of `x`. -/
def KeepsSign (h : ℕ) (x y : ℤ) : Prop := if x < 0 then x < y ∧ y ≤ x + h else y ≤ x ∧ x < y + h

instance (h : ℕ) (x y : ℤ) : Decidable (KeepsSign h x y) := inferInstanceAs (Decidable (ite _ _ _))

variable {h a b c r : ℕ}

theorem mod_cases {m x : ℕ} (hx : x < 2 * m) :
    (x < m ∧ x % m = x) ∨ (m ≤ x ∧ x % m = x - m) := by
  rcases Nat.lt_or_ge x m with hlt | hge
  · exact .inl ⟨hlt, Nat.mod_eq_of_lt hlt⟩
  · exact .inr ⟨hge, by rw [Nat.mod_eq_sub_mod hge, Nat.mod_eq_of_lt (by omega)]⟩

/-- A sum leaves the range when both operands are in one half and the result in the other. -/
theorem not_inRange_add_iff (ha : a < 2 * h) (hb : b < 2 * h) (hc : c ≤ 1)
    (hr : r = (a + b + c) % (2 * h)) :
    ¬ InRange h (signed h a + signed h b + c) ↔ ¬ (h ≤ a ↔ h ≤ r) ∧ ¬ (h ≤ b ↔ h ≤ r) := by
  unfold InRange signed
  rcases mod_cases (show a + b + c < 2 * (2 * h) by omega) with ⟨hs, hm⟩ | ⟨hs, hm⟩ <;>
    rw [hm] at hr <;> split_ifs <;> omega

/-- A sum wraps exactly where it comes out below an operand, unless the other one and the carry make
a whole turn. -/
theorem lt_iff_le_add (ha : a < 2 * h) (hb : b + c < 2 * h) (hr : r = (a + b + c) % (2 * h)) :
    r < a ↔ 2 * h ≤ a + b + c := by
  rcases mod_cases (show a + b + c < 2 * (2 * h) by omega) with ⟨hs, hm⟩ | ⟨hs, hm⟩ <;>
    rw [hm] at hr <;> omega

theorem digit_add_iff {n : ℕ} (hn : 32 ∣ n) (hc : c ≤ 1) (hr : r = (a + b + c) % n) :
    (a / 16 + b / 16 + r / 16) % 2 = 1 ↔ 16 ≤ a % 16 + b % 16 + c := by
  have hmod : r % 32 = (a + b + c) % 32 := by rw [hr, Nat.mod_mod_of_dvd _ hn]
  omega

/-! ## Differences

`r` is the difference of `a` and `b` with a carry in where `a` is the sum of `r`, `b` and the
carry. -/

theorem sub_emod {n : ℕ} (hr : a = (r + b + c) % n) (hlt : r < n) :
    ((a : ℤ) - b - c) % n = r := by
  have hdiv := Nat.div_add_mod (r + b + c) n
  rw [← hr] at hdiv
  have hsub : (a : ℤ) - b - c = r - n * ((r + b + c) / n : ℕ) := by
    have hcast := congrArg (fun x : ℕ => (x : ℤ)) hdiv
    push_cast at hcast ⊢
    omega
  rw [hsub, Int.sub_mul_emod_self_left]
  exact Int.emod_eq_of_lt (by omega) (by omega)

/-- A difference leaves the range when the operands are in different halves and the result is not in
that of the minuend. -/
theorem not_inRange_sub_iff (ha : a < 2 * h) (hb : b < 2 * h) (hc : c ≤ 1)
    (hr : a = (r + b + c) % (2 * h)) (hlt : r < 2 * h) :
    ¬ InRange h (signed h a - signed h b - c) ↔ ¬ (h ≤ a ↔ h ≤ b) ∧ ¬ (h ≤ a ↔ h ≤ r) := by
  unfold InRange signed
  rcases mod_cases (show r + b + c < 2 * (2 * h) by omega) with ⟨hs, hm⟩ | ⟨hs, hm⟩ <;>
    rw [hm] at hr <;> split_ifs <;> omega

/-- The result is in the half of the minuend exactly where the difference keeps its sign. -/
theorem half_sub_iff (ha : a < 2 * h) (hb : b < 2 * h) (hc : c ≤ 1)
    (hr : a = (r + b + c) % (2 * h)) (hlt : r < 2 * h) :
    (h ≤ a ↔ h ≤ r) ↔ KeepsSign h (signed h a) (signed h b + c) := by
  unfold KeepsSign signed
  rcases mod_cases (show r + b + c < 2 * (2 * h) by omega) with ⟨hs, hm⟩ | ⟨hs, hm⟩ <;>
    rw [hm] at hr <;> split_ifs <;> omega

theorem digit_sub_iff {n : ℕ} (hn : 32 ∣ n) (hc : c ≤ 1) (hr : a = (r + b + c) % n) :
    (a / 16 + b / 16 + r / 16) % 2 = 1 ↔ a % 16 < b % 16 + c := by
  have hmod : a % 32 = (r + b + c) % 32 := by rw [hr, Nat.mod_mod_of_dvd _ hn]
  omega

theorem not_inRange_add_one_iff (ha : a < 2 * h) :
    ¬ InRange h (signed h a + 1) ↔ a = h - 1 := by
  unfold InRange signed
  split_ifs <;> omega

theorem not_inRange_sub_one_iff (ha : a < 2 * h) : ¬ InRange h (signed h a - 1) ↔ a = h := by
  unfold InRange signed
  split_ifs <;> omega

theorem keepsSign_one_iff (ha : a < 2 * h) : KeepsSign h (signed h a) 1 ↔ a ≠ 0 ∧ a ≠ h := by
  unfold KeepsSign signed
  split_ifs <;> omega

end TwosComplement
