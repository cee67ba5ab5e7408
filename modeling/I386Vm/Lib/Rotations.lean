import Mathlib.Algebra.BigOperators.Fin
import Mathlib.Algebra.Group.Fin.Basic
import Mathlib.Algebra.Group.Units.Equiv

/-!
# Rotated words

A rotation reads every bit of a word at another place, modulo the width. It keeps the number of
ones, so two rotations of a word that agree on all bits but one agree on that too.
-/

namespace Rotations

variable {n : ℕ}

theorem bit_rotateRight (x : BitVec n) (k : ℕ) {i : ℕ} (hi : i < n) :
    (x.rotateRight k).getLsbD i = x.getLsbD ((i + k) % n) := by
  have hk : k % n < n := Nat.mod_lt _ (by omega)
  rw [BitVec.getLsbD_rotateRight, ← Nat.add_mod_mod]
  generalize k % n = j at *
  rcases Nat.lt_or_ge i (n - j) with hlt | hge
  · rw [decide_eq_true hlt, cond_true, Nat.mod_eq_of_lt (by omega), Nat.add_comm]
  · have hturn : i + j = (i - (n - j)) + n := by omega
    rw [decide_eq_false (not_lt.2 hge), cond_false, decide_eq_true hi, Bool.true_and, hturn,
      Nat.add_mod_right, Nat.mod_eq_of_lt (by omega)]

/-- A rotation to the left is one to the right by what is missing to a turn. -/
theorem rotateLeft_eq (x : BitVec n) (k : ℕ) : x.rotateLeft k = x.rotateRight (n - k % n) := by
  apply BitVec.eq_of_getLsbD_eq
  intro i hi
  have hk : k % n < n := Nat.mod_lt _ (by omega)
  rw [BitVec.getLsbD_rotateLeft, bit_rotateRight _ _ hi]
  generalize k % n = j at *
  rcases Nat.lt_or_ge i j with hlt | hge
  · rw [decide_eq_true hlt, cond_true, Nat.mod_eq_of_lt (by omega), Nat.add_comm]
  · have hturn : i + (n - j) = (i - j) + n := by omega
    rw [decide_eq_false (not_lt.2 hge), cond_false, decide_eq_true hi, Bool.true_and, hturn,
      Nat.add_mod_right, Nat.mod_eq_of_lt (by omega)]

/-- A rotation to the right undoes the one to the left. -/
theorem rotateRight_rotateLeft (x : BitVec n) (k : ℕ) : (x.rotateLeft k).rotateRight k = x := by
  apply BitVec.eq_of_getLsbD_eq
  intro i hi
  have hpos : 0 < n := by omega
  have hk : k % n < n := Nat.mod_lt _ hpos
  have hturn : i + k % n + (n - k % n) = i + n := by omega
  rw [bit_rotateRight _ _ hi, rotateLeft_eq, bit_rotateRight _ _ (Nat.mod_lt _ hpos),
    ← Nat.add_mod_mod i, Nat.mod_add_mod, hturn, Nat.add_mod_right, Nat.mod_eq_of_lt hi]

/-- How many bits of the word are set. -/
def ones (x : BitVec n) : ℕ := ∑ i : Fin n, (x.getLsbD i).toNat

theorem ones_rotateRight (x : BitVec (n + 1)) (k : ℕ) : ones (x.rotateRight k) = ones x := by
  unfold ones
  have hbit (i : Fin (n + 1)) : (x.rotateRight k).getLsbD i =
      x.getLsbD (Equiv.addRight (Fin.ofNat (n + 1) k) i) := by
    rw [bit_rotateRight _ _ i.isLt, Equiv.coe_addRight, Fin.val_add]
    simp
  simp only [hbit]
  exact Equiv.sum_comp (Equiv.addRight (Fin.ofNat (n + 1) k)) fun i => (x.getLsbD i).toNat

theorem eq_of_setWidth_eq {x y : BitVec (n + 1)} (h : x.setWidth n = y.setWidth n)
    (hones : ones x = ones y) : x = y := by
  have hlow (i : ℕ) (hi : i < n) : x.getLsbD i = y.getLsbD i := by
    have hbit := congrArg (BitVec.getLsbD · i) h
    simpa [hi] using hbit
  unfold ones at hones
  rw [Fin.sum_univ_castSucc, Fin.sum_univ_castSucc] at hones
  have hsum : ∑ i : Fin n, (x.getLsbD i.castSucc).toNat =
      ∑ i : Fin n, (y.getLsbD i.castSucc).toNat :=
    Finset.sum_congr rfl fun i _ => congrArg Bool.toNat (hlow i i.isLt)
  have htop : x.getLsbD n = y.getLsbD n := by
    rw [hsum] at hones
    have hnat : (x.getLsbD n).toNat = (y.getLsbD n).toNat := Nat.add_left_cancel hones
    revert hnat
    cases x.getLsbD n <;> cases y.getLsbD n <;> simp
  apply BitVec.eq_of_getLsbD_eq
  intro i hi
  rcases Nat.lt_or_ge i n with hlt | hge
  · exact hlow i hlt
  · rw [show i = n by omega, htop]

/-- Rotations of a word that agree below the top bit are the same. -/
theorem rotateLeft_eq_of_setWidth_eq {x : BitVec (n + 1)} {j k : ℕ}
    (h : (x.rotateLeft j).setWidth n = (x.rotateLeft k).setWidth n) :
    x.rotateLeft j = x.rotateLeft k := by
  refine eq_of_setWidth_eq h ?_
  rw [rotateLeft_eq, rotateLeft_eq, ones_rotateRight, ones_rotateRight]

/-- A rotation with a top bit that need not be its own is another rotation of the word only where
it is its own. -/
theorem cons_eq_rotateLeft_iff {x : BitVec (n + 1)} {j k : ℕ} {c : Bool} :
    BitVec.cons c ((x.rotateLeft j).setWidth n) = x.rotateLeft k ↔
      x.rotateLeft j = x.rotateLeft k ∧ c = (x.rotateLeft j).getLsbD n := by
  have htop (y : BitVec (n + 1)) : y.msb = y.getLsbD n := BitVec.msb_eq_getLsbD_last y
  constructor
  · intro h
    have hlow : (x.rotateLeft j).setWidth n = (x.rotateLeft k).setWidth n := by
      rw [← h, BitVec.setWidth_cons]
    have heq := rotateLeft_eq_of_setWidth_eq hlow
    refine ⟨heq, ?_⟩
    rw [heq, ← htop, ← h, BitVec.msb_cons]
  · rintro ⟨heq, rfl⟩
    rw [← htop, BitVec.cons_msb_setWidth, heq]

/-- The word with bit `i` cleared, and bit `j` set if `b` says so. -/
def moved (x : BitVec n) (i j : ℕ) (b : Bool) : BitVec n :=
  (x &&& ~~~BitVec.twoPow n i) ||| (if b then BitVec.twoPow n j else 0)

theorem getLsbD_moved (x : BitVec n) (i j : ℕ) (b : Bool) {l : ℕ} (hl : l < n) :
    (moved x i j b).getLsbD l = (x.getLsbD l && decide (l ≠ i) || b && decide (l = j)) := by
  unfold moved
  cases b <;> simp [hl, eq_comm]

/-- Words that differ in the cleared bit alone are made the same. -/
theorem moved_congr {x y : BitVec n} {i : ℕ} (h : ∀ l < n, l ≠ i → x.getLsbD l = y.getLsbD l)
    (j : ℕ) (b : Bool) : moved x i j b = moved y i j b := by
  apply BitVec.eq_of_getLsbD_eq
  intro l hl
  rw [getLsbD_moved _ _ _ _ hl, getLsbD_moved _ _ _ _ hl]
  by_cases hi : l = i
  · simp [hi]
  · rw [h l hl hi]

theorem moved_eq_self_iff {x : BitVec n} {i j : ℕ} {b : Bool} (hi : i < n) (hj : j < n) :
    moved x i j b = x ↔ x.getLsbD i = (b && decide (i = j)) ∧ (b = true → x.getLsbD j = true) := by
  constructor
  · intro h
    have hbit (l : ℕ) (hl : l < n) : (x.getLsbD l && decide (l ≠ i) || b && decide (l = j)) =
        x.getLsbD l := by
      rw [← getLsbD_moved _ _ _ _ hl, h]
    refine ⟨?_, fun hb => ?_⟩
    · simpa [eq_comm] using hbit i hi
    · simpa [hb] using hbit j hj
  · rintro ⟨hxi, hxj⟩
    apply BitVec.eq_of_getLsbD_eq
    intro l hl
    rw [getLsbD_moved _ _ _ _ hl]
    by_cases hli : l = i
    · rw [hli, hxi]
      simp
    · by_cases hlj : l = j
      · rw [hlj] at hli ⊢
        cases b with
        | false => simp [hli]
        | true => simp [hxj rfl]
      · simp [hli, hlj]

end Rotations
