import Mathlib.Data.List.Nodup
import Mathlib.Data.List.Perm.Basic
import Mathlib.Data.List.Range
import Mathlib.Logic.Equiv.Basic
import Mathlib.Order.Lattice

/-!
# Selection sort

An array `a` of `n` elements with keys. `Settled` says that the first `i` are in their places: none
of them is above an element behind it. A minimum of the others that takes place `i` settles one
more.
-/

namespace Selection

variable {α β : Type*} [LinearOrder β] {key : α → β} {a : ℕ → α} {i j m n : ℕ}

/-- The first `n` elements. -/
def elems (a : ℕ → α) (n : ℕ) : List α := (List.range n).map a

/-- The array with two elements exchanged. -/
def swapped (a : ℕ → α) (i m : ℕ) : ℕ → α := fun k => a (Equiv.swap i m k)

def Settled (key : α → β) (a : ℕ → α) (i n : ℕ) : Prop :=
  ∀ p q, p < i → p < q → q < n → key (a p) ≤ key (a q)

/-- `m` is the place of a minimum among `i` up to `j`. -/
structure IsMin (key : α → β) (a : ℕ → α) (i j m : ℕ) : Prop where
  ge : i ≤ m
  lt : m < j
  le : ∀ q, i ≤ q → q < j → key (a m) ≤ key (a q)

theorem isMin_self : IsMin key a i (i + 1) i := by
  refine ⟨le_rfl, Nat.lt_succ_self i, fun q h1 h2 => ?_⟩
  obtain rfl : q = i := by omega
  exact le_rfl

/-- One more element. -/
theorem IsMin.next (h : IsMin key a i j m) (hij : i ≤ j) :
    IsMin key a i (j + 1) (if key (a j) < key (a m) then j else m) := by
  obtain ⟨hge, hlt, hle⟩ := h
  split_ifs with hj
  · refine ⟨hij, Nat.lt_succ_self j, fun q h1 h2 => ?_⟩
    rcases Nat.lt_succ_iff_lt_or_eq.1 h2 with hq | rfl
    · exact hj.le.trans (hle q h1 hq)
    · exact le_rfl
  · refine ⟨hge, Nat.lt_succ_of_lt hlt, fun q h1 h2 => ?_⟩
    rcases Nat.lt_succ_iff_lt_or_eq.1 h2 with hq | rfl
    · exact hle q h1 hq
    · exact not_lt.1 hj

theorem settled_zero : Settled key a 0 n := fun _ _ hp => absurd hp (Nat.not_lt_zero _)

theorem Settled.next (h : Settled key a i n) (hm : IsMin key a i n m) :
    Settled key (swapped a i m) (i + 1) n := by
  obtain ⟨hge, hlt, hle⟩ := hm
  intro p q hp hpq hq
  unfold swapped
  -- the element at `q` comes from a place that is not settled where `q` is not
  have hfrom (hiq : i ≤ q) : i ≤ Equiv.swap i m q ∧ Equiv.swap i m q < n := by
    rcases eq_or_ne q i with rfl | hqi
    · rw [Equiv.swap_apply_left]
      exact ⟨hge, hlt⟩
    · rcases eq_or_ne q m with rfl | hqm
      · rw [Equiv.swap_apply_right]
        omega
      · rw [Equiv.swap_apply_of_ne_of_ne hqi hqm]
        exact ⟨hiq, hq⟩
  rcases Nat.lt_succ_iff_lt_or_eq.1 hp with hpi | rfl
  · rw [Equiv.swap_apply_of_ne_of_ne (by omega) (by omega)]
    rcases Nat.lt_or_ge q i with hqi | hqi
    · rw [Equiv.swap_apply_of_ne_of_ne (by omega) (by omega)]
      exact h p q hpi hpq hq
    · exact h p _ hpi (by have := hfrom hqi; omega) (hfrom hqi).2
  · rw [Equiv.swap_apply_left]
    exact hle _ (hfrom (by omega)).1 (hfrom (by omega)).2

/-- With all but the last settled, everything is in order. -/
theorem Settled.pairwise (h : Settled key a (n - 1) n) :
    (elems a n).Pairwise fun x y => key x ≤ key y := by
  unfold elems
  rw [List.pairwise_map, List.pairwise_iff_getElem]
  intro p q hp hq hpq
  rw [List.length_range] at hp hq
  rw [List.getElem_range, List.getElem_range]
  exact h p q (by omega) hpq hq

theorem perm_swapped (hi : i < n) (hm : m < n) : (elems (swapped a i m) n).Perm (elems a n) := by
  have hperm : ((List.range n).map (Equiv.swap i m)).Perm (List.range n) := by
    rw [List.perm_ext_iff_of_nodup (.map (Equiv.swap i m).injective List.nodup_range)
      List.nodup_range]
    intro k
    rw [List.mem_map, List.mem_range]
    constructor
    · rintro ⟨l, hl, rfl⟩
      rw [List.mem_range] at hl
      rw [Equiv.swap_apply_def]
      split_ifs <;> assumption
    · intro hk
      refine ⟨Equiv.swap i m k, ?_, Equiv.swap_apply_self i m k⟩
      rw [List.mem_range, Equiv.swap_apply_def]
      split_ifs <;> assumption
  have hmap := hperm.map a
  rw [List.map_map] at hmap
  exact hmap

theorem swapped_self : swapped a i i = a := by
  funext k
  unfold swapped
  rw [Equiv.swap_self]
  rfl

end Selection
