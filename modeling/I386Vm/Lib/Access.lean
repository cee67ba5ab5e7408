import I386Vm.Lib.Image

/-!
# The bytes an access touches

A read of a byte memory touches a byte when two memories that differ there alone give different
results, and a write when it can change the byte. `readLE`, `writeLE` and `putBytes` touch the bytes
of their range and no others.
-/

namespace Bytes

variable {α : Type} {w : ℕ}

/-- The result depends on the byte at `i`. -/
def ReadsAt (r : (ℕ → BitVec 8) → α) (i : ℕ) : Prop :=
  ∃ m m' : ℕ → BitVec 8, (∀ j, j ≠ i → m' j = m j) ∧ r m' ≠ r m

/-- The byte at `i` can change. -/
def WritesAt (f : (ℕ → BitVec 8) → ℕ → BitVec 8) (i : ℕ) : Prop :=
  ∃ m, f m i ≠ m i

theorem readsAt_readLE {a n i : ℕ} (hw : 8 * n ≤ w) :
    ReadsAt (fun m => (readLE m a n : BitVec w)) i ↔ a ≤ i ∧ i < a + n := by
  constructor
  · rintro ⟨m, m', hsame, hne⟩
    by_contra hi
    refine hne (readLE_congr fun k h1 h2 => hsame k ?_)
    rintro rfl
    exact hi ⟨h1, h2⟩
  · rintro ⟨h1, h2⟩
    obtain ⟨k, rfl⟩ := Nat.exists_eq_add_of_le h1
    have hk : k < n := by omega
    let m' : ℕ → BitVec 8 := fun j => if j = a + k then 1 else 0
    refine ⟨fun _ => 0, m', fun j hj => if_neg hj, fun heq => ?_⟩
    have hbyte := congrArg (byteOf k) heq
    simp only [byteOf_readLE _ hk hw] at hbyte
    revert hbyte
    simp [m']

/-- A byte that every memory gets with one value is written. -/
theorem writesAt_of_const {f : (ℕ → BitVec 8) → ℕ → BitVec 8} {i : ℕ} {b : BitVec 8}
    (h : ∀ m, f m i = b) : WritesAt f i := by
  refine ⟨fun _ => b + 1, ?_⟩
  rw [h]
  intro heq
  bv_omega

theorem writesAt_writeLE {a n i : ℕ} {v : BitVec w} :
    WritesAt (fun m => writeLE m a n v) i ↔ a ≤ i ∧ i < a + n := by
  constructor
  · rintro ⟨m, hne⟩
    by_contra hi
    exact hne (writeLE_of_not_mem hi)
  · rintro ⟨h1, h2⟩
    obtain ⟨k, rfl⟩ := Nat.exists_eq_add_of_le h1
    exact writesAt_of_const fun m => writeLE_add (by omega) v

theorem writesAt_putAll {i : ℕ} {cs : List (ℕ × List (BitVec 8))} :
    WritesAt (fun m => putAll m cs) i ↔ ∃ c ∈ cs, Covers c i := by
  constructor
  · rintro ⟨m, hne⟩
    by_contra hnone
    exact hne (putAll_of_not_covers fun c hc hcov => hnone ⟨c, hc, hcov⟩)
  · rintro ⟨c, hc, hcov⟩
    have hne : lastByte cs i ≠ none := fun hnone => lastByte_eq_none_iff.1 hnone c hc hcov
    obtain ⟨b, hb⟩ := Option.ne_none_iff_exists'.1 hne
    have hput : ∀ m, putAll m cs i = b := by
      intro m
      rw [putAll_eq_getD, hb]
      rfl
    exact writesAt_of_const hput

end Bytes
