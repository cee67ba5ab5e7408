import Mathlib.Data.Nat.Bits
import Mathlib.Tactic.Ring

/-!
# Little-endian words in a byte memory, and the low bits of a word

A byte memory gives a byte at every address. `readLE m a n` is the word whose `n` low bytes are
those at `a`, `a + 1`, …, lowest first, and `writeLE m a n v` puts the `n` low bytes of `v` there.

`low n v` keeps the low `n` bits of a word, and `merge n old v` takes its low `n` bits from `v`
and the others from `old`.
-/

namespace Bytes

variable {w : ℕ}

/-- The low `n` bits of `v`, the others zero. -/
def low (n : ℕ) (v : BitVec w) : BitVec w := (v.setWidth n).setWidth w

/-- The low `n` bits of `v` under the other bits of `old`. -/
def merge (n : ℕ) (old v : BitVec w) : BitVec w := ((old >>> n) <<< n) ||| low n v

theorem getLsbD_low (n : ℕ) (v : BitVec w) (i : ℕ) :
    (low n v).getLsbD i = (decide (i < n) && v.getLsbD i) := by
  simp only [low, BitVec.getLsbD_setWidth]
  by_cases hi : i < w
  · simp [hi]
  · simp [hi, BitVec.getLsbD_of_ge v i (by omega)]

@[simp] theorem toNat_low (n : ℕ) (v : BitVec w) : (low n v).toNat = v.toNat % 2 ^ n := by
  simp only [low, BitVec.toNat_setWidth]
  exact Nat.mod_eq_of_lt (lt_of_le_of_lt (Nat.mod_le _ _) v.isLt)

theorem toNat_low_lt (n : ℕ) (v : BitVec w) : (low n v).toNat < 2 ^ n := by
  rw [toNat_low]
  exact Nat.mod_lt _ (Nat.two_pow_pos n)

theorem low_of_le {n : ℕ} (h : w ≤ n) (v : BitVec w) : low n v = v := by
  apply BitVec.eq_of_toNat_eq
  rw [toNat_low]
  exact Nat.mod_eq_of_lt (lt_of_lt_of_le v.isLt (Nat.pow_le_pow_right (by omega) h))

theorem low_of_lt {n : ℕ} {v : BitVec w} (h : v.toNat < 2 ^ n) : low n v = v := by
  apply BitVec.eq_of_toNat_eq
  rw [toNat_low, Nat.mod_eq_of_lt h]

@[simp] theorem low_low (n : ℕ) (v : BitVec w) : low n (low n v) = low n v := by
  apply BitVec.eq_of_toNat_eq
  simp

theorem getLsbD_merge (n : ℕ) (old v : BitVec w) (i : ℕ) :
    (merge n old v).getLsbD i = if i < n then v.getLsbD i else old.getLsbD i := by
  simp only [merge, BitVec.getLsbD_or, BitVec.getLsbD_shiftLeft, BitVec.getLsbD_ushiftRight,
    getLsbD_low]
  by_cases hi : i < n
  · simp [hi]
  · by_cases hw : i < w
    · simp [hi, hw, show n + (i - n) = i by omega]
    · simp [hi, hw, BitVec.getLsbD_of_ge old i (by omega)]

@[simp] theorem low_merge (n : ℕ) (old v : BitVec w) : low n (merge n old v) = low n v := by
  apply BitVec.eq_of_getLsbD_eq
  intro i _
  simp only [getLsbD_low, getLsbD_merge]
  by_cases hi : i < n <;> simp [hi]

@[simp] theorem merge_low (n : ℕ) (old v : BitVec w) : merge n old (low n v) = merge n old v := by
  apply BitVec.eq_of_getLsbD_eq
  intro i _
  simp only [getLsbD_merge, getLsbD_low]
  by_cases hi : i < n <;> simp [hi]

theorem merge_self (n : ℕ) (v : BitVec w) : merge n v v = v := by
  apply BitVec.eq_of_getLsbD_eq
  intro i _
  rw [getLsbD_merge, ite_self]

theorem merge_ushiftRight (n : ℕ) (old v : BitVec w) : merge n old v >>> n = old >>> n := by
  apply BitVec.eq_of_getLsbD_eq
  intro i _
  rw [BitVec.getLsbD_ushiftRight, BitVec.getLsbD_ushiftRight, getLsbD_merge, if_neg (by omega)]

/-- A merge is its second word where the two have the same bits above. -/
theorem merge_eq_right_iff {n : ℕ} {old v : BitVec w} :
    merge n old v = v ↔ v >>> n = old >>> n := by
  constructor
  · intro h
    rw [← h, merge_ushiftRight]
  · intro h
    apply BitVec.eq_of_getLsbD_eq
    intro i _
    rw [getLsbD_merge]
    split
    · rfl
    · have hbit := congrArg (fun x => x.getLsbD (i - n)) h
      simp only [BitVec.getLsbD_ushiftRight] at hbit
      rw [show i = n + (i - n) by omega]
      exact hbit.symm

theorem setWidth_low (n : ℕ) (v : BitVec w) : (low n v).setWidth n = v.setWidth n := by
  apply BitVec.eq_of_toNat_eq
  rw [BitVec.toNat_setWidth, toNat_low, BitVec.toNat_setWidth, Nat.mod_mod]

theorem low_sub_low {n : ℕ} (h : n ≤ w) (x y : BitVec w) : low n (x - low n y) = low n (x - y) := by
  unfold low
  rw [BitVec.sub_eq_add_neg, BitVec.sub_eq_add_neg, BitVec.setWidth_add _ _ h,
    BitVec.setWidth_add _ _ h, BitVec.setWidth_neg_of_le h, BitVec.setWidth_neg_of_le h]
  exact congrArg (fun z => BitVec.setWidth w (x.setWidth n + -z)) (setWidth_low n y)

theorem low_low_sub {n : ℕ} (h : n ≤ w) (x y : BitVec w) : low n (low n x - y) = low n (x - y) := by
  unfold low
  rw [BitVec.sub_eq_add_neg, BitVec.sub_eq_add_neg, BitVec.setWidth_add _ _ h,
    BitVec.setWidth_add _ _ h]
  exact congrArg (fun z => BitVec.setWidth w (z + (-y).setWidth n)) (setWidth_low n x)

/-- Byte `k` of a word. -/
def byteOf (k : ℕ) (x : BitVec w) : BitVec 8 := (x >>> (8 * k)).setWidth 8

theorem getLsbD_byteOf (k : ℕ) (x : BitVec w) (i : ℕ) :
    (byteOf k x).getLsbD i = (decide (i < 8) && x.getLsbD (8 * k + i)) := by
  unfold byteOf
  rw [BitVec.getLsbD_setWidth, BitVec.getLsbD_ushiftRight]

theorem byteOf_eq_iff {j k : ℕ} {x y : BitVec w} :
    byteOf j x = byteOf k y ↔ ∀ i < 8, x.getLsbD (8 * j + i) = y.getLsbD (8 * k + i) := by
  constructor
  · intro h i hi
    have hbit := congrArg (fun z => z.getLsbD i) h
    simp only [getLsbD_byteOf, hi, decide_true, Bool.true_and] at hbit
    exact hbit
  · intro h
    apply BitVec.eq_of_getLsbD_eq
    intro i hi
    rw [getLsbD_byteOf, getLsbD_byteOf, h i hi]

theorem byteOf_setWidth {k n : ℕ} (h : 8 * (k + 1) ≤ n) (x : BitVec w) :
    byteOf k (x.setWidth n) = byteOf k x := by
  apply BitVec.eq_of_getLsbD_eq
  intro i hi
  have hlt : 8 * k + i < n := by omega
  rw [getLsbD_byteOf, getLsbD_byteOf, BitVec.getLsbD_setWidth, decide_eq_true hlt, Bool.true_and]

/-- A difference of words is the difference of the numbers, or wraps. -/
theorem toNat_sub_cases (x y : BitVec w) :
    (y.toNat ≤ x.toNat ∧ (x - y).toNat = x.toNat - y.toNat) ∨
      (x.toNat < y.toNat ∧ (x - y).toNat = 2 ^ w - (y.toNat - x.toNat)) := by
  rcases Nat.lt_or_ge x.toNat y.toNat with h | h
  · exact .inr ⟨h, BitVec.toNat_sub_of_lt (BitVec.lt_def.2 h)⟩
  · exact .inl ⟨h, BitVec.toNat_sub_of_le (BitVec.le_def.2 h)⟩

/-- The word whose `n` low bytes are those of `m` from `a` on, lowest first. -/
def readLE (m : ℕ → BitVec 8) (a : ℕ) : ℕ → BitVec w
  | 0 => 0
  | n + 1 => (m a).setWidth w ||| (readLE m (a + 1) n <<< 8)

/-- `m` with the `n` low bytes of `v` from `a` on, lowest first. -/
def writeLE (m : ℕ → BitVec 8) (a n : ℕ) (v : BitVec w) : ℕ → BitVec 8 := fun k =>
  if a ≤ k ∧ k < a + n then byteOf (k - a) v else m k

theorem getLsbD_readLE (m : ℕ → BitVec 8) :
    ∀ (n a i : ℕ), (readLE m a n : BitVec w).getLsbD i
      = (decide (i < w ∧ i < 8 * n) && (m (a + i / 8)).getLsbD (i % 8))
  | 0, a, i => by simp [readLE]
  | n + 1, a, i => by
    simp only [readLE, BitVec.getLsbD_or, BitVec.getLsbD_setWidth, BitVec.getLsbD_shiftLeft,
      getLsbD_readLE m n]
    by_cases hi : i < 8
    · have hd : i / 8 = 0 := by omega
      have hm : i % 8 = i := by omega
      by_cases hw : i < w <;> simp [hi, hw, hd, hm, show i < 8 * (n + 1) by omega]
    · have hd : a + 1 + (i - 8) / 8 = a + i / 8 := by omega
      have hm : (i - 8) % 8 = i % 8 := by omega
      rw [hd, hm, BitVec.getLsbD_of_ge (m a) i (by omega)]
      by_cases hw : i < w
      · by_cases hn : i < 8 * (n + 1)
        · simp [hi, hw, hn, show i - 8 < w by omega, show i - 8 < 8 * n by omega]
        · simp [hi, hw, hn, show ¬ i - 8 < 8 * n by omega]
      · simp [hw]

theorem readLE_congr {m m' : ℕ → BitVec 8} {a n : ℕ}
    (h : ∀ k, a ≤ k → k < a + n → m' k = m k) : (readLE m' a n : BitVec w) = readLE m a n := by
  apply BitVec.eq_of_getLsbD_eq
  intro i _
  simp only [getLsbD_readLE]
  by_cases hn : i < w ∧ i < 8 * n
  · rw [h (a + i / 8) (by omega) (by omega)]
  · simp [hn]

theorem writeLE_of_not_mem {m : ℕ → BitVec 8} {a n k : ℕ} {v : BitVec w}
    (h : ¬ (a ≤ k ∧ k < a + n)) : writeLE m a n v k = m k := by
  simp only [writeLE, if_neg h]

theorem writeLE_add {m : ℕ → BitVec 8} {a n i : ℕ} (h : i < n) (v : BitVec w) :
    writeLE m a n v (a + i) = byteOf i v := by
  simp only [writeLE]
  rw [if_pos ⟨by omega, by omega⟩, Nat.add_sub_cancel_left]

theorem writeLE_low (m : ℕ → BitVec 8) (a n : ℕ) (v : BitVec w) :
    writeLE m a n (low (8 * n) v) = writeLE m a n v := by
  funext k
  simp only [writeLE]
  split
  · rename_i hk
    rw [byteOf_eq_iff]
    intro i hi
    rw [getLsbD_low, decide_eq_true (by omega), Bool.true_and]
  · rfl

theorem writeLE_setWidth (m : ℕ → BitVec 8) (a : ℕ) {n k : ℕ} (h : 8 * n ≤ k) (v : BitVec w) :
    writeLE m a n (v.setWidth k) = writeLE m a n v := by
  funext j
  simp only [writeLE]
  split
  · exact byteOf_setWidth (by omega) v
  · rfl

@[simp] theorem readLE_writeLE (m : ℕ → BitVec 8) (a n : ℕ) (v : BitVec w) :
    readLE (writeLE m a n v) a n = low (8 * n) v := by
  apply BitVec.eq_of_getLsbD_eq
  intro i hi
  rw [getLsbD_readLE, getLsbD_low]
  by_cases hn : i < 8 * n
  · rw [writeLE_add (show i / 8 < n by omega)]
    rw [getLsbD_byteOf, Nat.div_add_mod]
    simp [hi, hn, show i % 8 < 8 by omega]
  · simp [hn]

/-- Where all the bytes are those of a word, its low bits are read. -/
theorem readLE_of_bytes {m : ℕ → BitVec 8} {a n : ℕ} {v : BitVec w}
    (h : ∀ k < n, m (a + k) = byteOf k v) : readLE m a n = low (8 * n) v := by
  rw [← readLE_writeLE m a n v]
  refine readLE_congr fun k h1 h2 => ?_
  obtain ⟨i, rfl⟩ := Nat.exists_eq_add_of_le h1
  rw [h i (by omega), writeLE_add (by omega)]

theorem readLE_writeLE_of_disjoint {m : ℕ → BitVec 8} {a n b k : ℕ} {w' : ℕ} {v : BitVec w'}
    (h : a + n ≤ b ∨ b + k ≤ a) : (readLE (writeLE m a n v) b k : BitVec w) = readLE m b k :=
  readLE_congr fun j h1 h2 => writeLE_of_not_mem (by omega)

theorem low_readLE (m : ℕ → BitVec 8) {a n k : ℕ} (h : 8 * k ≤ n) :
    low n (readLE m a k : BitVec w) = readLE m a k := by
  apply BitVec.eq_of_getLsbD_eq
  intro i _
  rw [getLsbD_low, getLsbD_readLE]
  by_cases hn : i < n
  · simp [hn]
  · simp [hn, show ¬ i < 8 * k by omega]

theorem low_readLE_of_le (m : ℕ → BitVec 8) {a n k : ℕ} (h : k ≤ n) :
    low (8 * k) (readLE m a n : BitVec w) = readLE m a k := by
  apply BitVec.eq_of_getLsbD_eq
  intro i _
  rw [getLsbD_low, getLsbD_readLE, getLsbD_readLE]
  by_cases hk : i < 8 * k
  · simp [hk, show i < 8 * n by omega]
  · simp [hk]

theorem byteOf_readLE (m : ℕ → BitVec 8) {a n k : ℕ} (hk : k < n) (hw : 8 * n ≤ w) :
    byteOf k (readLE m a n : BitVec w) = m (a + k) := by
  apply BitVec.eq_of_getLsbD_eq
  intro i hi
  rw [getLsbD_byteOf, getLsbD_readLE, show (8 * k + i) / 8 = k by omega,
    show (8 * k + i) % 8 = i by omega]
  simp [hi, show 8 * k + i < w by omega, show 8 * k + i < 8 * n by omega]

theorem toNat_readLE_lt (m : ℕ → BitVec 8) (a n : ℕ) :
    (readLE m a n : BitVec w).toNat < 2 ^ (8 * n) := by
  have hlow : low (8 * n) (readLE m a n : BitVec w) = readLE m a n :=
    low_readLE_of_le m (le_refl n)
  rw [← hlow]
  exact toNat_low_lt _ _

/-- A word that is shifted above another is added to it. -/
theorem toNat_or_shiftLeft {x y : BitVec w} {k : ℕ} (hx : x.toNat < 2 ^ k)
    (hy : 2 ^ k * y.toNat < 2 ^ w) : (x ||| (y <<< k)).toNat = x.toNat + 2 ^ k * y.toNat := by
  rw [BitVec.toNat_or, BitVec.toNat_shiftLeft, Nat.shiftLeft_eq, Nat.mul_comm,
    Nat.mod_eq_of_lt hy, Nat.or_comm, Nat.mul_comm, ← Nat.shiftLeft_eq,
    ← Nat.shiftLeft_add_eq_or_of_lt hx, Nat.add_comm]

theorem toNat_readLE_succ (m : ℕ → BitVec 8) (a : ℕ) {n : ℕ} (hw : 8 * (n + 1) ≤ w) :
    (readLE m a (n + 1) : BitVec w).toNat =
      (m a).toNat + 2 ^ 8 * (readLE m (a + 1) n : BitVec w).toNat := by
  have hbyte : ((m a).setWidth w).toNat = (m a).toNat := by
    rw [BitVec.toNat_setWidth]
    exact Nat.mod_eq_of_lt (lt_of_lt_of_le (m a).isLt (Nat.pow_le_pow_right Nat.two_pos (by omega)))
  have hrest : 2 ^ 8 * (readLE m (a + 1) n : BitVec w).toNat < 2 ^ w := by
    calc 2 ^ 8 * (readLE m (a + 1) n : BitVec w).toNat < 2 ^ 8 * 2 ^ (8 * n) :=
          Nat.mul_lt_mul_of_pos_left (toNat_readLE_lt m (a + 1) n) (Nat.two_pow_pos 8)
      _ = 2 ^ (8 * (n + 1)) := by rw [← pow_add]; ring_nf
      _ ≤ 2 ^ w := Nat.pow_le_pow_right Nat.two_pos hw
  simp only [readLE]
  rw [toNat_or_shiftLeft (by rw [hbyte]; exact (m a).isLt) hrest, hbyte]

/-- Writing back what is there changes nothing. -/
theorem writeLE_readLE (m : ℕ → BitVec 8) {a n : ℕ} (hw : 8 * n ≤ w) :
    writeLE m a n (readLE m a n : BitVec w) = m := by
  funext k
  by_cases hk : a ≤ k ∧ k < a + n
  · obtain ⟨i, rfl⟩ := Nat.exists_eq_add_of_le hk.1
    have hi : i < n := by omega
    rw [writeLE_add hi, byteOf_readLE m hi hw]
  · exact writeLE_of_not_mem hk

/-- A word is read exactly where its bytes are. -/
theorem readLE_eq_iff (m : ℕ → BitVec 8) {a n : ℕ} (hw : 8 * n ≤ w) {v : BitVec w} :
    readLE m a n = v ↔ (∀ k < n, m (a + k) = byteOf k v) ∧ v.toNat < 2 ^ (8 * n) := by
  constructor
  · rintro rfl
    exact ⟨fun k hk => (byteOf_readLE m hk hw).symm, toNat_readLE_lt m a n⟩
  · rintro ⟨hbytes, hlt⟩
    rw [← low_of_lt hlt]
    apply BitVec.eq_of_getLsbD_eq
    intro i hi
    rw [getLsbD_readLE, getLsbD_low]
    by_cases hn : i < 8 * n
    · rw [hbytes (i / 8) (by omega), getLsbD_byteOf, Nat.div_add_mod]
      simp [hi, hn, show i % 8 < 8 by omega]
    · simp [hn]

/-- A write of all the bytes of a word keeps to the first `k` exactly when the bits above them are
those already there. -/
theorem writeLE_frame_iff {m : ℕ → BitVec 8} {a n k : ℕ} (hw : 8 * n = w) (v : BitVec w) :
    (∀ i, ¬ (a ≤ i ∧ i < a + k) → writeLE m a n v i = m i) ↔
      v >>> (8 * k) = (readLE m a n : BitVec w) >>> (8 * k) := by
  constructor
  · intro h
    apply BitVec.eq_of_getLsbD_eq
    intro i _
    rw [BitVec.getLsbD_ushiftRight, BitVec.getLsbD_ushiftRight, getLsbD_readLE]
    by_cases hi : 8 * k + i < w
    · have hbyte := h (a + (8 * k + i) / 8) (by omega)
      rw [writeLE_add (by omega)] at hbyte
      rw [← hbyte, getLsbD_byteOf, Nat.div_add_mod, decide_eq_true ⟨hi, by omega⟩,
        decide_eq_true (by omega), Bool.true_and, Bool.true_and]
    · rw [BitVec.getLsbD_of_ge _ _ (by omega)]
      simp [hi]
  · intro h i hi
    by_cases hin : a ≤ i ∧ i < a + n
    · obtain ⟨j, rfl⟩ := Nat.exists_eq_add_of_le hin.1
      apply BitVec.eq_of_getLsbD_eq
      intro b hb
      have hbit := congrArg (fun x => x.getLsbD (8 * j + b - 8 * k)) h
      simp only [BitVec.getLsbD_ushiftRight, getLsbD_readLE] at hbit
      rw [show 8 * k + (8 * j + b - 8 * k) = 8 * j + b by omega,
        show (8 * j + b) / 8 = j by omega, show (8 * j + b) % 8 = b by omega] at hbit
      rw [writeLE_add (by omega), getLsbD_byteOf, hbit]
      simp [hb, show 8 * j + b < w by omega, show 8 * j + b < 8 * n by omega]
    · exact writeLE_of_not_mem hin

end Bytes
