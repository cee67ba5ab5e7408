import I386Vm.Lib.Bytes
import Mathlib.Algebra.Group.Even
import Mathlib.Algebra.Group.Nat.Even
import Mathlib.Data.Nat.Bitwise

/-!
# Bitwise operations on words and on words in memory

Where a disjunction or an exclusive disjunction reaches a power of two, when its number of ones is
even, and what it does to a byte memory: a word of the memory or-ed or xor-ed with `v` is every byte
of the memory or-ed or xor-ed with `v` put into a memory of zeros. One bit of a word set or cleared,
the same in every word of the memory that begins there and holds it.
-/

namespace Bytes

variable {w : ℕ}

section Words

variable {h x y : ℕ}

theorem le_or_iff : 2 ^ h ≤ x ||| y ↔ 2 ^ h ≤ x ∨ 2 ^ h ≤ y := by
  constructor
  · intro hle
    by_contra hlt
    rw [not_or, not_le, not_le] at hlt
    exact absurd (Nat.or_lt_two_pow hlt.1 hlt.2) (not_lt.2 hle)
  · rintro (hx | hy)
    · exact le_trans hx Nat.left_le_or
    · exact le_trans hy Nat.right_le_or

theorem le_xor_iff : 2 ^ h ≤ x ^^^ y ↔ x / 2 ^ h ≠ y / 2 ^ h := by
  rw [← not_lt, ← Nat.div_eq_zero_iff_lt (Nat.two_pow_pos h), Nat.xor_div_two_pow,
    Nat.xor_eq_zero_iff]

/-- The ones of an exclusive disjunction are those of the two, but for the common ones of each. -/
theorem countP_xor {α : Type*} (p q : α → Bool) : ∀ l : List α,
    (l.countP fun i => p i ^^ q i) + 2 * (l.countP fun i => p i && q i) = l.countP p + l.countP q
  | [] => rfl
  | i :: l => by
    have ih := countP_xor p q l
    simp only [List.countP_cons]
    rcases hp : p i with _ | _ <;> rcases hq : q i with _ | _ <;> simp <;> omega

end Words

section Bits

variable {x y z : BitVec w}

/-- A disjunction hides what the bits of its first operand hide. -/
theorem or_eq_or_iff : x ||| y = x ||| z ↔ (y ^^^ z) &&& ~~~x = 0 := by
  rw [BitVec.eq_of_getElem_eq_iff, BitVec.eq_of_getElem_eq_iff]
  refine forall_congr' fun i => forall_congr' fun hi => ?_
  simp only [BitVec.getElem_or, BitVec.getElem_and, BitVec.getElem_xor, BitVec.getElem_not,
    BitVec.ofNat_eq_ofNat, BitVec.getElem_zero]
  cases x[i] <;> cases y[i] <;> cases z[i] <;> decide

/-- A conjunction hides the others. -/
theorem and_eq_and_iff : x &&& y = x &&& z ↔ (y ^^^ z) &&& x = 0 := by
  rw [BitVec.eq_of_getElem_eq_iff, BitVec.eq_of_getElem_eq_iff]
  refine forall_congr' fun i => forall_congr' fun hi => ?_
  simp only [BitVec.getElem_and, BitVec.getElem_xor, BitVec.ofNat_eq_ofNat, BitVec.getElem_zero]
  cases x[i] <;> cases y[i] <;> cases z[i] <;> decide

end Bits

section Memory

variable {m : ℕ → BitVec 8} {a n : ℕ} {v : BitVec w}

/-- A word at `a` in a memory of zeros. -/
def alone (a n : ℕ) (v : BitVec w) : ℕ → BitVec 8 := writeLE (fun _ => 0) a n v

/-- An operation on the bits of a word in memory is one on the bytes. -/
theorem writeLE_bitwise {f : BitVec w → BitVec w → BitVec w} {g : BitVec 8 → BitVec 8 → BitVec 8}
    (hf : ∀ k x y, byteOf k (f x y) = g (byteOf k x) (byteOf k y)) (hg : ∀ x, g x 0 = x)
    (hw : 8 * n ≤ w) (k : ℕ) :
    writeLE m a n (f (readLE m a n) v) k = g (m k) (alone a n v k) := by
  unfold alone
  by_cases hk : a ≤ k ∧ k < a + n
  · obtain ⟨i, rfl⟩ := Nat.exists_eq_add_of_le hk.1
    have hi : i < n := by omega
    rw [writeLE_add hi, writeLE_add hi, hf, byteOf_readLE m hi hw]
  · rw [writeLE_of_not_mem hk, writeLE_of_not_mem hk, hg]

theorem byteOf_or (k : ℕ) (x y : BitVec w) : byteOf k (x ||| y) = byteOf k x ||| byteOf k y := by
  apply BitVec.eq_of_getLsbD_eq
  intro i hi
  simp only [getLsbD_byteOf, BitVec.getLsbD_or, Bool.and_or_distrib_left]

theorem byteOf_xor (k : ℕ) (x y : BitVec w) : byteOf k (x ^^^ y) = byteOf k x ^^^ byteOf k y := by
  apply BitVec.eq_of_getLsbD_eq
  intro i hi
  simp only [getLsbD_byteOf, BitVec.getLsbD_xor, Bool.and_xor_distrib_left]

theorem alone_add {i : ℕ} (h : i < n) : alone a n v (a + i) = byteOf i v := writeLE_add h v

theorem alone_zero : alone a n (0 : BitVec w) = fun _ => 0 := by
  funext k
  unfold alone writeLE
  split
  · apply BitVec.eq_of_getLsbD_eq
    intro i _
    simp [getLsbD_byteOf]
  · rfl

/-- Each byte is found again, further up, as one that was found before. -/
theorem byteOf_eq_zero_of_alone {b : ℕ} (hab : a < b) (h : alone a n v = alone b n v) :
    ∀ i, i < n → byteOf i v = 0 := by
  intro i
  induction i using Nat.strong_induction_on with
  | _ i ih =>
    intro hi
    rw [← alone_add (a := a) hi, h]
    rcases Nat.lt_or_ge (a + i) b with hlt | hge
    · exact writeLE_of_not_mem (by omega)
    · obtain ⟨j, hj⟩ := Nat.exists_eq_add_of_le hge
      rw [hj, alone_add (by omega)]
      exact ih j (by omega) (by omega)

theorem low_eq_zero_of_byteOf (h : ∀ i, i < n → byteOf i v = 0) : low (8 * n) v = 0 := by
  apply BitVec.eq_of_getLsbD_eq
  intro i _
  rw [getLsbD_low]
  by_cases hi : i < 8 * n
  · have hbit := congrArg (fun x => x.getLsbD (i % 8)) (h (i / 8) (by omega))
    simp only [getLsbD_byteOf, Nat.div_add_mod] at hbit
    simpa [hi, Nat.mod_lt] using hbit
  · simp [hi]

theorem low_eq_low_of_byteOf {x y : BitVec w} (h : byteOf 0 x = byteOf 0 y) :
    low 8 x = low 8 y := by
  apply BitVec.eq_of_getLsbD_eq
  intro i _
  rw [getLsbD_low, getLsbD_low]
  by_cases hi : i < 8
  · have hbit := byteOf_eq_iff.1 h i hi
    rw [Nat.mul_zero, Nat.zero_add] at hbit
    rw [hbit]
  · simp [hi]

/-- A word that is put in two places gives two memories, unless it is zero. -/
theorem alone_eq_iff {b : ℕ} : alone a n v = alone b n v ↔ a = b ∨ low (8 * n) v = 0 := by
  constructor
  · intro h
    rcases lt_trichotomy a b with hab | hab | hab
    · exact .inr (low_eq_zero_of_byteOf (byteOf_eq_zero_of_alone hab h))
    · exact .inl hab
    · exact .inr (low_eq_zero_of_byteOf (byteOf_eq_zero_of_alone hab h.symm))
  · rintro (rfl | h)
    · rfl
    · unfold alone
      rw [← writeLE_low _ a, ← writeLE_low _ b, h]
      exact alone_zero.trans alone_zero.symm

/-- Two bytes that are put in two places give two memories, unless both are zero. -/
theorem alone_one_eq_iff {b : ℕ} {u : BitVec w} : alone a 1 v = alone b 1 u ↔
    (a = b ∧ low 8 v = low 8 u) ∨ (low 8 v = 0 ∧ low 8 u = 0) := by
  have hat (c : ℕ) (x : BitVec w) : alone c 1 x c = byteOf 0 x := alone_add Nat.one_pos
  have hnot {c k : ℕ} (x : BitVec w) (hk : k ≠ c) : alone c 1 x k = 0 :=
    writeLE_of_not_mem (by omega)
  constructor
  · intro h
    by_cases hab : a = b
    · subst hab
      have hbyte := congrFun h a
      rw [hat, hat] at hbyte
      exact .inl ⟨rfl, low_eq_low_of_byteOf hbyte⟩
    · have hv := congrFun h a
      have hu := congrFun h b
      rw [hat, hnot u hab] at hv
      rw [hat, hnot v (Ne.symm hab)] at hu
      refine .inr ⟨low_eq_zero_of_byteOf (n := 1) fun i hi => ?_,
        low_eq_zero_of_byteOf (n := 1) fun i hi => ?_⟩
      · rw [Nat.lt_one_iff.1 hi, hv]
      · rw [Nat.lt_one_iff.1 hi, ← hu]
  · have hlow (c : ℕ) (x : BitVec w) : alone c 1 (low 8 x) = alone c 1 x := writeLE_low _ c 1 x
    rintro (⟨rfl, h⟩ | ⟨hv, hu⟩)
    · rw [← hlow, h, hlow]
    · rw [← hlow, ← hlow b, hv, hu, alone_zero, alone_zero]

end Memory

section One

variable {x : BitVec w} {i j : ℕ} {b c : Bool}

/-- The word with bit `j` set or cleared. -/
def putBit (j : ℕ) (b : Bool) (x : BitVec w) : BitVec w :=
  if b then x ||| BitVec.twoPow w j else x &&& ~~~BitVec.twoPow w j

theorem getLsbD_putBit (hi : i < w) :
    (putBit j b x).getLsbD i = if i = j then b else x.getLsbD i := by
  unfold putBit
  cases b with
  | true =>
    rw [if_pos rfl, BitVec.getLsbD_or, BitVec.getLsbD_twoPow]
    by_cases hij : i = j
    · simp [hij, hij ▸ hi]
    · simp [hij, Ne.symm hij]
  | false =>
    rw [if_neg Bool.false_ne_true, BitVec.getLsbD_and, BitVec.getLsbD_not, BitVec.getLsbD_twoPow]
    by_cases hij : i = j
    · simp [hij, hij ▸ hi]
    · simp [hij, hi, Ne.symm hij]

theorem putBit_putBit : putBit j b (putBit j c x) = putBit j b x := by
  apply BitVec.eq_of_getLsbD_eq
  intro i hi
  simp only [getLsbD_putBit hi]
  split <;> rfl

theorem putBit_self : putBit j (x.getLsbD j) x = x := by
  apply BitVec.eq_of_getLsbD_eq
  intro i hi
  rw [getLsbD_putBit hi]
  split
  · rename_i hij
    rw [hij]
  · rfl

/-- A complemented bit. -/
theorem putBit_not : putBit j (!x.getLsbD j) x = x ^^^ BitVec.twoPow w j := by
  apply BitVec.eq_of_getLsbD_eq
  intro i hi
  rw [getLsbD_putBit hi, BitVec.getLsbD_xor, BitVec.getLsbD_twoPow]
  by_cases hij : i = j
  · simp [hij, hij ▸ hi]
  · simp [hij, Ne.symm hij]

/-- A bit of the low part is one of the word. -/
theorem merge_putBit {n : ℕ} (hj : j < n) :
    merge n x (putBit j b (low n x)) = putBit j b x := by
  apply BitVec.eq_of_getLsbD_eq
  intro i hi
  rw [getLsbD_merge, getLsbD_putBit hi, getLsbD_putBit hi, getLsbD_low]
  by_cases hin : i < n
  · simp [hin]
  · simp [hin, show i ≠ j by omega]

/-- A bit of a word in memory is one of every word that begins there and is long enough. -/
theorem writeLE_putBit {m : ℕ → BitVec 8} {a n : ℕ} {k : ℕ} (hj : j < 8 * k) (hk : k ≤ n)
    (hw : 8 * n ≤ w) : writeLE m a n (putBit j b (readLE m a n : BitVec w)) =
      writeLE m a k (putBit j b (readLE m a k : BitVec w)) := by
  funext l
  by_cases hl : a ≤ l ∧ l < a + n
  · obtain ⟨d, rfl⟩ := Nat.exists_eq_add_of_le hl.1
    have hd : d < n := by omega
    have hbit (q i : ℕ) (hq : d < q) (hqn : q ≤ n) (hi : i < 8) :
        (byteOf d (putBit j b (readLE m a q : BitVec w))).getLsbD i =
          if 8 * d + i = j then b else (m (a + d)).getLsbD i := by
      rw [getLsbD_byteOf, getLsbD_putBit (by omega), decide_eq_true hi, Bool.true_and,
        ← byteOf_readLE m hq (by omega : 8 * q ≤ w), getLsbD_byteOf, decide_eq_true hi,
        Bool.true_and]
    rw [writeLE_add hd]
    apply BitVec.eq_of_getLsbD_eq
    intro i hi
    by_cases hdk : d < k
    · rw [writeLE_add hdk, hbit n i hd (le_refl n) hi, hbit k i hdk hk hi]
    · rw [writeLE_of_not_mem (by omega), hbit n i hd (le_refl n) hi, if_neg (by omega)]
  · rw [writeLE_of_not_mem hl, writeLE_of_not_mem (by omega)]

end One

end Bytes
