import I386Vm.Lib.Bytes

/-!
# Lists of bytes in a memory

`BytesAt m a l` says that the bytes of `l` lie in `m` from `a` on, and `putBytes` puts them there.
Putting a list right below another one puts their concatenation (`putBytes_putBytes`), so what a
stack that grows downwards holds is one list. `placed` gives the addresses of lists that lie one
above the other below a top.

`putAll` puts many lists, each at its address. Each byte is then that of the last list that covers
it (`putAll_eq_getD`), so lists that are apart all lie there in the end.
-/

namespace Bytes

variable {m : ℕ → BitVec 8} {a : ℕ} {x y l : List (BitVec 8)}

/-- The bytes of `l` lie in `m` from `a` on. -/
def BytesAt (m : ℕ → BitVec 8) (a : ℕ) (l : List (BitVec 8)) : Prop :=
  ∀ i (h : i < l.length), m (a + i) = l[i]

/-- `m` with the bytes of `l` from `a` on. -/
def putBytes (m : ℕ → BitVec 8) (a : ℕ) (l : List (BitVec 8)) : ℕ → BitVec 8 := fun k =>
  if h : a ≤ k ∧ k - a < l.length then l[k - a] else m k

theorem putBytes_of_not_mem {k : ℕ} (h : ¬ (a ≤ k ∧ k < a + l.length)) : putBytes m a l k = m k :=
  dif_neg (by omega)

theorem putBytes_add {i : ℕ} (h : i < l.length) : putBytes m a l (a + i) = l[i] := by
  unfold putBytes
  rw [dif_pos ⟨by omega, by omega⟩]
  simp

theorem bytesAt_putBytes (m : ℕ → BitVec 8) (a : ℕ) (l : List (BitVec 8)) :
    BytesAt (putBytes m a l) a l :=
  fun _ h => putBytes_add h

theorem bytesAt_append : BytesAt m a (x ++ y) ↔ BytesAt m a x ∧ BytesAt m (a + x.length) y := by
  constructor
  · intro h
    refine ⟨fun i hi => ?_, fun i hi => ?_⟩
    · rw [h i (by rw [List.length_append]; omega), List.getElem_append_left hi]
    · rw [Nat.add_assoc, h _ (by rw [List.length_append]; omega),
        List.getElem_append_right (by omega)]
      simp
  · rintro ⟨hx, hy⟩ i hi
    rw [List.length_append] at hi
    by_cases hlt : i < x.length
    · rw [List.getElem_append_left hlt]
      exact hx i hlt
    · rw [List.getElem_append_right (by omega), ← hy (i - x.length) (by omega)]
      congr 1
      omega

/-- Two lists put one below the other. -/
theorem putBytes_putBytes (m : ℕ → BitVec 8) (a : ℕ) (x y : List (BitVec 8)) :
    putBytes (putBytes m (a + x.length) y) a x = putBytes m a (x ++ y) := by
  funext k
  by_cases hk : a ≤ k ∧ k < a + (x ++ y).length
  · obtain ⟨i, rfl⟩ := Nat.exists_eq_add_of_le hk.1
    have hi : i < (x ++ y).length := by omega
    have hxy := bytesAt_append.1 (bytesAt_putBytes m a (x ++ y))
    rw [List.length_append] at hi
    by_cases hlt : i < x.length
    · rw [putBytes_add hlt]
      exact (hxy.1 i hlt).symm
    · obtain ⟨j, rfl⟩ := Nat.exists_eq_add_of_le (Nat.le_of_not_lt hlt)
      rw [putBytes_of_not_mem (by omega), ← Nat.add_assoc, putBytes_add (by omega)]
      exact (hxy.2 j (by omega)).symm
  · rw [putBytes_of_not_mem hk]
    rw [List.length_append] at hk
    rw [putBytes_of_not_mem (by omega), putBytes_of_not_mem (by omega)]

theorem exists_bytesAt (m : ℕ → BitVec 8) (a n : ℕ) : ∃ l, l.length = n ∧ BytesAt m a l :=
  ⟨(List.range n).map fun i => m (a + i), by simp, fun i h => by simp⟩

/-- Putting what is there changes nothing. -/
theorem putBytes_of_bytesAt (h : BytesAt m a l) : putBytes m a l = m := by
  funext k
  by_cases hk : a ≤ k ∧ k < a + l.length
  · obtain ⟨i, rfl⟩ := Nat.exists_eq_add_of_le hk.1
    rw [putBytes_add (by omega), h i (by omega)]
  · exact putBytes_of_not_mem hk

section Words

variable {w : ℕ}

/-- The `n` low bytes of a word, lowest first. -/
def leBytes (n : ℕ) (v : BitVec w) : List (BitVec 8) := (List.range n).map fun k => byteOf k v

@[simp] theorem length_leBytes (n : ℕ) (v : BitVec w) : (leBytes n v).length = n := by
  simp [leBytes]

theorem bytesAt_leBytes_iff {n : ℕ} {v : BitVec w} :
    BytesAt m a (leBytes n v) ↔ ∀ k < n, m (a + k) = byteOf k v := by
  simp [BytesAt, leBytes]

theorem putBytes_leBytes (m : ℕ → BitVec 8) (a n : ℕ) (v : BitVec w) :
    putBytes m a (leBytes n v) = writeLE m a n v := by
  funext k
  by_cases hk : a ≤ k ∧ k < a + n
  · obtain ⟨i, rfl⟩ := Nat.exists_eq_add_of_le hk.1
    have hi : i < n := by omega
    rw [writeLE_add hi]
    exact bytesAt_leBytes_iff.1 (bytesAt_putBytes m a (leBytes n v)) i hi
  · rw [writeLE_of_not_mem hk, putBytes_of_not_mem (by rwa [length_leBytes])]

theorem readLE_of_bytesAt {n : ℕ} {v : BitVec w} (hw : w = 8 * n) (h : BytesAt m a (leBytes n v)) :
    readLE m a n = v := by
  refine (readLE_eq_iff m (by omega)).2 ⟨bytesAt_leBytes_iff.1 h, ?_⟩
  rw [← hw]
  exact v.isLt

/-- A list of words is read word by word. -/
theorem readLE_of_bytesAt_flatMap {n : ℕ} (hw : w = 8 * n) : ∀ {a : ℕ} {ws : List (BitVec w)},
    BytesAt m a (ws.flatMap (leBytes n)) →
      ∀ k (h : k < ws.length), readLE m (a + n * k) n = ws[k]
  | a, v :: ws, h, k, hk => by
    rw [List.flatMap_cons, bytesAt_append, length_leBytes] at h
    rcases k with _ | k
    · exact readLE_of_bytesAt hw h.1
    · have hread := readLE_of_bytesAt_flatMap hw h.2 k (Nat.lt_of_succ_lt_succ hk)
      rw [Nat.add_assoc, Nat.add_comm n, ← Nat.mul_succ] at hread
      exact hread

theorem length_flatMap_leBytes {n : ℕ} (ws : List (BitVec w)) :
    (ws.flatMap (leBytes n)).length = n * ws.length := by
  simp [List.length_flatMap, List.map_const', Nat.mul_comm]

end Words

section Placed

variable {α : Type} (f : α → List (BitVec 8)) {top : ℕ}

/-- The lists one above the other below `top`, each with its address. -/
def placed (top : ℕ) : List α → List (ℕ × α)
  | [] => []
  | p :: ps => (top - ((p :: ps).flatMap f).length, p) :: placed top ps

@[simp] theorem placed_map_snd : ∀ l : List α, (placed f top l).map Prod.snd = l
  | [] => rfl
  | p :: ps => congrArg (p :: ·) (placed_map_snd ps)

variable {f}

theorem bounds_of_mem_placed : ∀ {l : List α} {c : ℕ × α}, (l.flatMap f).length ≤ top →
    c ∈ placed f top l → top - (l.flatMap f).length ≤ c.1 ∧ c.1 + (f c.2).length ≤ top
  | p :: ps, c, hl, hc => by
    rw [List.flatMap_cons, List.length_append] at hl ⊢
    rcases List.mem_cons.1 hc with rfl | hc
    · simp only [List.flatMap_cons, List.length_append]
      omega
    · have := bounds_of_mem_placed (by omega) hc
      omega

theorem placed_pairwise : ∀ {l : List α}, (l.flatMap f).length ≤ top →
    (placed f top l).Pairwise fun c d => c.1 + (f c.2).length ≤ d.1
  | [], _ => .nil
  | p :: ps, hl => by
    rw [List.flatMap_cons, List.length_append] at hl
    refine List.pairwise_cons.2 ⟨fun d hd => ?_, placed_pairwise (by omega)⟩
    have := (bounds_of_mem_placed (by omega) hd).1
    simp only [List.flatMap_cons, List.length_append]
    omega

theorem bytesAt_of_mem_placed : ∀ {l : List α} {c : ℕ × α}, (l.flatMap f).length ≤ top →
    BytesAt m (top - (l.flatMap f).length) (l.flatMap f) → c ∈ placed f top l →
      BytesAt m c.1 (f c.2)
  | p :: ps, c, hl, h, hc => by
    rcases List.mem_cons.1 hc with rfl | hc
    · exact (bytesAt_append.1 h).1
    · have htail := (bytesAt_append.1 h).2
      rw [List.flatMap_cons, List.length_append] at hl htail
      rw [show top - ((f p).length + (ps.flatMap f).length) + (f p).length =
        top - (ps.flatMap f).length by omega] at htail
      exact bytesAt_of_mem_placed (by omega) htail hc

end Placed

section All

variable {k : ℕ} {c : ℕ × List (BitVec 8)} {cs : List (ℕ × List (BitVec 8))}

/-- The list at its address has the byte at `k`. -/
def Covers (c : ℕ × List (BitVec 8)) (k : ℕ) : Prop := c.1 ≤ k ∧ k < c.1 + c.2.length

/-- `m` with the lists put one after the other. -/
def putAll (m : ℕ → BitVec 8) (cs : List (ℕ × List (BitVec 8))) : ℕ → BitVec 8 :=
  cs.foldl (fun m c => putBytes m c.1 c.2) m

theorem putAll_cons (m : ℕ → BitVec 8) (c : ℕ × List (BitVec 8))
    (cs : List (ℕ × List (BitVec 8))) : putAll m (c :: cs) = putAll (putBytes m c.1 c.2) cs := rfl

theorem putAll_concat (m : ℕ → BitVec 8) (cs : List (ℕ × List (BitVec 8)))
    (c : ℕ × List (BitVec 8)) : putAll m (cs ++ [c]) = putBytes (putAll m cs) c.1 c.2 := by
  unfold putAll
  rw [List.foldl_append]
  rfl

/-- The byte that a list has for `k`. -/
def byteAt (c : ℕ × List (BitVec 8)) (k : ℕ) : Option (BitVec 8) :=
  if c.1 ≤ k then c.2[k - c.1]? else none

/-- The byte that the last of the lists that cover `k` has for it. -/
def lastByte : List (ℕ × List (BitVec 8)) → ℕ → Option (BitVec 8)
  | [], _ => none
  | c :: cs, k => (lastByte cs k).or (byteAt c k)

theorem byteAt_eq_none_iff : byteAt c k = none ↔ ¬ Covers c k := by
  unfold byteAt Covers
  by_cases hle : c.1 ≤ k
  · rw [if_pos hle, List.getElem?_eq_none_iff]
    omega
  · rw [if_neg hle]
    exact iff_of_true rfl fun h => hle h.1

theorem lastByte_eq_none_iff : lastByte cs k = none ↔ ∀ c ∈ cs, ¬ Covers c k := by
  induction cs with
  | nil => exact iff_of_true rfl fun _ h => absurd h List.not_mem_nil
  | cons c cs ih =>
    rw [lastByte, Option.or_eq_none_iff, ih, byteAt_eq_none_iff, List.forall_mem_cons, and_comm]

theorem putBytes_eq_getD (m : ℕ → BitVec 8) (c : ℕ × List (BitVec 8)) (k : ℕ) :
    putBytes m c.1 c.2 k = (byteAt c k).getD (m k) := by
  by_cases hcov : Covers c k
  · obtain ⟨i, rfl⟩ := Nat.exists_eq_add_of_le hcov.1
    have hi : i < c.2.length := by have := hcov.2; omega
    rw [putBytes_add hi, byteAt, if_pos hcov.1, Nat.add_sub_cancel_left,
      List.getElem?_eq_getElem hi]
    rfl
  · rw [putBytes_of_not_mem hcov, byteAt_eq_none_iff.2 hcov]
    rfl

/-- The last list that covers a byte says what it is. -/
theorem putAll_eq_getD (m : ℕ → BitVec 8) (cs : List (ℕ × List (BitVec 8))) (k : ℕ) :
    putAll m cs k = (lastByte cs k).getD (m k) := by
  induction cs generalizing m with
  | nil => rfl
  | cons c cs ih =>
    rw [putAll_cons, ih, putBytes_eq_getD, lastByte]
    cases lastByte cs k <;> rfl

theorem putAll_of_not_covers (h : ∀ c ∈ cs, ¬ Covers c k) : putAll m cs k = m k := by
  rw [putAll_eq_getD, lastByte_eq_none_iff.2 h]
  rfl

/-- Lists that share no byte are all there. -/
theorem bytesAt_putAll (hd : cs.Pairwise fun c d => ∀ k, Covers c k → ¬ Covers d k)
    (hc : c ∈ cs) : BytesAt (putAll m cs) c.1 c.2 := by
  induction cs generalizing m with
  | nil => cases hc
  | cons d cs ih =>
    obtain ⟨hfirst, hrest⟩ := List.pairwise_cons.1 hd
    rw [putAll_cons]
    rcases List.mem_cons.1 hc with rfl | hc
    · intro i hi
      rw [putAll_of_not_covers fun e he => hfirst e he _ ⟨by omega, by omega⟩]
      exact putBytes_add hi
    · exact ih hrest hc

end All

end Bytes
