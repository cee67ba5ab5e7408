import I386Vm.Proofs.SymbolSort

/-!
# Labels of rows

A row carries on the label of the row above it. Between the base of a symbol and that of the next
one this is the label of the symbol, and so it stays as long as no row goes back below the base. The
scans read the base after the last symbol for every row that is not below the last one.
-/

namespace I386Vm

open Selection

section Symbols

variable {ccc k t n : ℕ} {words : ℕ → BitVec 32} {addr : BitVec 32} {l : Label}

/-- The address of symbol `k`. -/
def baseAt (words : ℕ → BitVec 32) (k : ℕ) : ℕ := (words (2 * k + 1)).toNat

/-- The symbols are in order of address. -/
def Ordered (ccc : ℕ) (words : ℕ → BitVec 32) : Prop :=
  (pairs ccc words).Pairwise fun p q => address p ≤ address q

theorem Ordered.le (h : Ordered ccc words) {j k : ℕ} (hjk : j ≤ k) (hk : k < ccc) :
    baseAt words j ≤ baseAt words k := by
  rcases Nat.eq_or_lt_of_le hjk with rfl | hlt
  · exact le_rfl
  · unfold Ordered pairs elems at h
    rw [List.pairwise_map, List.pairwise_iff_getElem] at h
    have hp := h j k (by rw [List.length_range]; omega) (by rwa [List.length_range]) hlt
    rw [List.getElem_range, List.getElem_range] at hp
    exact hp

/-- Symbol `k` has the greatest address that is not above `addr`, and it is shown. -/
def Names (ccc : ℕ) (words : ℕ → BitVec 32) (addr : BitVec 32) (shown : BitVec 32 × BitVec 32) :
    Prop :=
  ∃ k < ccc, shown = pairAt words k ∧ baseAt words k ≤ addr.toNat ∧
    ∀ j < ccc, baseAt words j ≤ addr.toNat → baseAt words j ≤ baseAt words k

/-- `addr` lies between symbol `k` and the next one. -/
def Within (ccc : ℕ) (words : ℕ → BitVec 32) (k : ℕ) (addr : BitVec 32) : Prop :=
  k + 1 < ccc ∧ baseAt words k ≤ addr.toNat ∧ addr.toNat < baseAt words (k + 1)

/-- The locals for symbol `k`. -/
def labelAt (words : ℕ → BitVec 32) (k : ℕ) : Label :=
  ⟨words (2 * k), words (2 * k + 1), words (2 * (k + 1) + 1), BitVec.ofNat 32 k⟩

theorem Within.le_of_le (h : Within ccc words k addr) (hord : Ordered ccc words) {j : ℕ}
    (hj : j < ccc) (hle : baseAt words j ≤ addr.toNat) : baseAt words j ≤ baseAt words k := by
  by_contra hlt
  have hjk : k + 1 ≤ j := by
    by_contra hjk
    exact hlt (hord.le (by omega) (by have := h.1; omega))
  have hnext := hord.le hjk hj
  have hbelow := h.2.2
  omega

theorem Within.names (h : Within ccc words k addr) (hord : Ordered ccc words) :
    Names ccc words addr ((labelAt words k).func, (labelAt words k).fbase) := by
  have hk := h.1
  exact ⟨k, by omega, rfl, h.2.1, fun _ hj => h.le_of_le hord hj⟩

/-- Where the label of symbol `t` is right, its base is the greatest one that is not above. -/
theorem Names.base (h : Names ccc words addr ((labelAt words t).func, (labelAt words t).fbase)) :
    baseAt words t ≤ addr.toNat ∧
      ∀ j < ccc, baseAt words j ≤ addr.toNat → baseAt words j ≤ baseAt words t := by
  obtain ⟨k, -, hshown, hk, hmax⟩ := h
  have heq : baseAt words t = baseAt words k := congrArg (fun p => (Prod.snd p).toNat) hshown
  rw [heq]
  exact ⟨hk, hmax⟩

/-- Below the last symbol and not below the first one. -/
theorem exists_within (h0 : baseAt words 0 ≤ addr.toNat)
    (hlast : addr.toNat < baseAt words (ccc - 1)) : ∃ k, Within ccc words k addr := by
  by_contra hnone
  have hle : ∀ k, k < ccc → baseAt words k ≤ addr.toNat := by
    intro k
    induction k with
    | zero => exact fun _ => h0
    | succ k ih =>
      intro hk
      by_contra hlt
      exact hnone ⟨k, hk, ih (by omega), not_le.1 hlt⟩
  rcases Nat.eq_zero_or_pos ccc with rfl | hpos
  · exact absurd hlast (not_lt.2 h0)
  · exact absurd hlast (not_lt.2 (hle (ccc - 1) (by omega)))

theorem symbolAt_ok {i : ℕ} (h : i < 2 * ccc) : symbolAt ccc words i = .ok (words i) := if_pos h

theorem symbolAt_error {i : ℕ} (h : 2 * ccc ≤ i) : symbolAt ccc words i = .error .index :=
  if_neg (not_lt.2 h)

/-- One turn of a scan before the last symbol. -/
theorem scanLabel_succ (hk : k + 1 < ccc) : scanLabel ccc words addr (n + 1) k l =
    if words (2 * k + 1) ≤ addr ∧ addr < words (2 * (k + 1) + 1) then .ok (labelAt words k)
    else scanLabel ccc words addr n (k + 1) l := by
  conv_lhs => unfold scanLabel
  rw [symbolAt_ok (by omega), symbolAt_ok (by omega), symbolAt_ok (by omega)]
  simp only [ok_bind]
  by_cases h1 : words (2 * k + 1) ≤ addr
  · rw [if_pos h1]
    by_cases h2 : addr < words (2 * (k + 1) + 1)
    · rw [if_pos h2, if_pos ⟨h1, h2⟩]
      rfl
    · rw [if_neg h2, if_neg fun h => h2 h.2]
  · rw [if_neg h1, if_neg fun h => h1 h.1]

/-- A scan that passes the symbol finds it. -/
theorem scanLabel_found (hord : Ordered ccc words) (h : Within ccc words t addr) :
    ∀ (n k : ℕ), k ≤ t → t < k + n → scanLabel ccc words addr n k l = .ok (labelAt words t)
  | 0, k, h1, h2 => absurd h1 (by omega)
  | n + 1, k, h1, h2 => by
    have ht := h.1
    rw [scanLabel_succ (by omega)]
    rcases Nat.eq_or_lt_of_le h1 with rfl | hlt
    · exact if_pos ⟨h.2.1, h.2.2⟩
    · have hnext : baseAt words (k + 1) ≤ addr.toNat := (hord.le hlt (by omega)).trans h.2.1
      rw [if_neg fun hk => absurd hk.2 (not_lt.2 hnext)]
      exact scanLabel_found hord h n (k + 1) hlt (by omega)

/-- From the last symbol on, a scan of all but that one finds nothing. -/
theorem scanLabel_missed (hord : Ordered ccc words) (h : baseAt words (ccc - 1) ≤ addr.toNat) :
    ∀ (n k : ℕ), k + n < ccc → scanLabel ccc words addr n k l = .ok l
  | 0, _, _ => rfl
  | n + 1, k, hk => by
    have hnext : baseAt words (k + 1) ≤ addr.toNat :=
      (hord.le (by omega) (by omega)).trans h
    rw [scanLabel_succ (by omega), if_neg fun hk => absurd hk.2 (not_lt.2 hnext)]
    exact scanLabel_missed hord h n (k + 1) (by omega)

/-- And a scan of all reads past it. -/
theorem scanLabel_past (hord : Ordered ccc words) (h : baseAt words (ccc - 1) ≤ addr.toNat) :
    ∀ (n k : ℕ), k + (n + 1) = ccc → scanLabel ccc words addr (n + 1) k l = .error .index
  | 0, k, hk => by
    have hbase : words (2 * k + 1) ≤ addr := by
      obtain rfl : k = ccc - 1 := by omega
      exact h
    unfold scanLabel
    rw [symbolAt_ok (by omega), symbolAt_error (by omega)]
    simp only [ok_bind]
    rw [if_pos hbase]
    rfl
  | n + 1, k, hk => by
    have hnext : baseAt words (k + 1) ≤ addr.toNat :=
      (hord.le (by omega) (by omega)).trans h
    rw [scanLabel_succ (by omega), if_neg fun hk => absurd hk.2 (not_lt.2 hnext)]
    exact scanLabel_past hord h n (k + 1) (by omega)

end Symbols

section Next

variable {ccc t : ℕ} {words : ℕ → BitVec 32} {addr : BitVec 32}

theorem isPrevious_labelAt (ht : t < ccc) (hccc : ccc < 2 ^ 28)
    (h : baseAt words t ≤ addr.toNat) :
    isPrevious ccc words (labelAt words t) addr = .ok false := by
  have hindex : (2 * (labelAt words t).strcount + 1).toNat = 2 * t + 1 := by
    change (2 * BitVec.ofNat 32 t + 1).toNat = _
    bv_omega
  have hbase : ¬ addr < words (2 * t + 1) := not_lt.2 h
  unfold isPrevious
  rw [hindex, symbolAt_ok (by omega)]
  simp only [ok_bind]
  rw [if_neg hbase]
  rfl

theorem isNext_labelAt (ht : t + 1 < ccc) (hccc : ccc < 2 ^ 28)
    (h : baseAt words (t + 1) ≤ addr.toNat) :
    isNext ccc words (labelAt words t) addr = if t + 2 < ccc then
      .ok (addr < words (2 * (t + 2) + 1)) else .error .index := by
  have hindex : (2 * ((labelAt words t).strcount + 1) + 1).toNat = 2 * (t + 1) + 1 := by
    change (2 * (BitVec.ofNat 32 t + 1) + 1).toNat = _
    bv_omega
  have hindex' : (2 * ((labelAt words t).strcount + 2) + 1).toNat = 2 * (t + 2) + 1 := by
    change (2 * (BitVec.ofNat 32 t + 2) + 1).toNat = _
    bv_omega
  have hbase : words (2 * (t + 1) + 1) ≤ addr := h
  unfold isNext
  rw [hindex, hindex', symbolAt_ok (by omega)]
  simp only [ok_bind]
  rw [if_pos hbase]
  split_ifs with hlast
  · rw [symbolAt_ok (by omega)]
    rfl
  · rw [symbolAt_error (by omega)]
    rfl

/-- Before the next symbol the label stays, even below its own base. -/
theorem nextLabel_stays (h : addr.toNat < baseAt words (t + 1)) :
    nextLabel ccc words (labelAt words t) addr = .ok (labelAt words t) :=
  if_pos h

variable (hord : Ordered ccc words) (hccc : ccc < 2 ^ 28)
include hord hccc

theorem nextLabel_moves (ht : t + 1 < ccc) (h : baseAt words (t + 1) ≤ addr.toNat)
    (hlast : addr.toNat < baseAt words (ccc - 1)) : ∃ k, Within ccc words k addr ∧
      nextLabel ccc words (labelAt words t) addr = .ok (labelAt words k) := by
  have hlimit : ¬ addr < (labelAt words t).limit := not_lt.2 h
  have hmore : t + 2 < ccc := by
    by_contra hmore
    obtain rfl : t = ccc - 2 := by omega
    have heq : ccc - 2 + 1 = ccc - 1 := by omega
    rw [heq] at h
    omega
  have hstep : (2 * ((labelAt words t).strcount + 1)).toNat = 2 * (t + 1) := by
    change (2 * (BitVec.ofNat 32 t + 1)).toNat = _
    bv_omega
  have hstep' : (2 * ((labelAt words t).strcount + 2) + 1).toNat = 2 * (t + 2) + 1 := by
    change (2 * (BitVec.ofNat 32 t + 2) + 1).toNat = _
    bv_omega
  have hcount : (labelAt words t).strcount + 1 = BitVec.ofNat 32 (t + 1) := by
    change BitVec.ofNat 32 t + 1 = _
    bv_omega
  have hbase : baseAt words t ≤ addr.toNat := (hord.le (Nat.le_succ t) ht).trans h
  unfold nextLabel
  rw [if_neg hlimit, isPrevious_labelAt (by omega) hccc hbase, ok_bind, if_neg Bool.false_ne_true,
    isNext_labelAt ht hccc h, if_pos hmore, ok_bind]
  by_cases hnext : addr < words (2 * (t + 2) + 1)
  · refine ⟨t + 1, ⟨hmore, h, hnext⟩, ?_⟩
    rw [if_pos (decide_eq_true hnext), hstep, hstep', symbolAt_ok (by omega),
      symbolAt_ok (by omega), ok_bind, ok_bind, hcount]
    rfl
  · obtain ⟨k, hk⟩ := exists_within ((hord.le (Nat.zero_le _) ht).trans h) hlast
    refine ⟨k, hk, ?_⟩
    have hk' := hk.1
    rw [if_neg (by rw [decide_eq_true_iff]; exact hnext), toNat_bound (by omega) hccc]
    exact scanLabel_found hord hk _ 0 (Nat.zero_le _) (by omega)

/-- From the last symbol on, a word past it is read or the label stays. -/
theorem nextLabel_last (ht : t + 1 < ccc) (h : baseAt words (ccc - 1) ≤ addr.toNat) :
    nextLabel ccc words (labelAt words t) addr = .error .index ∨
      nextLabel ccc words (labelAt words t) addr = .ok (labelAt words t) := by
  have hbase : baseAt words (t + 1) ≤ addr.toNat := (hord.le (by omega) (by omega)).trans h
  have hbase' : baseAt words t ≤ addr.toNat := (hord.le (Nat.le_succ t) ht).trans hbase
  have hlimit : ¬ addr < (labelAt words t).limit := not_lt.2 hbase
  unfold nextLabel
  rw [if_neg hlimit, isPrevious_labelAt (by omega) hccc hbase', ok_bind,
    if_neg Bool.false_ne_true, isNext_labelAt ht hccc hbase]
  split_ifs with hmore
  · have hnext : ¬ addr < words (2 * (t + 2) + 1) :=
      not_lt.2 ((hord.le (by omega) (by omega)).trans h)
    rw [ok_bind, if_neg (by rw [decide_eq_true_iff]; exact hnext), toNat_bound (by omega) hccc,
      scanLabel_missed hord h _ 0 (by omega)]
    exact .inr rfl
  · exact .inl rfl

end Next

/-- Every row gets the name and the base of the symbol before it. -/
def Labelled (ccc : ℕ) (words : ℕ → BitVec 32) (rows : List (BitVec 32))
    (shown : Except SymFault (List (BitVec 32 × BitVec 32))) : Prop :=
  ∃ ls, shown = .ok ls ∧ List.Forall₂ (Names ccc words) rows ls

/-- The row at `b` does not lie before a symbol that is not after `a`. -/
def Follows (ccc : ℕ) (words : ℕ → BitVec 32) (a b : BitVec 32) : Prop :=
  ∀ k < ccc, baseAt words k ≤ a.toNat → baseAt words k ≤ b.toNat

section Rows

variable {ccc t : ℕ} {words : ℕ → BitVec 32} {a b : BitVec 32} {rows : List (BitVec 32)}

theorem Within.follows_iff (h : Within ccc words t a) (hord : Ordered ccc words) :
    Follows ccc words a b ↔ baseAt words t ≤ b.toNat := by
  constructor
  · exact fun hf => hf t (Nat.lt_of_succ_lt h.1) h.2.1
  · exact fun hb k hk hka => (h.le_of_le hord hk hka).trans hb

theorem labelled_cons_ok {l : BitVec 32 × BitVec 32}
    {shown : Except SymFault (List (BitVec 32 × BitVec 32))} :
    Labelled ccc words (b :: rows) (shown >>= fun ls => .ok (l :: ls)) ↔
      Names ccc words b l ∧ Labelled ccc words rows shown := by
  unfold Labelled
  rcases shown with e | ls
  · exact iff_of_false (fun ⟨_, h, _⟩ => nomatch h) fun ⟨_, _, h, _⟩ => nomatch h
  · constructor
    · rintro ⟨_, h, hrows⟩
      cases h
      exact ⟨(List.forall₂_cons.1 hrows).1, ls, rfl, (List.forall₂_cons.1 hrows).2⟩
    · rintro ⟨hl, _, h, hrows⟩
      cases h
      exact ⟨_, rfl, .cons hl hrows⟩

variable (hord : Ordered ccc words) (hccc : ccc < 2 ^ 28)
include hord hccc

/-- The symbol of the row above is the invariant. -/
theorem labelsBelow_iff : ∀ (rows : List (BitVec 32)) (t : ℕ) (a : BitVec 32),
    Within ccc words t a →
    (Labelled ccc words rows (labelsBelow ccc words (labelAt words t) rows) ↔
      (∀ b ∈ rows, b.toNat < baseAt words (ccc - 1)) ∧
        (a :: rows).IsChain (Follows ccc words))
  | [], _, _, _ => iff_of_true ⟨[], rfl, .nil⟩ ⟨nofun, .singleton _⟩
  | b :: rest, t, a, h => by
    have ht := h.1
    have hgo (k : ℕ) (hk : Within ccc words k b)
        (hnext : nextLabel ccc words (labelAt words t) b = .ok (labelAt words k)) :
        Labelled ccc words (b :: rest) (labelsBelow ccc words (labelAt words t) (b :: rest)) ↔
          (∀ c ∈ rest, c.toNat < baseAt words (ccc - 1)) ∧
            (b :: rest).IsChain (Follows ccc words) := by
      unfold labelsBelow
      rw [hnext, ok_bind, ← labelsBelow_iff rest k b hk]
      exact labelled_cons_ok.trans (and_iff_right (hk.names hord))
    rw [List.forall_mem_cons, List.isChain_cons_cons, h.follows_iff hord]
    rcases Nat.lt_or_ge b.toNat (baseAt words (t + 1)) with hlt | hge
    · have hlast := hlt.trans_le (hord.le (show t + 1 ≤ ccc - 1 by omega) (by omega))
      by_cases hbase : baseAt words t ≤ b.toNat
      · rw [hgo t ⟨ht, hbase, hlt⟩ (nextLabel_stays hlt)]
        simp only [hlast, hbase, true_and]
      · -- the row lies before the symbol whose label it gets
        refine iff_of_false ?_ fun hall => hbase hall.2.1
        unfold labelsBelow
        rw [nextLabel_stays hlt, ok_bind]
        exact fun hall => hbase (labelled_cons_ok.1 hall).1.base.1
    · have hbase := (hord.le (Nat.le_succ t) ht).trans hge
      by_cases hlast : b.toNat < baseAt words (ccc - 1)
      · obtain ⟨k, hk, hnext⟩ := nextLabel_moves hord hccc ht hge hlast
        rw [hgo k hk hnext]
        simp only [hlast, hbase, true_and]
      · refine iff_of_false ?_ fun hall => hlast hall.1.1
        unfold labelsBelow
        rcases nextLabel_last hord hccc ht (not_lt.1 hlast) with herr | hok
        · rw [herr]
          exact fun ⟨_, hall, _⟩ => nomatch hall
        · rw [hok, ok_bind]
          intro hall
          -- the symbol of the row above lies before the last one
          have hle := (labelled_cons_ok.1 hall).1.base.2 (ccc - 1) (by omega) (not_lt.1 hlast)
          have hstrict := h.2.1.trans_lt h.2.2
          have hnext := hord.le (show t + 1 ≤ ccc - 1 by omega) (by omega)
          omega

theorem labels_iff (garbage : Label) (h0 : 0 < ccc)
    (hrows : ∀ b ∈ rows, baseAt words 0 ≤ b.toNat) :
    Labelled ccc words rows (labels ccc words garbage rows) ↔
      (∀ b ∈ rows, b.toNat < baseAt words (ccc - 1)) ∧ rows.IsChain (Follows ccc words) := by
  rcases rows with _ | ⟨a, rest⟩
  · exact iff_of_true ⟨[], rfl, .nil⟩ ⟨nofun, .nil⟩
  · rw [List.forall_mem_cons, labels]
    by_cases hlast : a.toNat < baseAt words (ccc - 1)
    · obtain ⟨k, hk⟩ := exists_within (hrows a List.mem_cons_self) hlast
      have hlt := hk.1
      rw [scanLabel_found hord hk ccc 0 (Nat.zero_le _) (by omega), ok_bind, and_assoc,
        and_iff_right hlast, ← labelsBelow_iff hord hccc rest k a hk]
      exact labelled_cons_ok.trans (and_iff_right (hk.names hord))
    · obtain ⟨n, rfl⟩ : ∃ n, ccc = n + 1 := ⟨ccc - 1, by omega⟩
      rw [scanLabel_past hord (not_lt.1 hlast) n 0 (by omega), error_bind]
      exact iff_of_false (fun ⟨_, h, _⟩ => nomatch h) fun h => hlast h.1.1

end Rows

/-- The rows of a screen of this height that is scrolled by `scr`. -/
def shownRows (addrs : List (BitVec 32)) (scr height : ℕ) : List (BitVec 32) :=
  (addrs.drop scr).take height

/-- The labels are right iff every row is below the last symbol and none goes back before the symbol
of the row above it. -/
theorem shownRows_labelled_iff {ccc : ℕ} {words : ℕ → BitVec 32} {addrs : List (BitVec 32)}
    {shSize : BitVec 32} (hccc : ccc ≤ nsyms shSize) (h0 : 0 < ccc) (hord : Ordered ccc words)
    (haddrs : ∀ a ∈ addrs, baseAt words 0 ≤ a.toNat) (scr height : ℕ) (garbage : Label) :
    Labelled ccc words (shownRows addrs scr height)
        (labels ccc words garbage (shownRows addrs scr height)) ↔
      (∀ b ∈ shownRows addrs scr height, b.toNat < baseAt words (ccc - 1)) ∧
        (shownRows addrs scr height).IsChain (Follows ccc words) :=
  labels_iff hord (hccc.trans_lt (nsyms_lt shSize)) garbage h0 fun b hb =>
    haddrs b (List.mem_of_mem_drop (List.mem_of_mem_take hb))

/-- Two symbols, and two rows of the first one. -/
theorem shownRows_labelled_two :
    Labelled 2 (fun k => if k ≤ 1 then 0 else 8) (shownRows [0, 1, 4] 1 2)
      (labels 2 (fun k => if k ≤ 1 then 0 else 8) ⟨0, 0, 0, 0⟩ (shownRows [0, 1, 4] 1 2)) := by
  refine (@shownRows_labelled_iff 2 _ [0, 1, 4] 32 (by decide) (by decide) ?_ ?_ 1 2 _).2 ?_
  · simp [Ordered, pairs, elems, List.range_succ, address, pairAt]
  · simp [baseAt]
  · simp [shownRows, baseAt, Follows, List.isChain_cons_cons]
    exact fun k _ h => h.trans (by decide)

/-- One symbol, and a row in its function: the scan reads the base of the next one. -/
theorem not_shownRows_labelled : ¬ ∀ (ccc : ℕ) (words : ℕ → BitVec 32) (addrs : List (BitVec 32))
    (shSize : BitVec 32), ccc ≤ nsyms shSize → 0 < ccc → Ordered ccc words →
    (∀ a ∈ addrs, baseAt words 0 ≤ a.toNat) → ∀ (scr height : ℕ) (garbage : Label),
    Labelled ccc words (shownRows addrs scr height)
      (labels ccc words garbage (shownRows addrs scr height)) := by
  intro hall
  have hord : Ordered 1 fun _ => 0 := List.pairwise_singleton _ _
  obtain ⟨_, hrun, -⟩ := hall 1 (fun _ => 0) [0] 16 (by decide) one_pos hord
    (fun _ _ => Nat.zero_le _) 0 1 ⟨0, 0, 0, 0⟩
  have herror : labels 1 (fun _ => 0) ⟨0, 0, 0, 0⟩ [0] = .error .index := rfl
  cases herror.symm.trans hrun

end I386Vm
