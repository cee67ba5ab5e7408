import I386Vm.Lib.Selection
import I386Vm.Symbols

/-!
# The sorting of the symbols

Where there is a symbol, the loops are a selection sort of the pairs, with each name beside its own
address. Where there is none, the bound of the outer loop is `0 - 1` and the index overflows.
-/

namespace I386Vm

open Prog Selection

/-- Name and address of symbol `k`. -/
def pairAt (words : ℕ → BitVec 32) (k : ℕ) : BitVec 32 × BitVec 32 :=
  (words (2 * k), words (2 * k + 1))

/-- The pairs of the first `ccc` symbols. -/
def pairs (ccc : ℕ) (words : ℕ → BitVec 32) : List (BitVec 32 × BitVec 32) :=
  elems (pairAt words) ccc

/-- Pairs are ordered by address. -/
def address (p : BitVec 32 × BitVec 32) : ℕ := p.2.toNat

section Collect

variable {progbits : BitVec 32 × BitVec 32} {ccc : ℕ} {words : ℕ → BitVec 32}

/-- The pairs of the functions among the symbols. -/
def functions (progbits : BitVec 32 × BitVec 32) (syms : List Elf32Sym) :
    List (BitVec 32 × BitVec 32) :=
  (syms.filter (isFunction progbits)).map fun sym => (sym.stName, sym.stValue)

theorem pairs_succ (ccc : ℕ) (words : ℕ → BitVec 32) :
    pairs (ccc + 1) words = pairs ccc words ++ [pairAt words ccc] := by
  unfold pairs elems
  rw [List.range_succ, List.map_append, List.map_singleton]

theorem pairs_congr {words' : ℕ → BitVec 32} (h : ∀ k < 2 * ccc, words' k = words k) :
    pairs ccc words' = pairs ccc words := by
  refine List.map_congr_left fun k hk => ?_
  rw [List.mem_range] at hk
  unfold pairAt
  rw [h _ (by omega), h _ (by omega)]

theorem collect_spec : ∀ (syms : List Elf32Sym) (ccc : ℕ) (words : ℕ → BitVec 32),
    (collect progbits syms ccc words).1 = ccc + (functions progbits syms).length ∧
      pairs (collect progbits syms ccc words).1 (collect progbits syms ccc words).2 =
        pairs ccc words ++ functions progbits syms
  | [], ccc, words => ⟨rfl, (List.append_nil _).symm⟩
  | sym :: rest, ccc, words => by
    unfold collect functions
    by_cases hsym : isFunction progbits sym = true
    · rw [if_pos hsym, List.filter_cons_of_pos hsym]
      generalize hw : Function.update (Function.update words (ccc * 2) sym.stName) (ccc * 2 + 1)
        sym.stValue = words'
      obtain ⟨hlen, hpairs⟩ := collect_spec rest (ccc + 1) words'
      have hold : pairs ccc words' = pairs ccc words := by
        refine pairs_congr fun k hk => ?_
        rw [← hw, Function.update_of_ne (by omega), Function.update_of_ne (by omega)]
      have hnew : pairAt words' ccc = (sym.stName, sym.stValue) := by
        unfold pairAt
        rw [← hw, Nat.mul_comm, Function.update_self, Function.update_of_ne (by omega),
          Function.update_self]
      rw [hlen, List.map_cons, List.length_cons]
      refine ⟨?_, ?_⟩
      · unfold functions
        omega
      · rw [← hlen, hpairs, pairs_succ, hold, hnew, List.append_assoc]
        rfl
    · rw [if_neg hsym, List.filter_cons_of_neg hsym]
      exact collect_spec rest ccc words

end Collect

section Loops

variable {ccc i j m : ℕ} {words : ℕ → BitVec 32}

theorem symbol_run {k : ℕ} (h : k < 2 * ccc) :
    (symbol ccc k).run words = .ok (words k, words) := by
  unfold symbol
  rw [run_bind_ok run_get_ok, if_pos h]
  rfl

theorem setSymbol_run {k : ℕ} (h : k < 2 * ccc) (x : BitVec 32) :
    (setSymbol ccc k x).run words = .ok ((), Function.update words k x) := by
  unfold setSymbol
  rw [if_pos h]
  rfl

theorem minFrom_run : ∀ (n j m : ℕ), i ≤ j → j + n ≤ ccc → IsMin address (pairAt words) i j m →
    ∃ m', (minFrom ccc n j m).run words = .ok (m', words) ∧
      IsMin address (pairAt words) i (j + n) m'
  | 0, _, m, _, _, h => ⟨m, rfl, h⟩
  | n + 1, j, m, hij, hn, h => by
    have hlt := h.lt
    obtain ⟨m', hrun, hm'⟩ := minFrom_run n (j + 1) _ (by omega) (by omega) (h.next hij)
    rw [Nat.add_right_comm] at hm'
    unfold minFrom
    rw [run_bind_ok (symbol_run (by omega)), run_bind_ok (symbol_run (by omega))]
    exact ⟨m', hrun, hm'⟩

/-- Both words of the two pairs change places. -/
theorem exchange_run (hi : i < ccc) (hm : m < ccc) : ∃ words',
    (exchange ccc i m).run words = .ok ((), words') ∧
      pairAt words' = swapped (pairAt words) i m := by
  unfold exchange
  rw [run_bind_ok (symbol_run (by omega)), run_bind_ok (symbol_run (by omega)),
    run_bind_ok (symbol_run (by omega)), run_bind_ok (setSymbol_run (by omega) _),
    run_bind_ok (symbol_run (by omega)), run_bind_ok (setSymbol_run (by omega) _),
    run_bind_ok (setSymbol_run (by omega) _), setSymbol_run (by omega)]
  refine ⟨_, rfl, funext fun k => ?_⟩
  unfold swapped pairAt
  rw [Equiv.swap_apply_def]
  simp only [Function.update_apply]
  rcases eq_or_ne k i with rfl | hki
  · rcases eq_or_ne k m with rfl | hkm
    · simp [Nat.mul_comm]
    · grind
  · rcases eq_or_ne k m with rfl | hkm
    · grind
    · grind

/-- The place is exchanged with that of a minimum, or is its place. -/
theorem place_run (hi : i < ccc) (hm : m < ccc) : ∃ words',
    (if m ≠ i then exchange ccc i m else pure () : Sym Unit).run words = .ok ((), words') ∧
      pairAt words' = swapped (pairAt words) i m := by
  split_ifs with h
  · exact exchange_run hi hm
  · rw [not_not.1 h, swapped_self]
    exact ⟨words, rfl, rfl⟩

theorem sortFrom_run : ∀ (n i : ℕ) (words : ℕ → BitVec 32), i + n + 1 = ccc → ccc < 2 ^ 31 →
    Settled address (pairAt words) i ccc → ∃ words',
      (sortFrom ccc n i).run words = .ok (n, words') ∧
        Settled address (pairAt words') (ccc - 1) ccc ∧
        (pairs ccc words').Perm (pairs ccc words)
  | 0, i, words, hn, _, h => by
    obtain rfl : i = ccc - 1 := by omega
    exact ⟨words, rfl, h, .refl _⟩
  | n + 1, i, words, hn, hccc, h => by
    obtain ⟨m, hmin, hm⟩ := @minFrom_run ccc i words (ccc - (i + 1)) (i + 1) i (Nat.le_succ i)
      (by omega) isMin_self
    rw [Nat.add_sub_cancel' (show i + 1 ≤ ccc by omega)] at hm
    obtain ⟨words₁, hplace, hpairs⟩ := @place_run ccc i m words (by omega) hm.lt
    have hsettled := h.next hm
    rw [← hpairs] at hsettled
    obtain ⟨words', hrun, hsorted, hperm⟩ := sortFrom_run n (i + 1) words₁ (by omega) hccc hsettled
    have hswap : (pairs ccc words₁).Perm (pairs ccc words) := by
      unfold pairs
      rw [hpairs]
      exact perm_swapped (by omega) hm.lt
    refine ⟨words', ?_, hsorted, hperm.trans hswap⟩
    unfold sortFrom
    rw [if_neg (by omega), run_bind_ok hmin, run_bind_ok hplace, run_bind_ok hrun]
    rfl

/-- Without symbols nothing is read, and the index goes on until it overflows. -/
theorem sortFrom_zero_run : ∀ (n i : ℕ), i < 2 ^ 31 → 2 ^ 31 ≤ i + n →
    (sortFrom 0 n i).run words = .error .overflow
  | 0, i, hi, hn => absurd hn (by omega)
  | n + 1, i, hi, hn => by
    have hmin : (minFrom 0 (0 - (i + 1)) (i + 1) i).run words = .ok (i, words) := by
      rw [Nat.zero_sub]
      rfl
    have hstay : (if i ≠ i then exchange 0 i i else pure () : Sym Unit).run words =
        .ok ((), words) := by
      rw [if_neg (not_not.2 rfl)]
      rfl
    unfold sortFrom
    split_ifs with hlast
    · rfl
    · rw [run_bind_ok hmin, run_bind_ok hstay,
        run_bind_error (sortFrom_zero_run n (i + 1) (by omega) (by omega))]

end Loops

/-- At most `ccc` iterations leave a permutation of the pairs that is ordered by address. -/
def Sorts (syms : List (BitVec 32 × BitVec 32)) (ccc : ℕ) (words : ℕ → BitVec 32) : Prop :=
  ∃ n words', (sortSymbols ccc).run words = .ok (n, words') ∧ n ≤ ccc ∧
    (pairs ccc words').Perm syms ∧
    (pairs ccc words').Pairwise fun p q => address p ≤ address q

theorem nsyms_lt (shSize : BitVec 32) : nsyms shSize < 2 ^ 28 := by
  have h := shSize.isLt
  unfold nsyms
  omega

/-- The unsigned bound of the loops, where it is not that of no symbols. -/
theorem toNat_bound {ccc : ℕ} (hpos : 0 < ccc) (hccc : ccc < 2 ^ 28) :
    (BitVec.ofNat 32 ccc - 1).toNat = ccc - 1 := by
  bv_omega

theorem sortSymbols_run {ccc : ℕ} (hpos : 0 < ccc) (hccc : ccc < 2 ^ 28) (words : ℕ → BitVec 32) :
    ∃ words', (sortSymbols ccc).run words = .ok (ccc - 1, words') ∧
      ((pairs ccc words').Pairwise fun p q => address p ≤ address q) ∧
      (pairs ccc words').Perm (pairs ccc words) := by
  obtain ⟨words', hrun, hsorted, hperm⟩ := @sortFrom_run ccc (ccc - 1) 0 words (by omega) (by omega)
    settled_zero
  unfold sortSymbols
  rw [toNat_bound hpos hccc]
  exact ⟨words', hrun, hsorted.pairwise, hperm⟩

/-- The functions of a file are sorted exactly where there are some. -/
theorem sortSymbols_iff {shSize : BitVec 32} {progbits : BitVec 32 × BitVec 32}
    {syms : List Elf32Sym} (h : syms.length = nsyms shSize) (words : ℕ → BitVec 32) :
    Sorts (functions progbits syms) (collect progbits syms 0 words).1
      (collect progbits syms 0 words).2 ↔ functions progbits syms ≠ [] := by
  obtain ⟨hlen, hpairs⟩ := @collect_spec progbits syms 0 words
  have hle : (functions progbits syms).length ≤ syms.length := by
    unfold functions
    rw [List.length_map]
    exact List.length_filter_le _ _
  have hlt := nsyms_lt shSize
  generalize collect progbits syms 0 words = r at *
  rw [Nat.zero_add] at hlen
  rw [← List.length_pos_iff, ← hlen]
  unfold Sorts sortSymbols
  constructor
  · rintro ⟨n, words', hrun, -⟩
    by_contra hpos
    obtain h0 : r.1 = 0 := by omega
    have hbound : (BitVec.ofNat 32 0 - 1 : BitVec 32).toNat = 2 ^ 32 - 1 := by decide
    rw [h0, hbound, sortFrom_zero_run _ 0 (by decide) (by decide)] at hrun
    cases hrun
  · intro hpos
    obtain ⟨words', hrun, hsorted, hperm⟩ := sortSymbols_run hpos (by omega) r.2
    rw [hpairs] at hperm
    exact ⟨_, words', hrun, Nat.sub_le _ _, hperm, hsorted⟩

/-- Two functions in the wrong order. -/
theorem sortSymbols_two : Sorts [(1, 8), (2, 4)]
    (collect (0, 0) [⟨1, 8, 2⟩, ⟨2, 4, 2⟩] 0 fun _ => 0).1
    (collect (0, 0) [⟨1, 8, 2⟩, ⟨2, 4, 2⟩] 0 fun _ => 0).2 :=
  (@sortSymbols_iff 32 (0, 0) [⟨1, 8, 2⟩, ⟨2, 4, 2⟩] rfl fun _ => 0).2 (by decide)

/-- Without symbols the outer loop does not end after no iteration. -/
theorem not_sorts_nil : ¬ ∀ (shSize : BitVec 32) (progbits : BitVec 32 × BitVec 32)
    (syms : List Elf32Sym) (words : ℕ → BitVec 32), syms.length = nsyms shSize →
    Sorts (functions progbits syms) (collect progbits syms 0 words).1
      (collect progbits syms 0 words).2 := by
  intro hall
  obtain ⟨n, words', hrun, -⟩ := hall 0 (0, 0) [] (fun _ => 0) rfl
  have hbound : (BitVec.ofNat 32 0 - 1 : BitVec 32).toNat = 2 ^ 32 - 1 := by decide
  change (sortFrom 0 (BitVec.ofNat 32 0 - 1 : BitVec 32).toNat 0).run _ = _ at hrun
  rw [hbound, sortFrom_zero_run _ 0 (by decide) (by decide)] at hrun
  cases hrun

end I386Vm
