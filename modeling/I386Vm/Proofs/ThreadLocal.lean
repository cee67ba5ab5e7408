import I386Vm.Proofs.SegmentLimit

/-!
# Thread-local segments

Runs of calls of `set_thread_area` on the table that `initialize` makes, each with -1 or one of the
entries 6 to 8, and with anything in between that leaves the table alone. Two things are kept
throughout: the `used` of an entry says whether a call took it, and the three parts of the base of
such an entry are those of the base of the latest call.
-/

namespace I386Vm

open Bytes Prog

/-! ## The base of an entry -/

section Base

variable {s : Machine} {d u : ℕ} {m : ℕ → BitVec 8} {e e' : BitVec 8}

/-- The structure at `u` and the descriptor at `d` do not overlap. -/
def Apart (d u : ℕ) : Prop := u + 16 ≤ d ∨ d + gdtDescriptorSize ≤ u

theorem userBase_congr {m' : ℕ → BitVec 8} (h : ∀ i, u + 4 ≤ i → i < u + 8 → m' i = m i) :
    userBase u m' = userBase u m :=
  readLE_congr h

theorem readLE_created (h : Apart d u) {a n : ℕ} (hd : d ≤ a) (ha : a + n ≤ d + 9)
    (h5 : ¬ (a ≤ d + 5 ∧ d + 5 < a + n)) (h6 : ¬ (a ≤ d + 6 ∧ d + 6 < a + n)) :
    (readLE (created d u e m) a n : BitVec 32) = readLE (createdBase d u m) a n := by
  unfold Apart gdtDescriptorSize at h
  exact readLE_congr fun i h1 h2 => created_eq (by omega) (by omega) (by omega)

/-- The three parts of a word make the word. -/
theorem join_parts (b : BitVec 32) :
    low 16 b ||| (low 8 (b >>> 16) <<< 16) ||| (low 8 (b >>> 24) <<< 24) = b := by
  apply BitVec.eq_of_getLsbD_eq
  intro i hi
  simp only [BitVec.getLsbD_or, BitVec.getLsbD_shiftLeft, BitVec.getLsbD_ushiftRight, getLsbD_low]
  by_cases h16 : i < 16
  · simp [h16, hi, show i < 24 by omega]
  · by_cases h24 : i < 24
    · simp [h16, h24, hi, show i - 16 < 8 by omega, show 16 + (i - 16) = i by omega]
    · simp [h16, h24, hi, show ¬ i - 16 < 8 by omega, show i - 24 < 8 by omega,
        show 24 + (i - 24) = i by omega]

theorem createdBase_parts (h : Apart d u) :
    readLE (createdBase d u m) (d + 2) 2 = low 16 (userBase u m) ∧
      readLE (createdBase d u m) (d + 4) 1 = low 8 (userBase u m >>> 16) ∧
      readLE (createdBase d u m) (d + 7) 1 = low 8 (userBase u m >>> 24) := by
  unfold Apart gdtDescriptorSize at h
  have hword (x : BitVec 32) : x &&& 0xFFFF = low 16 x := cut_eq_low .word x
  have hbyte (x : BitVec 32) : x &&& 0xFF = low 8 x := cut_eq_low .byte x
  have hbase {m' : ℕ → BitVec 8} (hm : ∀ i, ¬ (d ≤ i ∧ i < d + 9) → m' i = m i) :
      userBase u m' = userBase u m := userBase_congr fun i h1 h2 => hm i (by omega)
  unfold createdBase
  refine ⟨?_, ?_, ?_⟩
  · rw [readLE_writes_of_disjoint (by omega), readLE_writes_of_disjoint (by omega), readLE_writes]
    rw [hword, low_low, hbase]
    intro i hi
    rw [writes_of_not_mem (by omega), writes_of_not_mem (by omega)]
  · rw [readLE_writes_of_disjoint (by omega), readLE_writes]
    rw [hbyte, low_low, hbase]
    intro i hi
    rw [writes_of_not_mem (by omega), writes_of_not_mem (by omega), writes_of_not_mem (by omega)]
  · rw [readLE_writes]
    rw [hbyte, low_low, hbase]
    intro i hi
    rw [writes_of_not_mem (by omega), writes_of_not_mem (by omega), writes_of_not_mem (by omega),
      writes_of_not_mem (by omega)]

theorem getGdtBase_withEntry (he : e ∈ tlsEntries) (h : Apart (s.gdtEntry e) u) :
    (s.withEntry u e).getGdtBase (selectorOf e) = userBase u s.mem := by
  have hd : (s.withEntry u e).gdtDescriptor (selectorOf e) = s.gdtEntry e :=
    gdtDescriptor_selectorOf _ (lt_of_mem_tlsEntries he)
  have hmem : (s.withEntry u e).mem = created (s.gdtEntry e) u e s.mem := rfl
  obtain ⟨hlow, hmid, hhigh⟩ := @createdBase_parts (s.gdtEntry e) u s.mem h
  unfold Machine.getGdtBase
  rw [hd, hmem, readLE_created h (by omega) (by omega) (by omega) (by omega),
    readLE_created h (by omega) (by omega) (by omega) (by omega),
    readLE_created h (by omega) (by omega) (by omega) (by omega), hlow, hmid, hhigh, join_parts]

/-- An entry is marked as used when it is created. -/
theorem created_used (h : Apart d u) : created d u e m (d + 8) = 1 := by
  unfold Apart gdtDescriptorSize at h
  rw [created_eq (by omega) (by omega) (by omega)]
  unfold createdBase
  rw [writes_of_not_mem (by omega), writes_of_not_mem (by omega), writes_of_not_mem (by omega),
    writes_of_not_mem (by omega)]
  have hmark : writes (d + 8) 1 (fun _ => 1) m (d + 8 + 0) = byteOf 0 (1 : BitVec 32) :=
    writeLE_add one_pos _
  exact hmark.trans (by decide)

theorem getGdtBase_congr {t : Machine} {x : BitVec 16} (hg : t.gdtr = s.gdtr)
    (hm : ∀ i, s.gdtDescriptor x ≤ i → i < s.gdtDescriptor x + 9 → t.mem i = s.mem i) :
    t.getGdtBase x = s.getGdtBase x := by
  have hd : t.gdtDescriptor x = s.gdtDescriptor x := by
    unfold Machine.gdtDescriptor
    rw [hg]
  unfold Machine.getGdtBase
  rw [hd, readLE_congr fun i h1 h2 => hm i (by omega) (by omega),
    readLE_congr fun i h1 h2 => hm i (by omega) (by omega),
    readLE_congr fun i h1 h2 => hm i (by omega) (by omega)]

end Base

/-! ## Loading a selector -/

/-- `MOV` of the selector to a segment register. -/
structure LoadsSelector (insn : CsInsn) (seg : X86Reg) (selector : BitVec 16) (s : Machine) :
    Prop where
  isSeg : seg ∈ segRegs
  dst : insn.op1.val = .reg seg
  src : ∃ v, (srcWide insn.op2).run (s.advance insn) = .ok (v, s.advance insn) ∧
    v.setWidth 16 = selector

/-- After the selector of `e` was loaded, an address in the segment is that from `base` on. -/
def Addresses (s : Machine) (e : BitVec 8) (base : BitVec 32) : Prop :=
  ∀ (insn : CsInsn) (seg : X86Reg), LoadsSelector insn seg (selectorOf e) s →
    ∃ t, (movI insn).run s = .ok (some 0, t) ∧ ∀ (scale : BitVec 32) (disp : BitVec 64),
      t.effAddr ⟨seg, .invalid, .invalid, scale, disp⟩ = base + disp.setWidth 32

section Selector

variable {s : Machine} {e : BitVec 8} {insn : CsInsn} {seg : X86Reg} {x : BitVec 16}

theorem addresses_getGdtBase (s : Machine) (e : BitVec 8) :
    Addresses s e (s.getGdtBase (selectorOf e)) := by
  intro insn seg h
  obtain ⟨val, hsrc, hval⟩ := h.src
  obtain ⟨v, hreg, hw, hne, hregVal⟩ := segRegs_spec h.isSeg
  have ht : insn.op1.type = .reg := by
    unfold CsX86Op.type
    rw [h.dst]
  have hop : insn.op1.reg = seg := by
    unfold CsX86Op.reg
    rw [h.dst]
  unfold movI
  rw [run_bind_ok (advance_run s insn), run_bind_ok hsrc, run_bind_ok run_get_ok, if_pos ht, hop,
    hreg, hw, run_bind_ok (store_run (.var v) _), cut_eq_low, Machine.poke_low]
  refine ⟨_, rfl, fun scale disp => ?_⟩
  have hsel : (((s.advance insn).poke .word (.var v) val).regVal seg).setWidth 16 =
      selectorOf e := by
    rw [hregVal, ← hval]
    change (low 16 (((s.advance insn).setReg v (merge 16 _ val)).reg v)).setWidth 16 = _
    rw [Machine.reg_setReg, low_merge, setWidth_low]
  have hbase : ((s.advance insn).poke .word (.var v) val).getGdtBase (selectorOf e) =
      s.getGdtBase (selectorOf e) := rfl
  have hnone : ¬ X86Reg.invalid ≠ .invalid := by simp
  unfold Machine.effAddr
  rw [if_pos hne, hsel, hbase, if_neg hnone]
  simp

end Selector

/-! ## Runs of calls -/

def InTable (i : ℕ) : Prop := gdtAddr ≤ i ∧ i < gdtAddr + gdtEntries * gdtDescriptorSize

/-- The structure lies outside the table, and names an entry for threads or none. -/
structure TlsCall (s : Machine) (arg1 : BitVec 32) : Prop where
  outside : arg1.toNat + 16 ≤ gdtAddr ∨ gdtAddr + gdtEntries * gdtDescriptorSize ≤ arg1.toNat
  entry : userEntry arg1.toNat s.mem ∈ [-1, 6, 7, 8]

/-- The call succeeds and reports the entry `e`. -/
def Reports (s : Machine) (arg1 : BitVec 32) (e : BitVec 8) (t : Machine) : Prop :=
  (doSetThreadArea arg1).run s = .ok (0, t) ∧ userEntry arg1.toNat t.mem = e.setWidth 32

/-- The states that calls lead to, with the base each entry was last given. -/
inductive TlsRun : (BitVec 8 → Option (BitVec 32)) → Machine → Prop
  | start {s₀ s : Machine} (run : initializeGdt.run s₀ = .ok ((), s)) : TlsRun (fun _ => none) s
  | between {latest : BitVec 8 → Option (BitVec 32)} {s t : Machine} (before : TlsRun latest s)
      (gdtr : t.gdtr = s.gdtr) (table : ∀ i, InTable i → t.mem i = s.mem i) : TlsRun latest t
  | created {latest : BitVec 8 → Option (BitVec 32)} {s t : Machine} {arg1 : BitVec 32}
      {e : BitVec 8} (before : TlsRun latest s) (call : TlsCall s arg1)
      (reports : Reports s arg1 e t) :
      TlsRun (Function.update latest e (some (userBase arg1.toNat s.mem))) t
  | refused {latest : BitVec 8 → Option (BitVec 32)} {s t : Machine} {arg1 ret : BitVec 32}
      (before : TlsRun latest s) (call : TlsCall s arg1)
      (run : (doSetThreadArea arg1).run s = .ok (ret, t)) (ne : ret ≠ 0) : TlsRun latest t

/-- What a call does from a state in which the entries were given these bases. -/
structure Serves (latest : BitVec 8 → Option (BitVec 32)) (s : Machine) (arg1 : BitVec 32) :
    Prop where
  named : ∀ e ∈ tlsEntries, userEntry arg1.toNat s.mem = e.setWidth 32 → ∃ t, Reports s arg1 e t
  free : userEntry arg1.toNat s.mem = -1 → (∃ e ∈ tlsEntries, latest e = none) →
    ∃ t, ∃ e ∈ tlsEntries, latest e = none ∧ Reports s arg1 e t
  full : userEntry arg1.toNat s.mem = -1 → (∀ e ∈ tlsEntries, latest e ≠ none) →
    (doSetThreadArea arg1).run s = .ok (-1, s)
  created : ∀ e t, Reports s arg1 e t → e ∈ tlsEntries ∧
    Addresses t e (userBase arg1.toNat s.mem) ∧
    ∀ e' : BitVec 8, e'.toNat < gdtEntries → e' ≠ e →
      t.getGdtBase (selectorOf e') = s.getGdtBase (selectorOf e')

/-- The table holds exactly the entries that were given a base, with that base. -/
structure TlsTable (latest : BitVec 8 → Option (BitVec 32)) (s : Machine) : Prop where
  base : s.gdtr.base.toNat = gdtAddr
  used : ∀ e ∈ tlsEntries, s.mem (s.gdtEntry e + 8) = 0 ↔ latest e = none
  given : ∀ e b, latest e = some b → e ∈ tlsEntries ∧ s.getGdtBase (selectorOf e) = b

section Runs

variable {latest : BitVec 8 → Option (BitVec 32)} {s t : Machine} {arg1 : BitVec 32} {e : BitVec 8}

theorem TlsTable.gdtEntry_eq (h : TlsTable latest s) (e : BitVec 8) :
    s.gdtEntry e = gdtAddr + e.toNat * gdtDescriptorSize := by
  unfold Machine.gdtEntry
  rw [h.base]

theorem TlsTable.inTable (h : TlsTable latest s) (he : e.toNat < gdtEntries) {i : ℕ}
    (h1 : s.gdtEntry e ≤ i) (h2 : i < s.gdtEntry e + 9) : InTable i := by
  rw [h.gdtEntry_eq] at h1 h2
  unfold InTable
  unfold gdtEntries at *
  unfold gdtDescriptorSize at *
  omega

/-- What keeps the table keeps its meaning. -/
theorem TlsTable.between (h : TlsTable latest s) (hg : t.gdtr = s.gdtr)
    (hm : ∀ i, InTable i → t.mem i = s.mem i) : TlsTable latest t := by
  constructor
  · rw [hg]
    exact h.base
  · intro e he
    rw [gdtEntry_congr hg, hm _ (h.inTable (lt_of_mem_tlsEntries he) (by omega) (by omega))]
    exact h.used e he
  · intro e b hl
    obtain ⟨he, hb⟩ := h.given e b hl
    have hd := gdtDescriptor_selectorOf s (lt_of_mem_tlsEntries he)
    refine ⟨he, (getGdtBase_congr hg fun i h1 h2 => ?_).trans hb⟩
    rw [hd] at h1 h2
    exact hm i (h.inTable (lt_of_mem_tlsEntries he) h1 h2)

theorem TlsTable.apart (h : TlsTable latest s) (call : TlsCall s arg1) (he : e ∈ tlsEntries) :
    Apart (s.gdtEntry e) arg1.toNat := by
  have hlt := lt_of_mem_tlsEntries he
  have hout := call.outside
  rw [h.gdtEntry_eq]
  unfold Apart
  unfold gdtEntries at *
  unfold gdtDescriptorSize at *
  omega

/-- The other descriptors of the table stay. -/
theorem TlsTable.other (h : TlsTable latest s) (call : TlsCall s arg1) {e' : BitVec 8}
    (he' : e'.toNat < gdtEntries) (hne : e' ≠ e) {i : ℕ} (h1 : s.gdtEntry e' ≤ i)
    (h2 : i < s.gdtEntry e' + 9) : (s.withEntry arg1.toNat e).mem i = s.mem i := by
  have hin := h.inTable he' h1 h2
  have hout := call.outside
  have hne' : e'.toNat ≠ e.toNat := fun heq => hne (BitVec.eq_of_toNat_eq heq)
  rw [h.gdtEntry_eq] at h1 h2
  refine withEntry_of_not_mem ?_ ?_
  · rw [h.gdtEntry_eq]
    unfold gdtDescriptorSize at *
    omega
  · unfold InTable at hin
    omega

/-- A created entry is used and has its base. -/
theorem TlsTable.created (h : TlsTable latest s) (call : TlsCall s arg1) (he : e ∈ tlsEntries) :
    TlsTable (Function.update latest e (some (userBase arg1.toNat s.mem)))
      (s.withEntry arg1.toNat e) := by
  have hapart := h.apart call he
  constructor
  · exact h.base
  · intro e' he'
    change (s.withEntry arg1.toNat e).mem (s.gdtEntry e' + 8) = 0 ↔ _
    by_cases hee : e' = e
    · subst hee
      have hused : (s.withEntry arg1.toNat e').mem (s.gdtEntry e' + 8) = 1 := created_used hapart
      rw [hused, Function.update_self]
      simp
    · rw [h.other call (lt_of_mem_tlsEntries he') hee (by omega) (by omega),
        Function.update_of_ne hee]
      exact h.used e' he'
  · intro e' b hl
    by_cases hee : e' = e
    · subst hee
      rw [Function.update_self] at hl
      exact ⟨he, (getGdtBase_withEntry he hapart).trans (Option.some.inj hl)⟩
    · rw [Function.update_of_ne hee] at hl
      obtain ⟨he', hb⟩ := h.given e' b hl
      have hlt := lt_of_mem_tlsEntries he'
      have hd := gdtDescriptor_selectorOf s hlt
      refine ⟨he', Eq.trans (@getGdtBase_congr s (s.withEntry arg1.toNat e) _ rfl
        fun i h1 h2 => ?_) hb⟩
      rw [hd] at h1 h2
      exact h.other call hlt hee h1 h2

end Runs

/-! ## The initial table -/

section Initial

/-- An initial descriptor, and nothing else, is written. -/
theorem initDescriptor_run (s : Machine) (table i : ℕ) : ∃ m,
    (initDescriptor table i).run s = .ok ((), { s with mem := m }) ∧
      (∀ a, ¬ (table + i * gdtDescriptorSize ≤ a ∧ a < table + i * gdtDescriptorSize + 9) →
        m a = s.mem a) ∧
      (6 ≤ i → m (table + i * gdtDescriptorSize + 8) = 0) := by
  have hword (m : ℕ → BitVec 8) (a : ℕ) (x : BitVec 32) : (store .word (.mem a) x).run
      { s with mem := m } = .ok ((), { s with mem := writeLE m a 2 x }) := store_run (.mem a) x
  have hbyte (m : ℕ → BitVec 8) (a : ℕ) (x : BitVec 32) : (store .byte (.mem a) x).run
      { s with mem := m } = .ok ((), { s with mem := writeLE m a 1 x }) := store_run (.mem a) x
  generalize hd : table + i * gdtDescriptorSize = d
  unfold initDescriptor
  rw [hd, run_bind_ok (hword _ _ _), run_bind_ok (hword _ _ _), run_bind_ok (hbyte _ _ _),
    run_bind_ok (hbyte _ _ _), run_bind_ok (hbyte _ _ _), run_bind_ok (hbyte _ _ _)]
  by_cases h0 : i = 0
  · rw [if_pos h0, hword]
    refine ⟨_, rfl, fun a ha => ?_, fun h6 => by omega⟩
    repeat rw [writeLE_of_not_mem (by omega)]
  · by_cases h6 : 6 ≤ i
    · rw [if_neg h0, if_pos h6, hbyte]
      refine ⟨_, rfl, fun a ha => ?_, fun _ => ?_⟩
      · repeat rw [writeLE_of_not_mem (by omega)]
      · have hused (m : ℕ → BitVec 8) : writeLE m (d + 8) 1 (0 : BitVec 32) (d + 8 + 0) = 0 :=
          (writeLE_add one_pos _).trans (by decide)
        exact hused _
    · rw [if_neg h0, if_neg h6]
      refine ⟨_, rfl, fun a ha => ?_, fun h => absurd h h6⟩
      repeat rw [writeLE_of_not_mem (by omega)]

/-- The first `n` descriptors; those from 6 on are free. -/
theorem initDescriptors_run (s : Machine) (table : ℕ) : ∀ n, ∃ m,
    (initDescriptors table n).run s = .ok ((), { s with mem := m }) ∧
      ∀ i, 6 ≤ i → i < n → m (table + i * gdtDescriptorSize + 8) = 0
  | 0 => ⟨s.mem, rfl, fun i _ hi => absurd hi (Nat.not_lt_zero i)⟩
  | n + 1 => by
    obtain ⟨m, hm, hfree⟩ := initDescriptors_run s table n
    obtain ⟨m', hm', hother, hlast⟩ := initDescriptor_run { s with mem := m } table n
    refine ⟨m', (run_bind_ok hm).trans hm', fun i h6 hi => ?_⟩
    rcases Nat.lt_succ_iff_lt_or_eq.1 hi with hlt | rfl
    · rw [hother _ (by unfold gdtDescriptorSize; omega)]
      exact hfree i h6 hlt
    · exact hlast h6

theorem initializeGdt_run (s : Machine) : ∃ t, initializeGdt.run s = .ok ((), t) ∧
    TlsTable (fun _ => none) t := by
  obtain ⟨m, hm, hfree⟩ := initDescriptors_run s gdtAddr gdtEntries
  have haddr : (BitVec.ofNat 32 gdtAddr).toNat = gdtAddr := by decide
  refine ⟨_, run_bind_ok hm, haddr, fun e he => ?_, fun e b hl => by cases hl⟩
  obtain ⟨h6, hlt⟩ := bounds_of_mem_tlsEntries he
  exact ⟨fun _ => rfl, fun _ => hfree e.toNat h6 hlt⟩

end Initial

/-! ## Every run -/

section Run

variable {latest : BitVec 8 → Option (BitVec 32)} {s : Machine} {arg1 : BitVec 32}

theorem TlsTable.freeEntry (h : TlsTable latest s) {e : BitVec 8} (he : s.freeEntry = some e) :
    e ∈ tlsEntries ∧ latest e = none :=
  have ⟨hmem, hfree⟩ := freeEntry_spec he
  ⟨hmem, (h.used e hmem).1 hfree⟩

theorem TlsCall.reports {t : Machine} {e : BitVec 8} (call : TlsCall s arg1)
    (hr : Reports s arg1 e t) : e ∈ tlsEntries ∧ t = s.withEntry arg1.toNat e := by
  obtain ⟨hpick, ht⟩ := doSetThreadArea_ok hr.1 hr.2
  exact ⟨mem_tlsEntries_of_pickEntry call.entry hpick, ht⟩

theorem TlsRun.tlsTable (run : TlsRun latest s) : TlsTable latest s := by
  induction run with
  | @start s₀ s hrun =>
    obtain ⟨t, ht, htable⟩ := initializeGdt_run s₀
    rw [hrun] at ht
    cases ht
    exact htable
  | between _ hg hm ih => exact ih.between hg hm
  | created _ call hr ih =>
    obtain ⟨he, rfl⟩ := TlsCall.reports call hr
    exact ih.created call he
  | @refused latest s t arg1 ret _ call hrun hne ih =>
    rcases hp : s.pickEntry arg1.toNat with _ | e
    · rw [doSetThreadArea_of_none hp] at hrun
      cases hrun
      exact ih
    · rw [doSetThreadArea_of_some hp] at hrun
      cases hrun
      exact absurd rfl hne

theorem TlsTable.serves (h : TlsTable latest s) (call : TlsCall s arg1) :
    Serves latest s arg1 := by
  have hpicked {e : BitVec 8} (hp : s.pickEntry arg1.toNat = some e) :
      Reports s arg1 e (s.withEntry arg1.toNat e) :=
    ⟨doSetThreadArea_of_some hp, userEntry_created⟩
  have hnone : userEntry arg1.toNat s.mem = -1 → s.pickEntry arg1.toNat = s.freeEntry :=
    fun hentry => if_neg (not_not_intro hentry)
  constructor
  · intro e he hentry
    have hlt := lt_of_mem_tlsEntries he
    unfold gdtEntries at hlt
    refine ⟨_, hpicked ?_⟩
    unfold Machine.pickEntry
    rw [hentry, if_pos (by bv_omega)]
    exact congrArg some (by bv_omega)
  · rintro hentry ⟨e, he, hfree⟩
    rcases hp : s.freeEntry with _ | e'
    · exact absurd ((h.used e he).2 hfree) (freeEntry_eq_none.1 hp e he)
    · obtain ⟨he', hfree'⟩ := h.freeEntry hp
      exact ⟨_, e', he', hfree', hpicked ((hnone hentry).trans hp)⟩
  · intro hentry hfull
    have hp : s.freeEntry = none :=
      freeEntry_eq_none.2 fun e he hfree => hfull e he ((h.used e he).1 hfree)
    exact doSetThreadArea_of_none ((hnone hentry).trans hp)
  · intro e t hr
    obtain ⟨he, rfl⟩ := TlsCall.reports call hr
    refine ⟨he, ?_, fun e' he' hne => ?_⟩
    · have hadd := addresses_getGdtBase (s.withEntry arg1.toNat e) e
      rwa [getGdtBase_withEntry he (h.apart call he)] at hadd
    · refine @getGdtBase_congr s (s.withEntry arg1.toNat e) _ rfl fun i h1 h2 => ?_
      rw [gdtDescriptor_selectorOf s he'] at h1 h2
      exact h.other call he' hne h1 h2

/-- In every run each entry addresses by the base it was last given, and a call takes an entry that
is free, or fails when none is. -/
theorem tlsRun_serves (run : TlsRun latest s) :
    (∀ e b, latest e = some b → Addresses s e b) ∧
      ∀ arg1, TlsCall s arg1 → Serves latest s arg1 := by
  have htable := run.tlsTable
  refine ⟨fun e b hl => ?_, fun arg1 call => htable.serves call⟩
  have hadd := addresses_getGdtBase s e
  rwa [(htable.given e b hl).2] at hadd

/-- The run that gives entry 6 a base by a structure at address 0. -/
theorem tlsRun_serves_first : ∃ t,
    TlsRun (Function.update (fun _ => none) 6 (some 0x12345678)) t ∧ Addresses t 6 0x12345678 := by
  obtain ⟨s, hs, -⟩ := initializeGdt_run Machine.blank
  let u : Machine := { s with mem := writeLE (writeLE s.mem 0 4 (6 : BitVec 32)) 4 4 0x12345678#32 }
  have hentry : userEntry 0 u.mem = 6 :=
    (readLE_writeLE_of_disjoint (.inr (by decide))).trans (readLE_writeLE ..)
  have hbase : userBase 0 u.mem = 0x12345678 := readLE_writeLE ..
  have hbefore : TlsRun (fun _ => none) u := by
    refine .between (.start hs) rfl fun i hi => ?_
    unfold InTable gdtAddr at hi
    exact (writeLE_of_not_mem (by omega)).trans (writeLE_of_not_mem (by omega))
  have hcall : TlsCall u 0 := by
    refine ⟨.inl (by decide), ?_⟩
    change userEntry 0 u.mem ∈ _
    rw [hentry]
    decide
  obtain ⟨t, ht⟩ := ((tlsRun_serves hbefore).2 0 hcall).named 6 (by decide) hentry
  have hrun := hbefore.created hcall ht
  change TlsRun (Function.update _ 6 (some (userBase 0 u.mem))) t at hrun
  rw [hbase] at hrun
  exact ⟨t, hrun, (tlsRun_serves hrun).1 6 _ (Function.update_self ..)⟩

end Run

end I386Vm
