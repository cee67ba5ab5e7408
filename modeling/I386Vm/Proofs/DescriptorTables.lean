import I386Vm.System
import I386Vm.Proofs.Address
import I386Vm.Proofs.ThreadLocal

/-!
# The descriptor table registers

`SGDT` and `SIDT` store the limit and three bytes of the base, with a zero for the fourth; `LGDT`
and `LIDT` load all six bytes.
-/

namespace I386Vm

open Bytes Prog

inductive TableReg
  | gdtr
  | idtr

namespace TableReg

def storeI : TableReg → Handler
  | .gdtr => sgdtI
  | .idtr => sidtI

def loadI : TableReg → Handler
  | .gdtr => lgdtI
  | .idtr => lidtI

def get : TableReg → Machine → GDTR
  | .gdtr, s => s.gdtr
  | .idtr, s => s.idtr

def set : TableReg → GDTR → Machine → Machine
  | .gdtr, g, s => { s with gdtr := g }
  | .idtr, g, s => { s with idtr := g }

@[simp] theorem get_set (r : TableReg) (g : GDTR) (s : Machine) : r.get (r.set g s) = g := by
  cases r <;> rfl

end TableReg

/-- The six bytes at `a` of a register that is stored. -/
def tableBytes (m : ℕ → BitVec 8) (a : ℕ) (g : GDTR) : ℕ → BitVec 8 :=
  writeLE (writeLE m a 2 (g.limit.setWidth 32)) (a + 2) 4 (g.base &&& 0xFFFFFF)

/-- The limit and the low three bytes of the base come back, and six bytes at `a` are all that is
written. -/
structure RoundTrips (r : TableReg) (a : ℕ) (s u : Machine) : Prop where
  limit : (r.get u).limit = (r.get s).limit
  base : (r.get u).base = (r.get s).base &&& 0xFFFFFF
  frame : ∀ i, ¬ (a ≤ i ∧ i < a + 6) → u.mem i = s.mem i
  rest : u = r.set (r.get u) { s with mem := u.mem, eip := u.eip }

/-- The store does not change what address the operand names. -/
def Stays (r : TableReg) (store : CsInsn) (m : X86OpMem) (s : Machine) : Prop :=
  ∀ q t, (r.storeI store).run s = .ok (q, t) → t.effAddr m = s.effAddr m

section Runs

variable {r : TableReg} {insn : CsInsn} {m : X86OpMem} {n : BitVec 8} {s : Machine}

theorem op1_mem_of_cons (h : insn.operands = [⟨.mem m, n⟩]) : insn.op1.mem = m := by
  rw [op1_of_cons h]
  rfl

theorem storeI_run (h : insn.operands = [⟨.mem m, n⟩]) (hm : m.IsAddress) :
    (r.storeI insn).run s = .ok (some 0, { s.advance insn with
      mem := tableBytes s.mem (s.effAddr m).toNat (r.get s) }) := by
  have hstore (g : GDTR) : (storeGDTR insn.op1 g).run (s.advance insn) =
      .ok ((), { s.advance insn with mem := tableBytes s.mem (s.effAddr m).toNat g }) := by
    unfold storeGDTR
    rw [run_bind_ok run_get_ok, op1_mem_of_cons h, (SameData.advance s insn).effAddr hm.not_control,
      run_bind_ok (store_run (.mem _) _), store_run (.mem _)]
    rfl
  cases r with
  | gdtr =>
    change (sgdtI insn).run s = _
    unfold sgdtI
    rw [run_bind_ok (advance_run s insn), run_bind_ok run_get_ok, run_bind_ok (hstore _)]
    rfl
  | idtr =>
    change (sidtI insn).run s = _
    unfold sidtI
    rw [run_bind_ok (advance_run s insn), run_bind_ok run_get_ok, run_bind_ok (hstore _)]
    rfl

theorem loadI_run (h : insn.operands = [⟨.mem m, n⟩]) (hm : m.IsAddress) :
    (r.loadI insn).run s = .ok (some 0, r.set
      ⟨(readLE s.mem (s.effAddr m).toNat 2 : BitVec 32).setWidth 16,
        readLE s.mem ((s.effAddr m).toNat + 2) 4⟩ (s.advance insn)) := by
  have hload : (loadGDTR insn.op1).run (s.advance insn) =
      .ok (⟨(readLE s.mem (s.effAddr m).toNat 2 : BitVec 32).setWidth 16,
        readLE s.mem ((s.effAddr m).toNat + 2) 4⟩, s.advance insn) := by
    unfold loadGDTR
    rw [run_bind_ok run_get_ok, op1_mem_of_cons h, (SameData.advance s insn).effAddr hm.not_control,
      run_bind_ok (load_run (.mem _)), run_bind_ok (load_run (.mem _))]
    rfl
  cases r with
  | gdtr =>
    change (lgdtI insn).run s = _
    unfold lgdtI
    rw [run_bind_ok (advance_run s insn), run_bind_ok hload]
    rfl
  | idtr =>
    change (lidtI insn).run s = _
    unfold lidtI
    rw [run_bind_ok (advance_run s insn), run_bind_ok hload]
    rfl

end Runs

section Bytes

variable {m : ℕ → BitVec 8} {a : ℕ} {g : GDTR}

theorem tableBytes_of_not_mem {i : ℕ} (h : ¬ (a ≤ i ∧ i < a + 6)) : tableBytes m a g i = m i := by
  unfold tableBytes
  rw [writeLE_of_not_mem (by omega), writeLE_of_not_mem (by omega)]

theorem limit_tableBytes : (readLE (tableBytes m a g) a 2 : BitVec 32).setWidth 16 = g.limit := by
  unfold tableBytes
  rw [readLE_writeLE_of_disjoint (by omega), readLE_writeLE, setWidth_low]
  exact BitVec.setWidth_setWidth_of_le _ (by decide)

theorem base_tableBytes : readLE (tableBytes m a g) (a + 2) 4 = g.base &&& 0xFFFFFF := by
  unfold tableBytes
  rw [readLE_writeLE]
  exact low_of_le (le_refl 32) _

theorem and_low_three_eq_iff {x : BitVec 32} : x &&& 0xFFFFFF = x ↔ x.toNat < 2 ^ 24 := by
  have hmod : (x &&& 0xFFFFFF).toNat = x.toNat % 2 ^ 24 := by
    rw [BitVec.toNat_and]
    exact Nat.and_two_pow_sub_one_eq_mod x.toNat 24
  rw [← BitVec.toNat_inj, hmod]
  exact ⟨fun h => h ▸ Nat.mod_lt _ (by decide), Nat.mod_eq_of_lt⟩

end Bytes

section Pairs

variable {r : TableReg} {store load : CsInsn} {m : X86OpMem} {n k : BitVec 8} {s : Machine}

/-- The operand and the descriptor table do not overlap. -/
def ClearOfTable (s : Machine) (m : X86OpMem) : Prop :=
  (s.effAddr m).toNat + 6 ≤ s.gdtr.base.toNat ∨
    s.gdtr.base.toNat + gdtEntries * gdtDescriptorSize ≤ (s.effAddr m).toNat

theorem getGdtBase_of_clear {t : Machine} (hclear : ClearOfTable s m) (hg : t.gdtr = s.gdtr)
    (hmem : ∀ i, ¬ ((s.effAddr m).toNat ≤ i ∧ i < (s.effAddr m).toNat + 6) → t.mem i = s.mem i)
    (x : BitVec 16) : t.getGdtBase x = s.getGdtBase x := by
  refine getGdtBase_congr hg fun i h1 h2 => hmem i ?_
  have hindex : ((x >>> 3) &&& 0x1FFF).toNat % gdtEntries < gdtEntries := Nat.mod_lt _ (by decide)
  unfold ClearOfTable at hclear
  unfold Machine.gdtDescriptor at h1 h2
  unfold gdtEntries gdtDescriptorSize at *
  omega

variable (hstore : store.operands = [⟨.mem m, n⟩]) (hm : m.IsAddress)
include hstore hm

/-- Only a segment whose descriptor is overwritten moves the operand. -/
theorem stays_of_clear (h : m.segment = .invalid ∨ ClearOfTable s m) : Stays r store m s := by
  intro q t hrun
  rw [storeI_run hstore hm] at hrun
  generalize ht : ({ s.advance store with
    mem := tableBytes s.mem (s.effAddr m).toNat (r.get s) } : Machine) = u at hrun
  cases hrun
  have hmem (i : ℕ) (hi : ¬ ((s.effAddr m).toNat ≤ i ∧ i < (s.effAddr m).toNat + 6)) :
      t.mem i = s.mem i := by
    rw [← ht]
    exact tableBytes_of_not_mem hi
  have hreg (x : X86Reg) (hx : ¬ x.Control) : t.regVal x = s.regVal x := by
    have hsame : SameData { s with mem := t.mem } t := by
      rw [← ht]
      exact ⟨rfl, rfl, rfl, rfl⟩
    rw [hsame.regVal hx]
    cases x <;> rfl
  obtain ⟨hs, hb, hi⟩ := hm.not_control
  unfold Machine.effAddr
  rw [hreg _ hs, hreg _ hb, hreg _ hi]
  rcases h with hinv | hclear
  · rw [if_neg (not_not.2 hinv), if_neg (not_not.2 hinv)]
  · rw [getGdtBase_of_clear hclear (by rw [← ht]; rfl) hmem]

variable (hload : load.operands = [⟨.mem m, k⟩])
include hload

theorem store_load_run (hstays : Stays r store m s) : ∃ q t q' u,
    (r.storeI store).run s = .ok (q, t) ∧ (r.loadI load).run t = .ok (q', u) ∧
      RoundTrips r (s.effAddr m).toNat s u := by
  have hrun := storeI_run (r := r) (s := s) hstore hm
  have haddr := hstays _ _ hrun
  refine ⟨_, _, _, _, hrun, loadI_run hload hm, ?_, ?_, fun i hi => ?_, ?_⟩
  · rw [TableReg.get_set, haddr]
    exact limit_tableBytes
  · rw [TableReg.get_set, haddr]
    exact base_tableBytes
  · have hmem (g : GDTR) (u : Machine) : (r.set g u).mem = u.mem := by
      cases r <;> rfl
    rw [hmem]
    exact tableBytes_of_not_mem hi
  · rw [TableReg.get_set]
    cases r <;> rfl

end Pairs

/-- A store and then a load at the same six bytes clear the highest byte of the base, which keeps
the register where it is below `2^24`, and with the register every segment's base where the operand
is clear of the table. -/
theorem tableReg_roundTrips (r : TableReg) {store load : CsInsn} {m : X86OpMem} {n k : BitVec 8}
    {s : Machine} (hstore : store.operands = [⟨.mem m, n⟩]) (hload : load.operands = [⟨.mem m, k⟩])
    (hm : m.IsAddress) :
    ((m.segment = .invalid ∨ ClearOfTable s m) → Stays r store m s) ∧
    (Stays r store m s → ∃ q t q' u,
      (r.storeI store).run s = .ok (q, t) ∧ (r.loadI load).run t = .ok (q', u) ∧
        RoundTrips r (s.effAddr m).toNat s u ∧
        (r.get u = r.get s ↔ (r.get s).base.toNat < 2 ^ 24) ∧
        (r = .idtr ∨ s.gdtr.base.toNat < 2 ^ 24 → ClearOfTable s m →
          ∀ x, u.getGdtBase x = s.getGdtBase x)) := by
  refine ⟨stays_of_clear hstore hm, fun hstays => ?_⟩
  obtain ⟨q, t, q', u, hrun, hrun', h⟩ := store_load_run hstore hm hload hstays
  have hget : r.get u = ⟨(r.get s).limit, (r.get s).base &&& 0xFFFFFF⟩ := by
    rw [← h.limit, ← h.base]
  refine ⟨q, t, q', u, hrun, hrun', h, ?_, fun hlow hclear => ?_⟩
  · rw [hget, ← and_low_three_eq_iff]
    constructor
    · exact congrArg GDTR.base
    · intro hbase
      rw [hbase]
  · refine getGdtBase_of_clear hclear ?_ h.frame
    rw [h.rest]
    cases r with
    | gdtr =>
      rcases hlow with hr | hlow
      · cases hr
      · rw [hget]
        change (⟨s.gdtr.limit, s.gdtr.base &&& 0xFFFFFF⟩ : GDTR) = s.gdtr
        rw [and_low_three_eq_iff.2 hlow]
    | idtr => rfl

/-- `SGDT [100]`, and with other handlers `LGDT`, `SIDT` and `LIDT` -/
def sgdt100 : CsInsn := .bare "sgdt" 7 [⟨.mem ⟨.invalid, .invalid, .invalid, 1, 100⟩, 6⟩]

/-- `SGDT ES:[EDI]`, and with another handler `LGDT ES:[EDI]` -/
def sgdtEdi : CsInsn := .bare "sgdt" 4 [⟨.mem ⟨.es, .edi, .invalid, 1, 0⟩, 6⟩]

theorem isAddress_100 : X86OpMem.IsAddress ⟨.invalid, .invalid, .invalid, 1, 100⟩ :=
  ⟨by decide, by decide, by decide, by decide⟩

theorem isAddress_edi : X86OpMem.IsAddress ⟨.es, .edi, .invalid, 1, 0⟩ :=
  ⟨by decide, by decide, by decide, by decide⟩

/-- A table of nine descriptors at 0x345678. -/
def tabled : Machine := { Machine.blank with gdtr := ⟨90, 0x345678⟩ }

/-- The operand is clear of it. -/
theorem tableReg_roundTrips_tabled : ∃ q t q' u,
    (sgdtI sgdt100).run tabled = .ok (q, t) ∧ (lgdtI sgdt100).run t = .ok (q', u) ∧
      u.gdtr = ⟨90, 0x345678⟩ ∧ ∀ x, u.getGdtBase x = tabled.getGdtBase x := by
  obtain ⟨hstays, hround⟩ := @tableReg_roundTrips .gdtr sgdt100 sgdt100
    ⟨.invalid, .invalid, .invalid, 1, 100⟩ 6 6 tabled rfl rfl isAddress_100
  obtain ⟨q, t, q', u, hrun, hrun', -, hsame, hbase⟩ := hround (hstays (.inl rfl))
  exact ⟨q, t, q', u, hrun, hrun', hsame.2 (by decide),
    hbase (.inr (by decide)) (.inl (by decide))⟩

/-- A base of `2^24` comes back as 0; and where the operand is in its own descriptor, what comes
back was never stored. -/
theorem not_roundTrips :
    (¬ ∀ (r : TableReg) (store load : CsInsn) (m : X86OpMem) (n k : BitVec 8) (s : Machine),
      store.operands = [⟨.mem m, n⟩] → load.operands = [⟨.mem m, k⟩] → m.IsAddress →
      Stays r store m s → ∃ q t q' u, (r.storeI store).run s = .ok (q, t) ∧
        (r.loadI load).run t = .ok (q', u) ∧ r.get u = r.get s) ∧
    ¬ ∀ (r : TableReg) (store load : CsInsn) (m : X86OpMem) (n k : BitVec 8) (s : Machine),
      store.operands = [⟨.mem m, n⟩] → load.operands = [⟨.mem m, k⟩] → m.IsAddress →
      (r.get s).base.toNat < 2 ^ 24 → ∃ q t q' u, (r.storeI store).run s = .ok (q, t) ∧
        (r.loadI load).run t = .ok (q', u) ∧ r.get u = r.get s := by
  constructor
  · intro hall
    have hstays := @stays_of_clear .gdtr sgdt100 ⟨.invalid, .invalid, .invalid, 1, 100⟩ 6
      { Machine.blank with gdtr := ⟨90, 0x1000000⟩ } rfl isAddress_100 (.inl rfl)
    obtain ⟨q, t, q', u, hrun, hrun', hget⟩ := hall .gdtr sgdt100 sgdt100 _ 6 6 _ rfl rfl
      isAddress_100 hstays
    rw [storeI_run (m := ⟨.invalid, .invalid, .invalid, 1, 100⟩) rfl isAddress_100] at hrun
    cases hrun
    rw [loadI_run (m := ⟨.invalid, .invalid, .invalid, 1, 100⟩) rfl isAddress_100] at hrun'
    cases hrun'
    exact absurd (congrArg GDTR.base hget) (by decide)
  · intro hall
    obtain ⟨q, t, q', u, hrun, hrun', hget⟩ := hall .gdtr sgdtEdi sgdtEdi _ 6 6
      { Machine.blank.setReg .edi 16 with gdtr := ⟨90, 16⟩ } rfl rfl isAddress_edi (by decide)
    rw [storeI_run (m := ⟨.es, .edi, .invalid, 1, 0⟩) rfl isAddress_edi] at hrun
    cases hrun
    rw [loadI_run (m := ⟨.es, .edi, .invalid, 1, 0⟩) rfl isAddress_edi] at hrun'
    cases hrun'
    exact absurd (congrArg GDTR.base hget) (by decide)

end I386Vm
