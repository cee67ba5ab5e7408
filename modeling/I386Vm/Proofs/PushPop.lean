import I386Vm.Proofs.Address
import I386Vm.Proofs.Negation
import I386Vm.Proofs.Stack

/-!
# `PUSH` and `POP`

`push_i` evaluates its operand before it moves `ESP`. `pop_i` moves `ESP` last: it adds to what it
has popped into `ESP` itself, and an address with `ESP` in it is the one from before. A memory
destination always takes 32 bits.
-/

namespace I386Vm

open Bytes Prog

namespace Machine

/-- The bytes of the width from `a` on are those of `v`, and everything else is as it was. -/
structure Stored (w : Width) (a v : BitVec 32) (s t : Machine) : Prop where
  state : t = { s with mem := t.mem }
  bytes : ∀ j < w.bytes, t.mem ((a.toNat + j) % 2 ^ 32) = byteOf j v
  frame : ∀ i, (∀ j < w.bytes, i ≠ (a.toNat + j) % 2 ^ 32) → t.mem i = s.mem i

/-- The word of the width at `a`. -/
def word (s : Machine) (w : Width) (a : BitVec 32) : BitVec 32 := readLE (s.wrapped a) 0 w.bytes

section Words

variable {w : Width} {a v : BitVec 32} {s t : Machine}

theorem stored_write32 (s : Machine) (a v : BitVec 32) : Stored .dword a v s (s.write32 a v) :=
  ⟨rfl, fun _ hj => s.write32_mem_idx a v hj, fun _ hi => s.write32_mem_of_ne a v hi⟩

theorem byteOf_low {n j : ℕ} (h : 8 * (j + 1) ≤ n) (v : BitVec 32) :
    byteOf j (low n v) = byteOf j v := by
  rw [byteOf_eq_iff]
  intro i hi
  rw [getLsbD_low, decide_eq_true (by omega), Bool.true_and]

theorem stored_write16 (s : Machine) (a v : BitVec 32) :
    Stored .word a v s (s.write16 a (v.setWidth 16)) := by
  have ha := a.isLt
  have hmem (i : ℕ) : (s.write16 a (v.setWidth 16)).mem i =
      if i = (a.toNat + 1) % 2 ^ 32 then byteOf 1 (v.setWidth 16)
      else if i = a.toNat then byteOf 0 (v.setWidth 16) else s.mem i := by
    rw [← toNat_add_lit a 1 (by omega)]
    unfold write16 write8
    simp only [Function.update_apply]
    rfl
  refine ⟨rfl, fun j hj => ?_, fun i hi => ?_⟩
  · rw [hmem]
    rcases j with _ | _ | j
    · rw [if_neg (by omega), if_pos (by omega), byteOf_setWidth (by decide)]
    · rw [if_pos (by omega), byteOf_setWidth (by decide)]
    · change j + 2 < 2 at hj
      omega
  · have h0 := hi 0 (by decide)
    rw [hmem, if_neg (hi 1 (by decide)), if_neg (by omega)]

/-- Only the low part of the word is stored. -/
theorem Stored.low_iff : Stored w a (low w.bits v) s t ↔ Stored w a v s t := by
  have hbyte (j : ℕ) (hj : j < w.bytes) : byteOf j (low w.bits v) = byteOf j v :=
    byteOf_low (by unfold Width.bits; omega) v
  constructor
  · exact fun h => ⟨h.state, fun j hj => (h.bytes j hj).trans (hbyte j hj), h.frame⟩
  · exact fun h => ⟨h.state, fun j hj => (h.bytes j hj).trans (hbyte j hj).symm, h.frame⟩

theorem word_eq_iff : s.word w a = v ↔
    (∀ j < w.bytes, s.mem ((a.toNat + j) % 2 ^ 32) = byteOf j v) ∧ v.toNat < 2 ^ w.bits := by
  have hbytes : w.bytes ≤ 4 := by
    cases w <;> decide
  unfold word
  rw [readLE_eq_iff _ (by omega)]
  refine and_congr_left' (forall_congr' fun j => imp_congr_right fun hj => ?_)
  rw [Nat.zero_add, wrapped, toNat_add_lit a j (by omega)]

theorem Stored.word_eq (h : Stored w a v s t) : t.word w a = low w.bits v :=
  word_eq_iff.2 ⟨(low_iff.2 h).bytes, toNat_low_lt _ _⟩

theorem word_dword (s : Machine) (a : BitVec 32) : s.word .dword a = s.read32 a :=
  (s.read32_eq_wrapped a).symm

theorem word_word (s : Machine) (a : BitVec 32) : s.word .word a = s.read16 a :=
  (s.read16_eq_wrapped a).symm

/-- Words whose addresses differ by a multiple of 4 are the same or apart. -/
theorem word_ne_of_multiple {k : BitVec 32} (hne : a + 4 * k ≠ a) {i j : ℕ} (hi : i < 4)
    (hj : j < 4) : ((a + 4 * k).toNat + i) % 2 ^ 32 ≠ (a.toNat + j) % 2 ^ 32 := by
  have hadd : (a + 4 * k).toNat = (a.toNat + 4 * k.toNat) % 2 ^ 32 := by
    rw [BitVec.toNat_add, BitVec.toNat_mul]
    exact Nat.add_mod_mod _ _ _
  intro h
  refine hne (BitVec.eq_of_toNat_eq ?_)
  have ha := a.isLt
  omega

/-- Memory is the same after either destination exactly where it is one, or both hold the word. -/
theorem write32_stored_iff {k : BitVec 32} :
    Stored .dword (a + 4 * k) v s (s.write32 a v) ↔
      a + 4 * k = a ∨ (s.word .dword a = v ∧ s.word .dword (a + 4 * k) = v) := by
  have hlt : v.toNat < 2 ^ Width.dword.bits := v.isLt
  rw [word_eq_iff, word_eq_iff, and_iff_left hlt, and_iff_left hlt]
  by_cases heq : a + 4 * k = a
  · rw [heq]
    exact iff_of_true (s.stored_write32 a v) (.inl rfl)
  have hapart {i j : ℕ} (hi : i < 4) (hj : j < 4) := word_ne_of_multiple heq hi hj
  rw [or_iff_right heq]
  constructor
  · intro h
    constructor
    · intro j hj
      rw [← h.frame _ fun i hi => (hapart hi hj).symm]
      exact s.write32_mem_idx a v hj
    · intro j hj
      rw [← h.bytes j hj]
      exact (s.write32_mem_of_ne a v fun i hi => hapart hj hi).symm
  · rintro ⟨ha, hb⟩
    refine ⟨rfl, fun j hj => ?_, fun i hi => ?_⟩
    · rw [s.write32_mem_of_ne a v fun i hi => hapart hj hi]
      exact hb j hj
    · by_cases hin : ∃ j < 4, i = (a.toNat + j) % 2 ^ 32
      · obtain ⟨j, hj, rfl⟩ := hin
        rw [s.write32_mem_idx a v hj]
        exact (ha j hj).symm
      · exact s.write32_mem_of_ne a v fun j hj h => hin ⟨j, hj, h⟩

end Words

end Machine

namespace Machine

/-- `ESP` above a word that is popped. -/
def raised (s : Machine) (w : Width) : Machine :=
  s.setReg .esp (s.reg .esp + BitVec.ofNat 32 w.bytes)

/-- `ESP` below a word that is pushed. -/
def lowered (s : Machine) (w : Width) : Machine :=
  s.setReg .esp (s.reg .esp - BitVec.ofNat 32 w.bytes)

variable (s : Machine)

theorem low_sixteen_add_four (x : BitVec 32) :
    ∃ k : BitVec 32, low 16 (x + 4) = low 16 x + 4 * k := by
  by_cases h : (low 16 x).toNat + 4 < 2 ^ 16
  · refine ⟨1, BitVec.eq_of_toNat_eq ?_⟩
    rw [toNat_low] at h
    rw [toNat_low, BitVec.toNat_add, BitVec.toNat_add, toNat_low]
    change (x.toNat + 4) % 2 ^ 32 % 2 ^ 16 = (x.toNat % 2 ^ 16 + 4) % 2 ^ 32
    omega
  · refine ⟨0xFFFFC001, BitVec.eq_of_toNat_eq ?_⟩
    rw [toNat_low] at h
    rw [toNat_low, BitVec.toNat_add, BitVec.toNat_add, toNat_low]
    change (x.toNat + 4) % 2 ^ 32 % 2 ^ 16 = (x.toNat % 2 ^ 16 + 0xFFFF0004) % 2 ^ 32
    omega

/-- What any register holds moves by a multiple of 4. -/
theorem regVal_raised (r : X86Reg) :
    ∃ k : BitVec 32, (s.raised .dword).regVal r = s.regVal r + 4 * k := by
  have hsame (h : (s.raised .dword).regVal r = s.regVal r) :
      ∃ k : BitVec 32, (s.raised .dword).regVal r = s.regVal r + 4 * k :=
    ⟨0, h.trans (BitVec.add_zero _).symm⟩
  cases r with
  | esp =>
    refine ⟨1, ?_⟩
    change low 32 ((s.raised .dword).reg .esp) = low 32 (s.reg .esp) + 4 * 1
    rw [low_of_le (le_refl 32), low_of_le (le_refl 32)]
    exact s.reg_setReg .esp _
  | sp =>
    obtain ⟨k, hk⟩ := low_sixteen_add_four (s.reg .esp)
    refine ⟨k, ?_⟩
    change low 16 ((s.raised .dword).reg .esp) = low 16 (s.reg .esp) + 4 * k
    rw [← hk]
    exact congrArg (low 16) (s.reg_setReg .esp _)
  | _ => exact hsame rfl

theorem regVal_seg_raised {seg : X86Reg} (h : seg ∈ segRegs) :
    (s.raised .dword).regVal seg = s.regVal seg := by
  simp only [segRegs, List.mem_cons, List.not_mem_nil, or_false] at h
  rcases h with rfl | rfl | rfl | rfl | rfl | rfl <;> rfl

theorem effAddr_raised {m : X86OpMem} (hseg : m.segment = .invalid ∨ m.segment ∈ segRegs) :
    ∃ k : BitVec 32, (s.raised .dword).effAddr m = s.effAddr m + 4 * k := by
  have hpart (r : X86Reg) : ∃ k : BitVec 32,
      (if r ≠ .invalid then (s.raised .dword).regVal r else 0) =
        (if r ≠ .invalid then s.regVal r else 0) + 4 * k := by
    split
    · exact s.regVal_raised r
    · exact ⟨0, rfl⟩
  have hbase : (if m.segment ≠ .invalid then
        (s.raised .dword).getGdtBase (((s.raised .dword).regVal m.segment).setWidth 16) else 0) =
      if m.segment ≠ .invalid then s.getGdtBase ((s.regVal m.segment).setWidth 16) else 0 := by
    rcases hseg with h | h
    · rw [if_neg (not_not.2 h), if_neg (not_not.2 h)]
    · rw [s.regVal_seg_raised h]
      rfl
  obtain ⟨k, hk⟩ := hpart m.base
  obtain ⟨l, hl⟩ := hpart m.index
  unfold effAddr
  rw [hbase, hk, hl]
  refine ⟨k + l * (if m.scale ≠ 0 then m.scale else 1), ?_⟩
  ring

end Machine

section Raised

variable {w : Width} {v : Var}

theorem Machine.raised_poke (hv : v ≠ .esp) (w : Width) (x : BitVec 32) (s : Machine) :
    (s.poke w (.var v) x).raised w = (s.raised w).poke w (.var v) x := by
  have hreg : (s.raised w).reg v = s.reg v := s.reg_setReg_of_ne hv _
  have hesp : (s.poke w (.var v) x).reg .esp = s.reg .esp := s.reg_setReg_of_ne (Ne.symm hv) _
  change (s.poke w (.var v) x).setReg .esp ((s.poke w (.var v) x).reg .esp + _) =
    (s.raised w).setReg v (merge w.bits ((s.raised w).reg v) x)
  rw [hreg, hesp]
  exact congrArg (fun reg => { s with reg := reg }) (Function.update_comm hv _ _ _)

theorem Machine.raised_poke_esp_ne (hw : w ≠ .byte) (x : BitVec 32) (s : Machine) :
    (s.poke w (.var .esp) x).raised w ≠ (s.raised w).poke w (.var .esp) x := by
  intro h
  have hesp := congrArg (fun t => low w.bits (t.reg .esp)) h
  have hlow := congrArg BitVec.toNat (low_merge w.bits (s.reg .esp) x)
  simp only [raised, poke, reg_setReg, low_merge] at hesp
  replace hesp := congrArg BitVec.toNat hesp
  rw [toNat_low, toNat_low] at hesp hlow
  rw [BitVec.toNat_add] at hesp
  cases w with
  | byte => exact hw rfl
  | word =>
    change ((merge 16 (s.reg .esp) x).toNat + 2) % 2 ^ 32 % 2 ^ 16 = x.toNat % 2 ^ 16 at hesp
    change (merge 16 (s.reg .esp) x).toNat % 2 ^ 16 = x.toNat % 2 ^ 16 at hlow
    omega
  | dword =>
    change ((merge 32 (s.reg .esp) x).toNat + 4) % 2 ^ 32 % 2 ^ 32 = x.toNat % 2 ^ 32 at hesp
    change (merge 32 (s.reg .esp) x).toNat % 2 ^ 32 = x.toNat % 2 ^ 32 at hlow
    omega

end Raised

/-- The value from before the instruction goes below `ESP`. -/
def IsPush (w : Width) (insn : CsInsn) (s : Machine) : Prop :=
  ∃ r t, (pushI insn).run s = .ok (r, t) ∧
    Machine.Stored w ((s.lowered w).reg .esp) (insn.op1.value w s) ((s.advance insn).lowered w) t

/-- The word on top goes to the destination after `ESP` has moved. -/
def IsPop (w : Width) (insn : CsInsn) (s : Machine) : Prop :=
  ∃ r t, (popI insn).run s = .ok (r, t) ∧
    if insn.op1.type = .reg then
      t = ((s.advance insn).raised w).poke w (regs insn.op1.reg) (s.word w (s.reg .esp))
    else Machine.Stored w (((s.advance insn).raised w).effAddr insn.op1.mem) (s.word w (s.reg .esp))
      ((s.advance insn).raised w) t

/-- The destination does not depend on `ESP`, or there is nothing to be seen of it. A memory
destination is 32 bits wide. -/
def PopHolds (w : Width) (dst : CsX86Op) (s : Machine) : Prop :=
  if dst.type = .reg then regs dst.reg ≠ .var .esp
  else w = .dword ∧ ((s.raised w).effAddr dst.mem = s.effAddr dst.mem ∨
    (s.word w (s.effAddr dst.mem) = s.word w (s.reg .esp) ∧
      s.word w ((s.raised w).effAddr dst.mem) = s.word w (s.reg .esp)))

section Runs

variable {w : Width} {insn : CsInsn} {s : Machine} (hop : insn.op1.IsLoc w)
include hop

theorem srcWide_run : ∃ x, (srcWide insn.op1).run s = .ok (x, s) ∧
    low w.bits x = insn.op1.value w s := by
  unfold srcWide
  rw [run_bind_ok run_get_ok]
  rcases hop.cases with ⟨ht, -⟩ | ⟨ht, -⟩
  · rw [if_pos ht, hop.regVal_eq ht]
    exact ⟨_, rfl, CsX86Op.IsLoc.low_value _ _ _⟩
  · rw [if_neg (by simp [ht]), if_neg (by simp [ht]), if_pos ht, load_run (.mem _)]
    refine ⟨_, rfl, ?_⟩
    rw [← Machine.peek_eq_low, ← Machine.opPtr_of_mem ht]
    rfl

theorem popI_mem_run (ht : insn.op1.type = .mem) : (popI insn).run s = .ok (some 0,
    (((s.advance insn).write32 (s.effAddr insn.op1.mem) (s.read32 (s.reg .esp))).raised
      .dword)) := by
  have hne : insn.op1.type ≠ .reg := by simp [ht]
  have haddr := (SameData.advance s insn).effAddr (hop.plain.mem hop.type_ne_imm)
  unfold popI
  rw [run_bind_ok (advance_run s insn), run_bind_ok run_get_ok, if_neg hne, if_pos ht, haddr]
  rfl

variable (hw : w ≠ .byte)
include hw

theorem pushI_isPush : IsPush w insn s := by
  obtain ⟨x, hx, hlow⟩ := @srcWide_run w insn (s.advance insn) hop
  rw [hop.value_congr (SameData.advance s insn)] at hlow
  have hesp : (s.lowered w).reg .esp = s.reg .esp - BitVec.ofNat 32 w.bytes := s.reg_setReg .esp _
  unfold IsPush pushI
  rw [run_bind_ok (advance_run s insn), run_bind_ok hx, hop.1, ← hlow, hesp]
  cases w with
  | byte => exact absurd rfl hw
  | word => exact ⟨_, _, rfl, Machine.Stored.low_iff.2 (Machine.stored_write16 _ _ _)⟩
  | dword => exact ⟨_, _, rfl, Machine.Stored.low_iff.2 (Machine.stored_write32 _ _ _)⟩

/-- Into a register, and then `ESP` moves. -/
theorem popI_reg_run {v : Var} (ht : insn.op1.type = .reg) (hv : regs insn.op1.reg = .var v) :
    (popI insn).run s = .ok (some 0,
      ((s.advance insn).poke w (.var v) (s.word w (s.reg .esp))).raised w) := by
  unfold popI
  rw [run_bind_ok (advance_run s insn), run_bind_ok run_get_ok, if_pos ht, hop.1, hv]
  cases w with
  | byte => exact absurd rfl hw
  | word =>
    rw [Machine.word_word]
    rfl
  | dword =>
    rw [Machine.word_dword]
    rfl

theorem popI_iff (hmem : insn.op1.type = .mem → insn.op1.mem.IsAddress) :
    IsPop w insn s ↔ PopHolds w insn.op1 s := by
  unfold IsPop PopHolds
  rcases hop.cases with ⟨ht, hr⟩ | ⟨ht, -⟩
  · obtain ⟨-, ⟨v, hv⟩, -, -⟩ := lowRegs_spec hr
    rw [popI_reg_run hop hw ht hv, exists_run_iff, if_pos ht, if_pos ht, hv]
    constructor
    · rintro h hesp
      cases hesp
      exact Machine.raised_poke_esp_ne hw _ _ h
    · intro hne
      exact Machine.raised_poke (fun h => hne (congrArg _ h)) _ _ _
  · have hne : insn.op1.type ≠ .reg := by simp [ht]
    rw [popI_mem_run hop ht, exists_run_iff, if_neg hne, if_neg hne]
    cases w with
    | byte => exact absurd rfl hw
    | word =>
      refine iff_of_false (fun h => ?_) fun h => nomatch h.1
      have hesp := congrArg (fun t => t.reg .esp) h.state
      change Function.update s.reg .esp (s.reg .esp + 4) .esp =
        Function.update s.reg .esp (s.reg .esp + 2) .esp at hesp
      rw [Function.update_self, Function.update_self] at hesp
      bv_omega
    | dword =>
      obtain ⟨k, hk⟩ := s.effAddr_raised (hmem ht).segment
      have hsame : SameData (s.raised .dword) ((s.advance insn).raised .dword) :=
        ⟨rfl, rfl, rfl, rfl⟩
      have hword (b : BitVec 32) : ((s.advance insn).raised .dword).word .dword b =
          s.word .dword b := rfl
      have hwrite : ((s.advance insn).write32 (s.effAddr insn.op1.mem)
            (s.read32 (s.reg .esp))).raised .dword =
          ((s.advance insn).raised .dword).write32 (s.effAddr insn.op1.mem)
            (s.read32 (s.reg .esp)) := rfl
      rw [hsame.effAddr (hop.plain.mem hop.type_ne_imm), hk, and_iff_right rfl,
        Machine.word_dword s (s.reg .esp), hwrite, Machine.write32_stored_iff, hword, hword]

end Runs

/-- Both instructions return, in a state with `P`. -/
def PushThenPop (push pop : CsInsn) (s : Machine) (P : Machine → Prop) : Prop :=
  ∃ r t, (pushI push).run s = .ok (r, t) ∧ ∃ r' u, (popI pop).run t = .ok (r', u) ∧ P u

/-- The register is moved, and there is nothing new but in the slot. -/
structure Moved (w : Width) (src dst : X86Reg) (s t : Machine) : Prop where
  value : t.regVal dst = s.regVal src
  esp : t.reg .esp = s.reg .esp
  mem : ∀ i, (∀ j < w.bytes, i ≠ (((s.lowered w).reg .esp).toNat + j) % 2 ^ 32) →
    t.mem i = s.mem i

section Pairs

variable {w : Width} {push pop : CsInsn} {r r' : X86Reg} {s : Machine} (hw : w ≠ .byte)
  (hpush : push.operands = [⟨.reg r, w.size⟩]) (hpop : pop.operands = [⟨.reg r', w.size⟩])
  (hr : r ∈ lowRegs w) (hr' : r' ∈ lowRegs w)
include hw hpush hpop hr hr'

/-- What the second instruction pops is what the first one has pushed. -/
theorem push_pop_run {v : Var} (hv : regs r' = .var v) : ∃ q t, (pushI push).run s = .ok (q, t) ∧
    (popI pop).run t =
      .ok (some 0, ((t.advance pop).poke w (.var v) (s.regVal r)).raised w) ∧
    t.reg .esp = (s.lowered w).reg .esp ∧
    ∀ i, (∀ j < w.bytes, i ≠ (((s.lowered w).reg .esp).toNat + j) % 2 ^ 32) →
      t.mem i = s.mem i := by
  have h1 := op1_of_cons hpush
  have h1' := op1_of_cons hpop
  have hsrc : push.op1.IsLoc w := by
    rw [h1]
    exact ⟨rfl, hr⟩
  have hdst : pop.op1.IsLoc w := by
    rw [h1']
    exact ⟨rfl, hr'⟩
  obtain ⟨q, t, hrun, hstored⟩ := @pushI_isPush w push s hsrc hw
  have hesp : t.reg .esp = (s.lowered w).reg .esp := by
    rw [hstored.state]
    rfl
  have hpopped := @popI_reg_run w pop t hdst hw v (by rw [h1']; rfl) (by rw [h1']; exact hv)
  have hvalue : push.op1.value w s = s.regVal r := by
    rw [← hsrc.regVal_eq (by rw [h1]; rfl), h1]
    rfl
  rw [hesp, hstored.word_eq, hvalue, Machine.poke_low] at hpopped
  exact ⟨q, t, hrun, hpopped, hesp, hstored.frame⟩

theorem push_pop_moved (hne : regs r' ≠ .var .esp) :
    PushThenPop push pop s (Moved w r r' s) := by
  obtain ⟨-, ⟨v, hv⟩, -, -⟩ := lowRegs_spec hr'
  have hvne : v ≠ .esp := fun h => hne (h ▸ hv)
  obtain ⟨q, t, hrun, hpopped, hesp, hframe⟩ := push_pop_run (s := s) hw hpush hpop hr hr' hv
  refine ⟨q, t, hrun, _, _, hpopped, ?_, ?_, ?_⟩
  · have hloc : (⟨.reg r', w.size⟩ : CsX86Op).IsLoc w := ⟨rfl, hr'⟩
    have hsrc : (⟨.reg r, w.size⟩ : CsX86Op).IsLoc w := ⟨rfl, hr⟩
    have hptr (u : Machine) : (⟨.reg r', w.size⟩ : CsX86Op).value w u = u.peek w (.var v) :=
      congrArg (u.peek w) hv
    have hlow : low w.bits (s.regVal r) = s.regVal r := by
      rw [show s.regVal r = _ from hsrc.regVal_eq rfl, CsX86Op.IsLoc.low_value]
    change Machine.regVal _ (⟨.reg r', w.size⟩ : CsX86Op).reg = _
    rw [hloc.regVal_eq rfl, hptr, Machine.raised_poke hvne, Machine.peek_poke _ _ (.var v), hlow]
  · rw [Machine.raised_poke hvne]
    refine (Machine.reg_setReg_of_ne _ (Ne.symm hvne) _).trans ?_
    refine (Machine.reg_setReg _ .esp _).trans ?_
    change t.reg .esp + _ = _
    rw [hesp]
    exact (congrArg (· + _) (s.reg_setReg .esp _)).trans (BitVec.sub_add_cancel _ _)
  · exact hframe

end Pairs

/-- `POP` adds 4 to the `ESP` that it has popped. -/
theorem push_pop_esp {push pop : CsInsn} (hpush : push.operands = [⟨.reg .esp, 4⟩])
    (hpop : pop.operands = [⟨.reg .esp, 4⟩]) (s : Machine) :
    ¬ PushThenPop push pop s fun u => u.reg .esp = s.reg .esp := by
  have hesp : X86Reg.esp ∈ lowRegs .dword := by decide
  obtain ⟨q, t, hrun, hpopped, -⟩ :=
    @push_pop_run .dword push pop .esp .esp s (by decide) hpush hpop hesp hesp .esp rfl
  rintro ⟨q', t', hrun', r, u, hpopped', hu⟩
  rw [hrun] at hrun'
  cases hrun'
  rw [hpopped] at hpopped'
  cases hpopped'
  have hreg : s.regVal .esp = s.reg .esp := low_of_le (le_refl 32) _
  rw [hreg, Machine.poke_dword_var] at hu
  change Function.update (Function.update t.reg .esp (s.reg .esp)) .esp
    (Function.update t.reg .esp (s.reg .esp) .esp + 4) .esp = s.reg .esp at hu
  rw [Function.update_self, Function.update_self] at hu
  bv_omega

/-- `PUSH` does what it should, `POP` exactly where `PopHolds`; what one register has pushed is
popped into another one, and `PUSH ESP` with `POP ESP` never gives `ESP` back. -/
theorem push_pop_iff {w : Width} (hw : w ≠ .byte) :
    (∀ (insn : CsInsn) (src : CsX86Op) (s : Machine), insn.operands = [src] → src.IsLoc w →
      IsPush w insn s) ∧
    (∀ (insn : CsInsn) (dst : CsX86Op) (s : Machine), insn.operands = [dst] → dst.IsLoc w →
      (dst.type = .mem → dst.mem.IsAddress) → (IsPop w insn s ↔ PopHolds w dst s)) ∧
    (∀ (push pop : CsInsn) (r r' : X86Reg) (s : Machine), push.operands = [⟨.reg r, w.size⟩] →
      pop.operands = [⟨.reg r', w.size⟩] → r ∈ lowRegs w → r' ∈ lowRegs w →
      regs r' ≠ .var .esp → PushThenPop push pop s (Moved w r r' s)) ∧
    ∀ (push pop : CsInsn) (s : Machine), push.operands = [⟨.reg .esp, 4⟩] →
      pop.operands = [⟨.reg .esp, 4⟩] →
      ¬ PushThenPop push pop s fun u => u.reg .esp = s.reg .esp := by
  refine ⟨fun insn src s h hsrc => ?_, fun insn dst s h hdst hmem => ?_,
    fun push pop r r' s hpush hpop hr hr' hne => push_pop_moved hw hpush hpop hr hr' hne,
    fun push pop s hpush hpop => push_pop_esp hpush hpop s⟩
  · have h1 : insn.op1 = src := op1_of_cons h
    subst h1
    exact pushI_isPush hsrc hw
  · have h1 : insn.op1 = dst := op1_of_cons h
    subst h1
    exact popI_iff hdst hw hmem

def pushReg (r : X86Reg) : CsInsn := .bare "push" 1 [⟨.reg r, 4⟩]

def popReg (r : X86Reg) : CsInsn := .bare "pop" 1 [⟨.reg r, 4⟩]

/-- `EAX` to `EBX` through the stack. -/
theorem push_pop_eax_ebx : IsPush .dword (pushReg .eax) (twice 1 2) ∧
    IsPop .dword (popReg .ebx) (twice 1 2) ∧
    PushThenPop (pushReg .eax) (popReg .ebx) (twice 1 2) (Moved .dword .eax .ebx (twice 1 2)) ∧
    ¬ PushThenPop (pushReg .esp) (popReg .esp) (twice 1 2) fun u =>
      u.reg .esp = (twice 1 2).reg .esp := by
  obtain ⟨hpush, hpop, hboth, hesp⟩ := @push_pop_iff .dword (by decide)
  refine ⟨hpush (pushReg .eax) _ _ rfl (by decide), ?_,
    hboth (pushReg .eax) (popReg .ebx) _ _ _ rfl rfl (by decide) (by decide) (by decide),
    hesp (pushReg .esp) (popReg .esp) _ rfl rfl⟩
  exact (hpop (popReg .ebx) ⟨.reg .ebx, 4⟩ _ rfl (by decide) nofun).2
    (by decide : regs .ebx ≠ .var .esp)

/-- `POP ESP` leaves 4 more than the word on top. -/
theorem popI_not_isPop : ¬ ∀ (w : Width) (insn : CsInsn) (dst : CsX86Op) (s : Machine),
    w ≠ .byte → insn.operands = [dst] → dst.IsLoc w → (dst.type = .mem → dst.mem.IsAddress) →
    IsPop w insn s := by
  intro hall
  have hpop := hall .dword (popReg .esp) ⟨.reg .esp, 4⟩ (twice 1 2) (by decide) rfl (by decide)
    nofun
  exact (@popI_iff .dword (popReg .esp) _ (by decide) (by decide) nofun).1 hpop rfl

end I386Vm
