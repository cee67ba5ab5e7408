import I386Vm.Proofs.Aliasing
import I386Vm.Proofs.Status
import I386Vm.Proofs.ThreadArea

/-!
# Segment limits

The limit of a `user_desc32` goes to the descriptor in two parts, `limit_low` and four bits of
`granularity`. `get_gdt_limit` reads `limit_low` alone and `lsl_i` does not scale, so the limit
comes back only where it has 16 bits and is counted in bytes; and where the `entry_number` that is
written last does not hit it.
-/

namespace I386Vm

open Bytes Prog

/-- The selector of an entry of the table, with the privilege of the user. -/
def selectorOf (e : BitVec 8) : BitVec 16 := e.setWidth 16 * 8 + 3

section Selector

variable {s : Machine} {e : BitVec 8}

theorem bounds_of_mem_tlsEntries (he : e ∈ tlsEntries) : 6 ≤ e.toNat ∧ e.toNat < gdtEntries := by
  rw [tlsEntries_eq] at he
  simp only [List.mem_cons, List.not_mem_nil, or_false] at he
  rcases he with rfl | rfl | rfl <;> decide

theorem lt_of_mem_tlsEntries (he : e ∈ tlsEntries) : e.toNat < gdtEntries :=
  (bounds_of_mem_tlsEntries he).2

theorem selectorOf_index (e : BitVec 8) :
    ((selectorOf e >>> 3) &&& 0x1FFF).toNat = e.toNat := by
  have hand (x : BitVec 16) : (x &&& 0x1FFF).toNat = x.toNat % 2 ^ 13 := by
    rw [BitVec.toNat_and]
    exact Nat.and_two_pow_sub_one_eq_mod x.toNat 13
  have he := e.isLt
  have hsel : (selectorOf e).toNat = e.toNat * 8 + 3 := by
    unfold selectorOf
    bv_omega
  rw [hand, BitVec.toNat_ushiftRight, Nat.shiftRight_eq_div_pow, hsel]
  omega

theorem gdtDescriptor_selectorOf (s : Machine) (he : e.toNat < gdtEntries) :
    s.gdtDescriptor (selectorOf e) = s.gdtEntry e := by
  unfold Machine.gdtDescriptor Machine.gdtEntry
  rw [selectorOf_index, Nat.mod_eq_of_lt he]

theorem gdtEntry_congr {t : Machine} (h : t.gdtr = s.gdtr) (e : BitVec 8) :
    t.gdtEntry e = s.gdtEntry e := by
  unfold Machine.gdtEntry
  rw [h]

/-- A call that succeeds created the entry it reports. -/
theorem doSetThreadArea_ok {t : Machine} {arg1 : BitVec 32}
    (h : (doSetThreadArea arg1).run s = .ok (0, t))
    (hreport : userEntry arg1.toNat t.mem = e.setWidth 32) :
    s.pickEntry arg1.toNat = some e ∧ t = s.withEntry arg1.toNat e := by
  rcases hp : s.pickEntry arg1.toNat with _ | index
  · rw [doSetThreadArea_of_none hp] at h
    cases h
  · rw [doSetThreadArea_of_some hp] at h
    cases h
    have hindex : index.setWidth 32 = e.setWidth 32 := userEntry_created.symm.trans hreport
    obtain rfl : index = e := by bv_omega
    exact ⟨rfl, rfl⟩

end Selector

/-- `LSL` of a selector to a 32-bit register. -/
structure IsLsl (insn : CsInsn) (selector : BitVec 16) (r : X86Reg) (s : Machine) : Prop where
  dst : insn.op1 = ⟨.reg r, 4⟩
  wide : ∃ v, r.slice = some ⟨v, 0, .dword⟩
  plain : insn.op2.Plain
  notImm : insn.op2.type ≠ .imm
  valid : (s.opPtr insn.op2).Valid
  holds : s.peek .word (s.opPtr insn.op2) = selector.setWidth 32

theorem safePtr_of_plain {op : CsX86Op} (h : op.Plain) (s : Machine) : SafePtr (s.opPtr op) := by
  have hreg := SafePtr.of_not_control (SafePtr.not_control_reg h)
  unfold Machine.opPtr
  infer_instance

theorem lslI_run {insn : CsInsn} {e : BitVec 8} {r : X86Reg} {s : Machine} (he : e ∈ tlsEntries)
    (h : IsLsl insn (selectorOf e) r s) :
    ∃ t, (lslI insn).run s = .ok (some 0, t) ∧ t.testFlag .ZF ∧
      t.regVal r = s.getGdtLimit (selectorOf e) := by
  obtain ⟨v, hv⟩ := h.wide
  obtain ⟨hr, -⟩ := slice_spec hv
  have hload : (load .word ((s.advance insn).opPtr insn.op2)).run (s.advance insn) =
      .ok ((selectorOf e).setWidth 32, s.advance insn) := by
    have hsafe := safePtr_of_plain h.plain s
    rw [(SameData.advance s insn).opPtr h.plain h.notImm, load_run h.valid, ← h.holds,
      (SameData.advance s insn).peek]
  have hidx : ((((selectorOf e).setWidth 32 : BitVec 32) >>> 3) &&& 0x1FFF).toNat < gdtEntries := by
    rw [tlsEntries_eq] at he
    simp only [List.mem_cons, List.not_mem_nil, or_false] at he
    rcases he with rfl | rfl | rfl <;> decide
  have hsel : ((selectorOf e).setWidth 32).setWidth 16 = selectorOf e := by bv_omega
  have hflag (t : Machine) : (setFlag .ZF).run t = .ok ((), t.assignFlag .ZF true) := rfl
  have hsize : insn.op1.size ≠ 2 := by
    rw [h.dst]
    exact (by decide : (4 : BitVec 8) ≠ 2)
  have hreg : regs insn.op1.reg = .var v := by
    rw [h.dst]
    exact hr
  unfold lslI
  rw [run_bind_ok (advance_run s insn), run_bind_ok run_get_ok, run_bind_ok hload, if_pos hidx,
    bind_assoc, run_bind_ok (hflag _), if_neg hsize, hreg, run_bind_ok (store_run (.var v) _), hsel]
  refine ⟨_, rfl, ?_, ?_⟩
  · exact (Machine.testFlag_assignFlag (s.advance insn) .ZF .ZF true).trans (if_pos rfl)
  · rw [regVal_slice hv, low_dword, ← low_dword (s.getGdtLimit (selectorOf e))]
    exact Machine.peek_poke _ .dword (.var v) _

/-- The limit `LSL` should find. -/
def UserBits.scaled (b : UserBits) (limit : BitVec 32) : BitVec 32 :=
  if b.limitInPages then limit * 4096 + 4095 else limit

/-- After the structure at `u` in `s` made the entry `e` of `t`, the limit of the entry is that of
the structure, and `LSL` loads it scaled. -/
def LimitRoundTrips (s t : Machine) (u : ℕ) (e : BitVec 8) : Prop :=
  t.getGdtLimit (selectorOf e) = userLimit u s.mem ∧
    ∀ (insn : CsInsn) (r : X86Reg) (v : Machine), v.mem = t.mem → v.gdtr = t.gdtr →
      IsLsl insn (selectorOf e) r v → ∃ w, (lslI insn).run v = .ok (some 0, w) ∧
        w.testFlag .ZF ∧ w.regVal r = (userBits u s.mem).scaled (userLimit u s.mem)

/-- 16 bits counted in bytes, and where the number of the entry lies over `limit_low` it has the
same bytes. -/
def LimitFits (s : Machine) (u : ℕ) (e : BitVec 8) : Prop :=
  (userLimit u s.mem).toNat < 2 ^ 16 ∧ (userBits u s.mem).limitInPages = false ∧
    ∀ j < 2, u ≤ s.gdtEntry e + j → s.gdtEntry e + j < u + 4 →
      byteOf (s.gdtEntry e + j - u) (e.setWidth 32) = byteOf j (userLimit u s.mem)

section RoundTrip

variable {s t : Machine} {d u j : ℕ} {e : BitVec 8} {m : ℕ → BitVec 8}

/-- A byte of `limit_low` that the number does not overwrite is one of the limit. -/
theorem created_limit (hj : j < 2) (hu : ¬ (u ≤ d + j ∧ d + j < u + 4)) :
    created d u e m (d + j) = byteOf j (userLimit u m) := by
  rw [created_eq (by omega) (by omega) hu]
  unfold createdBase
  rw [writes_of_not_mem (by omega), writes_of_not_mem (by omega), writes_of_not_mem (by omega)]
  have hlimit (m : ℕ → BitVec 8) : byteOf j (userLimit u m) = m (u + 8 + j) :=
    byteOf_readLE m (by omega) (le_refl 32)
  rw [hlimit, writes, writeLE_add hj, hlimit]
  exact writes_of_not_mem (by omega)

theorem created_number (hu : u ≤ d + j ∧ d + j < u + 4) :
    created d u e m (d + j) = byteOf (d + j - u) (e.setWidth 32) := by
  unfold created writes writeLE
  rw [if_pos hu]

/-- The limit read back is that of the structure exactly where it has 16 bits and is not
overwritten. -/
theorem getGdtLimit_withEntry_iff (he : e ∈ tlsEntries) :
    (s.withEntry u e).getGdtLimit (selectorOf e) = userLimit u s.mem ↔
      (userLimit u s.mem).toNat < 2 ^ 16 ∧
        ∀ j < 2, u ≤ s.gdtEntry e + j → s.gdtEntry e + j < u + 4 →
          byteOf (s.gdtEntry e + j - u) (e.setWidth 32) = byteOf j (userLimit u s.mem) := by
  have hd : (s.withEntry u e).gdtDescriptor (selectorOf e) = s.gdtEntry e :=
    gdtDescriptor_selectorOf _ (lt_of_mem_tlsEntries he)
  unfold Machine.getGdtLimit
  rw [hd, readLE_eq_iff _ (by decide), and_comm]
  refine and_congr_right fun _ => forall₂_congr fun j hj => ?_
  change created (s.gdtEntry e) u e s.mem (s.gdtEntry e + j) = _ ↔ _
  by_cases hu : u ≤ s.gdtEntry e + j ∧ s.gdtEntry e + j < u + 4
  · rw [created_number hu]
    exact ⟨fun h _ _ => h, fun h => h hu.1 hu.2⟩
  · rw [created_limit hj hu]
    exact ⟨fun _ h1 h2 => absurd ⟨h1, h2⟩ hu, fun _ => rfl⟩

/-- `LSL` into `EAX` of a selector in `CX`. -/
def lslEaxCx : CsInsn := .bare "lsl" 3 [⟨.reg .eax, 4⟩, ⟨.reg .cx, 2⟩]

theorem isLsl_cx (s : Machine) (e : BitVec 8) :
    IsLsl lslEaxCx (selectorOf e) .eax (s.setReg .ecx ((selectorOf e).setWidth 32)) := by
  refine ⟨rfl, ⟨.eax, rfl⟩, by decide, by decide, .var .ecx, ?_⟩
  change low 16 _ = _
  rw [Machine.reg_setReg]
  refine low_of_lt ?_
  bv_omega

/-- The limit of an entry comes back, by `get_gdt_limit` and by `LSL`, exactly when it fits. -/
theorem limitRoundTrips_iff {arg1 : BitVec 32} (he : e ∈ tlsEntries)
    (hrun : (doSetThreadArea arg1).run s = .ok (0, t))
    (hreport : userEntry arg1.toNat t.mem = e.setWidth 32)
    (hlimit : (userLimit arg1.toNat s.mem).toNat < 2 ^ 20) :
    LimitRoundTrips s t arg1.toNat e ↔ LimitFits s arg1.toNat e := by
  obtain ⟨-, rfl⟩ := doSetThreadArea_ok hrun hreport
  unfold LimitRoundTrips LimitFits
  rw [getGdtLimit_withEntry_iff he]
  constructor
  · rintro ⟨⟨h16, hover⟩, hlsl⟩
    refine ⟨h16, ?_, hover⟩
    have hinsn := isLsl_cx (s.withEntry arg1.toNat e) e
    obtain ⟨w, hw, -, hloaded⟩ := hlsl lslEaxCx .eax
      ((s.withEntry arg1.toNat e).setReg .ecx ((selectorOf e).setWidth 32)) rfl rfl hinsn
    obtain ⟨w', hw', -, hread⟩ := lslI_run he hinsn
    rw [hw] at hw'
    cases hw'
    have hback := (getGdtLimit_withEntry_iff he).2 ⟨h16, hover⟩
    rw [hread] at hloaded
    have hscaled := hback.symm.trans hloaded
    rcases hp : (userBits arg1.toNat s.mem).limitInPages with _ | _
    · rfl
    · unfold UserBits.scaled at hscaled
      rw [if_pos hp] at hscaled
      bv_omega
  · rintro ⟨h16, hbytes, hover⟩
    refine ⟨⟨h16, hover⟩, fun insn r v hmem hgdtr hinsn => ?_⟩
    obtain ⟨w, hw, hzf, hread⟩ := lslI_run he hinsn
    refine ⟨w, hw, hzf, ?_⟩
    have hsame : v.getGdtLimit (selectorOf e) =
        (s.withEntry arg1.toNat e).getGdtLimit (selectorOf e) := by
      unfold Machine.getGdtLimit Machine.gdtDescriptor
      rw [hmem, hgdtr]
    unfold UserBits.scaled
    rw [hread, hsame, (getGdtLimit_withEntry_iff he).2 ⟨h16, hover⟩, hbytes]
    rfl

end RoundTrip

/-- A machine after `initialize`, with a structure for entry 6 and a limit at address 0. -/
def withUserLimit (limit : BitVec 32) : Machine :=
  { withUserEntry 6 with mem := writeLE (withUserEntry 6).mem 8 4 limit }

theorem withUserLimit_run (limit : BitVec 32) :
    (doSetThreadArea 0).run (withUserLimit limit) =
      .ok (0, (withUserLimit limit).withEntry 0 6) := by
  have hentry : userEntry 0 (withUserLimit limit).mem = 6 :=
    (readLE_writeLE_of_disjoint (.inr (by decide))).trans (by decide)
  refine doSetThreadArea_of_some ?_
  change (withUserLimit limit).pickEntry 0 = some 6
  unfold Machine.pickEntry
  rw [hentry]
  rfl

theorem limitRoundTrips_small :
    LimitRoundTrips (withUserLimit 0x1234) ((withUserLimit 0x1234).withEntry 0 6) 0 6 := by
  refine (@limitRoundTrips_iff (withUserLimit 0x1234) _ 6 0 (by decide) (withUserLimit_run _)
    userEntry_created (by decide)).2 ⟨by decide, by decide, fun j _ hd hlt => ?_⟩
  exact absurd hlt (by decide +revert)

/-- A limit of 0x10000 comes back as 0. -/
theorem not_limitRoundTrips : ¬ ∀ (s t : Machine) (arg1 : BitVec 32) (e : BitVec 8),
    e ∈ tlsEntries → (doSetThreadArea arg1).run s = .ok (0, t) →
      userEntry arg1.toNat t.mem = e.setWidth 32 →
      (userLimit arg1.toNat s.mem).toNat < 2 ^ 20 → LimitRoundTrips s t arg1.toNat e := by
  intro hall
  have htrip := hall (withUserLimit 0x10000) _ 0 6 (by decide) (withUserLimit_run _)
    userEntry_created (by decide)
  have hfits := (getGdtLimit_withEntry_iff (by decide)).1 htrip.1
  exact absurd hfits.1 (by decide)

end I386Vm
