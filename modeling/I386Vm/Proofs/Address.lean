import I386Vm.Proofs.Operands
import Mathlib.Data.BitVec

/-!
# Addresses

`eff_addr` adds up the base of the segment, the base, the scaled index and the displacement, as long
as none of the registers is `EIZ`: that stands for zero, and `reg_val` returns nothing for it.
`lea_i` stores the whole of such a sum, the segment included, and takes the operand-size prefix from
the place of the repeat prefix.
-/

namespace I386Vm

open Bytes Prog

/-- The number in the register of that name; no register and `EIZ` count as zero. -/
def Machine.number (s : Machine) : X86Reg → ℕ
  | .eax => (s.reg .eax).toNat
  | .ecx => (s.reg .ecx).toNat
  | .edx => (s.reg .edx).toNat
  | .ebx => (s.reg .ebx).toNat
  | .esp => (s.reg .esp).toNat
  | .ebp => (s.reg .ebp).toNat
  | .esi => (s.reg .esi).toNat
  | .edi => (s.reg .edi).toNat
  | .ax => (s.reg .eax).toNat % 2 ^ 16
  | .cx => (s.reg .ecx).toNat % 2 ^ 16
  | .dx => (s.reg .edx).toNat % 2 ^ 16
  | .bx => (s.reg .ebx).toNat % 2 ^ 16
  | .sp => (s.reg .esp).toNat % 2 ^ 16
  | .bp => (s.reg .ebp).toNat % 2 ^ 16
  | .si => (s.reg .esi).toNat % 2 ^ 16
  | .di => (s.reg .edi).toNat % 2 ^ 16
  | .cs => (s.reg .cs).toNat % 2 ^ 16
  | .ds => (s.reg .ds).toNat % 2 ^ 16
  | .es => (s.reg .es).toNat % 2 ^ 16
  | .fs => (s.reg .fs).toNat % 2 ^ 16
  | .gs => (s.reg .gs).toNat % 2 ^ 16
  | .ss => (s.reg .ss).toNat % 2 ^ 16
  | _ => 0

/-- The base that a descriptor has in three parts. -/
def descriptorBase (m : ℕ → BitVec 8) (d : ℕ) : ℕ :=
  ((m (d + 2)).toNat + 2 ^ 8 * (m (d + 3)).toNat) + 2 ^ 16 * (m (d + 4)).toNat +
    2 ^ 24 * (m (d + 7)).toNat

/-- The base of the segment that a segment register selects. -/
def Machine.segmentBase (s : Machine) (r : X86Reg) : ℕ :=
  if r = .invalid then 0
  else descriptorBase s.mem (s.gdtr.base.toNat + s.number r / 8 * gdtDescriptorSize)

/-- The address in the segment. -/
def Machine.offset (s : Machine) (m : X86OpMem) : ℤ :=
  s.number m.base + s.number m.index * m.scale.toNat + m.disp.toInt

/-- A memory operand of 32- or 16-bit addressing. -/
structure X86OpMem.IsAddress (m : X86OpMem) : Prop where
  segment : m.segment = .invalid ∨ m.segment ∈ segRegs
  base : m.base = .invalid ∨ m.base ∈ lowRegs .dword ∨ m.base ∈ lowRegs .word
  index : m.index = .invalid ∨ m.index = .eiz ∨ m.index ∈ lowRegs .dword ∨ m.index ∈ lowRegs .word
  scale : m.scale ∈ [1, 2, 4, 8]

/-- What `eff_addr` adds to the offset: the base of the segment, and what it takes for `EIZ`. -/
def Machine.extra (s : Machine) (m : X86OpMem) : BitVec 32 :=
  (if m.segment ≠ .invalid then s.getGdtBase ((s.regVal m.segment).setWidth 16) else 0) +
    (if m.index = .eiz then s.noReturn .eiz else 0) * m.scale

section Parts

variable {s : Machine} {r : X86Reg} {m : X86OpMem}

/-- `reg_val` knows the general and the segment registers. -/
theorem exists_regVal (h : r ∈ lowRegs .dword ∨ r ∈ lowRegs .word ∨ r ∈ segRegs) :
    ∃ x, s.regVal? r = some x ∧ s.regVal r = x ∧ x.toNat = s.number r := by
  have hlow (v : BitVec 32) : (low 32 v).toNat = v.toNat := by
    rw [low_of_le (le_refl 32)]
  simp only [lowRegs, segRegs, List.mem_cons, List.not_mem_nil, or_false] at h
  rcases h with h | h | h
  · rcases h with rfl | rfl | rfl | rfl | rfl | rfl | rfl | rfl <;> exact ⟨_, rfl, rfl, hlow _⟩
  · rcases h with rfl | rfl | rfl | rfl | rfl | rfl | rfl | rfl <;>
      exact ⟨_, rfl, rfl, toNat_low 16 _⟩
  · rcases h with rfl | rfl | rfl | rfl | rfl | rfl <;> exact ⟨_, rfl, rfl, toNat_low 16 _⟩

theorem regVal?_eiz : s.regVal? .eiz = none := rfl

theorem index_eq (x : BitVec 16) : ((x >>> 3) &&& 0x1FFF).toNat = x.toNat / 8 := by
  have hx := x.isLt
  have hmask := Nat.and_two_pow_sub_one_eq_mod (x.toNat / 8) 13
  rw [BitVec.toNat_and, BitVec.toNat_ushiftRight, Nat.shiftRight_eq_div_pow]
  exact hmask.trans (Nat.mod_eq_of_lt (by omega))

theorem toNat_getGdtBase (x : BitVec 16) (h : x.toNat / 8 < gdtEntries) :
    (s.getGdtBase x).toNat =
      descriptorBase s.mem (s.gdtr.base.toNat + x.toNat / 8 * gdtDescriptorSize) := by
  have hd : s.gdtDescriptor x = s.gdtr.base.toNat + x.toNat / 8 * gdtDescriptorSize := by
    unfold Machine.gdtDescriptor
    rw [index_eq, Nat.mod_eq_of_lt h]
  have hbyte (a : ℕ) : (readLE s.mem a 1 : BitVec 32).toNat = (s.mem a).toNat := by
    rw [toNat_readLE_succ s.mem a (by decide)]
    rfl
  have hword (a : ℕ) : (readLE s.mem a 2 : BitVec 32).toNat =
      (s.mem a).toNat + 2 ^ 8 * (s.mem (a + 1)).toNat := by
    rw [toNat_readLE_succ s.mem a (by decide), hbyte]
  have h2 := (s.mem (s.gdtDescriptor x + 2)).isLt
  have h3 := (s.mem (s.gdtDescriptor x + 3)).isLt
  have h4 := (s.mem (s.gdtDescriptor x + 4)).isLt
  have h7 := (s.mem (s.gdtDescriptor x + 7)).isLt
  have hlow := @toNat_or_shiftLeft 32 (readLE s.mem (s.gdtDescriptor x + 2) 2)
    (readLE s.mem (s.gdtDescriptor x + 4) 1) 16 (by rw [hword]; omega) (by rw [hbyte]; omega)
  have hall := @toNat_or_shiftLeft 32 (readLE s.mem (s.gdtDescriptor x + 2) 2 |||
    (readLE s.mem (s.gdtDescriptor x + 4) 1 <<< 16)) (readLE s.mem (s.gdtDescriptor x + 7) 1) 24
    (by rw [hlow, hword, hbyte]; omega) (by rw [hbyte]; omega)
  unfold Machine.getGdtBase descriptorBase
  rw [hall, hlow, hword, hbyte, hbyte, hd]

theorem toNat_regVal_seg (h : r ∈ segRegs) : ((s.regVal r).setWidth 16).toNat = s.number r := by
  obtain ⟨v, -, -, -, hlow⟩ := segRegs_spec h
  obtain ⟨x, -, hval, hn⟩ := @exists_regVal s r (.inr (.inr h))
  have hlt : x.toNat < 2 ^ 16 := by
    rw [← hval, hlow]
    exact toNat_low_lt 16 _
  rw [hval, BitVec.toNat_setWidth, Nat.mod_eq_of_lt hlt, hn]

theorem ofInt_disp (d : BitVec 64) : d.setWidth 32 = BitVec.ofInt 32 d.toInt := by
  apply BitVec.eq_of_toNat_eq
  rw [BitVec.toNat_setWidth, BitVec.toNat_ofInt, BitVec.toInt_eq_toNat_cond]
  omega

theorem regVal_eq_ofInt (h : r ∈ lowRegs .dword ∨ r ∈ lowRegs .word) :
    r ≠ .invalid ∧ r ≠ .eiz ∧ s.regVal r = BitVec.ofInt 32 (s.number r) := by
  obtain ⟨x, -, hx, hn⟩ := @exists_regVal s r (h.imp_right .inl)
  refine ⟨?_, ?_, ?_⟩
  · rintro rfl
    simp [lowRegs] at h
  · rintro rfl
    simp [lowRegs] at h
  · rw [hx, ← hn, BitVec.ofInt_natCast, BitVec.ofNat_toNat, BitVec.setWidth_eq]

theorem effAddr_eq (h : m.IsAddress) : s.effAddr m = s.extra m + BitVec.ofInt 32 (s.offset m) := by
  have hscale : m.scale ≠ 0 := by
    rintro hz
    have := h.scale
    rw [hz] at this
    revert this
    decide
  have hbase : (if m.base ≠ .invalid then s.regVal m.base else 0) =
      BitVec.ofInt 32 (s.number m.base) := by
    rcases h.base with hb | hb
    · rw [hb]
      rfl
    · obtain ⟨hne, -, hv⟩ := @regVal_eq_ofInt s _ hb
      rw [if_pos hne, hv]
  have hindex : (if m.index ≠ .invalid then s.regVal m.index else 0) =
      (if m.index = .eiz then s.noReturn .eiz else 0) + BitVec.ofInt 32 (s.number m.index) := by
    rcases h.index with hi | hi | hi
    · rw [hi]
      rfl
    · rw [hi]
      exact (BitVec.add_zero _).symm
    · obtain ⟨hne, hne', hv⟩ := @regVal_eq_ofInt s _ hi
      rw [if_pos hne, if_neg hne', hv, BitVec.ofNat_eq_ofNat, BitVec.zero_add]
  unfold Machine.effAddr Machine.extra Machine.offset
  rw [hbase, hindex, if_pos hscale, ofInt_disp, BitVec.ofInt_add, BitVec.ofInt_add,
    BitVec.ofInt_mul, BitVec.ofInt_natCast 32 m.scale.toNat, BitVec.ofNat_toNat, BitVec.setWidth_eq]
  ring

theorem toNat_effAddr (h : m.IsAddress) :
    ((s.effAddr m).toNat : ℤ) = ((s.extra m).toNat + s.offset m) % 2 ^ 32 := by
  have hsum : s.extra m + BitVec.ofInt 32 (s.offset m) =
      BitVec.ofInt 32 ((s.extra m).toNat + s.offset m) := by
    rw [BitVec.ofInt_add, BitVec.ofInt_natCast, BitVec.ofNat_toNat, BitVec.setWidth_eq]
  rw [effAddr_eq h, hsum, BitVec.toNat_ofInt]
  exact Int.toNat_of_nonneg (Int.emod_nonneg _ (by decide))

theorem toNat_extra (h : m.IsAddress) (hindex : m.index ≠ .eiz)
    (hsel : s.number m.segment / 8 < gdtEntries) :
    (s.extra m).toNat = s.segmentBase m.segment := by
  have hzero (x : BitVec 32) : x + 0 * m.scale = x := by
    rw [BitVec.ofNat_eq_ofNat, BitVec.zero_mul, BitVec.add_zero]
  unfold Machine.extra Machine.segmentBase
  rw [if_neg hindex, hzero]
  rcases h.segment with hs | hs
  · rw [if_neg (by simp [hs]), if_pos hs]
    rfl
  · obtain ⟨-, -, -, hne, -⟩ := segRegs_spec hs
    rw [← toNat_regVal_seg hs] at hsel ⊢
    rw [if_pos hne, if_neg hne, toNat_getGdtBase _ hsel]

end Parts

/-- `eff_addr` returns the address, and `reg_val` a value for each register in it. -/
structure Machine.Resolves (s : Machine) (m : X86OpMem) : Prop where
  value : ((s.effAddr m).toNat : ℤ) = (s.segmentBase m.segment + s.offset m) % 2 ^ 32
  returns : ∀ r ∈ [m.segment, m.base, m.index], r ≠ .invalid → (s.regVal? r).isSome

/-- `eff_addr` is right for every address but those with `EIZ`. -/
theorem resolves_iff {s : Machine} {m : X86OpMem} (h : m.IsAddress)
    (hsel : s.number m.segment / 8 < gdtEntries) : s.Resolves m ↔ m.index ≠ .eiz := by
  constructor
  · rintro ⟨-, hret⟩ hindex
    have hsome := hret m.index (by simp) (by simp [hindex])
    rw [hindex, regVal?_eiz] at hsome
    cases hsome
  · intro hindex
    constructor
    · rw [toNat_effAddr h, toNat_extra h hindex hsel]
    · simp only [List.mem_cons, List.not_mem_nil, or_false]
      intro r hr hne
      obtain ⟨x, hx, -⟩ : ∃ x, s.regVal? r = some x ∧ s.regVal r = x ∧ x.toNat = s.number r := by
        rcases hr with rfl | rfl | rfl
        · exact exists_regVal (.inr (.inr (h.segment.resolve_left hne)))
        · exact exists_regVal ((h.base.resolve_left hne).imp_right .inl)
        · exact exists_regVal (((h.index.resolve_left hne).resolve_left hindex).imp_right .inl)
      rw [hx]
      rfl

/-- `DS:[EBX + 4 * ESI - 8]` -/
def dsEbxEsi : X86OpMem := ⟨.ds, .ebx, .esi, 4, -8⟩

/-- `DS` selects entry 5 of the table at 0x500, with the base 0x40120000. -/
def based : Machine :=
  { ((Machine.blank.setReg .ebx 0x1000).setReg .esi 0x20).setReg .ds 0x2B with
    gdtr := ⟨90, 0x500⟩
    mem := fun i => if i = 0x536 then 0x12 else if i = 0x539 then 0x40 else 0 }

theorem resolves_dsEbxEsi : based.Resolves dsEbxEsi ∧ based.effAddr dsEbxEsi = 0x40121078 :=
  ⟨(resolves_iff ⟨.inr (by decide), .inr (.inl (by decide)), .inr (.inr (.inl (by decide))),
    by decide⟩ (by decide)).2 (by decide), by decide⟩

/-- `[ESI + EIZ]`, as in the padding of compilers. -/
def esiEiz : X86OpMem := ⟨.invalid, .esi, .eiz, 1, 0⟩

theorem esiEiz_isAddress : esiEiz.IsAddress :=
  ⟨.inl rfl, .inr (.inl (by decide)), .inr (.inl rfl), by decide⟩

theorem not_resolves_eiz : ¬ ∀ (s : Machine) (m : X86OpMem), m.IsAddress →
    s.number m.segment / 8 < gdtEntries → s.Resolves m := by
  intro hall
  have hret := (hall Machine.blank esiEiz esiEiz_isAddress (by decide)).returns .eiz (by decide)
  exact absurd (hret (by decide)) (by decide)

/-- `LEA` of a 16- or 32-bit register: the operand-size prefix stands in `prefix[2]`, and
`prefix[0]` holds none but the lock and repeat prefixes. -/
structure CsInsn.IsLea (w : Width) (insn : CsInsn) : Prop where
  dst : insn.op1.type = .reg ∧ insn.op1.IsLoc w
  width : w ≠ .byte
  src : insn.op2.type = .mem ∧ insn.op2.mem.IsAddress
  operandSize : insn.prefix2 = 0x66 ↔ w = .word
  repeats : insn.prefix0 ∈ [0, 0xF0, 0xF2, 0xF3]

/-- `t` is `s` with the offset of the second operand in the destination, at its width. -/
structure LoadsOffset (w : Width) (insn : CsInsn) (s t : Machine) : Prop where
  value : ((t.peek w (regs insn.op1.reg)).toNat : ℤ) = s.offset insn.op2.mem % 2 ^ w.bits
  same : ∃ x, t = (s.advance insn).poke w (regs insn.op1.reg) x

/-- The two states have the same general registers. -/
def SameGeneral (s t : Machine) : Prop :=
  ∀ v ∈ [Var.eax, .ecx, .edx, .ebx, .esp, .ebp, .esi, .edi], t.reg v = s.reg v

/-- What `eff_addr` adds does not show in the width, and the address has the upper half of the
destination where that is to stay. -/
def ExtraHidden (w : Width) (insn : CsInsn) (s : Machine) : Prop :=
  (s.extra insn.op2.mem).toNat % 2 ^ w.bits = 0 ∧
    (((s.extra insn.op2.mem).toNat + s.offset insn.op2.mem) / 2 ^ w.bits % 2 ^ (32 - w.bits) : ℤ) =
      (s.peek .dword (regs insn.op1.reg)).toNat / 2 ^ w.bits

section Lea

variable {w : Width} {insn : CsInsn} {s t : Machine}

theorem number_congr {r : X86Reg} (hg : SameGeneral s t)
    (h : r = .invalid ∨ r = .eiz ∨ r ∈ lowRegs .dword ∨ r ∈ lowRegs .word) :
    t.number r = s.number r := by
  simp only [SameGeneral, List.forall_mem_cons, List.not_mem_nil, false_imp_iff, implies_true,
    and_true] at hg
  obtain ⟨hax, hcx, hdx, hbx, hsp, hbp, hsi, hdi⟩ := hg
  simp only [lowRegs, List.mem_cons, List.not_mem_nil, or_false] at h
  rcases h with rfl | rfl | h | h
  · rfl
  · rfl
  · rcases h with rfl | rfl | rfl | rfl | rfl | rfl | rfl | rfl <;>
      simp only [Machine.number, hax, hcx, hdx, hbx, hsp, hbp, hsi, hdi]
  · rcases h with rfl | rfl | rfl | rfl | rfl | rfl | rfl | rfl <;>
      simp only [Machine.number, hax, hcx, hdx, hbx, hsp, hbp, hsi, hdi]

theorem offset_congr {m : X86OpMem} (h : m.IsAddress) (hg : SameGeneral s t) :
    t.offset m = s.offset m := by
  unfold Machine.offset
  rw [number_congr hg (h.base.imp_right .inr), number_congr hg h.index]

theorem X86OpMem.IsAddress.not_control {m : X86OpMem} (h : m.IsAddress) :
    ¬ m.segment.Control ∧ ¬ m.base.Control ∧ ¬ m.index.Control := by
  have hi := X86Reg.not_control_invalid
  refine ⟨?_, ?_, ?_⟩
  · rcases h.segment with hs | hs
    · rwa [hs]
    · simp only [segRegs, List.mem_cons, List.not_mem_nil, or_false] at hs
      rcases hs with hs | hs | hs | hs | hs | hs <;> rw [hs] <;> decide
  · rcases h.base with hb | hb | hb
    · rwa [hb]
    · exact (lowRegs_spec hb).1
    · exact (lowRegs_spec hb).1
  · rcases h.index with hx | hx | hx | hx
    · rwa [hx]
    · rw [hx]
      decide
    · exact (lowRegs_spec hx).1
    · exact (lowRegs_spec hx).1

theorem CsInsn.IsLea.dst_var (h : insn.IsLea w) : ∃ v, regs insn.op1.reg = .var v := by
  obtain ⟨ht, hloc⟩ := h.dst
  exact (lowRegs_spec (hloc.reg_mem ht)).2.1

theorem leaI_run (h : insn.IsLea w) : (leaI insn).run s =
    .ok (some 0, (s.advance insn).poke .dword (regs insn.op1.reg) (s.effAddr insn.op2.mem)) := by
  obtain ⟨v, hv⟩ := h.dst_var
  have hprefix : insn.prefix0 ≠ 0x66 := by
    intro hp
    have := h.repeats
    rw [hp] at this
    revert this
    decide
  have hops : ¬ (insn.op1.type ≠ .reg ∨ insn.op2.type ≠ .mem) := by
    rintro (hne | hne)
    · exact hne h.dst.1
    · exact hne h.src.1
  unfold leaI
  rw [run_bind_ok (advance_run s insn), run_bind_ok run_get_ok, if_neg hops, if_neg hprefix, hv,
    run_bind_ok (store_run (.var v) _), (SameData.advance s insn).effAddr h.src.2.not_control]
  rfl

/-- The destination keeps its upper half where the address has it. -/
theorem loadsOffset_iff_shift (h : insn.IsLea w) : LoadsOffset w insn s
    ((s.advance insn).poke .dword (regs insn.op1.reg) (s.effAddr insn.op2.mem)) ↔
      ((s.effAddr insn.op2.mem).toNat : ℤ) % 2 ^ w.bits = s.offset insn.op2.mem % 2 ^ w.bits ∧
        s.effAddr insn.op2.mem >>> w.bits = s.peek .dword (regs insn.op1.reg) >>> w.bits := by
  obtain ⟨v, hv⟩ := h.dst_var
  have hpeek : (((s.advance insn).setReg v (s.effAddr insn.op2.mem)).peek w (.var v)).toNat =
      (s.effAddr insn.op2.mem).toNat % 2 ^ w.bits := by
    simp only [Machine.peek, Machine.reg_setReg, toNat_low]
  have hold : s.peek .dword (.var v) = s.reg v := low_dword _
  rw [hv, Machine.poke_dword_var, hold, ← merge_eq_right_iff]
  constructor
  · rintro ⟨hvalue, x, hx⟩
    rw [hv, hpeek] at hvalue
    have hreg := congrArg (fun t => t.reg v) hx
    simp only [hv, Machine.poke, Machine.reg_setReg] at hreg
    refine ⟨by push_cast at hvalue; exact hvalue, ?_⟩
    rw [hreg, ← merge_low, low_merge, merge_low]
    rfl
  · rintro ⟨hvalue, hkeep⟩
    constructor
    · rw [hv, hpeek]
      push_cast
      exact hvalue
    · refine ⟨s.effAddr insn.op2.mem, ?_⟩
      rw [hv]
      exact congrArg _ hkeep.symm

theorem loadsOffset_iff (h : insn.IsLea w) : LoadsOffset w insn s
    ((s.advance insn).poke .dword (regs insn.op1.reg) (s.effAddr insn.op2.mem)) ↔
      ExtraHidden w insn s := by
  have haddr := @toNat_effAddr s _ h.src.2
  have hextra := (s.extra insn.op2.mem).isLt
  have hlt := (s.effAddr insn.op2.mem).isLt
  have hold := (s.peek .dword (regs insn.op1.reg)).isLt
  rw [loadsOffset_iff_shift h, ← BitVec.toNat_inj, BitVec.toNat_ushiftRight,
    BitVec.toNat_ushiftRight, Nat.shiftRight_eq_div_pow, Nat.shiftRight_eq_div_pow]
  unfold ExtraHidden
  cases w with
  | byte => exact absurd rfl h.width
  | word =>
    norm_num [Width.bits, Width.bytes] at *
    omega
  | dword =>
    norm_num [Width.bits, Width.bytes] at *
    omega

/-- Two runs of `LEA` from the same general registers leave the same offset exactly where neither
shows what is added to it. -/
theorem leaI_loadsOffset_iff {s' : Machine} (h : insn.IsLea w) (hg : SameGeneral s s') :
    (∃ t t', (leaI insn).run s = .ok (some 0, t) ∧ (leaI insn).run s' = .ok (some 0, t') ∧
      t.peek w (regs insn.op1.reg) = t'.peek w (regs insn.op1.reg) ∧
      LoadsOffset w insn s t ∧ LoadsOffset w insn s' t') ↔
    ExtraHidden w insn s ∧ ExtraHidden w insn s' := by
  rw [leaI_run h, leaI_run h]
  constructor
  · rintro ⟨t, t', ht, ht', -, hs, hs'⟩
    cases ht
    cases ht'
    exact ⟨(loadsOffset_iff h).1 hs, (loadsOffset_iff h).1 hs'⟩
  · rintro ⟨hs, hs'⟩
    have hl := (loadsOffset_iff h).2 hs
    have hl' := (loadsOffset_iff h).2 hs'
    refine ⟨_, _, rfl, rfl, ?_, hl, hl'⟩
    apply BitVec.eq_of_toNat_eq
    have hvalue := hl'.value
    rw [offset_congr h.src.2 hg, ← hl.value] at hvalue
    exact (Nat.cast_inj.1 hvalue).symm

end Lea

/-- `LEA EAX, [EBX + 4 * ESI - 8]` -/
def leaEax : CsInsn where
  mnemonic := "lea"
  size := 4
  bytes := []
  prefixes := [0, 0, 0, 0]
  opCount := 2
  operands := [⟨.reg .eax, 4⟩, ⟨.mem ⟨.invalid, .ebx, .esi, 4, -8⟩, 4⟩]

theorem leaEax_isLea : leaEax.IsLea .dword where
  dst := ⟨rfl, by decide⟩
  width := by decide
  src := ⟨rfl, .inl rfl, .inr (.inl (by decide)), .inr (.inr (.inl (by decide))), by decide⟩
  operandSize := by decide
  repeats := by decide

theorem leaI_loadsOffset_eax :
    ∃ t t', (leaI leaEax).run Machine.blank = .ok (some 0, t) ∧
      (leaI leaEax).run (Machine.blank.setReg .fs 8) = .ok (some 0, t') ∧
      t.peek .dword (.var .eax) = t'.peek .dword (.var .eax) ∧
      LoadsOffset .dword leaEax Machine.blank t ∧
      LoadsOffset .dword leaEax (Machine.blank.setReg .fs 8) t' :=
  (leaI_loadsOffset_iff leaEax_isLea (by unfold SameGeneral; decide)).2
    ⟨⟨by decide, by decide⟩, by decide, by decide⟩

/-- `LEA AX, [EBX]` -/
def leaAx : CsInsn where
  mnemonic := "lea"
  size := 3
  bytes := []
  prefixes := [0, 0, 0x66, 0]
  opCount := 2
  operands := [⟨.reg .ax, 2⟩, ⟨.mem ⟨.invalid, .ebx, .invalid, 1, 0⟩, 2⟩]

theorem leaAx_isLea : leaAx.IsLea .word where
  dst := ⟨rfl, by decide⟩
  width := by decide
  src := ⟨rfl, .inl rfl, .inr (.inl (by decide)), .inl rfl, by decide⟩
  operandSize := by decide
  repeats := by decide

/-- The upper half of `EAX` goes with the rest. -/
theorem leaI_not_loadsOffset : ¬ ∀ (w : Width) (insn : CsInsn) (s s' : Machine), insn.IsLea w →
    SameGeneral s s' → ∃ t t', (leaI insn).run s = .ok (some 0, t) ∧
      (leaI insn).run s' = .ok (some 0, t') ∧
      t.peek w (regs insn.op1.reg) = t'.peek w (regs insn.op1.reg) ∧
      LoadsOffset w insn s t ∧ LoadsOffset w insn s' t' := by
  intro hall
  obtain ⟨t, t', ht, -, -, hl, -⟩ := hall .word leaAx (Machine.blank.setReg .eax 0x10000)
    (Machine.blank.setReg .eax 0x10000) leaAx_isLea (fun _ _ => rfl)
  rw [leaI_run leaAx_isLea] at ht
  cases ht
  exact absurd ((loadsOffset_iff leaAx_isLea).1 hl).2 (by decide)

end I386Vm
