import I386Vm.Proofs.PushPop
import I386Vm.Proofs.Refinement
import I386Vm.Proofs.SignedDivide

/-!
# The transfers against the i386

Moves, exchanges, conversions and the changes of `CF` leave exactly what the i386 does. A source is
read wider than the instruction is, which the low part does not show.
-/

namespace I386Vm

open Bytes Prog TwosComplement

/-- Whatever is read above the width, the low part is the operand. -/
theorem srcWide_low {w : Width} {op : CsX86Op} (h : op.IsLogicSource w) (s : Machine) :
    ∃ x, (srcWide op).run s = .ok (x, s) ∧ low w.bits x = low w.bits (op.operand w s) := by
  rcases h with hl | ⟨ht, -⟩
  · rw [hl.operand_eq, CsX86Op.IsLoc.low_value]
    exact @srcWide_run w (.bare "" 0 [op]) s hl
  · unfold srcWide CsX86Op.operand
    rw [run_bind_ok run_get_ok, if_neg (by simp [ht]), if_pos ht, if_pos ht]
    exact ⟨_, rfl, rfl⟩

section Moves

variable {insn : CsInsn} {s : Machine} {w v : Width} {dst : Loc} {src : Src w}

theorem movI_refines (h1 : insn.op1.Names w dst) (h2 : insn.op2.NamesSrc w src)
    (hdst : s.abs.Fits w dst) (hsrc : s.abs.FitsSrc src) (hs : (Instr.mov w dst src).Supported) :
    ∃ t, (movI insn).run s = .ok (some 0, t) ∧
      Refines (.mov w dst src) (insn.size.setWidth 32) s t := by
  have hd := SameData.advance s insn
  obtain ⟨x, hx, hlow⟩ := srcWide_low h2.logic (s.advance insn)
  rw [operand_congr h2.loc_or_imm hd, h2.operand_eq hsrc] at hlow
  have hrun : (movI insn).run s =
      .ok (some 0, (s.advance insn).poke w (s.opPtr insn.op1) (s.abs.operand src)) := by
    have hp := h1.isLoc.opPtr_congr hd
    unfold movI
    rw [run_bind_ok (advance_run s insn), run_bind_ok hx, run_bind_ok run_get_ok,
      ← Machine.poke_low, ← hlow, Machine.poke_low]
    rcases h1.isLoc.cases with ⟨ht, hr⟩ | ⟨ht, -⟩
    · rw [if_pos ht, (lowRegs_spec hr).2.2.1, ← @Machine.opPtr_of_reg _ s ht,
        run_bind_ok (store_run (h1.isLoc.valid s) _), cut_eq_low, Machine.poke_low]
      rfl
    · obtain rfl := hs (h1.type_mem.1 ht)
      rw [if_neg (by simp [ht]), if_pos ht, ← Machine.opPtr_of_mem ht, hp,
        run_bind_ok (store_run (h1.isLoc.valid s) _)]
      rfl
  exact ⟨_, hrun, .of_eq (Machine.abs_poke_names h1 hdst insn _) trivial fun _ => trivial⟩

theorem zeroExtend16_32_eq (x : BitVec 32) : zeroExtend16_32 (x.setWidth 16) = low 16 x :=
  setWidth_and_mask _ rfl

theorem zeroExtend8_32_eq (x : BitVec 32) : zeroExtend8_32 (x.setWidth 8) = low 8 x :=
  setWidth_and_mask _ rfl

theorem zeroExtend8_16_eq (x : BitVec 32) :
    (zeroExtend8_16 (x.setWidth 8)).setWidth 32 = low 8 x := by
  have hmask : zeroExtend8_16 (x.setWidth 8) = (x.setWidth 8).setWidth 16 := setWidth_and_mask _ rfl
  rw [hmask, BitVec.setWidth_setWidth (by decide)]
  rfl

/-- Both extensions store, at the width of the register, what `ext` makes of the operand. -/
theorem extends_refines {h : Handler} {i : Instr} {r : Gpr} {op2 : Loc}
    (ext : BitVec 32 → BitVec 32) (h1 : insn.op1.Names w (.reg r)) (h2 : insn.op2.Names v op2)
    (hfits : s.abs.Fits v op2)
    (hrun : ∀ x, (srcWide insn.op2).run (s.advance insn) = .ok (x, s.advance insn) →
      ∃ y, (h insn).run s = .ok (some 0, (s.advance insn).poke w (s.opPtr insn.op1) y) ∧
        low w.bits y = low w.bits (ext (low v.bits x)))
    (hi : i.exec (insn.size.setWidth 32) s.abs =
      (s.abs.put w (.reg r) (ext (s.abs.get v op2))).goto (s.abs.eip + insn.size.setWidth 32))
    (hf : i.Faithful (insn.size.setWidth 32) s.abs) (hr : ∀ f, i.Right s.abs f) :
    ∃ t, (h insn).run s = .ok (some 0, t) ∧ Refines i (insn.size.setWidth 32) s t := by
  obtain ⟨x, hx, hlow⟩ := srcWide_low (.inl h2.isLoc) (s.advance insn)
  obtain ⟨y, hy, hlow'⟩ := hrun x hx
  rw [h2.isLoc.operand_eq, CsX86Op.IsLoc.low_value, h2.isLoc.value_congr (SameData.advance s insn),
    Machine.value_names h2 hfits] at hlow
  rw [hlow] at hlow'
  refine ⟨_, hy, .of_eq ?_ hf hr⟩
  rw [← Machine.poke_low, hlow', Machine.poke_low, Machine.abs_poke_names h1 trivial, hi]

theorem narrower {w v : Width} (h : v.bytes < w.bytes) :
    w = .word ∧ v = .byte ∨ w = .dword ∧ v = .byte ∨ w = .dword ∧ v = .word := by
  cases w <;> cases v <;> simp_all [Width.bytes]

section Extensions

variable {r : Gpr} {op2 : Loc} (h1 : insn.op1.Names w (.reg r)) (h2 : insn.op2.Names v op2)
  (hfits : s.abs.Fits v op2) (hs : v.bytes < w.bytes)
include h1 h2 hfits hs

theorem movzxI_refines : ∃ t, (movzxI insn).run s = .ok (some 0, t) ∧
    Refines (.movzx w v r op2) (insn.size.setWidth 32) s t := by
  have ht : insn.op1.type = .reg := h1.type_reg id
  have hstore := @store_run (s.advance insn) w _ (h1.isLoc.valid s)
  refine extends_refines id h1 h2 hfits (fun x hx => ⟨low v.bits x, ?_, rfl⟩) rfl trivial
    fun _ => trivial
  unfold movzxI
  rw [run_bind_ok (advance_run s insn), run_bind_ok hx, if_neg (not_not_intro ht), h1.1, h2.1,
    ← @Machine.opPtr_of_reg _ s ht, zeroExtend16_32_eq, zeroExtend8_32_eq, zeroExtend8_16_eq]
  rcases narrower hs with ⟨rfl, rfl⟩ | ⟨rfl, rfl⟩ | ⟨rfl, rfl⟩
  · rw [if_neg (by decide), run_bind_ok (hstore _)]
    rfl
  · rw [if_pos (by decide), if_neg (by decide), run_bind_ok (hstore _)]
    rfl
  · rw [if_pos (by decide), if_pos (by decide), run_bind_ok (hstore _)]
    rfl

theorem movsxI_refines : ∃ t, (movsxI insn).run s = .ok (some 0, t) ∧
    Refines (.movsx w v r op2) (insn.size.setWidth 32) s t := by
  have ht : insn.op1.type = .reg := h1.type_reg id
  have hstore := @store_run (s.advance insn) w _ (h1.isLoc.valid s)
  refine extends_refines (fun x => (x.setWidth v.bits).signExtend 32) h1 h2 hfits
    (fun x hx => ?_) rfl trivial fun _ => trivial
  have hword : low 16 ((signExtend8_16 (x.setWidth 8)).setWidth 32) =
      low 16 ((x.setWidth 8).signExtend 32) := by
    refine congrArg (BitVec.setWidth 32) ?_
    rw [BitVec.setWidth_setWidth_of_le _ (by decide), BitVec.setWidth_eq, signExtend8_16_eq,
      setWidth_signExtend (by decide)]
  unfold movsxI
  rw [run_bind_ok (advance_run s insn), run_bind_ok hx, if_neg (not_not_intro ht), h1.1, h2.1,
    ← @Machine.opPtr_of_reg _ s ht, signExtend16_32_eq, signExtend8_32_eq, setWidth_low]
  rcases narrower hs with ⟨rfl, rfl⟩ | ⟨rfl, rfl⟩ | ⟨rfl, rfl⟩
  · rw [if_neg (by decide), run_bind_ok (hstore _)]
    exact ⟨_, rfl, hword⟩
  · rw [if_pos (by decide), if_neg (by decide), if_pos (by decide), run_bind_ok (hstore _)]
    exact ⟨_, rfl, rfl⟩
  · rw [if_pos (by decide), if_pos (by decide), run_bind_ok (hstore _)]
    exact ⟨_, rfl, rfl⟩

end Extensions

theorem leaI_refines {r : Gpr} {a : Address} {m : X86OpMem}
    (h1 : insn.op1.Names .dword (.reg r)) (h2 : insn.op2.val = .mem m) (hm : m.Names a)
    (hpre : insn.prefix0 ≠ 0x66) : ∃ t, (leaI insn).run s = .ok (some 0, t) ∧
      Refines (.lea r a) (insn.size.setWidth 32) s t := by
  have ht1 : insn.op1.type = .reg := h1.type_reg id
  have ht2 : insn.op2.type = .mem := by simp [CsX86Op.type, h2]
  have haddr : (s.advance insn).effAddr insn.op2.mem = s.abs.address a := by
    have hmem : insn.op2.mem = m := by simp [CsX86Op.mem, h2]
    rw [hmem, Machine.effAddr_eq hm]
    rfl
  have hrun : (leaI insn).run s =
      .ok (some 0, (s.advance insn).poke .dword (s.opPtr insn.op1) (s.abs.address a)) := by
    unfold leaI
    rw [run_bind_ok (advance_run s insn), run_bind_ok run_get_ok, if_neg (by simp [ht1, ht2]),
      if_neg hpre, haddr, ← @Machine.opPtr_of_reg _ s ht1,
      run_bind_ok (store_run (h1.isLoc.valid s) _)]
    rfl
  refine ⟨_, hrun, .of_eq ?_ trivial fun _ => trivial⟩
  rw [Machine.abs_poke_names h1 trivial]
  exact congrArg (fun x => (s.abs.setReg r x).goto _) (merge_dword _ _)

theorem notI_refines {r : Gpr} (h1 : insn.op1.Names w (.reg r)) :
    ∃ t, (notI insn).run s = .ok (some 0, t) ∧
      Refines (.not w (.reg r)) (insn.size.setWidth 32) s t := by
  have hrmw := @rmw_run (s.advance insn) w _ (h1.isLoc.valid s) (~~~·)
  have hrun : (notI insn).run s =
      .ok (some 0, (s.advance insn).poke w (s.opPtr insn.op1) (~~~insn.op1.value w s)) := by
    unfold notI
    rw [run_bind_ok (advance_run s insn), h1.1, widthOr32_size,
      ← @Machine.opPtr_of_reg _ s (h1.type_reg id), run_bind_ok hrmw,
      h1.isLoc.peek_eq (SameData.advance s insn)]
    rfl
  refine ⟨_, hrun, .of_eq ?_ trivial fun _ => trivial⟩
  rw [Machine.abs_poke_names h1 trivial, Machine.value_names h1 trivial]
  rfl

theorem xchgI_refines {op2 : Loc} (h1 : insn.op1.Names w dst) (h2 : insn.op2.Names w op2)
    (hdst : s.abs.Fits w dst) (hop2 : s.abs.Fits w op2) :
    ∃ t, (xchgI insn).run s = .ok (some 0, t) ∧
      Refines (.xchg w dst op2) (insn.size.setWidth 32) s t := by
  have hd := SameData.advance s insn
  have hrun : (xchgI insn).run s = .ok (some 0, ((s.advance insn).poke w (s.opPtr insn.op2)
      (insn.op1.value w s)).poke w (s.opPtr insn.op1) (insn.op2.value w s)) := by
    unfold xchgI
    rw [run_bind_ok (advance_run s insn), run_bind_ok run_get_ok, h1.1, widthOr32_size,
      h1.isLoc.opPtr_congr hd, h2.isLoc.opPtr_congr hd, run_bind_ok (load_run (h2.isLoc.valid s)),
      run_bind_ok (load_run (h1.isLoc.valid s)), run_bind_ok (store_run (h2.isLoc.valid s) _),
      run_bind_ok (store_run (h1.isLoc.valid s) _), h1.isLoc.peek_eq hd, h2.isLoc.peek_eq hd]
    rfl
  refine ⟨_, hrun, .of_eq ?_ trivial fun _ => trivial⟩
  rw [Machine.opPtr_names h1, Machine.abs_poke hdst, Machine.abs_poke_names h2 hop2,
    Machine.value_names h1 hdst, Machine.value_names h2 hop2]
  rcases dst with r | a <;> rfl

end Moves

theorem Cpu.Alike.load {c d : Cpu} (h : c.Alike d) (w : Width) (p : Place) :
    c.load w p = d.load w p := by
  cases p with
  | reg r => exact congrArg (fun reg : Gpr → BitVec 32 => low w.bits (reg r)) h.reg
  | mem a =>
    have hbytes : c.bytesAt a = d.bytesAt a := by
      unfold bytesAt
      rw [h.mem]
    exact congrArg (readLE · 0 w.bytes) hbytes

section Plain

variable {insn : CsInsn} {s : Machine}

theorem nopI_refines : ∃ t, (nopI insn).run s = .ok (some 0, t) ∧
    Refines .nop (insn.size.setWidth 32) s t :=
  ⟨_, rfl, .of_eq rfl trivial fun _ => trivial⟩

theorem low_shr_ne_zero (x : BitVec 32) : low 16 x >>> 15 ≠ 0 ↔ x.getLsbD 15 = true := by
  rw [Ne, ← BitVec.toNat_inj, BitVec.toNat_ushiftRight, toNat_low, Nat.shiftRight_eq_div_pow,
    BitVec.getLsbD, Nat.testBit_eq_decide_div_mod_eq, decide_eq_true_iff]
  change ¬ x.toNat % 2 ^ 16 / 2 ^ 15 = 0 ↔ _
  omega

/-- Both masks of `cwde_i` are of `AX` and its sign. -/
theorem cwde_value (x : BitVec 32) : (if low 16 x >>> 15 ≠ 0 then x ||| (0xFFFF0000 ||| low 16 x)
    else x &&& (0x0000FFFF &&& low 16 x)) = (x.setWidth 16).signExtend 32 := by
  have hhigh : ∀ i < 32, (0xFFFF0000 : BitVec 32).getLsbD i = decide (16 ≤ i) := by decide
  have hlow : ∀ i < 32, (0x0000FFFF : BitVec 32).getLsbD i = decide (i < 16) := by decide
  have hmsb : (x.setWidth 16).msb = x.getLsbD 15 := by
    rw [BitVec.msb_eq_getLsbD_last, BitVec.getLsbD_setWidth]
    rfl
  apply BitVec.eq_of_getLsbD_eq
  intro i hi
  rw [BitVec.getLsbD_signExtend, BitVec.getLsbD_setWidth, hmsb]
  simp only [low_shr_ne_zero]
  split
  · rename_i h
    rw [BitVec.getLsbD_or, BitVec.getLsbD_or, hhigh i hi, getLsbD_low, h]
    rcases lt_or_ge i 16 with hi16 | hi16
    · simp [hi, hi16, hi16.not_ge]
    · simp [hi, hi16]
  · rename_i h
    rw [BitVec.getLsbD_and, BitVec.getLsbD_and, hlow i hi, getLsbD_low,
      Bool.eq_false_iff.2 h]
    by_cases hi16 : i < 16 <;> simp [hi, hi16]

theorem cwdeI_refines : ∃ t, (cwdeI insn).run s = .ok (some 0, t) ∧
    Refines .cwde (insn.size.setWidth 32) s t := by
  have hrun : (cwdeI insn).run s = .ok (some 0, (s.advance insn).setReg .eax
      (((s.reg .eax).setWidth 16).signExtend 32)) := by
    have hax : (s.advance insn).peek .word (.var .eax) = low 16 (s.reg .eax) := rfl
    have heax : (s.advance insn).peek .dword (.var .eax) = s.reg .eax := low_dword _
    unfold cwdeI
    rw [run_bind_ok (advance_run s insn), run_bind_ok (load_run (.var _)),
      run_bind_ok (load_run (.var _)), hax, heax, cwde_value]
    rfl
  exact ⟨_, hrun, .of_eq (@Machine.abs_setReg (s.advance insn) .eax _) trivial fun _ => trivial⟩

theorem cdqI_refines : ∃ t, (cdqI insn).run s = .ok (some 0, t) ∧
    Refines .cdq (insn.size.setWidth 32) s t := by
  have hsign : (if sign (s.reg .eax) 0x20 then 0xFFFFFFFF else 0 : BitVec 32) =
      if (s.reg .eax).msb then -1 else 0 := by
    rw [show sign (s.reg .eax) 0x20 = _ from sign_eq .dword (s.reg .eax), BitVec.msb_eq_decide]
    rfl
  have hrun := cdqI_run insn s
  rw [hsign] at hrun
  exact ⟨_, hrun, .of_eq (@Machine.abs_setReg (s.advance insn) .edx _) trivial fun _ => trivial⟩

theorem clcI_refines : ∃ t, (clcI insn).run s = .ok (some 0, t) ∧
    Refines .clc (insn.size.setWidth 32) s t :=
  ⟨_, rfl, .of_eq ((s.advance insn).abs_assignFlag .CF false) trivial fun _ => trivial⟩

theorem stcI_refines : ∃ t, (stcI insn).run s = .ok (some 0, t) ∧
    Refines .stc (insn.size.setWidth 32) s t :=
  ⟨_, rfl, .of_eq ((s.advance insn).abs_assignFlag .CF true) trivial fun _ => trivial⟩

theorem cmcI_refines : ∃ t, (cmcI insn).run s = .ok (some 0, t) ∧
    Refines .cmc (insn.size.setWidth 32) s t := by
  refine ⟨_, rfl, .of_eq ?_ trivial fun _ => trivial⟩
  change ((s.advance insn).complementFlag .CF).abs = _
  rw [Machine.complementFlag_eq]
  exact (s.advance insn).abs_assignFlag .CF _

end Plain

end I386Vm
