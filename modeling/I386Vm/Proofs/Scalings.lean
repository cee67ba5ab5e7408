import I386Vm.Proofs.Factors
import I386Vm.Proofs.Refinement
import I386Vm.Proofs.Shifts

/-!
# Negations, shifts and products against the i386

The values are right in all of them. `neg_i` has the overflow of an addition and does not assign
`AF`, `shr_i` takes `OF` from the result, and `imul_i` does not see what 32 bits cut.
-/

namespace I386Vm

open Bytes Prog TwosComplement

section Negate

variable {w : Width} {x : BitVec 32} {old : Flag → Bool}

theorem difference_zero_left (w : Width) (x : BitVec 32) :
    Alu.difference w 0 x 0 = low w.bits (0 - x) :=
  congrArg (low w.bits) (BitVec.sub_zero _)

/-- Only the lowest number has no negative. -/
theorem not_inRange_neg_iff (hx : x.toNat < 2 ^ w.bits) :
    ¬ InRange (2 ^ (w.bits - 1)) (w.signed 0 - w.signed x - (0 : ℕ)) ↔
      x.toNat = 2 ^ (w.bits - 1) := by
  obtain ⟨hhalf, hpos, -⟩ := w.two_pow_bits
  have hzero : (0 : BitVec 32).toNat = 0 := rfl
  rw [signed_eq_signed hx, signed_eq_signed (Nat.two_pow_pos _), hzero]
  unfold InRange signed
  split_ifs <;> omega

theorem neg_over_iff (hx : x.toNat < 2 ^ w.bits) (f : Flag) :
    (Status.ofResult w (Alu.difference w 0 x 0) (!zero x)
        (overflow 0 x (Alu.difference w 0 x 0) (w.size * 8)) (old .AF)).over old f =
      (Alu.differenceStatus w 0 x 0).over old f ↔
      (f = .OF → x.toNat = 0 ∨ 2 ^ (w.bits - 1) < x.toNat) ∧
        (f = .AF → (old .AF = true ↔ x.toNat % 16 ≠ 0)) := by
  have hzero : (0 : BitVec 32).toNat = 0 := rfl
  have hof := overflow_neg_iff hx
  rw [← not_inRange_neg_iff hx, ← difference_zero_left, ← eq_decide_iff] at hof
  unfold Alu.differenceStatus
  rw [ofResult_over_iff]
  cases f with
  | CF =>
    refine iff_of_true (eq_decide_iff.2 ?_) ⟨nofun, nofun⟩
    rw [zero_eq, hzero]
    simp [Nat.pos_iff_ne_zero]
  | OF => simp only [hof, forall_const, reduceCtorEq, false_implies, and_true]
  | AF =>
    refine eq_decide_iff.trans ?_
    rw [hzero, Nat.zero_mod, Nat.add_zero, Nat.pos_iff_ne_zero]
    simp only [forall_const, reduceCtorEq, false_implies, true_and]
  | _ => simp

theorem negI_refines {insn : CsInsn} {s : Machine} {r : Gpr}
    (h1 : insn.op1.Names w (.reg r)) : ∃ t, (negI insn).run s = .ok (some 0, t) ∧
      Refines (.neg w (.reg r)) (insn.size.setWidth 32) s t := by
  have hp : s.opPtr insn.op1 = regs insn.op1.reg := Machine.opPtr_of_reg (h1.type_reg id)
  have hvalid := h1.isLoc.valid s
  have hsafe := h1.isLoc.safe s
  have hpeek := h1.isLoc.peek_eq (SameData.advance s insn)
  have hx : (s.abs.get w (.reg r)).toNat < 2 ^ w.bits := s.abs.load_lt w _
  rw [Machine.value_names h1 trivial] at hpeek
  have hrun : (negI insn).run s =
      .ok (some 0, (s.advance insn).neg w (s.opPtr insn.op1)) := by
    rw [hp] at hvalid hsafe ⊢
    exact negI_run h1.1 hvalid
  refine ⟨_, hrun, @Refines.of_status _ _ _ _
    ((s.abs.put w (.reg r) (Alu.difference w 0 _ 0)).goto _) (Alu.differenceStatus w 0 _ 0)
    _ ?_ rfl trivial fun f _ => neg_over_iff hx f⟩
  rw [← Machine.abs_poke_names h1 trivial, difference_zero_left, Machine.poke_low]
  refine @Machine.abs_setStatus statusFlags _ _ _ ?_ fun f => ?_
  · have hsame := (s.advance insn).sameBut_neg w (s.opPtr insn.op1)
    rwa [hpeek] at hsame
  · rw [Machine.testFlag_neg, hpeek, Status.ofResult_eq]
    cases f <;> rfl

end Negate

section Shifting

variable {insn : CsInsn} {s : Machine} {w : Width} {dst : Loc} {count : Count}

theorem CsX86Op.NamesCount.isCount {op : CsX86Op} (h : op.NamesCount count) : op.IsCount := by
  cases count with
  | imm n =>
    obtain ⟨x, hx, -⟩ := h
    exact .inl (by simp [type, hx])
  | cl => exact .inr h

theorem CsX86Op.NamesCount.count_eq {op : CsX86Op} (h : op.NamesCount count) :
    op.count s % 32 = s.abs.count count := by
  unfold CsX86Op.count
  cases count with
  | imm n =>
    obtain ⟨x, hx, rfl⟩ := h
    rw [if_pos (by simp [type, hx]), imm, hx]
    rfl
  | cl =>
    have hcl : op.val = .reg .cl := h
    rw [if_neg (by simp [type, hcl])]
    rfl

/-- The code takes the count modulo the width, which it is below. -/
theorem count_mod_bits (hs : (Instr.shift op w dst count).Supported)
    (h2 : insn.op2.NamesCount count) : insn.op2.count s % w.bits = s.abs.count count := by
  have hlt : s.abs.count count < w.bits := by
    rcases hs.2 with rfl | ⟨n, rfl, hn⟩
    · cases count <;> exact Nat.mod_lt _ (by decide)
    · exact hn
  rw [mod_bits, h2.count_eq, Nat.mod_eq_of_lt hlt]

theorem afterShift_reg (ht : insn.op1.type = .reg) (t : Machine) : afterShift w insn s t =
    (some 0, if insn.op2.count s % w.bits = 0 then s.advance insn else t) := by
  unfold afterShift
  rw [if_neg (not_not.2 ht)]
  split_ifs <;> rfl

/-- What the handler has for the result, and for `OF` of a shift by 1. -/
structure Shift.Stored (op : Shift) (w : Width) (x : BitVec 32) (k : ℕ) (old : Bool)
    (v : BitVec 32) (of : Option Bool) : Prop where
  result : low w.bits v = op.result w x k
  overflow : k = 1 →
    (of.getD old = op.overflow w x ↔ (op = .shr → x.toNat < 2 ^ (w.bits - 1)))

theorem Shift.stored_shl (w : Width) (x : BitVec 32) (k : ℕ) (old : Bool) :
    Shift.shl.Stored w x k old (x <<< k) (if k = 1 then
      some ((low w.bits (x <<< k)).getLsbD (w.bits - 1) ^^ x.getLsbD (w.bits - k)) else none) := by
  refine ⟨rfl, ?_⟩
  rintro rfl
  exact iff_of_true rfl nofun

/-- The top bit has been shifted out when `OF` is assigned. -/
theorem Shift.stored_shr {x : BitVec 32} (hx : x.toNat < 2 ^ w.bits) (k : ℕ) (old : Bool) :
    Shift.shr.Stored w x k old (x >>> k)
      (some (decide (k = 1) && (low w.bits (x >>> k)).getLsbD (w.bits - 1))) := by
  have hhalf := w.two_pow_bits.1
  refine ⟨low_of_lt ?_, ?_⟩
  · rw [BitVec.toNat_ushiftRight]
    exact lt_of_le_of_lt (Nat.shiftRight_le _ _) hx
  · rintro rfl
    have htop : (low w.bits (x >>> 1)).getLsbD (w.bits - 1) = false := by
      rw [getLsbD_top (toNat_low_lt _ _), toNat_low_shr hx, decide_eq_false_iff_not]
      omega
    rw [htop, Bool.and_false, forall_prop_of_true rfl]
    unfold overflow
    rw [getLsbD_top hx, Option.getD_some, eq_comm, decide_eq_false_iff_not, not_le]

theorem Shift.stored_sar (w : Width) (x : BitVec 32) (k : ℕ) (old : Bool) :
    Shift.sar.Stored w x k old ((asSigned w x).sshiftRight k)
      (if k = 1 then some false else none) := by
  refine ⟨?_, ?_⟩
  · rw [asSigned_eq]
    rfl
  · rintro rfl
    exact iff_of_true rfl nofun

section Handler

variable {r : Gpr} (h1 : insn.op1.Names w (.reg r)) (h2 : insn.op2.NamesCount count) {op : Shift}
  (hs : (Instr.shift op w (.reg r) count).Supported)
include h1 h2 hs

theorem Shift.handler_run : ∃ v of,
    op.Stored w (s.abs.get w (.reg r)) (s.abs.count count) (s.abs.flag .OF) v of ∧
    (op.handler insn).run s = .ok (some 0, if s.abs.count count = 0 then s.advance insn
      else (s.advance insn).withShift w (s.opPtr insn.op1)
        (op.carry w (s.abs.get w (.reg r)) (s.abs.count count)) v of) := by
  have hx : (s.abs.get w (.reg r)).toNat < 2 ^ w.bits := s.abs.load_lt w _
  have hvalue := Machine.value_names h1 (show (s.abs.place (.reg r)).Fits w from trivial)
  have hcount := @count_mod_bits insn s _ _ _ _ hs h2
  have hafter := @afterShift_reg insn s w (h1.type_reg id)
  rw [hcount] at hafter
  cases op with
  | shl =>
    have hrun := @shiftLeft_run w insn s h1.isLoc h2.isCount
    rw [hafter, hcount, hvalue] at hrun
    exact ⟨_, _, stored_shl _ _ _ _, hrun⟩
  | shr =>
    have hrun := @shrI_run w insn s h1.isLoc h2.isCount
    rw [hafter, hcount, hvalue] at hrun
    exact ⟨_, _, stored_shr hx _ _, hrun⟩
  | sar =>
    have hrun := @sarI_run w insn s h1.isLoc h2.isCount
    rw [hafter, hcount, hvalue] at hrun
    refine ⟨_, _, stored_sar _ _ _ _, ?_⟩
    unfold carry
    rw [← asSigned_eq]
    exact hrun

omit h2 hs in
theorem abs_withShift {x v : BitVec 32} {k : ℕ} {old : Bool} {of : Option Bool}
    (h : op.Stored w x k old v of) (cf : Bool) :
    ((s.advance insn).withShift w (s.opPtr insn.op1) cf v of).abs =
      ((s.abs.put w (.reg r) (op.result w x k)).goto
        (s.abs.eip + insn.size.setWidth 32)).setStatus
        (.ofResult w (op.result w x k) cf (of.getD (s.abs.flag .OF)) (s.abs.flag .AF)) := by
  have hsafe := h1.isLoc.safe s
  have hflags : ((s.advance insn).poke w (s.opPtr insn.op1) v).testFlag =
      (s.advance insn).testFlag := funext fun f => Machine.testFlag_poke _ _ _ _ _
  rw [← h.result, ← Machine.abs_poke_names h1 trivial, Machine.poke_low]
  refine @Machine.abs_setStatus statusFlags _ _ _ (Machine.sameBut_withShift _ _ _ _ _ _)
    fun f => ?_
  rw [Machine.testFlag_withShift, Status.ofResult_eq, hflags]
  cases f <;> rfl

theorem shift_refines : ∃ t, (op.handler insn).run s = .ok (some 0, t) ∧
    Refines (.shift op w (.reg r) count) (insn.size.setWidth 32) s t := by
  obtain ⟨v, of, hstored, hrun⟩ := @Shift.handler_run insn s _ _ _ h1 h2 _ hs
  have hexec : (Instr.shift op w (.reg r) count).exec (insn.size.setWidth 32) s.abs =
      (s.abs.shift op w (.reg r) (s.abs.count count)).goto
        (s.abs.eip + insn.size.setWidth 32) := rfl
  unfold Cpu.shift at hexec
  refine ⟨_, hrun, ?_⟩
  by_cases hk : s.abs.count count = 0
  · rw [if_pos hk] at hexec ⊢
    exact .of_eq hexec.symm trivial fun f _ _ hone => absurd (hk.symm.trans hone) (by decide)
  rw [if_neg hk] at hexec ⊢
  refine Refines.of_status (abs_withShift h1 hstored _) hexec trivial fun f hf => ?_
  unfold Shift.status
  refine (ofResult_over_iff f).trans ?_
  cases f with
  | OF =>
    have hone : s.abs.count count = 1 := by
      by_contra hne
      refine hf ?_
      simp [Instr.undefined, Shift.undefined, hk, hne]
    rw [if_pos hone]
    refine (hstored.overflow hone).trans ?_
    simp [Instr.Right, hone]
  | _ => exact iff_of_true (by trivial) nofun

end Handler

end Shifting

section Multiply

variable {insn : CsInsn} {s : Machine} {r : Gpr} {src : Loc}
  (h1 : insn.op1.Names .dword (.reg r)) (h2 : insn.op2.Names .dword src)
  (hsrc : s.abs.Fits .dword src)
include h1

theorem abs_withCfOf (x : BitVec 32) (c : Bool) :
    (((s.advance insn).poke .dword (s.opPtr insn.op1) x).withCfOf c).abs =
      (((s.abs.setReg r x).goto (s.abs.eip + insn.size.setWidth 32)).setFlag .CF c).setFlag
        .OF c := by
  have hput : s.abs.put .dword (.reg r) x = s.abs.setReg r x :=
    congrArg (s.abs.setReg r) (merge_dword _ _)
  unfold Machine.withCfOf
  rw [Machine.abs_assignFlag, Machine.abs_assignFlag, Machine.abs_poke_names h1 trivial, hput]

/-- A product with `CF` and `OF` clear. -/
theorem multiply_refines {i : Instr} {a b : BitVec 32} {t : Machine}
    (ht : t = ((s.advance insn).poke .dword (s.opPtr insn.op1) (a * b)).withCfOf false)
    (hi : i.exec (insn.size.setWidth 32) s.abs =
      (s.abs.multiply r a b).goto (s.abs.eip + insn.size.setWidth 32))
    (hf : i.Faithful (insn.size.setWidth 32) s.abs)
    (hr : ∀ f, (f = .CF ∨ f = .OF → InRange (2 ^ 31) (a.toInt * b.toInt)) ↔ i.Right s.abs f) :
    Refines i (insn.size.setWidth 32) s t := by
  have habs := abs_withCfOf h1 (s := s) (a * b) false
  rw [← ht] at habs
  have hcut : false = decide (¬ InRange (2 ^ 31) (a.toInt * b.toInt)) ↔
      InRange (2 ^ 31) (a.toInt * b.toInt) := by
    rw [eq_comm, decide_eq_false_iff_not, not_not]
  constructor
  · rw [habs, hi]
    exact iff_of_true ⟨rfl, rfl, rfl⟩ hf
  · intro f _
    rw [← hr f, hi]
    refine (iff_of_eq (congrArg (· = _) (congrFun (congrArg Cpu.flag habs) f))).trans ?_
    cases f with
    | CF => exact hcut.trans (by simp)
    | OF => exact hcut.trans (by simp)
    | _ => exact iff_of_true rfl nofun

include h2 hsrc

theorem imulI_refines (hb : insn.byte0 = 0x0F) : ∃ t, (imulI insn).run s = .ok (some 0, t) ∧
    Refines (.imul r src) (insn.size.setWidth 32) s t := by
  have hrun := imulI_loc_run (s := s) (w := .dword) (by decide) h1.isLoc (h1.type_reg id) rfl
    h2.isLoc rfl hb
  rw [Machine.value_names h1 trivial, Machine.value_names h2 hsrc, Cpu.get_dword_reg,
    imulTooBig_dword] at hrun
  exact ⟨_, hrun, multiply_refines h1 rfl rfl trivial fun _ => Iff.rfl⟩

theorem imulImm_refines {v : BitVec 32} (h3 : insn.HasFactor v) :
    ∃ t, (imulI insn).run s = .ok (some 0, t) ∧
      Refines (.imulImm r src v) (insn.size.setWidth 32) s t := by
  obtain ⟨hcount, x, hx, rfl, hb⟩ := h3
  have himm : insn.op3.type = .imm ∧ insn.op3.imm = x := by
    simp [CsX86Op.type, CsX86Op.imm, hx]
  obtain ⟨narrow, hfactor, hform⟩ : ∃ narrow, insn.op3.IsFactor narrow ∧
      (insn.Rest ∨ insn.byte0 = 0x6B ∧ narrow = true) := by
    rcases hb with hb | ⟨hb, hext⟩
    · exact ⟨false, ⟨himm.1, fun h => absurd h (by decide)⟩,
        .inl (by unfold CsInsn.Rest; rw [hb]; decide)⟩
    · exact ⟨true, ⟨himm.1, fun _ => by rw [himm.2]; exact hext⟩, .inr ⟨hb, rfl⟩⟩
  have hrun := imulI_imm_run (s := s) (w := .dword) (by decide) h1.isLoc (h1.type_reg id) rfl
    h2.isLoc hfactor hcount rfl rfl hform
  rw [Machine.value_names h2 hsrc, imulTooBig_dword, himm.2] at hrun
  exact ⟨_, hrun, multiply_refines h1 rfl rfl trivial fun _ => Iff.rfl⟩

end Multiply

end I386Vm
