import I386Vm.Proofs.Exactness
import I386Vm.Proofs.Immediates

/-!
# The handlers against the i386

The handler of a supported instruction whose memory operands do not run past the last address ends
with 0, and what it leaves is compared with what the i386 does in two parts: the registers, memory
and `eip`, which are right exactly where the instruction is `Faithful`, and the flags that the
manual defines, each of which is right exactly where `Instr.Right` says.
-/

namespace I386Vm

open Bytes Prog TwosComplement

/-- The two processors differ in flags alone. -/
structure Cpu.Alike (c d : Cpu) : Prop where
  reg : c.reg = d.reg
  eip : c.eip = d.eip
  mem : c.mem = d.mem

/-- Where the handler of the operation on `a` and `b`, with the carry `k` in, leaves the flag that
the i386 does. -/
def Alu.Right (op : Alu) (w : Width) (a b : BitVec 32) (k : ℕ) (f : Flag) : Prop :=
  match op with
  | adc => f = .CF → ¬ (k = 1 ∧ b.toNat = 2 ^ w.bits - 1)
  | sub => f = .OF → KeepsSign (2 ^ (w.bits - 1)) (w.signed a) (w.signed b)
  | cmp => (f = .OF → KeepsSign (2 ^ (w.bits - 1)) (w.signed a) (w.signed b)) ∧
      (f = .SF → BorrowFits w a.toNat b.toNat)
  | sbb =>
    -- what `sbb_i` takes for the carry out
    let out := a.toNat < (b.toNat + k) % 2 ^ 32
    (f = .CF → b.toNat + k < 2 ^ 32) ∧
      (f = .OF → KeepsSign (2 ^ (w.bits - 1)) (w.signed a) (w.signed b + k) ∨
        (out ∧ (b.toNat + 1 = 2 ^ (w.bits - 1) ∨ b.toNat + 1 = 2 ^ w.bits))) ∧
      (f = .AF → ¬ out ∨ b.toNat % 16 ≠ 15)
  | _ => True

/-- Where the handler of a supported instruction leaves the flag that the i386 does; `inc_i` and
`dec_i` overwrite `CF`, and `neg_i` does not assign `AF`. -/
def Instr.Right (i : Instr) (c : Cpu) (f : Flag) : Prop :=
  match i with
  | alu op w dst src =>
    op.Right w (c.get w dst) (c.operand src) (op.carryIn (c.flag .CF)) f
  | inc w dst => f = .CF → (c.flag .CF = true ↔ (c.get w dst).toNat = 2 ^ w.bits - 1)
  | dec w dst =>
    (f = .CF → (c.flag .CF = true ↔ (c.get w dst).toNat = 0)) ∧
      (f = .OF → (c.get w dst).toNat ≠ 0 ∧ (c.get w dst).toNat ≠ 2 ^ (w.bits - 1))
  | neg w dst =>
    (f = .OF → (c.get w dst).toNat = 0 ∨ 2 ^ (w.bits - 1) < (c.get w dst).toNat) ∧
      (f = .AF → (c.flag .AF = true ↔ (c.get w dst).toNat % 16 ≠ 0))
  | shift op w dst count =>
    f = .OF → op = .shr → c.count count = 1 → (c.get w dst).toNat < 2 ^ (w.bits - 1)
  | imul dst src =>
    f = .CF ∨ f = .OF → InRange (2 ^ 31) ((c.reg dst).toInt * (c.get .dword src).toInt)
  | imulImm _ src v => f = .CF ∨ f = .OF → InRange (2 ^ 31) ((c.get .dword src).toInt * v.toInt)
  | _ => True

/-- Where the handler of a supported instruction of `n` bytes leaves the registers, memory and `eip`
that the i386 does. `pop_i` moves `ESP` after it is popped, `leave_i` takes 16 bits of the frame
pointer, and three handlers combine `ZF` with `SF` and `OF` the wrong way. -/
def Instr.Faithful (i : Instr) (n : BitVec 32) (c : Cpu) : Prop :=
  match i with
  | pop dst => dst ≠ .esp
  | leave => (c.load .dword (.mem (c.reg .ebp))).toNat < 2 ^ 16
  | setcc k _ => k = .g ∨ k = .le → c.flag .ZF = (c.flag .SF != c.flag .OF)
  | jcc k target =>
    k = .le → c.flag .ZF = (c.flag .SF != c.flag .OF) ∨ target = c.eip + n
  | _ => True

/-- What the machine has become from `s` to `t` against what the instruction does. -/
structure Refines (i : Instr) (n : BitVec 32) (s t : Machine) : Prop where
  data : t.abs.Alike (i.exec n s.abs) ↔ i.Faithful n s.abs
  flags : ∀ f ∉ i.undefined s.abs, (t.testFlag f = (i.exec n s.abs).flag f ↔ i.Right s.abs f)

section Ways

variable {i : Instr} {n : BitVec 32} {s t : Machine}

/-- All of it is right. -/
theorem Refines.of_eq (h : t.abs = i.exec n s.abs) (hf : i.Faithful n s.abs)
    (hr : ∀ f, i.Right s.abs f) : Refines i n s t := by
  constructor
  · rw [h]
    exact iff_of_true ⟨rfl, rfl, rfl⟩ hf
  · intro f _
    rw [← h]
    exact iff_of_true rfl (hr f)

/-- All but the flags is right. -/
theorem Refines.of_status {c : Cpu} {st st' : Status} (ht : t.abs = c.setStatus st')
    (hi : i.exec n s.abs = c.setStatus st) (hf : i.Faithful n s.abs)
    (hr : ∀ f ∉ i.undefined s.abs,
      (st'.over c.flag f = st.over c.flag f ↔ i.Right s.abs f)) : Refines i n s t := by
  constructor
  · rw [ht, hi]
    exact iff_of_true ⟨rfl, rfl, rfl⟩ hf
  · intro f hu
    rw [hi, ← hr f hu]
    exact iff_of_eq (congrArg (· = _) (congrFun (congrArg Cpu.flag ht) f))

end Ways

theorem Machine.carry_eq (s : Machine) : s.carry = BitVec.ofNat 32 (s.testFlag .CF).toNat := by
  unfold carry
  cases s.testFlag .CF <;> rfl

theorem Alu.carryIn_le (op : Alu) (cf : Bool) : op.carryIn cf ≤ 1 := by
  cases op <;> cases cf <;> decide

section Arith

variable {insn : CsInsn} {s : Machine} {w : Width} {dst : Loc} (h1 : insn.op1.Names w dst)
  (hdst : s.abs.Fits w dst)

include h1 hdst

theorem abs_arith (cf : Bool) (a b r x : BitVec 32) :
    (((s.advance insn).poke w (s.opPtr insn.op1) x).withArith cf a b r (w.size * 8)).abs =
      ((s.abs.put w dst (low w.bits x)).goto (s.abs.eip + insn.size.setWidth 32)).setStatus
        (.computed w cf a b r) := by
  rw [← Machine.poke_low, Machine.abs_withArith, Machine.abs_poke_names h1 hdst]

theorem abs_sum (b : BitVec 32) (k : ℕ) : (s.sum insn w b (BitVec.ofNat 32 k)).abs =
    ((s.abs.put w dst (Alu.sum w (s.abs.get w dst) b k)).goto
      (s.abs.eip + insn.size.setWidth 32)).setStatus
      (.computed w (Alu.sum w (s.abs.get w dst) b k < s.abs.get w dst) (s.abs.get w dst) b
        (Alu.sum w (s.abs.get w dst) b k)) := by
  unfold Machine.sum
  rw [abs_arith h1 hdst, Machine.value_names h1 hdst]
  rfl

/-- `ADD` and `ADC` by what they leave. -/
theorem sum_refines {op : Alu} (hop : op = .add ∨ op = .adc) (src : Src w) :
    Refines (.alu op w dst src) (insn.size.setWidth 32) s
      (s.sum insn w (s.abs.operand src) (BitVec.ofNat 32 (op.carryIn (s.abs.flag .CF)))) := by
  have ha : (s.abs.get w dst).toNat < 2 ^ w.bits := s.abs.load_lt w _
  have hb := s.abs.operand_lt src
  rcases hop with rfl | rfl
  · refine @Refines.of_status _ _ _ _ _ (Alu.sumStatus w _ _ 0) _ (abs_sum h1 hdst _ 0) rfl trivial
      fun f _ => (sum_over_iff ha hb (Nat.zero_le 1) f).trans ?_
    exact iff_of_true (fun _ h => absurd h.1 Nat.zero_ne_one) trivial
  · exact @Refines.of_status _ _ _ _ _ (Alu.sumStatus w _ _ _) _ (abs_sum h1 hdst _ _) rfl trivial
      fun f _ => sum_over_iff ha hb (Alu.carryIn_le .adc (s.abs.flag .CF)) f

theorem abs_difference (cf : Bool) (a b b' : BitVec 32) (k : ℕ) :
    (((s.advance insn).poke w (s.opPtr insn.op1) (a - b - BitVec.ofNat 32 k)).withArith cf a b'
      (low w.bits (a - b - BitVec.ofNat 32 k)) (w.size * 8)).abs =
      ((s.abs.put w dst (Alu.difference w a b k)).goto
        (s.abs.eip + insn.size.setWidth 32)).setStatus
        (.computed w cf a b' (Alu.difference w a b k)) :=
  abs_arith h1 hdst _ _ _ _ _

theorem abs_subtract (hw : dst.IsMem → w = .dword) (b : BitVec 32) : (s.subtract insn w b).abs =
    ((s.abs.put w dst (Alu.difference w (s.abs.get w dst) b 0)).goto
      (s.abs.eip + insn.size.setWidth 32)).setStatus
      (.computed w (s.abs.get w dst < b) (s.abs.get w dst) b
        (Alu.difference w (s.abs.get w dst) b 0)) := by
  have hmem : insn.op1.type = .mem → w = .dword := fun ht => hw (h1.type_mem.1 ht)
  have hwidth : (if insn.op1.type = .mem then .dword else w) = w := by
    split
    · rename_i ht
      exact (hmem ht).symm
    · rfl
  have hsub : insn.op1.value w s - b = insn.op1.value w s - b - BitVec.ofNat 32 0 :=
    (BitVec.sub_zero _).symm
  unfold Machine.subtract
  rw [subResult_eq hmem, wide_eq_value hmem, hwidth, hsub, abs_difference h1 hdst,
    Machine.value_names h1 hdst]

theorem incI_refines : ∃ t, (incI insn).run s = .ok (some 0, t) ∧
    Refines (.inc w dst) (insn.size.setWidth 32) s t := by
  have ha : (s.abs.get w dst).toNat < 2 ^ w.bits := s.abs.load_lt w _
  exact ⟨_, incI_run h1.isLoc, @Refines.of_status _ _ _ _ _
    { Alu.sumStatus w _ 1 0 with cf := s.abs.flag .CF } _ (abs_sum h1 hdst 1 0) rfl trivial
    fun f _ => inc_over_iff ha _ f⟩

theorem decI_refines (hs : (Instr.dec w dst).Supported) :
    ∃ t, (decI insn).run s = .ok (some 0, t) ∧
      Refines (.dec w dst) (insn.size.setWidth 32) s t := by
  have ha : (s.abs.get w dst).toNat < 2 ^ w.bits := s.abs.load_lt w _
  exact ⟨_, decI_run h1.isLoc, @Refines.of_status _ _ _ _ _
    { Alu.differenceStatus w _ 1 0 with cf := s.abs.flag .CF } _ (abs_subtract h1 hdst hs 1) rfl
    trivial fun f _ => dec_over_iff ha _ f⟩

variable {src : Src w} (h2 : insn.op2.NamesSrc w src) (hsrc : s.abs.FitsSrc src)
include h2 hsrc

theorem addI_refines : ∃ t, (addI insn).run s = .ok (some 0, t) ∧
    Refines (.alu .add w dst src) (insn.size.setWidth 32) s t := by
  have hrun := @addI_run_of_lt w insn s h1.isLoc h2.loc_or_imm
  rw [h2.operand_eq hsrc] at hrun
  exact ⟨_, hrun (s.abs.operand_lt src), sum_refines h1 hdst (.inl rfl) src⟩

theorem adcI_refines : ∃ t, (adcI insn).run s = .ok (some 0, t) ∧
    Refines (.alu .adc w dst src) (insn.size.setWidth 32) s t := by
  have hrun := @adcI_run_of_lt w insn s h1.isLoc h2.loc_or_imm
  rw [h2.operand_eq hsrc, s.carry_eq] at hrun
  exact ⟨_, hrun (s.abs.operand_lt src), sum_refines h1 hdst (.inr rfl) src⟩

theorem subI_refines (hs : (Instr.alu .sub w dst src).Supported) :
    ∃ t, (subI insn).run s = .ok (some 0, t) ∧
      Refines (.alu .sub w dst src) (insn.size.setWidth 32) s t := by
  have ha : (s.abs.get w dst).toNat < 2 ^ w.bits := s.abs.load_lt w _
  have hw : insn.op2.type = .mem → w = .dword := by
    intro ht
    by_contra hne
    exact h2.type_ne_mem (fun hm => hne (hs (.inr hm))) ht
  have hrun := @subI_operand_run w s insn h1.isLoc h2.logic hw
  rw [h2.operand_eq hsrc] at hrun
  refine ⟨_, hrun, @Refines.of_status _ _ _ _ _ (Alu.differenceStatus w _ _ 0) _
    (abs_subtract h1 hdst (fun hm => hs (.inl hm)) _) rfl trivial fun f _ => ?_⟩
  rw [difference_zero_over_iff ha (s.abs.operand_lt src)]
  exact and_iff_right fun _ => decide_eq_true_iff

theorem cmpI_refines : ∃ t, (cmpI insn).run s = .ok (some 0, t) ∧
    Refines (.alu .cmp w dst src) (insn.size.setWidth 32) s t := by
  have ha : (s.abs.get w dst).toNat < 2 ^ w.bits := s.abs.load_lt w _
  have hb := s.abs.operand_lt src
  have hrun := @cmpI_operand_run w s insn h1.isLoc h2.logic
  rw [h2.operand_eq hsrc, Machine.value_names h1 hdst] at hrun
  refine ⟨_, hrun hb, @Refines.of_status _ _ _ _ (s.abs.goto (s.abs.eip + insn.size.setWidth 32))
    (Alu.differenceStatus w _ _ 0) _ ?_ rfl trivial fun f _ => cmp_over_iff ha hb f⟩
  rw [Machine.abs_withArith]
  rfl

theorem sbbI_refines : ∃ t, (sbbI insn).run s = .ok (some 0, t) ∧
    Refines (.alu .sbb w dst src) (insn.size.setWidth 32) s t := by
  have ha : (s.abs.get w dst).toNat < 2 ^ w.bits := s.abs.load_lt w _
  have hrun := @sbbI_operand_run w s insn h1.isLoc h2.logic
  rw [h2.operand_eq hsrc, Machine.value_names h1 hdst] at hrun
  refine ⟨_, hrun, @Refines.of_status _ _ _ _ ((s.abs.put w dst (Alu.difference w _ _ _)).goto _)
    (Alu.differenceStatus w _ _ _) _ ?_ rfl trivial fun f _ =>
      sbb_over_iff ha (s.abs.operand_lt src) s.toNat_carry (Bool.toNat_le _) f⟩
  rw [s.carry_eq, abs_difference h1 hdst]
  rfl

end Arith

section Logical

variable {insn : CsInsn} {s : Machine} {w : Width} {dst : Loc} {src : Src w}
  (h1 : insn.op1.Names w dst) (h2 : insn.op2.NamesSrc w src) (hdst : s.abs.Fits w dst)
  (hsrc : s.abs.FitsSrc src)

include h1 hdst

theorem abs_logic (op : Logic) (b : BitVec 32) : (s.logic op insn w b).abs =
    ((s.abs.put w dst (op.apply (s.abs.get w dst) b)).goto
      (s.abs.eip + insn.size.setWidth 32)).setStatus
      (.ofResult w (op.apply (s.abs.get w dst) b) false false (s.abs.flag .AF)) := by
  have haf (x : BitVec 32) :
      ((s.advance insn).poke w (s.opPtr insn.op1) x).testFlag .AF = s.abs.flag .AF := by
    change ((s.advance insn).poke w (s.opPtr insn.op1) x).abs.flag .AF = _
    rw [Machine.abs_poke_names h1 hdst]
    exact congrFun (Cpu.flag_store _ _ _ _) _
  unfold Machine.logic
  rw [Machine.abs_withLogic, haf, Machine.abs_poke_names h1 hdst, Machine.value_names h1 hdst]

include h2 hsrc

omit h1 hdst in
theorem low_operand : low w.bits (insn.op2.operand w s) = s.abs.operand src := by
  rw [h2.operand_eq hsrc, low_of_lt (s.abs.operand_lt src)]

theorem andI_refines : ∃ t, (andI insn).run s = .ok (some 0, t) ∧
    Refines (.alu .and w dst src) (insn.size.setWidth 32) s t := by
  have hrun := @andI_run w insn s h1.isLoc h2.logic.any
  rw [low_operand h2 hsrc] at hrun
  exact ⟨_, hrun, .of_eq (abs_logic h1 hdst .and _) trivial fun _ => trivial⟩

theorem orI_refines (hs : (Instr.alu .or w dst src).Supported) :
    ∃ t, (orI insn).run s = .ok (some 0, t) ∧
      Refines (.alu .or w dst src) (insn.size.setWidth 32) s t := by
  have hrun := @orXor_reg_run .or w insn s h1.isLoc h2.logic.any (h1.type_reg hs)
  rw [low_operand h2 hsrc] at hrun
  exact ⟨_, hrun, .of_eq (abs_logic h1 hdst .or _) trivial fun _ => trivial⟩

theorem xorI_refines (hs : (Instr.alu .xor w dst src).Supported) :
    ∃ t, (xorI insn).run s = .ok (some 0, t) ∧
      Refines (.alu .xor w dst src) (insn.size.setWidth 32) s t := by
  have hrun := @orXor_reg_run .xor w insn s h1.isLoc h2.logic.any (h1.type_reg hs)
  rw [low_operand h2 hsrc] at hrun
  exact ⟨_, hrun, .of_eq (abs_logic h1 hdst .xor _) trivial fun _ => trivial⟩

theorem testI_refines (hs : (Instr.alu .test w dst src).Supported) :
    ∃ t, (testI insn).run s = .ok (some 0, t) ∧
      Refines (.alu .test w dst src) (insn.size.setWidth 32) s t := by
  have hne := h2.type_ne_mem hs.2
  have hexec : ((s.advance insn).withLogic (s.abs.get w dst &&& s.abs.operand src)
      (w.size * 8)).abs =
      (Instr.alu .test w dst src).exec (insn.size.setWidth 32) s.abs := by
    rw [Machine.abs_withLogic]
    rfl
  rcases h1.isLoc.cases with ⟨ht, -⟩ | ⟨ht, -⟩
  · have hrun := @testI_reg_run w insn s h1.isLoc h2.logic hne ht
    rw [low_operand h2 hsrc, Machine.value_names h1 hdst] at hrun
    exact ⟨_, hrun, .of_eq hexec trivial fun _ => trivial⟩
  · obtain rfl := hs.1 (h1.type_mem.1 ht)
    have hrun := @testI_mem_run .dword insn s h1.isLoc h2.logic hne ht
    rw [h2.operand_eq hsrc, wide_eq_value fun _ => rfl, Machine.value_names h1 hdst] at hrun
    exact ⟨_, hrun, .of_eq hexec trivial fun _ => trivial⟩

theorem alu_refines {op : Alu} (hs : (Instr.alu op w dst src).Supported) :
    ∃ t, (op.handler insn).run s = .ok (some 0, t) ∧
      Refines (.alu op w dst src) (insn.size.setWidth 32) s t := by
  cases op with
  | add => exact addI_refines h1 hdst h2 hsrc
  | adc => exact adcI_refines h1 hdst h2 hsrc
  | sub => exact subI_refines h1 hdst h2 hsrc hs
  | sbb => exact sbbI_refines h1 hdst h2 hsrc
  | cmp => exact cmpI_refines h1 hdst h2 hsrc
  | and => exact andI_refines h1 h2 hdst hsrc
  | or => exact orI_refines h1 h2 hdst hsrc hs
  | xor => exact xorI_refines h1 h2 hdst hsrc hs
  | test => exact testI_refines h1 h2 hdst hsrc hs

end Logical

end I386Vm
