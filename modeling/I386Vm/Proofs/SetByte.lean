import I386Vm.Proofs.Branch
import I386Vm.Proofs.HighBytes

/-!
# Compare and set

Twenty-nine conditions are implemented twice, as a jump and as a byte set. A `SETcc` agrees with the
jump of its name in a state exactly when the two tests of the flags give the same answer there.
After `CMP` all do but `setg_i`, `setna_i` and `setnle_i`, which test something else than their
jumps: `cmp_setsLikeJump_iff` says on which operands those three still agree.
-/

namespace I386Vm

open Bytes Prog

/-- The conditions that have both a jump and a byte set. -/
inductive Cc
  | a | ae | b | be | c | e | g | ge | l | le | na | nae | nb | nbe | nc | ne | ng | nge | nl | nle
  | no | np | ns | o | p | pe | po | s | z
  deriving DecidableEq

namespace Cc

def jump : Cc → Handler
  | a => jaI
  | ae => jaeI
  | b => jbI
  | be => jbeI
  | c => jcI
  | e => jeI
  | g => jgI
  | ge => jgeI
  | l => jlI
  | le => jleI
  | na => jnaI
  | nae => jnaeI
  | nb => jnbI
  | nbe => jnbeI
  | nc => jncI
  | ne => jneI
  | ng => jngI
  | nge => jngeI
  | nl => jnlI
  | nle => jnleI
  | no => jnoI
  | np => jnpI
  | ns => jnsI
  | o => joI
  | p => jpI
  | pe => jpeI
  | po => jpoI
  | s => jsI
  | z => jzI

def set : Cc → Handler
  | a => setaI
  | ae => setaeI
  | b => setbI
  | be => setbeI
  | c => setcI
  | e => seteI
  | g => setgI
  | ge => setgeI
  | l => setlI
  | le => setleI
  | na => setnaI
  | nae => setnaeI
  | nb => setnbI
  | nbe => setnbeI
  | nc => setncI
  | ne => setneI
  | ng => setngI
  | nge => setngeI
  | nl => setnlI
  | nle => setnleI
  | no => setnoI
  | np => setnpI
  | ns => setnsI
  | o => setoI
  | p => setpI
  | pe => setpeI
  | po => setpoI
  | s => setsI
  | z => setzI

/-- Both handlers of a condition test flags alone, and where the name is not `g`, `na` or `nle` they
test the same. -/
theorem exists_conds (cc : Cc) : ∃ cj cs : Machine → Bool, cc.jump = jcc cj ∧ cc.set = setcc cs ∧
    (∀ t j, cj (t.advance j) = cj t ∧ cs (t.advance j) = cs t) ∧
    ∀ t, cj t = cs t ↔ match cc with
      | g => (t.testFlag .ZF = true ↔ t.testFlag .SF ≠ t.testFlag .OF)
      | na => t.testFlag .ZF = true → t.testFlag .CF = true
      | nle => (t.testFlag .ZF = true ↔ t.testFlag .SF = t.testFlag .OF)
      | _ => True := by
  cases cc <;> refine ⟨_, _, rfl, rfl, fun _ _ => ⟨rfl, rfl⟩, fun t => ?_⟩ <;>
    generalize t.testFlag .SF = sf <;> generalize t.testFlag .OF = of <;>
    generalize t.testFlag .ZF = zf <;> generalize t.testFlag .CF = cf <;>
    cases sf <;> cases of <;> cases zf <;> cases cf <;> simp

end Cc

/-- `u` is `t` but for `eip` and the byte at the pointer. -/
structure OnlyByte (p : Ptr) (t u : Machine) : Prop where
  eflags : u.eflags = t.eflags
  reg : ∀ v i, (p = .var v → 8 ≤ i) → (u.reg v).getLsbD i = (t.reg v).getLsbD i
  mem : ∀ i, p ≠ .mem i → u.mem i = t.mem i
  gdtr : u.gdtr = t.gdtr
  idtr : u.idtr = t.idtr
  ldtr : u.ldtr = t.ldtr
  cr0 : u.cr0 = t.cr0

theorem onlyByte_poke (t : Machine) (insn : CsInsn) (p : Ptr) [hp : SafePtr p] (x : BitVec 32) :
    OnlyByte p t ((t.advance insn).poke .byte p x) := by
  cases p with
  | var v =>
    refine ⟨rfl, fun v' i hi => ?_, fun i _ => rfl, rfl, rfl, rfl, rfl⟩
    by_cases hv : v' = v
    · subst hv
      have h8 : ¬ i < Width.byte.bits := not_lt.2 (hi rfl)
      simp only [Machine.poke, Machine.setReg, Function.update_self, getLsbD_merge, if_neg h8]
      rfl
    · simp only [Machine.poke, Machine.setReg, Function.update_of_ne hv]
      rfl
  | eip => exact absurd rfl hp.ne_eip
  | eflags => exact absurd rfl hp.ne_eflags
  | mem j =>
    refine ⟨rfl, fun v i _ => rfl, fun i hi => ?_, rfl, rfl, rfl, rfl⟩
    have hne : j ≠ i := fun h => hi (by rw [h])
    exact writeLE_of_not_mem (by
      simp only [Width.bytes]
      omega)
  | null => exact ⟨rfl, fun _ _ _ => rfl, fun _ _ => rfl, rfl, rfl, rfl, rfl⟩
  | wild => exact ⟨rfl, fun _ _ _ => rfl, fun _ _ => rfl, rfl, rfl, rfl, rfl⟩

theorem setcc_run (cond : Machine → Bool) (i : CsInsn) {t : Machine} (hi : i.op1.IsLoc .byte)
    (hc : cond (t.advance i) = cond t) :
    (setcc cond i).run t = .ok (some 0, (t.advance i).poke .byte (t.opPtr i.op1)
      (if cond t then 1 else 0)) := by
  unfold setcc
  rw [run_bind_ok (advance_run t i), run_bind_ok run_get_ok, hc,
    run_bind_ok (store_run (hi.valid _) _), hi.opPtr_congr (SameData.advance t i)]
  rfl

/-- The byte set of a condition stores 1 when the jump of its name goes to its target and 0 when it
falls through, and changes nothing else. -/
def SetsLikeJump (cc : Cc) (t : Machine) : Prop :=
  ∀ (j i : CsInsn) [j.Decoded], i.op1.IsLoc .byte → ∃ taken : Bool,
    (cc.jump j).run t = .ok (some 0, if taken then { t with eip := t.branchTarget j.op1 }
      else t.advance j) ∧
    ∃ u, (cc.set i).run t = .ok (some 0, u) ∧
      u.peek .byte (t.opPtr i.op1) = (if taken then 1 else 0) ∧ OnlyByte (t.opPtr i.op1) t u

def setAl : CsInsn := .bare "" 3 [⟨.reg .al, 1⟩]

theorem setsLikeJump_iff {cc : Cc} {cj cs : Machine → Bool} {t : Machine} (hj : cc.jump = jcc cj)
    (hs : cc.set = setcc cs) (ha : ∀ j, cj (t.advance j) = cj t ∧ cs (t.advance j) = cs t) :
    SetsLikeJump cc t ↔ cj t = cs t := by
  unfold SetsLikeJump
  rw [hj, hs]
  constructor
  · intro h
    obtain ⟨j, _, hfar⟩ := exists_far_target t
    have hal : setAl.op1.IsLoc .byte := by decide
    obtain ⟨taken, hjump, u, hset, hval, -⟩ := h j setAl hal
    rw [jcc_run cj j (ha j).1] at hjump
    rw [setcc_run cs setAl hal (ha setAl).2] at hset
    have htaken : taken = cj t := by
      have heip := congrArg Machine.eip (congrArg Prod.snd (Except.ok.inj hjump))
      cases taken <;> cases hb : cj t <;>
        simp only [hb, if_true, Bool.false_eq_true, if_false] at heip
      · rfl
      · exact absurd heip hfar
      · exact absurd heip.symm hfar
      · rfl
    have hu : u = _ := (congrArg Prod.snd (Except.ok.inj hset)).symm
    rw [hu, Machine.peek_poke _ _ (hal.valid t), htaken] at hval
    -- the byte is the jump's answer
    cases hb : cj t <;> cases hb' : cs t <;> rw [hb, hb'] at hval <;> exact absurd hval (by decide)
  · intro h j i _ hi
    refine ⟨cj t, jcc_run cj j (ha j).1, _, setcc_run cs i hi (ha i).2, ?_, ?_⟩
    · rw [Machine.peek_poke _ _ (hi.valid t), h]
      cases cs t <;> decide
    · have hsafe := hi.safe t
      exact onlyByte_poke t i _ _

section Operands

variable {w : Width} {op1 op2 : CsX86Op} {s t : Machine}

/-- The 32 bits that `cmp_i` has for its second operand. -/
def cmpOperand (op1 op2 : CsX86Op) (w : Width) (s : Machine) : BitVec 32 :=
  if op2.type = .imm then immExtended op1 op2 else op2.value w s

theorem cmpSrc_lowByte : cmpSrc op1 op2.lowByte = cmpSrc op1 op2 := by
  by_cases ht : op2.type = .reg
  · unfold cmpSrc
    simp only [CsX86Op.type_lowByte, CsX86Op.size_lowByte, if_pos ht, op2.reg_lowByte ht,
      X86Reg.regs_lowByte]
  · rw [CsX86Op.eq_lowByte_of_ne_reg ht]

theorem cmpDst_lowByte (v : BitVec 32) : cmpDst op1.lowByte v = cmpDst op1 v := by
  by_cases ht : op1.type = .reg
  · unfold cmpDst
    simp only [CsX86Op.type_lowByte, CsX86Op.size_lowByte, if_pos ht, op1.reg_lowByte ht,
      X86Reg.regs_lowByte]
  · rw [CsX86Op.eq_lowByte_of_ne_reg ht]

theorem cmpSrc_cell_run (h2 : op2.IsCell w ∨ op2.type = .imm) :
    (cmpSrc op1 op2).run s = .ok (cmpOperand op1 op2 w s, s) := by
  unfold cmpOperand
  rcases h2 with h2 | ht
  · rw [if_neg h2.type_ne_imm, ← cmpSrc_lowByte, cmpSrc_run h2.isLoc, op2.value_lowByte]
  · unfold cmpSrc
    rw [run_bind_ok run_get_ok, if_neg (by simp [ht]), if_pos ht, if_pos ht]
    rfl

theorem cmpResult_lowByte (v : BitVec 32) : op1.lowByte.cmpResult w s v = op1.cmpResult w s v := by
  unfold CsX86Op.cmpResult
  rw [op1.value_lowByte, op1.type_lowByte]

theorem cmpDst_cell_run (h1 : op1.IsCell w) (v : BitVec 32) :
    (cmpDst op1 v).run s = .ok ((op1.value w s, op1.cmpResult w s v), s) := by
  rw [← cmpDst_lowByte, cmpDst_run_eq h1.isLoc, op1.value_lowByte, cmpResult_lowByte]

theorem CsX86Op.IsCell.value_congr {op : CsX86Op} (h : op.IsCell w) (hd : SameData s t) :
    op.value w t = op.value w s := by
  rw [← op.value_lowByte, h.isLoc.value_congr hd, op.value_lowByte]

theorem cmpOperand_congr (h2 : op2.IsCell w ∨ op2.type = .imm) (hd : SameData s t) :
    cmpOperand op1 op2 w t = cmpOperand op1 op2 w s := by
  unfold cmpOperand
  rcases h2 with h2 | ht
  · rw [if_neg h2.type_ne_imm, if_neg h2.type_ne_imm, h2.value_congr hd]
  · rw [if_pos ht, if_pos ht]

end Operands

/-- What `ZF` says of the first operand `a`, of type `ty`, and the second value `v`. -/
def CmpEqual (w : Width) (ty : X86OpType) (a v : BitVec 32) : Prop :=
  a = if ty = .reg then low w.bits v else v

/-- What `SF ≠ OF` says of `a` in memory and an immediate with bits above the width. -/
def WideLess (w : Width) (a v : BitVec 32) : Prop :=
  (w.signed a < 0 ∧ (0 ≤ w.signed v ∨ w.signed a < w.signed v)) ∨
    (0 ≤ w.signed v ∧ w.signed v ≤ w.signed a) ∨
    (0 ≤ w.signed a ∧ w.signed v < 0 ∧
      (2 ^ (w.bits - 1) ≤ w.signed a - w.signed v ∨ v.toNat < 2 ^ 32 - 2 ^ w.bits))

/-- What `SF ≠ OF` says. -/
def CmpLess (w : Width) (ty : X86OpType) (a v : BitVec 32) : Prop :=
  if ty = .reg ∨ v.toNat < 2 ^ w.bits then FlagsLess w (w.signed a) (w.signed v)
  else WideLess w a v

section Flags

variable {w : Width} {a v d : BitVec 32}

theorem Width.signed_low (w : Width) (v : BitVec 32) : w.signed (low w.bits v) = w.signed v := by
  unfold signed
  congr 1
  apply BitVec.eq_of_toNat_eq
  rw [BitVec.toNat_setWidth, BitVec.toNat_setWidth, toNat_low, Nat.mod_mod]

theorem overflow_low : overflow a (low w.bits v) d (w.size * 8) = overflow a v d (w.size * 8) := by
  have hlt : w.bits - 1 < w.bits := Nat.sub_lt w.bits_pos Nat.one_pos
  rw [overflow_eq, overflow_eq, getLsbD_low, decide_eq_true hlt, Bool.true_and]

theorem wideLess_iff (ha : a.toNat < 2 ^ w.bits) (hv : ¬ v.toNat < 2 ^ w.bits) :
    sign (a - v) (w.size * 8) ≠ overflow a v (a - v) (w.size * 8) ↔ WideLess w a v := by
  unfold WideLess
  rw [sign_eq, overflow_eq, ← w.signed_low v, w.signed_eq ha, w.signed_eq (toNat_low_lt _ _),
    toNat_low]
  simp only [getLsbD_eq_div, BitVec.toNat_sub, decide_ne_xor_iff]
  have hlt := v.isLt
  cases w with
  | byte =>
    norm_num [Width.bits, Width.bytes] at ha hv ⊢
    split_ifs <;> omega
  | word =>
    norm_num [Width.bits, Width.bytes] at ha hv ⊢
    split_ifs <;> omega
  | dword => exact absurd hlt hv

theorem cmp_less_iff (ty : X86OpType) (ha : a.toNat < 2 ^ w.bits) :
    sign (a - if ty = .reg then low w.bits v else v) (w.size * 8) ≠
        overflow a v (a - if ty = .reg then low w.bits v else v) (w.size * 8) ↔
      CmpLess w ty a v := by
  unfold CmpLess
  by_cases ht : ty = .reg
  · rw [if_pos ht, if_pos (.inl ht), ← overflow_low, ← w.signed_low v]
    exact sign_ne_overflow_iff ha (toNat_low_lt _ _)
  · rw [if_neg ht]
    by_cases hv : v.toNat < 2 ^ w.bits
    · rw [if_pos (.inr hv)]
      exact sign_ne_overflow_iff ha hv
    · rw [if_neg (not_or.2 ⟨ht, hv⟩)]
      exact wideLess_iff ha hv

/-- Where the values are equal there is no carry unless the second one has bits above the width. -/
theorem cmp_carry_iff (ty : X86OpType) (ha : a.toNat < 2 ^ w.bits) :
    (CmpEqual w ty a v → a.toNat < v.toNat) ↔ a ≠ v := by
  have hle : (low w.bits v).toNat ≤ v.toNat := by
    rw [toNat_low]
    exact Nat.mod_le _ _
  unfold CmpEqual
  constructor
  · rintro h rfl
    refine lt_irrefl _ (h ?_)
    rw [low_of_lt ha, ite_self]
  · intro hne heq
    have hnat : a.toNat ≠ v.toNat := fun h => hne (BitVec.eq_of_toNat_eq h)
    split_ifs at heq
    · rw [← heq] at hle
      omega
    · exact absurd heq hne

end Flags

section Cmp

variable {w : Width} {insn : CsInsn} {s : Machine}

/-- The state after `cmp_i`, whatever the second operand is. -/
def Machine.compared (s : Machine) (insn : CsInsn) (w : Width) : Machine :=
  (s.advance insn).withArith (insn.op1.value w s < cmpOperand insn.op1 insn.op2 w s)
    (insn.op1.value w s) (cmpOperand insn.op1 insn.op2 w s)
    (insn.op1.cmpResult w s (cmpOperand insn.op1 insn.op2 w s)) (w.size * 8)

theorem cmpI_cell_run (h1 : insn.op1.IsCell w) (h2 : insn.op2.IsCell w ∨ insn.op2.type = .imm) :
    (cmpI insn).run s = .ok (some 0, s.compared insn w) := by
  have hd := SameData.advance s insn
  have hresult (v : BitVec 32) : insn.op1.cmpResult w (s.advance insn) v =
      insn.op1.cmpResult w s v := by
    unfold CsX86Op.cmpResult
    rw [h1.value_congr hd]
  unfold cmpI
  rw [run_bind_ok (advance_run s insn), run_bind_ok (cmpSrc_cell_run h2),
    run_bind_ok (cmpDst_cell_run h1 _), run_bind_ok (arithFlags_run _ _ _ _ _ _), h1.1,
    h1.value_congr hd, cmpOperand_congr h2 hd, hresult]
  rfl

theorem compared_flags (w : Width) (insn : CsInsn) (s : Machine) :
    ((s.compared insn w).testFlag .CF = true ↔
      (insn.op1.value w s).toNat < (cmpOperand insn.op1 insn.op2 w s).toNat) ∧
    ((s.compared insn w).testFlag .ZF = true ↔
      CmpEqual w insn.op1.type (insn.op1.value w s) (cmpOperand insn.op1 insn.op2 w s)) ∧
    ((s.compared insn w).testFlag .SF ≠ (s.compared insn w).testFlag .OF ↔
      CmpLess w insn.op1.type (insn.op1.value w s) (cmpOperand insn.op1 insn.op2 w s)) := by
  unfold Machine.compared
  simp only [Machine.testFlag_withArith]
  refine ⟨?_, zero_sub_iff _ _, cmp_less_iff _ (CsX86Op.IsLoc.value_lt _ _ _)⟩
  rw [decide_eq_true_iff]
  rfl

end Cmp

/-- Where the byte set of a condition agrees with its jump after `cmp_i` of the `w` bits `a` in an
operand of type `ty` and the 32 bits `v`. -/
def Cc.AgreesOn (cc : Cc) (w : Width) (ty : X86OpType) (a v : BitVec 32) : Prop :=
  match cc with
  | g => (CmpEqual w ty a v ↔ CmpLess w ty a v)
  | na => a ≠ v
  | nle => (CmpEqual w ty a v ↔ ¬ CmpLess w ty a v)
  | _ => True

/-- After `CMP` the byte set of a condition agrees with its jump exactly on these operands. -/
theorem cmp_setsLikeJump_iff (cc : Cc) {w : Width} {insn : CsInsn} {s : Machine}
    (h1 : insn.op1.IsCell w) (h2 : insn.op2.IsCell w ∨ insn.op2.type = .imm) :
    (∃ t, (cmpI insn).run s = .ok (some 0, t) ∧ SetsLikeJump cc t) ↔
      cc.AgreesOn w insn.op1.type (insn.op1.value w s) (cmpOperand insn.op1 insn.op2 w s) := by
  obtain ⟨cj, cs, hj, hs, ha, hagree⟩ := cc.exists_conds
  obtain ⟨hc, hz, hl⟩ := compared_flags w insn s
  rw [cmpI_cell_run h1 h2, exists_ok_iff, setsLikeJump_iff hj hs (ha _), hagree]
  cases cc with
  | g =>
    change (_ ↔ _) ↔ (_ ↔ _)
    rw [hz, hl]
  | na =>
    change (_ → _) ↔ _ ≠ _
    rw [hz, hc]
    exact cmp_carry_iff _ (CsX86Op.IsLoc.value_lt _ _ _)
  | nle =>
    change (_ ↔ _) ↔ (_ ↔ _)
    rw [hz, ← hl, not_not]
  | _ => exact Iff.rfl

/-- `CMP AH, 5` -/
def cmpAhFive : CsInsn := .bare "cmp" 3 [⟨.reg .ah, 1⟩, ⟨.imm 5, 1⟩]

/-- With 3 in `AL`, which is read for `AH`: `JNA` jumps and `SETNA` stores 1. -/
theorem cmp_setna_ah_five : ∃ t, (cmpI cmpAhFive).run (Machine.blank.setReg .eax 0x0503) =
    .ok (some 0, t) ∧ SetsLikeJump .na t := by
  have h := @cmp_setsLikeJump_iff .na .byte cmpAhFive (Machine.blank.setReg .eax 0x0503)
    (by decide) (.inr rfl)
  exact h.2 (by
    change (3 : BitVec 32) ≠ 5
    decide)

/-- Equal operands: `JNA` jumps and `SETNA` stores 0. -/
theorem cmp_setsLikeJump_fails : ¬ ∀ (cc : Cc) (w : Width) (insn : CsInsn) (s : Machine),
    insn.op1.IsCell w → (insn.op2.IsCell w ∨ insn.op2.type = .imm) →
      ∃ t, (cmpI insn).run s = .ok (some 0, t) ∧ SetsLikeJump cc t := by
  intro h
  obtain ⟨h1, h2⟩ := cmpEaxEbx_isLoc
  obtain ⟨t, ht, hj⟩ := h .na .dword cmpEaxEbx .blank h1.isCell (.inl h2.isCell)
  rw [cmpI_run h1 h2] at ht
  cases ht
  have hflags := (setsLikeJump_iff rfl rfl fun _ => ⟨rfl, rfl⟩).1 hj
  revert hflags
  decide

end I386Vm
