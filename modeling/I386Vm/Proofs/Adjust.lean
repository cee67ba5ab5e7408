import I386Vm.Arith
import I386Vm.Proofs.Status

/-!
# The accumulator of the decimal adjustments

What `adc_i` and `sbb_i` on `AL` and a byte, and `daa_i`, `das_i`, `aaa_i` and `aas_i` after them,
do to `AL`, `AF` and `CF`.
-/

namespace I386Vm

open Bytes Prog

/-- `AL`, `AF` and `CF`. -/
@[ext] structure Accu where
  al : ℕ
  af : Bool
  cf : Bool
  deriving DecidableEq

namespace Accu

/-- The carry into bit 4 of a sum, or the borrow out of it. -/
def halfCarry (a b r : ℕ) : Bool := (a / 16 + b / 16 + r / 16) % 2 = 1

/-- `AF` is computed without the carry in. -/
def adc (b : ℕ) (x : Accu) : Accu where
  al := (x.al + b + x.cf.toNat) % 256
  af := halfCarry x.al b ((x.al + b + x.cf.toNat) % 256)
  cf := (x.al + b + x.cf.toNat) % 256 < x.al

/-- `AF` is computed with the carry out added to the subtrahend. -/
def sbb (b : ℕ) (x : Accu) : Accu where
  al := (x.al + 512 - b - x.cf.toNat) % 256
  af := halfCarry x.al (b + (decide (x.al < b + x.cf.toNat)).toNat)
    ((x.al + 512 - b - x.cf.toNat) % 256)
  cf := x.al < b + x.cf.toNat

/-- The adjustment of the low digit of packed numbers, by `n` modulo 256. -/
def adjustLow (n : ℕ) (x : Accu) : Accu :=
  if 9 < x.al % 16 ∨ x.af then ⟨(x.al + n) % 256, true, x.cf⟩ else ⟨x.al, false, x.cf⟩

/-- The adjustment of the high digit, which tests `AL` after that of the low digit. -/
def adjustHigh (n : ℕ) (x : Accu) : Accu :=
  if 0x9F < x.al ∨ x.cf then ⟨(x.al + n) % 256, x.af, true⟩ else ⟨x.al, x.af, false⟩

def daa (x : Accu) : Accu := (x.adjustLow 6).adjustHigh 0x60

def das (x : Accu) : Accu := (x.adjustLow 250).adjustHigh 0xA0

/-- The lowest bit of `AL` is tested, and `CF` is never cleared. -/
def aaa (x : Accu) : Accu :=
  if x.al % 2 = 1 ∨ x.af then ⟨(x.al + 6) % 16, true, true⟩ else ⟨x.al, false, x.cf⟩

def aas (x : Accu) : Accu :=
  if 9 < x.al % 16 ∨ x.af then ⟨(x.al + 10) % 16, true, true⟩ else ⟨x.al, false, false⟩

end Accu

namespace Machine

variable (s : Machine)

def al : BitVec 8 := (s.reg .eax).setWidth 8

def accu : Accu := ⟨s.al.toNat, s.testFlag .AF, s.testFlag .CF⟩

theorem al_lt : s.al.toNat < 256 := s.al.isLt

theorem peek_al : s.peek .byte (.var .eax) = s.al.setWidth 32 := rfl

theorem toNat_peek_al : (s.peek .byte (.var .eax)).toNat = s.al.toNat := by
  rw [peek_al, BitVec.toNat_setWidth_of_le (by decide)]

theorem al_poke (x : BitVec 32) : (s.poke .byte (.var .eax) x).al.toNat = x.toNat % 256 := by
  have h := s.peek_poke .byte (Ptr.Valid.var .eax) x
  rw [← toNat_peek_al, h, toNat_low]
  rfl

theorem testFlag_poke_al (x : BitVec 32) (f : Flag) :
    (s.poke .byte (.var .eax) x).testFlag f = s.testFlag f := rfl

theorem al_assignFlag (f : Flag) (c : Bool) : (s.assignFlag f c).al = s.al := by
  unfold al
  rw [(SameData.assignFlag s f c).reg]

theorem accu_advance (insn : CsInsn) : (s.advance insn).accu = s.accu := rfl

@[simp] theorem accu_poke (x : BitVec 32) :
    (s.poke .byte (.var .eax) x).accu = { s.accu with al := x.toNat % 256 } := by
  unfold accu
  rw [al_poke, testFlag_poke_al, testFlag_poke_al]

theorem accu_assignFlag (f : Flag) (c : Bool) : (s.assignFlag f c).accu =
    match f with
    | .AF => { s.accu with af := c }
    | .CF => { s.accu with cf := c }
    | _ => s.accu := by
  unfold accu
  rw [al_assignFlag, testFlag_assignFlag, testFlag_assignFlag]
  cases f <;> rfl

@[simp] theorem accu_setAF : (s.setFlag .AF).accu = { s.accu with af := true } :=
  s.accu_assignFlag .AF true

@[simp] theorem accu_clearAF : (s.clearFlag .AF).accu = { s.accu with af := false } :=
  s.accu_assignFlag .AF false

@[simp] theorem accu_setCF : (s.setFlag .CF).accu = { s.accu with cf := true } :=
  s.accu_assignFlag .CF true

@[simp] theorem accu_clearCF : (s.clearFlag .CF).accu = { s.accu with cf := false } :=
  s.accu_assignFlag .CF false

@[simp] theorem accu_clearZF : (s.clearFlag .ZF).accu = s.accu :=
  s.accu_assignFlag .ZF false

theorem toNat_carry : s.carry.toNat = (s.testFlag .CF).toNat := by
  unfold carry
  cases s.testFlag .CF <;> rfl

end Machine

/-- `adjust` on numbers. -/
theorem adjust_eq (a b r : BitVec 32) : adjust a b r = Accu.halfCarry a.toNat b.toNat r.toNat := by
  have hbit (x : BitVec 32) : x.getLsbD 4 = decide (x.toNat / 16 % 2 = 1) :=
    Nat.testBit_eq_decide_div_mod_eq
  have hmask : (0x10 : BitVec 32) = BitVec.twoPow 32 4 := by decide
  have hadj : adjust a b r = (a ^^^ b ^^^ r).getLsbD 4 := by
    unfold adjust
    rw [hmask, BitVec.and_twoPow]
    cases (a ^^^ b ^^^ r).getLsbD 4 <;> decide
  rw [hadj, BitVec.getLsbD_xor, BitVec.getLsbD_xor, hbit, hbit, hbit]
  unfold Accu.halfCarry
  rcases Nat.mod_two_eq_zero_or_one (a.toNat / 16) with ha | ha <;>
  rcases Nat.mod_two_eq_zero_or_one (b.toNat / 16) with hb | hb <;>
  rcases Nat.mod_two_eq_zero_or_one (r.toNat / 16) with hr | hr <;>
    simp [ha, hb, hr, Nat.add_mod]

def opAl : CsX86Op := ⟨.reg .al, 1⟩

theorem isLoc_opAl : opAl.IsLoc .byte := by decide

theorem accu_withArith (s : Machine) (x : BitVec 32) (c : Bool) (val1 val2 res : BitVec 32)
    (base : BitVec 8) :
    ((s.poke .byte (.var .eax) x).withArith c val1 val2 res base).accu =
      ⟨x.toNat % 256, Accu.halfCarry val1.toNat val2.toNat res.toNat, c⟩ := by
  have hal : ((s.poke .byte (.var .eax) x).withArith c val1 val2 res base).al =
      (s.poke .byte (.var .eax) x).al := by
    unfold Machine.al
    rw [(Machine.sameData_withArith _ c val1 val2 res base).reg]
  unfold Machine.accu
  rw [hal, s.al_poke, Machine.testFlag_withArith, Machine.testFlag_withArith, adjust_eq]

/-- An 8-bit register, memory or immediate. -/
def CsX86Op.IsByte (op : CsX86Op) : Prop :=
  op.IsLoc .byte ∨ (op.type = .imm ∧ op.size = 1 ∧ op.imm.toNat < 256)

/-- The byte such an operand holds. -/
def CsX86Op.byte (op : CsX86Op) (s : Machine) : BitVec 8 :=
  if op.type = .imm then op.imm.setWidth 8 else (op.value .byte s).setWidth 8

section Source

variable {op1 op2 : CsX86Op} {s t : Machine}

theorem setWidth_value (op : CsX86Op) (s : Machine) :
    ((op.value .byte s).setWidth 8).setWidth 32 = op.value .byte s :=
  CsX86Op.IsLoc.low_value op .byte s

theorem CsX86Op.IsByte.operand_eq (h : op2.IsByte) :
    (op2.byte s).setWidth 32 = op2.operand .byte s := by
  unfold CsX86Op.byte CsX86Op.operand
  rcases h with hl | ⟨ht, -, hlt⟩
  · rw [if_neg hl.type_ne_imm, if_neg hl.type_ne_imm, setWidth_value]
  · rw [if_pos ht, if_pos ht]
    apply BitVec.eq_of_toNat_eq
    simp only [BitVec.toNat_setWidth]
    omega

theorem srcBySize_byte (h : op2.IsByte) :
    (srcBySize op2).run s = .ok ((op2.byte s).setWidth 32, s) := by
  rw [h.operand_eq]
  exact srcBySize_operand (h.imp_right And.left)

theorem sbbSrc_byte (h1 : op1.size = 1) (h : op2.IsByte) :
    (sbbSrc op1 op2).run s = .ok ((op2.byte s).setWidth 32, s) := by
  rw [h.operand_eq]
  exact sbbSrc_operand h1 (h.imp_right fun ⟨ht, hs, _⟩ => ⟨ht, hs⟩)

theorem CsX86Op.IsByte.byte_congr (h : op2.IsByte) (hd : SameData s t) :
    op2.byte t = op2.byte s := by
  unfold CsX86Op.byte
  rcases h with hl | ⟨ht, -⟩
  · rw [hl.value_congr hd]
  · rw [if_pos ht, if_pos ht]

end Source

section Arith

variable {insn : CsInsn} {s : Machine} (h1 : insn.op1 = opAl) (h2 : insn.op2.IsByte)
include h1 h2

theorem adcI_accu : ∃ t, (adcI insn).run s = .ok (some 0, t) ∧
    t.accu = s.accu.adc (insn.op2.byte s).toNat := by
  have hd := SameData.advance s insn
  have hb := (insn.op2.byte s).isLt
  have hal := s.al_lt
  have hc := Bool.toNat_le (s.testFlag .CF)
  generalize hv : (insn.op2.byte s).setWidth 32 = v
  have hvn : v.toNat = (insn.op2.byte s).toNat := by
    rw [← hv, BitVec.toNat_setWidth_of_le (by decide)]
  have hcut : cut .byte v = v := by rw [cut_eq_low, low_of_lt (by rw [hvn]; exact hb)]
  have hrmw := @CsX86Op.IsLoc.rmwDst_run .byte opAl (s.advance insn) isLoc_opAl
    (fun w old => old + (cut w v + (s.advance insn).carry))
    (fun old => old + (v + (s.advance insn).carry)) (by rw [hcut])
  unfold adcI
  rw [run_bind_ok (advance_run s insn), run_bind_ok (srcBySize_byte h2), h2.byte_congr hd, hv,
    run_bind_ok run_get_ok, h1, run_bind_ok hrmw, run_bind_ok (arithFlags_run _ _ _ _ _ _)]
  refine ⟨_, rfl, ?_⟩
  have hold : (opAl.value .byte (s.advance insn)).toNat = s.al.toNat := s.toNat_peek_al
  have hcarry : (s.advance insn).carry.toNat = (s.testFlag .CF).toNat := s.toNat_carry
  have hsum : (opAl.value .byte (s.advance insn) + (v + (s.advance insn).carry)).toNat % 256 =
      (s.al.toNat + (insn.op2.byte s).toNat + (s.testFlag .CF).toNat) % 256 := by
    rw [BitVec.toNat_add, BitVec.toNat_add, hold, hvn, hcarry]
    omega
  have hres : (low Width.byte.bits (opAl.value .byte (s.advance insn)
      + (v + (s.advance insn).carry))).toNat =
      (s.al.toNat + (insn.op2.byte s).toNat + (s.testFlag .CF).toNat) % 256 :=
    (toNat_low _ _).trans hsum
  change ((Machine.poke _ .byte (.var .eax) _).withArith _ _ _ _ _).accu = _
  rw [accu_withArith, hsum, hres, hold, hvn]
  simp only [BitVec.lt_def, hres, hold]
  rfl

/-- The flags after `CF` are those of `withArith` with the new carry in the second operand. -/
theorem sbbI_accu : ∃ t, (sbbI insn).run s = .ok (some 0, t) ∧
    t.accu = s.accu.sbb (insn.op2.byte s).toNat := by
  have hd := SameData.advance s insn
  have hb := (insn.op2.byte s).isLt
  have hal := s.al_lt
  have hc := Bool.toNat_le (s.testFlag .CF)
  generalize hv : (insn.op2.byte s).setWidth 32 = v
  have hvn : v.toNat = (insn.op2.byte s).toNat := by
    rw [← hv, BitVec.toNat_setWidth_of_le (by decide)]
  have hptr : (s.advance insn).opPtr opAl = .var .eax := rfl
  have hsize : insn.op1.size = 1 := by rw [h1]; rfl
  have hrmw := @rmw_run (s.advance insn) .byte (.var .eax) (Ptr.Valid.var .eax)
    (fun old => old - v - (s.advance insn).carry)
  unfold sbbI
  rw [run_bind_ok (advance_run s insn), run_bind_ok run_get_ok, run_bind_ok (sbbSrc_byte hsize h2),
    h2.byte_congr hd, hv, hsize, show widthOr32 1 = .byte from rfl, h1, hptr, run_bind_ok hrmw]
  refine ⟨_, rfl, ?_⟩
  have hold : ((s.advance insn).peek .byte (.var .eax)).toNat = s.al.toNat := s.toNat_peek_al
  have hcarry : (s.advance insn).carry.toNat = (s.testFlag .CF).toNat := s.toNat_carry
  have hdiff : ((s.advance insn).peek .byte (.var .eax) - v - (s.advance insn).carry).toNat % 256 =
      (s.al.toNat + 512 - (insn.op2.byte s).toNat - (s.testFlag .CF).toNat) % 256 := by
    rw [BitVec.toNat_sub, BitVec.toNat_sub, hold, hvn, hcarry]
    omega
  have hres : (low Width.byte.bits
      ((s.advance insn).peek .byte (.var .eax) - v - (s.advance insn).carry)).toNat =
      (s.al.toNat + 512 - (insn.op2.byte s).toNat - (s.testFlag .CF).toNat) % 256 :=
    (toNat_low _ _).trans hdiff
  have hborrow : decide ((s.advance insn).peek .byte (.var .eax) < v + (s.advance insn).carry) =
      decide (s.al.toNat < (insn.op2.byte s).toNat + (s.testFlag .CF).toNat) := by
    rw [decide_eq_decide, BitVec.lt_def, BitVec.toNat_add, hold, hvn, hcarry]
    omega
  change ((Machine.poke _ .byte (.var .eax) _).withArith _ _ _ _ _).accu = _
  rw [accu_withArith, hdiff, hres, hold, BitVec.toNat_add, Machine.toNat_carry,
    Machine.testFlag_assignFlag, if_pos rfl, hvn]
  simp only [hborrow]
  have hc' := Bool.toNat_le (decide (s.al.toNat < (insn.op2.byte s).toNat + (s.testFlag .CF).toNat))
  rw [Nat.mod_eq_of_lt (b := 2 ^ 32) (by omega)]
  rfl

end Arith

section Adjustments

variable {insn : CsInsn} {s : Machine}

theorem load_al : (load .byte (.var .eax)).run s = .ok (s.peek .byte (.var .eax), s) :=
  load_run (Ptr.Valid.var .eax)

theorem testFlag_run (f : Flag) : (testFlag f).run s = .ok (s.testFlag f, s) := rfl

/-- The digit test of `daa_i`, `das_i` and `aas_i` on numbers. -/
theorem digit_test (x : BitVec 32) : x &&& 0xF > 9 ↔ 9 < x.toNat % 16 := by
  have hand : (x &&& 0xF).toNat = x.toNat % 16 := by
    rw [BitVec.toNat_and]
    exact Nat.and_two_pow_sub_one_eq_mod x.toNat 4
  rw [gt_iff_lt, BitVec.lt_def, hand]
  rfl

/-- One adjustment of `adjustAl`: the branch taken by a test, the flag set or cleared. -/
theorem fix_run {c : Prop} [Decidable c] (x : BitVec 32) (f : Flag) :
    (if c then do
      store .byte (.var .eax) x
      setFlag f
    else clearFlag f : Exec Unit).run s =
      .ok ((), if c then (s.poke .byte (.var .eax) x).setFlag f else s.clearFlag f) := by
  split <;> rfl

theorem alFlags_accu (z : Bool) : ∃ t, (alFlags z).run s = .ok ((), t) ∧ t.accu = s.accu := by
  unfold alFlags
  rw [run_bind_ok load_al]
  exact ⟨_, rfl, by simp only [Machine.accu_assignFlag]⟩

theorem adjustAl_accu (f : BitVec 32 → BitVec 32 → BitVec 32) {n m : ℕ}
    (hn : ∀ x : BitVec 32, x.toNat < 256 → (f x 6).toNat % 256 = (x.toNat + n) % 256)
    (hm : ∀ x : BitVec 32, x.toNat < 256 → (f x 0x60).toNat % 256 = (x.toNat + m) % 256) :
    ∃ t, (adjustAl f insn).run s = .ok (some 0, t) ∧
      t.accu = (s.accu.adjustLow n).adjustHigh m := by
  have hlt (u : Machine) : (u.peek .byte (.var .eax)).toNat < 256 := u.peek_lt .byte _
  generalize hu : (s.advance insn) = u
  have hs : u.accu = s.accu := by rw [← hu, s.accu_advance]
  generalize hv : (if u.peek .byte (.var .eax) &&& 0xF > 9 ∨ u.testFlag .AF then
    (u.poke .byte (.var .eax) (f (u.peek .byte (.var .eax)) 6)).setFlag .AF
    else u.clearFlag .AF) = v
  have hlow : v.accu = s.accu.adjustLow n := by
    rw [← hv, ← hs]
    unfold Accu.adjustLow
    rw [apply_ite Machine.accu]
    simp only [digit_test, Machine.accu_setAF, Machine.accu_clearAF, Machine.accu_poke,
      hn _ (hlt u), Machine.toNat_peek_al]
    rfl
  generalize hw : (if v.peek .byte (.var .eax) > 0x9F ∨ v.testFlag .CF then
    (v.poke .byte (.var .eax) (f (v.peek .byte (.var .eax)) 0x60)).setFlag .CF
    else v.clearFlag .CF) = w
  have hhigh : w.accu = v.accu.adjustHigh m := by
    rw [← hw]
    unfold Accu.adjustHigh
    rw [apply_ite Machine.accu]
    simp only [gt_iff_lt, BitVec.lt_def, Machine.accu_setCF, Machine.accu_clearCF,
      Machine.accu_poke, hm _ (hlt v), Machine.toNat_peek_al]
    rfl
  obtain ⟨t, ht, hacc⟩ := @alFlags_accu w false
  refine ⟨t, ?_, by rw [hacc, hhigh, hlow]⟩
  unfold adjustAl
  rw [run_bind_ok (advance_run s insn), hu, run_bind_ok load_al, run_bind_ok (testFlag_run _),
    run_bind_ok (fix_run _ _), hv, run_bind_ok load_al, run_bind_ok (testFlag_run _),
    run_bind_ok (fix_run _ _), hw, run_bind_ok ht]
  rfl

theorem daaI_accu : ∃ t, (daaI insn).run s = .ok (some 0, t) ∧ t.accu = s.accu.daa := by
  refine adjustAl_accu _ (fun x hx => ?_) fun x hx => ?_
  · rw [BitVec.toNat_add]
    change (x.toNat + 6) % 2 ^ 32 % 256 = _
    omega
  · rw [BitVec.toNat_add]
    change (x.toNat + 0x60) % 2 ^ 32 % 256 = _
    omega

theorem dasI_accu : ∃ t, (dasI insn).run s = .ok (some 0, t) ∧ t.accu = s.accu.das := by
  refine adjustAl_accu _ (fun x hx => ?_) fun x hx => ?_
  · rw [BitVec.toNat_sub]
    change (2 ^ 32 - 6 + x.toNat) % 2 ^ 32 % 256 = _
    omega
  · rw [BitVec.toNat_sub]
    change (2 ^ 32 - 0x60 + x.toNat) % 2 ^ 32 % 256 = _
    omega

/-- `ah` moves and `AL` stays. -/
theorem storeHigh_accu (x : BitVec 32) :
    ∃ t, (storeHigh .eax x).run s = .ok ((), t) ∧ t.accu = s.accu := by
  refine ⟨_, rfl, ?_⟩
  have hal : ((s.reg .eax &&& (0xFFFF00FF : BitVec 32)) ||| (low 8 x <<< 8)).setWidth 8
      = (s.reg .eax).setWidth 8 := by
    apply BitVec.eq_of_getLsbD_eq
    intro i hi
    have hmask : ∀ j < 8, (0xFFFF00FF : BitVec 32).getLsbD j = true := by decide
    simp only [BitVec.getLsbD_setWidth, BitVec.getLsbD_or, BitVec.getLsbD_and, hmask i hi,
      Bool.and_true, BitVec.getLsbD_shiftLeft, hi, decide_true, Bool.not_true, Bool.and_false,
      Bool.false_and, Bool.or_false, Bool.true_and]
  ext
  · change (((s.setReg .eax _).reg .eax).setWidth 8).toNat = ((s.reg .eax).setWidth 8).toNat
    rw [Machine.reg_setReg]
    exact congrArg BitVec.toNat hal
  · rfl
  · rfl

/-- `aaa_i` and `aas_i` where they adjust: `AL` keeps four bits, both flags are set. -/
theorem adjustDigit_run (x : BitVec 32) (g : BitVec 32 → BitVec 32) :
    ∃ t, (do
      store .byte (.var .eax) (x &&& 0x0F)
      let ah ← loadHigh .eax
      storeHigh .eax (g ah)
      setFlag .AF
      setFlag .CF : Exec Unit).run s = .ok ((), t) ∧ t.accu = ⟨x.toNat % 16, true, true⟩ := by
  have hand : (x &&& 0x0F).toNat = x.toNat % 16 := by
    rw [BitVec.toNat_and]
    exact Nat.and_two_pow_sub_one_eq_mod x.toNat 4
  obtain ⟨u, hu, hacc⟩ := @storeHigh_accu (s.poke .byte (.var .eax) (x &&& 0x0F))
    (g (low 8 ((s.poke .byte (.var .eax) (x &&& 0x0F)).reg .eax >>> 8)))
  refine ⟨(u.setFlag .AF).setFlag .CF, ?_, ?_⟩
  · rw [run_bind_ok (store_run (Ptr.Valid.var .eax) _), run_bind_ok (show (loadHigh .eax).run _ = _
      from rfl), run_bind_ok hu]
    rfl
  · simp only [Machine.accu_setCF, Machine.accu_setAF, hacc, Machine.accu_poke, hand]
    rw [Nat.mod_eq_of_lt (b := 256) (by omega)]

theorem aaaI_accu : ∃ t, (aaaI insn).run s = .ok (some 0, t) ∧ t.accu = s.accu.aaa := by
  have hal : ((s.advance insn).peek .byte (.var .eax)).toNat = s.accu.al := s.toNat_peek_al
  have hlt : s.accu.al < 256 := s.al_lt
  have hbit (x : BitVec 32) : x &&& (if 0x0F > 9 then 1 else 0) ≠ 0 ↔ x.toNat % 2 = 1 := by
    have hand : (x &&& 1).toNat = x.toNat % 2 := by
      rw [BitVec.toNat_and]
      exact Nat.and_two_pow_sub_one_eq_mod x.toNat 1
    rw [if_pos (by decide), ne_eq, ← BitVec.toNat_inj, hand]
    change ¬ x.toNat % 2 = 0 ↔ _
    omega
  obtain ⟨t, ht, hacc⟩ := @adjustDigit_run (s.advance insn)
    ((s.advance insn).peek .byte (.var .eax) + 6) (· + 1)
  have hsum : ((s.advance insn).peek .byte (.var .eax) + 6).toNat % 16 = (s.accu.al + 6) % 16 := by
    rw [BitVec.toNat_add, hal]
    change (s.accu.al + 6) % 2 ^ 32 % 16 = _
    omega
  unfold aaaI Accu.aaa
  rw [run_bind_ok (advance_run s insn), run_bind_ok load_al, run_bind_ok (testFlag_run _)]
  simp only [hbit, hal]
  split
  · rw [run_bind_ok ht]
    exact ⟨t, rfl, by rw [hacc, hsum, if_pos ‹_›]⟩
  · refine ⟨((s.advance insn).clearFlag .AF).clearFlag .ZF, rfl, ?_⟩
    rw [Machine.accu_clearZF, Machine.accu_clearAF, if_neg ‹_›]
    rfl

theorem aasI_accu : ∃ t, (aasI insn).run s = .ok (some 0, t) ∧ t.accu = s.accu.aas := by
  have hal : ((s.advance insn).peek .byte (.var .eax)).toNat = s.accu.al := s.toNat_peek_al
  have hlt : s.accu.al < 256 := s.al_lt
  obtain ⟨t, ht, hacc⟩ := @adjustDigit_run (s.advance insn)
    ((s.advance insn).peek .byte (.var .eax) - 6) (· - 1)
  have hdiff : ((s.advance insn).peek .byte (.var .eax) - 6).toNat % 16 =
      (s.accu.al + 10) % 16 := by
    rw [BitVec.toNat_sub, hal]
    change (2 ^ 32 - 6 + s.accu.al) % 2 ^ 32 % 16 = _
    omega
  unfold aasI Accu.aas
  rw [run_bind_ok (advance_run s insn), run_bind_ok load_al, run_bind_ok (testFlag_run _)]
  simp only [digit_test, hal]
  split
  · rw [run_bind_ok ht]
    exact ⟨t, rfl, by rw [hacc, hdiff, if_pos ‹_›]⟩
  · refine ⟨((s.advance insn).clearFlag .AF).clearFlag .CF, rfl, ?_⟩
    rw [Machine.accu_clearCF, Machine.accu_clearAF, if_neg ‹_›]
    rfl

end Adjustments

end I386Vm
