import I386Vm.Proofs.SignedMultiply

/-!
# `IMUL` with a destination

The forms with two and three operands leave the product cut to the width. On 32 bits the code cuts
it before it looks for an overflow, so it finds none; and with an immediate it multiplies a second
time for the flags, after the destination, which may be the source, has been written.
-/

namespace I386Vm

open Bytes Prog TwosComplement

/-- The operand is an immediate, sign-extended from the byte that encodes it where `narrow` is. -/
def CsX86Op.IsFactor (y : CsX86Op) (narrow : Bool) : Prop :=
  y.type = .imm ∧ (narrow = true → (y.imm.setWidth 8).signExtend 64 = y.imm)

instance (y : CsX86Op) (narrow : Bool) : Decidable (y.IsFactor narrow) :=
  inferInstanceAs (Decidable (_ ∧ _))

/-- The forms of the instruction by opcode, with the destination `dst` and the factors `x` and `y`:
without an operand of its own the first factor is the destination. -/
inductive ImulForm (w : Width) (insn : CsInsn) (dst x y : CsX86Op) : Prop
  | loc (hcode : insn.HasOpcode [0x0F, 0xAF]) (hcount : insn.opCount = 2)
      (hops : insn.operands = [dst, y]) (hx : x = dst) (hy : y.IsLoc w)
  | two (narrow : Bool) (hcode : insn.HasOpcode [if narrow then 0x6B else 0x69])
      (hcount : insn.opCount = 2) (hops : insn.operands = [dst, y]) (hx : x = dst)
      (hy : y.IsFactor narrow)
  | three (narrow : Bool) (hcode : insn.HasOpcode [if narrow then 0x6B else 0x69])
      (hcount : insn.opCount = 3) (hops : insn.operands = [dst, x, y]) (hx : x.IsLoc w)
      (hy : y.IsFactor narrow)

/-- The exact product of the signed factors. -/
def imulExact (w : Width) (x y : CsX86Op) (s : Machine) : ℤ :=
  w.signed (x.value w s) * w.signed (y.operand w s)

/-- Where the forms leave the product `z`: without three operands in the branch of `0x69`, where the
immediate, or what is read for one, is it; on 32 bits where it fits; and else, where an immediate
multiplies a source that is the destination, where the cut product fits another time. -/
def ImulHolds (w : Width) (insn : CsInsn) (dst x y : CsX86Op) (s : Machine) : Prop :=
  if insn.Rest ∧ insn.opCount ≠ 3 then
    ((low w.bits (insn.op2.imm.setWidth 32)).toNat : ℤ) = imulExact w x y s % 2 ^ w.bits ∧
      InRange (2 ^ (w.bits - 1)) (imulExact w x y s)
  else if w = .dword then InRange (2 ^ (w.bits - 1)) (imulExact w x y s)
  else insn.byte0 ≠ 0x0F → s.opPtr x = s.opPtr dst →
    (InRange (2 ^ (w.bits - 1)) ((imulExact w x y s).bmod (2 ^ w.bits) *
      w.signed (y.operand w s)) ↔ InRange (2 ^ (w.bits - 1)) (imulExact w x y s))

/-- `t` is `s` with `z` at `p`, cut, and `CF` and `OF` say whether it does not fit. -/
structure IsCutProduct (w : Width) (z : ℤ) (p : Ptr) (s t : Machine) : Prop where
  value : ((t.peek w p).toNat : ℤ) = z % 2 ^ w.bits
  cf : t.testFlag .CF ↔ ¬ InRange (2 ^ (w.bits - 1)) z
  of : t.testFlag .OF ↔ ¬ InRange (2 ^ (w.bits - 1)) z
  same : ∃ r, SameBut statusFlags (s.poke w p r) t

section Leaves

variable {w : Width} {z : ℤ} {p : Ptr} {s : Machine} {r : BitVec 32} {c : Bool}

theorem isCutProduct_iff (hp : p.Valid) [SafePtr p] :
    IsCutProduct w z p s ((s.poke w p r).withCfOf c) ↔
      ((low w.bits r).toNat : ℤ) = z % 2 ^ w.bits ∧
        (c = true ↔ ¬ InRange (2 ^ (w.bits - 1)) z) := by
  have hsame := (s.poke w p r).sameBut_withCfOf c
  have hpeek : ((s.poke w p r).withCfOf c).peek w p = low w.bits r := by
    rw [hsame.sameData.peek, Machine.peek_poke _ _ hp]
  have hflag := (s.poke w p r).testFlag_withCfOf c
  constructor
  · rintro ⟨hvalue, hcf, -, -⟩
    rw [hpeek] at hvalue
    rw [hflag] at hcf
    exact ⟨hvalue, hcf⟩
  · rintro ⟨hvalue, hc⟩
    constructor
    · rwa [hpeek]
    · rwa [hflag]
    · rwa [hflag]
    · exact ⟨r, hsame⟩

/-- The low bits of the product are those of the exact one. -/
theorem toNat_low_mul (w : Width) (a b : BitVec 32) :
    ((low w.bits (a * b)).toNat : ℤ) = w.signed a * w.signed b % 2 ^ w.bits := by
  have hmul : (low w.bits (a * b)).toNat = (a.setWidth w.bits * b.setWidth w.bits).toNat := by
    rw [← BitVec.setWidth_mul _ _ w.bits_le, toNat_low, BitVec.toNat_setWidth]
  rw [hmul, toNat_mul_eq_emod]
  push_cast
  rfl

theorem imulTooBig_iff (a b : BitVec 32) : imulTooBig w a b = true ↔
    w = .word ∧ ¬ InRange (2 ^ (w.bits - 1)) (w.signed a * w.signed b) := by
  unfold imulTooBig
  rw [decide_eq_true_iff]
  refine and_congr_right fun hw => ?_
  subst hw
  rw [quotientTooBig_iff, toInt_mul_signExtend (by decide) (le_refl 32)]
  rfl

theorem imulTooBig_dword (a b : BitVec 32) : imulTooBig .dword a b = false := by
  rw [← Bool.not_eq_true, imulTooBig_iff]
  exact fun h => absurd h.1 (by decide)

theorem imulImm_run {q : Ptr} (hp : p.Valid) (hq : q.Valid) (imm : BitVec 32) :
    (imulImm w p q imm).run s = .ok ((), (s.poke w p (s.peek w q * imm)).withCfOf
      (imulTooBig w ((s.poke w p (s.peek w q * imm)).peek w q) imm)) := by
  unfold imulImm
  rw [run_bind_ok (load_run hq), run_bind_ok (store_run hp _), run_bind_ok (load_run hq)]
  rfl

end Leaves

theorem widthOf2_size {w : Width} (hw : w ≠ .byte) : widthOf2 w.size = w := by
  cases w with
  | byte => exact absurd rfl hw
  | word => rfl
  | dword => rfl

/-- The immediates of the code have the low bits of the operand. -/
theorem low_signExtend8_16 {y : CsX86Op} (hy : y.IsFactor true) :
    low 16 ((signExtend8_16 (y.imm.setWidth 8)).setWidth 32) = low 16 (y.imm.setWidth 32) := by
  have hcut : y.imm.setWidth 16 = (y.imm.setWidth 8).signExtend 16 := by
    conv_lhs => rw [← hy.2 rfl]
    exact setWidth_signExtend (by decide) _
  refine congrArg (BitVec.setWidth 32) ?_
  rw [BitVec.setWidth_setWidth_of_le _ (show 16 ≤ 32 by decide), BitVec.setWidth_eq,
    BitVec.setWidth_setWidth_of_le _ (show 16 ≤ 32 by decide), signExtend8_16_eq, hcut]

theorem signExtend8_32_imm {y : CsX86Op} (hy : y.IsFactor true) :
    signExtend8_32 (y.imm.setWidth 8) = y.imm.setWidth 32 := by
  conv_rhs => rw [← hy.2 rfl]
  rw [signExtend8_32_eq]
  exact (setWidth_signExtend (by decide) _).symm

section Branches

variable {w : Width} {insn : CsInsn} {dst x y : CsX86Op} {s : Machine}

theorem imulImm_congr {p q : Ptr} (hp : p.Valid) (hq : q.Valid) {a b : BitVec 32}
    (h : low w.bits a = low w.bits b) :
    (imulImm w p q a).run s = (imulImm w p q b).run s := by
  have hsigned : w.signed a = w.signed b := by
    unfold Width.signed
    rw [← setWidth_low, h, setWidth_low]
  have hpoke (v : BitVec 32) : s.poke w p (v * a) = s.poke w p (v * b) := by
    rw [← s.poke_low w p (v * a), ← s.poke_low w p (v * b)]
    refine congrArg (s.poke w p) (BitVec.eq_of_toNat_eq ?_)
    have ha := toNat_low_mul w v a
    rw [hsigned, ← toNat_low_mul] at ha
    exact_mod_cast ha
  have htest (v : BitVec 32) : imulTooBig w v a = imulTooBig w v b := by
    rw [Bool.eq_iff_iff, imulTooBig_iff, imulTooBig_iff, hsigned]
  rw [imulImm_run hp hq, imulImm_run hp hq, hpoke, htest]

variable (hw : w ≠ .byte) (hdst : dst.IsLoc w) (ht : dst.type = .reg) (h1 : insn.op1 = dst)
include hw hdst ht h1

theorem imulI_loc_run (hy : y.IsLoc w) (h2 : insn.op2 = y) (hb : insn.byte0 = 0x0F) :
    (imulI insn).run s = .ok (some 0, ((s.advance insn).poke w (s.opPtr dst)
      (dst.value w s * y.value w s)).withCfOf (imulTooBig w (dst.value w s) (y.value w s))) := by
  have hp : s.opPtr dst = regs dst.reg := Machine.opPtr_of_reg ht
  have hrmw := @rmw_run (s.advance insn) w (s.opPtr dst) (hdst.valid s) (· * y.value w s)
  rw [hdst.peek_eq (SameData.advance s insn), hp] at hrmw
  have hwidth : widthOf2 insn.op1.size = w := by rw [h1, hdst.1, widthOf2_size hw]
  unfold widthOf2 at hwidth
  unfold imulI
  rw [run_bind_ok (advance_run s insn), run_bind_ok run_get_ok, if_neg (by rw [hb]; decide),
    if_neg (by rw [hb]; decide), if_pos hb, hwidth, h1, h2, hp]
  simp only [bind_assoc]
  rw [run_bind_ok (hy.load_advance s insn), run_bind_ok hrmw, run_bind_ok (assignCfOf_run _ _)]
  rfl

/-- With an immediate: the flags are those of the source as it is after the write. -/
theorem imulI_imm_run (hx : x.IsLoc w) {narrow : Bool} (hy : y.IsFactor narrow)
    (hcount : insn.opCount = 3) (h2 : insn.op2 = x) (h3 : insn.op3 = y)
    (hb : insn.Rest ∨ (insn.byte0 = 0x6B ∧ narrow = true)) :
    (imulI insn).run s = .ok (some 0, ((s.advance insn).poke w (s.opPtr dst)
      (x.value w s * y.imm.setWidth 32)).withCfOf (imulTooBig w (((s.advance insn).poke w
        (s.opPtr dst) (x.value w s * y.imm.setWidth 32)).peek w (s.opPtr x))
          (y.imm.setWidth 32))) := by
  have hd := SameData.advance s insn
  have hp : s.opPtr dst = regs dst.reg := Machine.opPtr_of_reg ht
  have hq : (s.advance insn).opPtr x = s.opPtr x := hx.opPtr_congr hd
  have hrun := @imulImm_run w _ (s.advance insn) _ (hdst.valid s) (hx.valid s) (y.imm.setWidth 32)
  rw [hx.peek_eq hd] at hrun
  unfold imulI
  rw [run_bind_ok (advance_run s insn), run_bind_ok run_get_ok, h1, h2, h3, hq, ← hp]
  rcases hb with hrest | ⟨hb, rfl⟩
  · have hwidth : widthOf2 dst.size = w := by rw [hdst.1, widthOf2_size hw]
    unfold widthOf2 at hwidth
    rw [if_neg hrest.1, if_neg hrest.2.1, if_neg hrest.2.2.1, if_neg hrest.2.2.2, if_pos hcount,
      hwidth, run_bind_ok hrun]
    rfl
  · rw [if_neg (by rw [hb]; decide), if_neg (by rw [hb]; decide), if_neg (by rw [hb]; decide),
      if_pos hb, if_pos hcount]
    cases w with
    | byte => exact absurd rfl hw
    | word =>
      have hcongr := @imulImm_congr .word (s.advance insn) _ _ (hdst.valid s) (hx.valid s) _ _
        (low_signExtend8_16 hy)
      rw [if_pos (show dst.size = 2 from hdst.1), run_bind_ok (hcongr.trans hrun)]
      rfl
    | dword =>
      rw [if_neg (by rw [hdst.1]; decide), signExtend8_32_imm hy, run_bind_ok hrun]
      rfl

/-- With two operands and an immediate of one byte the destination is the source. -/
theorem imulI_narrow_run (hy : y.IsFactor true) (hcount : insn.opCount ≠ 3) (h2 : insn.op2 = y)
    (hb : insn.byte0 = 0x6B) :
    (imulI insn).run s = .ok (some 0, ((s.advance insn).poke w (s.opPtr dst)
      (dst.value w s * y.imm.setWidth 32)).withCfOf (imulTooBig w (((s.advance insn).poke w
        (s.opPtr dst) (dst.value w s * y.imm.setWidth 32)).peek w (s.opPtr dst))
          (y.imm.setWidth 32))) := by
  have hd := SameData.advance s insn
  have hp : s.opPtr dst = regs dst.reg := Machine.opPtr_of_reg ht
  have hrun := @imulImm_run w _ (s.advance insn) _ (hdst.valid s) (hdst.valid s)
    (y.imm.setWidth 32)
  rw [hdst.peek_eq hd] at hrun
  unfold imulI
  rw [run_bind_ok (advance_run s insn), run_bind_ok run_get_ok, h1, h2, ← hp,
    if_neg (by rw [hb]; decide), if_neg (by rw [hb]; decide), if_neg (by rw [hb]; decide),
    if_pos hb, if_neg hcount]
  cases w with
  | byte => exact absurd rfl hw
  | word =>
    have hcongr := @imulImm_congr .word (s.advance insn) _ _ (hdst.valid s) (hdst.valid s) _ _
      (low_signExtend8_16 hy)
    rw [if_pos (show dst.size = 2 from hdst.1), run_bind_ok (hcongr.trans hrun)]
    rfl
  | dword =>
    rw [if_neg (by rw [hdst.1]; decide), signExtend8_32_imm hy, run_bind_ok hrun]
    rfl

end Branches

section Right

variable {w : Width} {insn : CsInsn} {dst x y : CsX86Op} {s : Machine} (hw : w ≠ .byte)

include hw in
/-- Only on 16 bits does the test see a product out of range. -/
theorem tooBig_iff {z z' : ℤ} : ((w = .word ∧ ¬ InRange (2 ^ (w.bits - 1)) z') ↔
      ¬ InRange (2 ^ (w.bits - 1)) z) ↔
    if w = .dword then InRange (2 ^ (w.bits - 1)) z
    else (InRange (2 ^ (w.bits - 1)) z' ↔ InRange (2 ^ (w.bits - 1)) z) := by
  cases w with
  | byte => exact absurd rfl hw
  | word => simp [not_iff_not]
  | dword => simp

theorem signed_low_mul (w : Width) (a b : BitVec 32) :
    w.signed (low w.bits (a * b)) = (w.signed a * w.signed b).bmod (2 ^ w.bits) := by
  unfold Width.signed
  rw [setWidth_low, BitVec.setWidth_mul _ _ w.bits_le, BitVec.toInt_mul]

variable {p : Ptr} {a b after : BitVec 32}

include hw in
/-- A product in the destination, with the flags of another: right where the latter fits when the
former does, and on 32 bits where it fits. -/
theorem isCutProduct_mul_iff (hp : p.Valid) [SafePtr p] :
    IsCutProduct w (w.signed a * w.signed b) p s
      ((s.poke w p (a * b)).withCfOf (imulTooBig w after b)) ↔
    if w = .dword then InRange (2 ^ (w.bits - 1)) (w.signed a * w.signed b)
    else (InRange (2 ^ (w.bits - 1)) (w.signed after * w.signed b) ↔
      InRange (2 ^ (w.bits - 1)) (w.signed a * w.signed b)) := by
  rw [isCutProduct_iff hp, imulTooBig_iff, tooBig_iff hw]
  exact and_iff_right (toNat_low_mul w a b)

variable (hdst : dst.IsLoc w) (ht : dst.type = .reg) (h1 : insn.op1 = dst)
include hw hdst ht h1

theorem imulI_loc_iff (hy : y.IsLoc w) (h2 : insn.op2 = y) (hb : insn.byte0 = 0x0F) :
    (∃ t, (imulI insn).run s = .ok (some 0, t) ∧
      IsCutProduct w (imulExact w dst y s) (s.opPtr dst) (s.advance insn) t) ↔
    ImulHolds w insn dst dst y s := by
  have hsafe := hdst.safe s
  have hnot : ¬ (insn.Rest ∧ insn.opCount ≠ 3) := fun h => h.1.2.2.1 hb
  unfold ImulHolds imulExact
  rw [imulI_loc_run hw hdst ht h1 hy h2 hb, exists_ok_iff, if_neg hnot, hy.operand_eq,
    isCutProduct_mul_iff hw (hdst.valid s)]
  simp [hb]

omit h1 in
theorem isCutProduct_imm_iff (hx : x.IsLoc w) (hy : y.type = .imm)
    (hnot : ¬ (insn.Rest ∧ insn.opCount ≠ 3)) (hb : insn.byte0 ≠ 0x0F) :
    IsCutProduct w (imulExact w x y s) (s.opPtr dst) (s.advance insn)
      (((s.advance insn).poke w (s.opPtr dst) (x.value w s * y.imm.setWidth 32)).withCfOf
        (imulTooBig w (((s.advance insn).poke w (s.opPtr dst)
          (x.value w s * y.imm.setWidth 32)).peek w (s.opPtr x)) (y.imm.setWidth 32))) ↔
    ImulHolds w insn dst x y s := by
  have hsafe := hdst.safe s
  have hop : y.operand w s = y.imm.setWidth 32 := if_pos hy
  unfold ImulHolds imulExact
  rw [if_neg hnot, hop, isCutProduct_mul_iff hw (hdst.valid s)]
  split_ifs
  · exact Iff.rfl
  · by_cases hsame : s.opPtr x = s.opPtr dst
    · rw [hsame, Machine.peek_poke _ _ (hdst.valid s), signed_low_mul]
      exact ⟨fun h _ _ => h, fun h => h hb rfl⟩
    · obtain ⟨v, hv⟩ := (lowRegs_spec (hdst.reg_mem ht)).2.1
      have hvar : s.opPtr dst = .var v := (Machine.opPtr_of_reg ht).trans hv
      rw [hvar] at hsame ⊢
      rw [Machine.peek_poke_of_ne _ _ (.inl rfl) hsame, hx.peek_eq (SameData.advance s insn)]
      simp [hsame]

theorem imulI_imm_iff (hx : x.IsLoc w) {narrow : Bool} (hy : y.IsFactor narrow)
    (hcount : insn.opCount = 3) (h2 : insn.op2 = x) (h3 : insn.op3 = y)
    (hb : insn.Rest ∨ (insn.byte0 = 0x6B ∧ narrow = true)) :
    (∃ t, (imulI insn).run s = .ok (some 0, t) ∧
      IsCutProduct w (imulExact w x y s) (s.opPtr dst) (s.advance insn) t) ↔
    ImulHolds w insn dst x y s := by
  have hnot : ¬ (insn.Rest ∧ insn.opCount ≠ 3) := fun h => h.2 hcount
  have hne : insn.byte0 ≠ 0x0F := by
    rcases hb with hrest | ⟨hb, -⟩
    · exact hrest.2.2.1
    · rw [hb]
      decide
  rw [imulI_imm_run hw hdst ht h1 hx hy hcount h2 h3 hb, exists_ok_iff]
  exact isCutProduct_imm_iff hw hdst ht hx hy.1 hnot hne

theorem imulI_narrow_iff (hy : y.IsFactor true) (hcount : insn.opCount ≠ 3) (h2 : insn.op2 = y)
    (hb : insn.byte0 = 0x6B) :
    (∃ t, (imulI insn).run s = .ok (some 0, t) ∧
      IsCutProduct w (imulExact w dst y s) (s.opPtr dst) (s.advance insn) t) ↔
    ImulHolds w insn dst dst y s := by
  have hnot : ¬ (insn.Rest ∧ insn.opCount ≠ 3) := fun h => h.1.2.2.2 hb
  have hne : insn.byte0 ≠ 0x0F := by
    rw [hb]
    decide
  rw [imulI_narrow_run hw hdst ht h1 hy hcount h2 hb, exists_ok_iff]
  exact isCutProduct_imm_iff hw hdst ht hdst hy.1 hnot hne

theorem imulI_rest_iff (hrest : insn.Rest) (hcount : insn.opCount ≠ 3) :
    (∃ t, (imulI insn).run s = .ok (some 0, t) ∧
      IsCutProduct w (imulExact w x y s) (s.opPtr dst) (s.advance insn) t) ↔
    ImulHolds w insn dst x y s := by
  have hsafe := hdst.safe s
  have hvalid := hdst.valid s
  have hp : s.opPtr dst = regs dst.reg := Machine.opPtr_of_reg ht
  have hrun := @imulI_two_run insn s hrest hcount
  rw [h1, hdst.1, widthOf2_size hw, ← hp] at hrun
  unfold ImulHolds
  rw [hrun hvalid, exists_ok_iff, if_pos ⟨hrest, hcount⟩, isCutProduct_iff hvalid]
  simp

omit ht h1 in
/-- The forms of `IMUL` with a destination leave the cut product and its overflow exactly where
`ImulHolds`. -/
theorem imulI_isCutProduct_iff (ht : dst.type = .reg) (h : ImulForm w insn dst x y) :
    (∃ t, (imulI insn).run s = .ok (some 0, t) ∧
      IsCutProduct w (imulExact w x y s) (s.opPtr dst) (s.advance insn) t) ↔
    ImulHolds w insn dst x y s := by
  rcases h with ⟨hcode, hcount, hops, rfl, hy⟩ | ⟨narrow, hcode, hcount, hops, rfl, hy⟩ |
    ⟨narrow, hcode, hcount, hops, hx, hy⟩
  · have h1 : insn.op1 = x := op1_of_cons hops
    have h2 : insn.op2 = y := op2_of_cons hops
    rcases byte0_of_hasOpcode hcode with hb | hb
    · exact imulI_loc_iff hw hdst ht h1 hy h2 hb
    · exact imulI_rest_iff hw hdst ht h1 (rest_of_prefixed hb) (by rw [hcount]; decide)
  · have h1 : insn.op1 = x := op1_of_cons hops
    have h2 : insn.op2 = y := op2_of_cons hops
    have hne : insn.opCount ≠ 3 := by rw [hcount]; decide
    rcases byte0_of_hasOpcode hcode with hb | hb
    · cases narrow with
      | true => exact imulI_narrow_iff hw hdst ht h1 hy hne h2 hb
      | false => exact imulI_rest_iff hw hdst ht h1 (by unfold CsInsn.Rest; rw [hb]; decide) hne
    · exact imulI_rest_iff hw hdst ht h1 (rest_of_prefixed hb) hne
  · have h1 : insn.op1 = dst := op1_of_cons hops
    have h2 : insn.op2 = x := op2_of_cons hops
    have h3 : insn.op3 = y := op3_of_cons hops
    refine imulI_imm_iff hw hdst ht h1 hx hy hcount h2 h3 ?_
    rcases byte0_of_hasOpcode hcode with hb | hb
    · cases narrow with
      | true => exact .inr ⟨hb, rfl⟩
      | false => exact .inl (by unfold CsInsn.Rest; rw [hb]; decide)
    · exact .inl (rest_of_prefixed hb)

end Right

/-- `IMUL EAX, EBX` -/
def imulEaxEbx : CsInsn :=
  ⟨"imul", 3, [0x0F, 0xAF, 0xC3], [], 2, [⟨.reg .eax, 4⟩, ⟨.reg .ebx, 4⟩]⟩

theorem imulForm_eax_ebx : ImulForm .dword imulEaxEbx ⟨.reg .eax, 4⟩ ⟨.reg .eax, 4⟩
    ⟨.reg .ebx, 4⟩ :=
  .loc ⟨[], [0xC3], nofun, rfl⟩ rfl rfl rfl (by decide)

/-- `3 * 5` -/
theorem imulI_isCutProduct_fifteen : ∃ t, (imulI imulEaxEbx).run (twice 3 5) = .ok (some 0, t) ∧
    IsCutProduct .dword 15 (.var .eax) ((twice 3 5).advance imulEaxEbx) t := by
  refine (imulI_isCutProduct_iff (s := twice 3 5) (by decide) (by decide) rfl
    imulForm_eax_ebx).2 ?_
  unfold ImulHolds
  decide

/-- The product of `2 ^ 31 - 1` and 2 does not set `CF`. -/
theorem imulI_not_isCutProduct : ¬ ∀ (w : Width) (insn : CsInsn) (dst x y : CsX86Op) (s : Machine),
    w ≠ .byte → dst.IsLoc w → dst.type = .reg → ImulForm w insn dst x y →
      ∃ t, (imulI insn).run s = .ok (some 0, t) ∧
        IsCutProduct w (imulExact w x y s) (s.opPtr dst) (s.advance insn) t := by
  intro hall
  have hdst : (⟨.reg .eax, 4⟩ : CsX86Op).IsLoc .dword := by decide
  have hy : (⟨.reg .ebx, 4⟩ : CsX86Op).IsLoc .dword := by decide
  obtain ⟨t, hrun, ht⟩ := hall .dword imulEaxEbx _ _ _ ((twice 0 2).setReg .eax 0x7FFFFFFF)
    (by decide) hdst rfl imulForm_eax_ebx
  rw [imulI_loc_run (by decide) hdst rfl rfl hy rfl rfl] at hrun
  cases hrun
  exact absurd ht.cf (by decide)

end I386Vm
