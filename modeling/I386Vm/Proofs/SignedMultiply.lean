import I386Vm.Lib.SignedWords
import I386Vm.Proofs.Multiply

/-!
# `IMUL`

`imul_i` takes the first byte of the instruction for its opcode. With a prefix before it every form
goes to the branch of `0x69`, and one without three operands there to a branch that writes the
immediate over the product. On 32 bits the products are cut before they are compared, and a form
that writes its own source compares the product of what it has written.
-/

namespace I386Vm

open Bytes Prog TwosComplement

/-- The prefixes that can stand before an opcode. -/
def legacyPrefixes : List (BitVec 8) :=
  [0xF0, 0xF2, 0xF3, 0x26, 0x2E, 0x36, 0x3E, 0x64, 0x65, 0x66, 0x67]

/-- The bytes of the instruction are prefixes and then the opcode. -/
def CsInsn.HasOpcode (insn : CsInsn) (opcode : List (BitVec 8)) : Prop :=
  ∃ pre rest, (∀ b ∈ pre, b ∈ legacyPrefixes) ∧ insn.bytes = pre ++ opcode ++ rest

theorem byte0_of_hasOpcode {insn : CsInsn} {b : BitVec 8} {bs : List (BitVec 8)}
    (h : insn.HasOpcode (b :: bs)) : insn.byte0 = b ∨ insn.byte0 ∈ legacyPrefixes := by
  obtain ⟨pre, rest, hpre, hbytes⟩ := h
  unfold CsInsn.byte0
  rw [hbytes]
  rcases pre with _ | ⟨p, ps⟩
  · exact .inl rfl
  · exact .inr (hpre p (List.mem_cons_self ..))

theorem signExtend8_16_eq (v : BitVec 8) : signExtend8_16 v = v.signExtend 16 := by
  unfold signExtend8_16
  rw [← or_mask_eq_signExtend, show BitVec.twoPow (7 + 1) 7 = 0x80 by decide,
    show BitVec.allOnes 16 <<< (7 + 1) = 0xFF00 by decide]

theorem signExtend8_32_eq (v : BitVec 8) : signExtend8_32 v = v.signExtend 32 := by
  unfold signExtend8_32
  rw [← or_mask_eq_signExtend, show BitVec.twoPow (7 + 1) 7 = 0x80 by decide,
    show BitVec.allOnes 32 <<< (7 + 1) = 0xFFFFFF00 by decide]

theorem signExtend16_32_eq (v : BitVec 16) : signExtend16_32 v = v.signExtend 32 := by
  unfold signExtend16_32
  rw [← or_mask_eq_signExtend, show BitVec.twoPow (15 + 1) 15 = 0x8000 by decide,
    show BitVec.allOnes 32 <<< (15 + 1) = 0xFFFF0000 by decide]

theorem signExtend32_64_eq (v : BitVec 32) : signExtend32_64 v = v.signExtend 64 := by
  unfold signExtend32_64
  rw [← or_mask_eq_signExtend, show BitVec.twoPow (31 + 1) 31 = 0x80000000 by decide,
    show BitVec.allOnes 64 <<< (31 + 1) = 0xFFFFFFFF00000000 by decide]

theorem Width.dword_signed (v : BitVec 32) : Width.dword.signed v = v.toInt :=
  congrArg BitVec.toInt (BitVec.setWidth_eq v)

/-- A word that is extended with zeros is extended with its sign where it is below the half. -/
theorem setWidth_ne_signExtend32_64 (v : BitVec 32) :
    v.setWidth 64 ≠ signExtend32_64 v ↔ ¬ InRange (2 ^ 31) (v.toNat : ℤ) := by
  have hlt := v.isLt
  have hwide : (v.setWidth 64).toInt = v.toNat := by
    rw [BitVec.toInt_setWidth]
    refine bmod_of_inRange (by decide) ?_
    unfold InRange
    omega
  rw [signExtend32_64_eq, Ne, ← BitVec.toInt_inj, hwide,
    BitVec.toInt_signExtend_of_le (by decide), toInt_eq_signed (by decide)]
  unfold InRange signed
  split_ifs <;> omega

theorem quotientTooBig_iff {n : ℕ} (bits : ℕ) (res : BitVec n) :
    quotientTooBig bits res = true ↔ ¬ InRange (2 ^ (bits - 1)) res.toInt := by
  unfold quotientTooBig InRange
  rw [decide_eq_true_iff]
  push_cast
  omega

/-- The pair as a two's-complement number. -/
def Machine.signedPair (w : Width) (s : Machine) : ℤ := signed (2 ^ (2 * w.bits - 1)) (s.pair w)

/-- The pair holds `z`, and `CF` and `OF` say whether it does not fit in the width. -/
structure IsSignedProduct (w : Width) (z : ℤ) (t : Machine) : Prop where
  value : t.signedPair w = z
  cf : t.testFlag .CF ↔ ¬ InRange (2 ^ (w.bits - 1)) z
  of : t.testFlag .OF ↔ ¬ InRange (2 ^ (w.bits - 1)) z

theorem isSignedProduct_withCfOf {w : Width} {z : ℤ} {s : Machine} {c : Bool}
    (hvalue : s.signedPair w = z) (hc : c = true ↔ ¬ InRange (2 ^ (w.bits - 1)) z) :
    IsSignedProduct w z (s.withCfOf c) where
  value := by
    unfold Machine.signedPair
    rw [Machine.pair_withCfOf]
    exact hvalue
  cf := by
    rw [Machine.testFlag_withCfOf]
    exact hc
  of := by
    rw [Machine.testFlag_withCfOf]
    exact hc

theorem Machine.signedPair_putPair {w : Width} {x : BitVec 32} (s : Machine)
    (h : x.toNat < 2 ^ w.bits * 2 ^ w.bits) :
    (s.putPair w x (x >>> w.bits)).signedPair w = signed (2 ^ (2 * w.bits - 1)) x.toNat :=
  congrArg (signed _) (s.pair_putPair_shift w h)

/-- The opcode of the form with one operand. -/
def Width.imulOpcode (w : Width) : BitVec 8 := if w = .byte then 0xF6 else 0xF7

/-- The product that the form with one operand finds: on 32 bits that of two `uint32_t`, cut. -/
def imulSeen (w : Width) (z : ℤ) : ℤ := if w = .dword then z % 2 ^ 32 else z

section Unprefixed

variable {insn : CsInsn} {op : CsX86Op} {s : Machine} (h : insn.operands = [op])
include h

theorem imulI_byte (hop : op.IsLoc .byte) (hb : insn.byte0 = 0xF6) :
    ∃ t, (imulI insn).run s = .ok (some 0, t) ∧ IsSignedProduct .byte
      (Width.byte.signed (s.lowHalf .byte) * Width.byte.signed (op.value .byte s)) t := by
  have hprod : (BitVec.signExtend 16 (((s.advance insn).peek .byte (.var .eax)).setWidth 8) *
      BitVec.signExtend 16 ((op.value .byte s).setWidth 8)).toInt =
      Width.byte.signed (s.lowHalf .byte) * Width.byte.signed (op.value .byte s) :=
    toInt_mul_signExtend (by decide) (le_refl 16) _ _
  unfold imulI
  rw [run_bind_ok (advance_run s insn), run_bind_ok run_get_ok, if_pos hb, op1_of_cons h]
  simp only [bind_assoc]
  rw [run_bind_ok (hop.load_advance s insn), run_bind_ok (load_run (.var _)),
    run_bind_ok (store_run (.var _) _), run_bind_ok (load_run (.var _)),
    run_bind_ok (assignCfOf_run _ _), Machine.peek_poke _ _ (.var _), Machine.poke_word_eax]
  generalize BitVec.signExtend 16 (((s.advance insn).peek .byte (.var .eax)).setWidth 8) *
    BitVec.signExtend 16 ((op.value .byte s).setWidth 8) = p at hprod ⊢
  have hx : (p.setWidth 32).toNat = p.toNat := BitVec.toNat_setWidth_of_le (by decide)
  have hcut : (low Width.word.bits (p.setWidth 32)).setWidth 16 = p :=
    (setWidth_low 16 _).trans <| (BitVec.setWidth_setWidth_of_le _ (by decide)).trans
      (BitVec.setWidth_eq p)
  rw [← hprod]
  refine ⟨_, rfl, isSignedProduct_withCfOf ?_ ?_⟩
  · rw [toInt_eq_signed (by decide) p, ← hx]
    refine (s.advance insn).signedPair_putPair ?_
    rw [hx]
    exact p.isLt
  · rw [decide_eq_true_iff, signExtend8_16_eq,
      ← BitVec.setWidth_setWidth_of_le _ (show 8 ≤ 16 by decide), hcut, ne_comm]
    exact not_congr (signExtend_setWidth_eq_iff (by decide) (by decide) p)

theorem imulI_word (hop : op.IsLoc .word) (hb : insn.byte0 = 0xF7) :
    ∃ t, (imulI insn).run s = .ok (some 0, t) ∧ IsSignedProduct .word
      (Width.word.signed (s.lowHalf .word) * Width.word.signed (op.value .word s)) t := by
  have hprod : (BitVec.signExtend 32 (((s.advance insn).peek .word (.var .eax)).setWidth 16) *
      BitVec.signExtend 32 ((op.value .word s).setWidth 16)).toInt =
      Width.word.signed (s.lowHalf .word) * Width.word.signed (op.value .word s) :=
    toInt_mul_signExtend (by decide) (le_refl 32) _ _
  have hcut := setWidth_mul_signExtend (show 16 ≤ 32 by decide)
    ((s.advance insn).peek .word (.var .eax)) (op.value .word s)
  unfold imulI
  rw [run_bind_ok (advance_run s insn), run_bind_ok run_get_ok, if_neg (by rw [hb]; decide),
    if_pos hb, op1_of_cons h, if_pos (show op.size = 2 from hop.1)]
  simp only [bind_assoc]
  rw [run_bind_ok (hop.load_advance s insn), run_bind_ok (load_run (.var _)), ← hcut,
    run_bind_ok (store_run (.var _) _), run_bind_ok (store_run (.var _) _),
    run_bind_ok (assignCfOf_run _ _), Machine.poke_dx_ax]
  generalize BitVec.signExtend 32 (((s.advance insn).peek .word (.var .eax)).setWidth 16) *
    BitVec.signExtend 32 ((op.value .word s).setWidth 16) = p at hprod ⊢
  rw [← hprod]
  refine ⟨_, rfl, isSignedProduct_withCfOf ?_ ?_⟩
  · rw [toInt_eq_signed (by decide) p]
    exact (s.advance insn).signedPair_putPair p.isLt
  · rw [decide_eq_true_iff, signExtend16_32_eq, ne_comm]
    exact not_congr (signExtend_setWidth_eq_iff (by decide) (by decide) p)

theorem imulI_dword (hop : op.IsLoc .dword) (hb : insn.byte0 = 0xF7) :
    ∃ t, (imulI insn).run s = .ok (some 0, t) ∧ IsSignedProduct .dword
      (Width.dword.signed (s.lowHalf .dword) * Width.dword.signed (op.value .dword s) % 2 ^ 32)
        t := by
  have hprod := toNat_mul_eq_emod (s.lowHalf .dword) (op.value .dword s)
  have hlt := (s.lowHalf .dword * op.value .dword s).isLt
  unfold imulI
  rw [run_bind_ok (advance_run s insn), run_bind_ok run_get_ok, if_neg (by rw [hb]; decide),
    if_pos hb, op1_of_cons h, if_neg (by rw [hop.1]; decide)]
  simp only [bind_assoc]
  rw [run_bind_ok (hop.load_advance s insn), run_bind_ok (load_run (.var _))]
  rw [show (s.advance insn).peek .dword (.var .eax) = s.lowHalf .dword from rfl,
    Width.dword_signed, Width.dword_signed]
  generalize s.lowHalf .dword * op.value .dword s = x at hprod hlt ⊢
  change ∃ t, Except.ok (some 0, (((s.advance insn).setReg .edx 0).setReg .eax x).withCfOf _) = _ ∧
    IsSignedProduct .dword (_ % (2 ^ 32 : ℕ)) t
  rw [Machine.setReg_edx_eax, ← hprod]
  refine ⟨_, rfl, isSignedProduct_withCfOf ?_ ?_⟩
  · have hpair : ((s.advance insn).putPair .dword x 0).pair .dword = x.toNat % 2 ^ 32 :=
      (s.advance insn).pair_putPair .dword x 0
    unfold Machine.signedPair signed
    rw [hpair, Nat.mod_eq_of_lt hlt, if_pos (lt_trans hlt (by decide))]
  · rw [decide_eq_true_iff]
    exact setWidth_ne_signExtend32_64 x

end Unprefixed

/-- The first byte sends the instruction to the branch of `0x69`. -/
def CsInsn.Rest (insn : CsInsn) : Prop :=
  insn.byte0 ≠ 0xF6 ∧ insn.byte0 ≠ 0xF7 ∧ insn.byte0 ≠ 0x0F ∧ insn.byte0 ≠ 0x6B

instance (insn : CsInsn) : Decidable insn.Rest := inferInstanceAs (Decidable (_ ∧ _))

theorem rest_of_prefixed {insn : CsInsn} (h : insn.byte0 ∈ legacyPrefixes) : insn.Rest := by
  have hall : ∀ b ∈ legacyPrefixes, b ≠ 0xF6 ∧ b ≠ 0xF7 ∧ b ≠ 0x0F ∧ b ≠ 0x6B := by decide
  exact hall _ h

/-- `if (s1 == 2) … else …` -/
def widthOf2 (s : BitVec 8) : Width := if s = 2 then .word else .dword

section Two

variable {insn : CsInsn} {s : Machine} (hrest : insn.Rest) (hcount : insn.opCount ≠ 3)
include hrest hcount

/-- Without three operands the branch puts the immediate into the destination. -/
theorem imulI_two_run (hp : (regs insn.op1.reg).Valid) :
    (imulI insn).run s = .ok (some 0, ((s.advance insn).poke (widthOf2 insn.op1.size)
      (regs insn.op1.reg) (insn.op2.imm.setWidth 32)).withCfOf false) := by
  unfold imulI
  rw [run_bind_ok (advance_run s insn), run_bind_ok run_get_ok, if_neg hrest.1, if_neg hrest.2.1,
    if_neg hrest.2.2.1, if_neg hrest.2.2.2, if_neg hcount]
  simp only [bind_assoc]
  rw [run_bind_ok (load_run hp), run_bind_ok (store_run hp _), run_bind_ok (store_run hp _),
    run_bind_ok (assignCfOf_run _ _), Machine.poke_poke]
  rfl

theorem imulI_two_not_ok (hp : ¬ (regs insn.op1.reg).Valid) (r : Ret × Machine) :
    (imulI insn).run s ≠ .ok r := by
  obtain ⟨e, he⟩ := load_error hp (widthOf2 insn.op1.size) (s.advance insn)
  unfold widthOf2 at he
  unfold imulI
  rw [run_bind_ok (advance_run s insn), run_bind_ok run_get_ok, if_neg hrest.1, if_neg hrest.2.1,
    if_neg hrest.2.2.1, if_neg hrest.2.2.2, if_neg hcount]
  simp only [bind_assoc]
  rw [run_bind_error he]
  exact nofun

end Two

section One

variable {w : Width} {insn : CsInsn} {op : CsX86Op} {s : Machine}

/-- The pair once the register `v` is zero. -/
def Machine.pairWithout (w : Width) (v : Var) (s : Machine) : ℕ :=
  if v = .eax then (if w = .byte then 0 else 2 ^ w.bits * (s.highHalf w).toNat)
  else if v = .edx ∧ w ≠ .byte then (s.lowHalf w).toNat
  else s.pair w

theorem pair_poke_zero (w : Width) (v : Var) (s : Machine) :
    (s.poke (widthOf2 w.size) (.var v) 0).pair w = s.pairWithout w v := by
  unfold Machine.pairWithout Machine.pair Machine.lowHalf Machine.highHalf
  by_cases ha : v = .eax
  · subst ha
    cases w <;>
      simp [widthOf2, Width.size, Width.bytes, Machine.peek, Machine.poke, Machine.setReg,
        merge_dword]
  · by_cases hd : v = .edx
    · subst hd
      cases w <;>
        simp [widthOf2, Width.size, Width.bytes, Machine.peek, Machine.poke, Machine.setReg]
    · have ha' := Ne.symm ha
      have hd' := Ne.symm hd
      cases w <;>
        simp [widthOf2, Width.size, Width.bytes, Machine.peek, Machine.poke, Machine.setReg, ha, hd,
          ha', hd']

theorem imulSeen_eq_iff {z : ℤ} : imulSeen w z = z ↔ (w = .dword → 0 ≤ z ∧ z < 2 ^ 32) := by
  unfold imulSeen
  split_ifs with hw <;> simp only [hw, true_implies, false_implies]
  omega

theorem imulI_plain (h : insn.operands = [op]) (hop : op.IsLoc w)
    (hb : insn.byte0 = w.imulOpcode) : ∃ t, (imulI insn).run s = .ok (some 0, t) ∧
      IsSignedProduct w (imulSeen w (w.signed (s.lowHalf w) * w.signed (op.value w s))) t := by
  cases w with
  | byte => exact imulI_byte h hop hb
  | word => exact imulI_word h hop hb
  | dword => exact imulI_dword h hop hb

/-- The register in the operand's place can be cleared, and the pair then is `z`, which fits. -/
def ImulCleared (w : Width) (op : CsX86Op) (s : Machine) (z : ℤ) : Prop :=
  InRange (2 ^ (w.bits - 1)) z ∧
    ∃ v, regs op.reg = .var v ∧ signed (2 ^ (2 * w.bits - 1)) (s.pairWithout w v) = z

theorem imulI_cleared_iff {z : ℤ} (h : insn.operands = [op]) (hop : op.IsLoc w)
    (hcount : insn.opCount = 1) (hrest : insn.Rest) :
    (∃ t, (imulI insn).run s = .ok (some 0, t) ∧ IsSignedProduct w z t) ↔
      ImulCleared w op s z := by
  have hne : insn.opCount ≠ 3 := by
    rw [hcount]
    decide
  have h1 := op1_of_cons h
  by_cases hp : (regs insn.op1.reg).Valid
  · have hrun := imulI_two_run (s := s) hrest hne hp
    rw [h1] at hp hrun
    obtain ⟨v, hv⟩ := exists_var (SafePtr.not_control_reg hop.plain) hp
    have hpair : ((((s.advance insn).poke (widthOf2 op.size) (regs op.reg)
        (insn.op2.imm.setWidth 32)).withCfOf false).signedPair w) =
        signed (2 ^ (2 * w.bits - 1)) (s.pairWithout w v) := by
      unfold Machine.signedPair
      rw [Machine.pair_withCfOf, op2_of_single h, hv, hop.1]
      exact congrArg (signed _) (pair_poke_zero w v (s.advance insn))
    rw [hrun, exists_ok_iff]
    constructor
    · rintro ⟨hvalue, hcf, -⟩
      rw [Machine.testFlag_withCfOf] at hcf
      have hfits : InRange (2 ^ (w.bits - 1)) z :=
        not_not.1 fun hout => Bool.false_ne_true (hcf.2 hout)
      exact ⟨hfits, v, hv, hpair.symm.trans hvalue⟩
    · rintro ⟨hfits, v', hv', hvalue⟩
      obtain rfl : v = v' := Ptr.var.inj (hv.symm.trans hv')
      refine isSignedProduct_withCfOf ?_ (iff_of_false nofun (not_not.2 hfits))
      rw [← hvalue, ← hpair]
      exact congrArg (signed _) (Machine.pair_withCfOf _ _ w).symm
  · refine iff_of_false ?_ ?_
    · rintro ⟨t, hrun, -⟩
      exact imulI_two_not_ok hrest hne hp _ hrun
    · rintro ⟨-, v, hv, -⟩
      rw [h1, hv] at hp
      exact hp (.var v)

/-- `IMUL` with one operand leaves the signed product exactly where no prefix stands before its
opcode and, on 32 bits, the product is not negative and below `2 ^ 32`, or where a prefix does and
the pair, with the register in the operand's place cleared, is the product already. -/
theorem imulI_one_iff (h : insn.operands = [op]) (hop : op.IsLoc w) (hcount : insn.opCount = 1)
    (hcode : insn.HasOpcode [w.imulOpcode]) :
    (∃ t, (imulI insn).run s = .ok (some 0, t) ∧ IsSignedProduct w
      (w.signed (s.lowHalf w) * w.signed (op.value w s)) t) ↔
    if insn.byte0 = w.imulOpcode then
      w = .dword → 0 ≤ w.signed (s.lowHalf w) * w.signed (op.value w s) ∧
        w.signed (s.lowHalf w) * w.signed (op.value w s) < 2 ^ 32
    else ImulCleared w op s (w.signed (s.lowHalf w) * w.signed (op.value w s)) := by
  split_ifs with hb
  · obtain ⟨t, hrun, ht⟩ := imulI_plain (s := s) h hop hb
    rw [hrun, exists_ok_iff, ← imulSeen_eq_iff]
    constructor
    · exact fun hz => ht.value.symm.trans hz.value
    · intro hz
      rwa [hz] at ht
  · have hpre := (byte0_of_hasOpcode hcode).resolve_left hb
    exact imulI_cleared_iff h hop hcount (rest_of_prefixed hpre)

end One

/-- `IMUL BL` -/
def imulBl : CsInsn := ⟨"imul", 2, [0xF6, 0xEB], [], 1, [⟨.reg .bl, 1⟩]⟩

/-- `-1 * 3` -/
theorem imulI_one_bl : ∃ t, (imulI imulBl).run (twice 0xFF 3) = .ok (some 0, t) ∧
    IsSignedProduct .byte (-3) t := by
  refine (@imulI_one_iff .byte imulBl ⟨.reg .bl, 1⟩ (twice 0xFF 3) rfl (by decide) rfl
    ⟨[], [0xEB], nofun, rfl⟩).2 ?_
  rw [if_pos (show imulBl.byte0 = Width.byte.imulOpcode by decide)]
  exact nofun

/-- `IMUL EBX` -/
def imulEbx : CsInsn := ⟨"imul", 2, [0xF7, 0xEB], [], 1, [⟨.reg .ebx, 4⟩]⟩

/-- `EDX` is 0 after `-1 * 3`. -/
theorem imulI_one_fails : ¬ ∀ (w : Width) (insn : CsInsn) (op : CsX86Op) (s : Machine),
    insn.operands = [op] → op.IsLoc w → insn.opCount = 1 → insn.HasOpcode [w.imulOpcode] →
      ∃ t, (imulI insn).run s = .ok (some 0, t) ∧ IsSignedProduct w
        (w.signed (s.lowHalf w) * w.signed (op.value w s)) t := by
  intro hall
  obtain ⟨t, hrun, ht⟩ := hall .dword imulEbx ⟨.reg .ebx, 4⟩ ((twice 0 3).setReg .eax (-1)) rfl
    (by decide) rfl ⟨[], [0xEB], nofun, rfl⟩
  obtain ⟨t', hrun', ht'⟩ := @imulI_dword imulEbx ⟨.reg .ebx, 4⟩ ((twice 0 3).setReg .eax (-1)) rfl
    (by decide) rfl
  rw [hrun] at hrun'
  cases hrun'
  exact absurd (ht.value.symm.trans ht'.value) (by decide)

end I386Vm
