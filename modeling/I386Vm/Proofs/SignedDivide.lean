import I386Vm.Proofs.Divide
import I386Vm.Proofs.SignedMultiply

/-!
# `IDIV`

`idiv_i` divides by the word at address 0, as `div_i` does. On 16 bits it or-s the sign extension
of `AX` to `DX`, so a negative `AX` hides `DX`. The quotient is compared after the division, so the
least dividend by `-1` stops the host before that.
-/

namespace I386Vm

open Bytes Prog TwosComplement

/-- The sign extension of a word that is not negative is the word. -/
theorem signExtend_of_lt {v : BitVec 32} (h : (low 16 v).toNat < 2 ^ 15) :
    (v.setWidth 16).signExtend 32 = low 16 v := by
  apply BitVec.eq_of_toInt_eq
  have hcut : (v.setWidth 16).toNat = (low 16 v).toNat := by
    rw [BitVec.toNat_setWidth, toNat_low]
  rw [BitVec.toInt_signExtend_of_le (by decide), toInt_eq_signed (by decide),
    toInt_eq_signed (by decide), hcut]
  unfold signed
  split_ifs <;> omega

/-- That of a negative one has no bit above to let `DX` show. -/
theorem or_signExtend_of_le {v : BitVec 32} (u : BitVec 32) (h : 2 ^ 15 ≤ (low 16 v).toNat) :
    (low 16 u <<< 16) ||| (v.setWidth 16).signExtend 32 = (v.setWidth 16).signExtend 32 := by
  have hmsb : (v.setWidth 16).msb = true := by
    rw [BitVec.msb_eq_decide, decide_eq_true_iff, BitVec.toNat_setWidth, ← toNat_low]
    exact h
  apply BitVec.eq_of_getLsbD_eq
  intro i hi
  rw [BitVec.getLsbD_or, BitVec.getLsbD_shiftLeft, BitVec.getLsbD_signExtend, hmsb]
  by_cases h16 : i < 16 <;> simp [h16, hi]

namespace Machine

variable (w : Width) (s : Machine)

/-- The dividend of the code: on 16 bits a negative `AX` covers `DX` with its sign. -/
def idivDividend : ℤ :=
  if w = .word ∧ 2 ^ 15 ≤ (s.lowHalf w).toNat then w.signed (s.lowHalf w) else s.signedPair w

/-- The word that stands for it. -/
def idivWord : BitVec (2 * w.bits) :=
  match w with
  | .byte => (s.reg .eax).setWidth 16
  | .word => (low 16 (s.reg .edx) <<< 16) ||| ((s.reg .eax).setWidth 16).signExtend 32
  | .dword => s.reg .edx ++ s.reg .eax

/-- The divisor of the code. -/
def idivDivisor : BitVec (2 * w.bits) := ((s.atZero w).setWidth w.bits).signExtend (2 * w.bits)

theorem toInt_idivDivisor : (s.idivDivisor w).toInt = w.signed (s.atZero w) :=
  BitVec.toInt_signExtend_of_le (by omega)

theorem toInt_eq_signedPair {x : BitVec (2 * w.bits)} (h : x.toNat = s.pair w) :
    x.toInt = s.signedPair w := by
  rw [toInt_eq_signed (Nat.mul_pos Nat.two_pos w.bits_pos), h]
  rfl

theorem toInt_idivWord : (s.idivWord w).toInt = s.idivDividend w := by
  unfold idivDividend
  cases w with
  | byte =>
    refine s.toInt_eq_signedPair .byte ?_
    rw [pair_byte, toNat_low]
    exact BitVec.toNat_setWidth _ _
  | word =>
    split_ifs with hneg
    · have hlow : s.lowHalf .word = low 16 (s.reg .eax) := rfl
      rw [hlow] at hneg ⊢
      change ((low 16 (s.reg .edx) <<< 16) ||| ((s.reg .eax).setWidth 16).signExtend 32).toInt = _
      rw [or_signExtend_of_le _ hneg.2, BitVec.toInt_signExtend_of_le (by decide)]
      exact congrArg BitVec.toInt (by simp [low, Width.bits, Width.bytes])
    · refine s.toInt_eq_signedPair .word ?_
      have hlt : (low 16 (s.reg .eax)).toNat < 2 ^ 15 := not_le.1 fun h => hneg ⟨rfl, h⟩
      change ((low 16 (s.reg .edx) <<< 16) ||| ((s.reg .eax).setWidth 16).signExtend 32).toNat = _
      rw [signExtend_of_lt hlt, pair_word]
  | dword => exact s.toInt_eq_signedPair .dword (by rw [pair_dword]; rfl)

end Machine

section Idiv

variable {w : Width} {insn : CsInsn} {op : CsX86Op} {s : Machine} (h : insn.operands = [op])

/-- The division that the host cannot do. -/
def IdivOverflow (w : Width) (n d : ℤ) : Prop := w ≠ .byte ∧ n = -2 ^ (2 * w.bits - 1) ∧ d = -1

instance (w : Width) (n d : ℤ) : Decidable (IdivOverflow w n d) :=
  inferInstanceAs (Decidable (_ ∧ _))

theorem idivOverflow_iff : IdivOverflow w (s.idivDividend w) (w.signed (s.atZero w)) ↔
    w ≠ .byte ∧ s.idivWord w = .intMin _ ∧ s.idivDivisor w = -1 := by
  have hone : (-1 : BitVec (2 * w.bits)).toInt = -1 := by cases w <;> decide
  have hmin : (BitVec.intMin (2 * w.bits)).toInt = -2 ^ (2 * w.bits - 1) := by
    cases w <;> decide
  unfold IdivOverflow
  rw [← BitVec.toInt_inj, ← BitVec.toInt_inj, s.toInt_idivWord, s.toInt_idivDivisor, hone, hmin]

/-- Quotient and remainder in the pair. -/
def Machine.idivided (w : Width) (s : Machine) : Machine :=
  s.putPair w (((s.idivWord w).sdiv (s.idivDivisor w)).setWidth 32)
    (((s.idivWord w).srem (s.idivDivisor w)).setWidth 32)

include h

theorem idivI_fault (hs : op.size = w.size) (hv : s.atZero w = 0) (r : Ret × Machine) :
    (idivI insn).run s ≠ .ok r := by
  unfold idivI
  rw [run_bind_ok (advance_run s insn), run_bind_ok run_get_ok, op1_of_cons h, hs,
    widthOr32_size, run_bind_ok (load_op2_of_single h w _),
    if_pos (show (s.advance insn).atZero w = 0 from hv)]
  exact nofun

theorem idivI_run (hs : op.size = w.size) (hv : s.atZero w ≠ 0) :
    (idivI insn).run s =
      if w ≠ .byte ∧ s.idivWord w = .intMin _ ∧ s.idivDivisor w = -1 then .error .divide
      else .ok (if quotientTooBig w.bits ((s.idivWord w).sdiv (s.idivDivisor w))
        then (some (-1000), s.advance insn) else (some 0, (s.advance insn).idivided w)) := by
  change _ = if w ≠ .byte ∧ (s.advance insn).idivWord w = .intMin _ ∧
    (s.advance insn).idivDivisor w = -1 then _ else Except.ok (if quotientTooBig w.bits
      (((s.advance insn).idivWord w).sdiv ((s.advance insn).idivDivisor w)) then _ else _)
  change (s.advance insn).atZero w ≠ 0 at hv
  unfold idivI
  rw [run_bind_ok (advance_run s insn), run_bind_ok run_get_ok, op1_of_cons h, hs,
    widthOr32_size, run_bind_ok (load_op2_of_single h w _), if_neg hv]
  generalize s.advance insn = u
  cases w with
  | byte =>
    have hbyte : ¬ (Width.byte ≠ .byte ∧ u.idivWord .byte = .intMin _ ∧
      u.idivDivisor .byte = -1) := fun hb => hb.1 rfl
    rw [if_pos (show Width.byte.size = 1 by decide), if_neg hbyte]
    change (if quotientTooBig Width.byte.bits ((u.idivWord .byte).sdiv (u.idivDivisor .byte))
      then pure (some (-1000)) else _ : Exec Ret).run u = _
    unfold Machine.idivided
    rw [run_ite Iff.rfl, ← Machine.poke_al_storeHigh]
    split <;> rfl
  | word =>
    have hovf : u.idivWord .word = .intMin _ ∧ u.idivDivisor .word = -1 ↔
        Width.word ≠ .byte ∧ u.idivWord .word = .intMin _ ∧ u.idivDivisor .word = -1 := by
      simp
    have hquot : ((u.idivWord .word).sdiv (u.idivDivisor .word)).setWidth 32 = _ :=
      BitVec.setWidth_eq _
    have hrem : ((u.idivWord .word).srem (u.idivDivisor .word)).setWidth 32 = _ :=
      BitVec.setWidth_eq _
    rw [if_neg (show Width.word.size ≠ 1 by decide), if_pos (show Width.word.size = 2 by decide)]
    change (if u.idivWord .word = .intMin _ ∧ u.idivDivisor .word = -1 then throw .divide
      else if quotientTooBig Width.word.bits ((u.idivWord .word).sdiv (u.idivDivisor .word))
      then pure (some (-1000)) else _ : Exec Ret).run u = _
    unfold Machine.idivided
    rw [hquot, hrem, run_ite hovf, run_ite Iff.rfl]
    split
    · rfl
    · split <;> rfl
  | dword =>
    have hovf : u.idivWord .dword = .intMin _ ∧ u.idivDivisor .dword = -1 ↔
        Width.dword ≠ .byte ∧ u.idivWord .dword = .intMin _ ∧ u.idivDivisor .dword = -1 := by
      simp
    have hdiv : (u.atZero .dword).signExtend 64 = u.idivDivisor .dword :=
      (congrArg (BitVec.signExtend 64) (BitVec.setWidth_eq _)).symm
    rw [hdiv, if_neg (show Width.dword.size ≠ 1 by decide),
      if_neg (show Width.dword.size ≠ 2 by decide)]
    change (if u.idivWord .dword = .intMin _ ∧ u.idivDivisor .dword = -1 then throw .divide
      else if quotientTooBig Width.dword.bits ((u.idivWord .dword).sdiv (u.idivDivisor .dword))
      then pure (some (-1000)) else _ : Exec Ret).run u = _
    rw [run_ite hovf, run_ite Iff.rfl]
    split
    · rfl
    · split <;> rfl

end Idiv

/-- The halves are the quotient truncated toward zero and its remainder, or `-1000` is returned and
nothing has changed. -/
def IsSignedQuotient (w : Width) (n d : ℤ) (s : Machine) (r : Ret) (t : Machine) : Prop :=
  if d ≠ 0 ∧ InRange (2 ^ (w.bits - 1)) (n.tdiv d) then r = some 0 ∧
    w.signed (t.lowHalf w) = n.tdiv d ∧ w.signed (t.highHalf w) = n.tmod d
  else r = some (-1000) ∧ t.reg = s.reg ∧ t.mem = s.mem

/-- Dividing `m`, which is `n` or not positive, by `v` gives what dividing `n` by `d` does. -/
def SameQuotient (n d m v : ℤ) : Prop :=
  if m = n then v = d ∨ (n.natAbs < d.natAbs ∧ n.natAbs < v.natAbs)
  else n.tmod d + v * n.tdiv d = m ∧ -v.natAbs < n.tmod d ∧ n.tmod d ≤ 0

instance (n d m v : ℤ) : Decidable (SameQuotient n d m v) := inferInstanceAs (Decidable (ite _ _ _))

/-- It does so where the quotient by `d` fits, and elsewhere the other does not fit either. -/
def SdivAlike (w : Width) (n d m v : ℤ) : Prop :=
  if d ≠ 0 ∧ InRange (2 ^ (w.bits - 1)) (n.tdiv d) then SameQuotient n d m v
  else v ≠ 0 ∧ ¬ InRange (2 ^ (w.bits - 1)) (m.tdiv v) ∧ ¬ IdivOverflow w m v

instance (w : Width) (n d m v : ℤ) : Decidable (SdivAlike w n d m v) :=
  inferInstanceAs (Decidable (ite _ _ _))

theorem sameQuotient_iff {n d m v : ℤ} (hd : d ≠ 0) (hv : v ≠ 0) (hm : m = n ∨ m ≤ 0) :
    SameQuotient n d m v ↔ m.tdiv v = n.tdiv d ∧ m.tmod v = n.tmod d := by
  unfold SameQuotient
  split_ifs with heq
  · rw [heq]
    exact (tdiv_tmod_alike_iff hd hv).symm
  · exact (Int.tdiv_tmod_unique' (hm.resolve_left heq) hv).symm

theorem not_sameQuotient_zero {n d m : ℤ} (hd : d ≠ 0) : ¬ SameQuotient n d m 0 := by
  unfold SameQuotient
  split_ifs
  · rintro (h0 | ⟨-, hlt⟩)
    · exact hd h0.symm
    · exact absurd hlt (Nat.not_lt_zero _)
  · rintro ⟨-, hlt, hle⟩
    exact absurd hle (not_le.2 hlt)

section Quotient

variable {w : Width} {insn : CsInsn} {op : CsX86Op} {s : Machine}

theorem not_inRange_of_overflow {n d : ℤ} (h : IdivOverflow w n d) :
    ¬ InRange (2 ^ (w.bits - 1)) (n.tdiv d) := by
  obtain ⟨-, rfl, rfl⟩ := h
  have hlt : (2 : ℤ) ^ (w.bits - 1) < 2 ^ (2 * w.bits - 1) := by cases w <;> decide
  rw [Int.tdiv_neg, Int.tdiv_one]
  unfold InRange
  push_cast
  omega

theorem idivDividend_cases : s.idivDividend w = s.signedPair w ∨ s.idivDividend w ≤ 0 := by
  unfold Machine.idivDividend
  split_ifs with hneg
  · refine .inr ?_
    obtain ⟨rfl, hneg⟩ := hneg
    rw [Width.word.signed_eq (s.lowHalf_lt .word)]
    have hlt := s.lowHalf_lt .word
    have hbits : Width.word.bits = 16 := rfl
    rw [hbits] at hlt ⊢
    split_ifs <;> omega
  · exact .inl rfl

/-- Where the quotient of the code fits, the halves hold it and its remainder. -/
theorem halves_idivided (hv : w.signed (s.atZero w) ≠ 0)
    (hq : InRange (2 ^ (w.bits - 1)) ((s.idivDividend w).tdiv (w.signed (s.atZero w)))) :
    w.signed ((s.idivided w).lowHalf w) = (s.idivDividend w).tdiv (w.signed (s.atZero w)) ∧
      w.signed ((s.idivided w).highHalf w) = (s.idivDividend w).tmod (w.signed (s.atZero w)) := by
  have hbits : w.bits ≤ 2 * w.bits := by omega
  have hpos := w.bits_pos
  have hwide : InRange (2 ^ (2 * w.bits - 1))
      ((s.idivDividend w).tdiv (w.signed (s.atZero w))) :=
    inRange_mono (Nat.pow_le_pow_right Nat.two_pos (by omega)) hq
  have hrange := @inRange_tmod _ (s.idivDividend w) _ (inRange_signed (s.atZero w)) hv
  rw [← s.toInt_idivWord, ← s.toInt_idivDivisor] at hq hwide hrange ⊢
  have hquot := toInt_sdiv_of_inRange (by omega) hwide
  rw [← hquot] at hq ⊢
  rw [← BitVec.toInt_srem] at hrange ⊢
  unfold Machine.idivided
  rw [Machine.lowHalf_putPair, Machine.highHalf_putPair]
  exact ⟨signed_low_setWidth hbits hq, signed_low_setWidth hbits hrange⟩

theorem idivI_cases (h : insn.operands = [op]) (hs : op.size = w.size)
    (hv : s.atZero w ≠ 0)
    (hovf : ¬ IdivOverflow w (s.idivDividend w) (w.signed (s.atZero w))) :
    (idivI insn).run s = .ok
      (if InRange (2 ^ (w.bits - 1)) ((s.idivDividend w).tdiv (w.signed (s.atZero w)))
        then (some 0, (s.advance insn).idivided w) else (some (-1000), s.advance insn)) := by
  have hpos := w.bits_pos
  have hlt : 2 ^ (w.bits - 1) < 2 ^ (2 * w.bits - 1) :=
    Nat.pow_lt_pow_right (by omega) (by omega)
  have hbig := quotientTooBig_iff w.bits ((s.idivWord w).sdiv (s.idivDivisor w))
  rw [inRange_sdiv_iff (by omega) hlt, s.toInt_idivWord, s.toInt_idivDivisor] at hbig
  rw [idivI_run h hs hv, if_neg (mt idivOverflow_iff.2 hovf)]
  by_cases hq : InRange (2 ^ (w.bits - 1)) ((s.idivDividend w).tdiv (w.signed (s.atZero w)))
  · rw [if_neg fun hc => hbig.1 hc hq, if_pos hq]
  · rw [if_pos (hbig.2 hq), if_neg hq]

/-- What the divisor of the code being zero, or the division overflowing, comes to. -/
theorem idivI_not_ok (h : insn.operands = [op]) (hs : op.size = w.size)
    (hv : s.atZero w = 0 ∨ IdivOverflow w (s.idivDividend w) (w.signed (s.atZero w)))
    (r : Ret × Machine) : (idivI insn).run s ≠ .ok r := by
  by_cases hzero : s.atZero w = 0
  · exact idivI_fault h hs hzero r
  · rw [idivI_run h hs hzero, if_pos (idivOverflow_iff.1 (hv.resolve_left hzero))]
    exact nofun

/-- No operand makes up for a division that stops the host. -/
theorem not_sdivAlike {d : ℤ}
    (hbad : w.signed (s.atZero w) = 0 ∨
      IdivOverflow w (s.idivDividend w) (w.signed (s.atZero w))) :
    ¬ SdivAlike w (s.signedPair w) d (s.idivDividend w) (w.signed (s.atZero w)) := by
  unfold SdivAlike
  split_ifs with hd
  · intro hsame
    rcases eq_or_ne (w.signed (s.atZero w)) 0 with hv | hv
    · exact not_sameQuotient_zero hd.1 (hv ▸ hsame)
    · rw [sameQuotient_iff hd.1 hv idivDividend_cases] at hsame
      exact not_inRange_of_overflow (hbad.resolve_left hv) (hsame.1 ▸ hd.2)
  · exact fun hc => hbad.elim hc.1 hc.2.2

theorem exists_isSignedQuotient_iff (h : insn.operands = [op]) (hop : op.IsLoc w) :
    (∃ r t, (idivI insn).run s = .ok (r, t) ∧
      IsSignedQuotient w (s.signedPair w) (w.signed (op.value w s)) s r t) ↔
    SdivAlike w (s.signedPair w) (w.signed (op.value w s)) (s.idivDividend w)
      (w.signed (s.atZero w)) := by
  have hzero : w.signed (s.atZero w) = 0 ↔ s.atZero w = 0 := w.signed_eq_zero_iff (s.peek_lt w _)
  by_cases hbad : s.atZero w = 0 ∨ IdivOverflow w (s.idivDividend w) (w.signed (s.atZero w))
  · refine iff_of_false ?_ (not_sdivAlike (hbad.imp_left hzero.2))
    rintro ⟨r, t, hrun, -⟩
    exact idivI_not_ok h hop.1 hbad _ hrun
  · rw [not_or] at hbad
    rw [idivI_cases h hop.1 hbad.1 hbad.2]
    rw [← hzero] at hbad
    unfold IsSignedQuotient SdivAlike
    by_cases hq : InRange (2 ^ (w.bits - 1)) ((s.idivDividend w).tdiv (w.signed (s.atZero w)))
    · obtain ⟨hlow, hhigh⟩ := @halves_idivided w (s.advance insn) hbad.1 hq
      rw [if_pos hq, exists_run_iff, hlow, hhigh]
      split_ifs with hd
      · rw [sameQuotient_iff hd.1 hbad.1 idivDividend_cases]
        exact and_iff_right rfl
      · exact iff_of_false (fun hr => absurd hr.1 (by decide)) fun hc => hc.2.1 hq
    · rw [if_neg hq, exists_run_iff]
      split_ifs with hd
      · rw [sameQuotient_iff hd.1 hbad.1 idivDividend_cases]
        exact iff_of_false (fun hr => absurd hr.1 (by decide)) fun hc => hq (hc.1 ▸ hd.2)
      · exact iff_of_true ⟨rfl, rfl, rfl⟩ ⟨hbad.1, hq, hbad.2⟩

end Quotient

theorem cdqI_run (cdq : CsInsn) (s : Machine) : (cdqI cdq).run s = .ok (some 0,
    (s.advance cdq).setReg .edx (if sign (s.reg .eax) 0x20 then 0xFFFFFFFF else 0)) := by
  rw [← low_dword (s.reg .eax)]
  rfl

/-- `CDQ` makes the pair stand for the number that `EAX` does. -/
theorem signedPair_cdq {cdq : CsInsn} {s₀ s : Machine}
    (h : (cdqI cdq).run s₀ = .ok (some 0, s)) : s.signedPair .dword = (s₀.reg .eax).toInt := by
  rw [cdqI_run] at h
  cases h
  have hlt := (s₀.reg .eax).isLt
  have hsign : sign (s₀.reg .eax) 0x20 = decide (2 ^ 31 ≤ (s₀.reg .eax).toNat) :=
    sign_eq .dword (s₀.reg .eax)
  rw [hsign, toInt_eq_signed (by decide)]
  have hlow (x : BitVec 32) : ((s₀.advance cdq).setReg .edx x).lowHalf .dword = s₀.reg .eax :=
    low_dword _
  have hhigh (x : BitVec 32) : ((s₀.advance cdq).setReg .edx x).highHalf .dword = x :=
    low_dword _
  unfold Machine.signedPair Machine.pair
  rw [hlow, hhigh]
  have hbits : Width.dword.bits = 32 := rfl
  rw [hbits]
  unfold signed
  by_cases hneg : 2 ^ 31 ≤ (s₀.reg .eax).toNat
  · have hones : (0xFFFFFFFF : BitVec 32).toNat = 2 ^ 32 - 1 := by decide
    rw [decide_eq_true hneg, if_pos rfl, hones]
    split_ifs <;> omega
  · have hzero : (0 : BitVec 32).toNat = 0 := by decide
    rw [decide_eq_false hneg, if_neg Bool.false_ne_true, hzero]
    split_ifs <;> omega

theorem idivI_isSignedQuotient_iff {w : Width} {insn : CsInsn} {op : CsX86Op} {s : Machine}
    (h : insn.operands = [op]) (hop : op.IsLoc w) :
    ((∃ r t, (idivI insn).run s = .ok (r, t) ∧
      IsSignedQuotient w (s.signedPair w) (w.signed (op.value w s)) s r t) ↔
    SdivAlike w (s.signedPair w) (w.signed (op.value w s)) (s.idivDividend w)
      (w.signed (s.atZero w))) ∧
    ∀ cdq s₀, w = .dword → (cdqI cdq).run s₀ = .ok (some 0, s) →
      (op.value w s).toInt ≠ 0 → ¬ ((s₀.reg .eax).toInt = -2 ^ 31 ∧ (op.value w s).toInt = -1) →
      ((∃ r t, (idivI insn).run s = .ok (r, t) ∧ r = some 0 ∧
        (t.reg .eax).toInt = (s₀.reg .eax).toInt.tdiv (op.value w s).toInt ∧
        (t.reg .edx).toInt = (s₀.reg .eax).toInt.tmod (op.value w s).toInt) ↔
      (s.atZero w).toInt = (op.value w s).toInt ∨
        ((s₀.reg .eax).toInt.natAbs < (op.value w s).toInt.natAbs ∧
          (s₀.reg .eax).toInt.natAbs < (s.atZero w).toInt.natAbs)) := by
  refine ⟨exists_isSignedQuotient_iff h hop, ?_⟩
  rintro cdq s₀ rfl hcdq hd hno
  have hall := @exists_isSignedQuotient_iff .dword insn op s h hop
  have hfits : (op.value .dword s).toInt ≠ 0 ∧ InRange (2 ^ (Width.dword.bits - 1))
      ((s₀.reg .eax).toInt.tdiv (op.value .dword s).toInt) :=
    ⟨hd, inRange_tdiv (inRange_toInt (by decide) _) hno⟩
  have hlow (t : Machine) : Width.dword.signed (t.lowHalf .dword) = (t.reg .eax).toInt := by
    rw [Width.dword_signed, show t.lowHalf .dword = t.reg .eax from low_dword _]
  have hhigh (t : Machine) : Width.dword.signed (t.highHalf .dword) = (t.reg .edx).toInt := by
    rw [Width.dword_signed, show t.highHalf .dword = t.reg .edx from low_dword _]
  have hdividend : s.idivDividend .dword = s.signedPair .dword :=
    if_neg fun hw => absurd hw.1 (by decide)
  rw [hdividend, signedPair_cdq hcdq, Width.dword_signed, Width.dword_signed] at hall
  unfold IsSignedQuotient SdivAlike SameQuotient at hall
  simpa only [if_pos hfits, if_pos trivial, hlow, hhigh, if_true] using hall

def idivEbx : CsInsn := .bare "idiv" 2 [⟨.reg .ebx, 4⟩]

def cdq : CsInsn := .bare "cdq" 1 []

/-- `-17` in `EAX`, and 5 in `EBX` and at address 0. -/
def minusSeventeen : Machine :=
  { (Machine.blank.setReg .eax (-17)).setReg .ebx 5 with mem := fun i => if i = 0 then 5 else 0 }

def minusSeventeenWide : Machine := (minusSeventeen.advance cdq).setReg .edx 0xFFFFFFFF

/-- `-17 / 5` after `CDQ`, as a division of the pair and as one of `EAX`. -/
theorem idivI_isSignedQuotient_seventeen :
    (∃ r t, (idivI idivEbx).run minusSeventeenWide = .ok (r, t) ∧
      IsSignedQuotient .dword (-17) 5 minusSeventeenWide r t) ∧
    ∃ r t, (idivI idivEbx).run minusSeventeenWide = .ok (r, t) ∧ r = some 0 ∧
      (t.reg .eax).toInt = (-17 : ℤ).tdiv 5 ∧ (t.reg .edx).toInt = (-17 : ℤ).tmod 5 := by
  have hall := @idivI_isSignedQuotient_iff .dword idivEbx ⟨.reg .ebx, 4⟩ minusSeventeenWide rfl
    (by decide)
  have hcdq : (cdqI cdq).run minusSeventeen = .ok (some 0, minusSeventeenWide) := cdqI_run _ _
  exact ⟨hall.1.2 (by decide), (hall.2 cdq minusSeventeen rfl hcdq (by decide) (by decide)).2
    (by decide)⟩

def idivBl : CsInsn := .bare "idiv" 2 [⟨.reg .bl, 1⟩]

/-- With 0 at address 0 the division of 6 by 3 stops the host. -/
theorem idivI_not_isSignedQuotient : ¬ ∀ (w : Width) (insn : CsInsn) (op : CsX86Op) (s : Machine),
    insn.operands = [op] → op.IsLoc w → ∃ r t, (idivI insn).run s = .ok (r, t) ∧
      IsSignedQuotient w (s.signedPair w) (w.signed (op.value w s)) s r t := by
  intro hall
  obtain ⟨r, t, hrun, -⟩ := hall .byte idivBl ⟨.reg .bl, 1⟩
    ((Machine.blank.setReg .eax 6).setReg .ebx 3) rfl (by decide)
  exact idivI_fault rfl (show (⟨.reg .bl, 1⟩ : CsX86Op).size = Width.byte.size by decide)
    (by decide) _ hrun

end I386Vm
