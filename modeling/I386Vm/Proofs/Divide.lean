import I386Vm.Proofs.Multiply

/-!
# `DIV`

`div_i` divides the pair by the second operand, which is zero-filled, and so by the word at address
0. A zero there stops the host.
-/

namespace I386Vm

open Bytes Prog

namespace Machine

variable (s : Machine)

theorem pair_byte : s.pair .byte = (low 16 (s.reg .eax)).toNat := by
  have hlow : s.lowHalf .byte = low 8 (s.reg .eax) := rfl
  have hhigh : s.highHalf .byte = low 8 (s.reg .eax >>> 8) := rfl
  unfold pair
  rw [hlow, hhigh, toNat_low, toNat_low, toNat_low, BitVec.toNat_ushiftRight,
    Nat.shiftRight_eq_div_pow]
  change _ + 2 ^ 8 * _ = _
  omega

theorem pair_word : s.pair .word =
    ((low 16 (s.reg .edx) <<< 16) ||| low 16 (s.reg .eax)).toNat := by
  have hlt := toNat_low_lt 16 (s.reg .edx)
  rw [BitVec.or_comm, toNat_or_shiftLeft (toNat_low_lt 16 _) (by omega)]
  rfl

theorem pair_dword : s.pair .dword = (s.reg .edx ++ s.reg .eax).toNat := by
  have hlow : s.lowHalf .dword = s.reg .eax := low_dword _
  have hhigh : s.highHalf .dword = s.reg .edx := low_dword _
  unfold pair
  rw [hlow, hhigh, BitVec.toNat_append, Nat.shiftLeft_eq, Nat.mul_comm _ (2 ^ 32),
    ← Nat.two_pow_add_eq_or_of_lt (s.reg .eax).isLt, Nat.add_comm]
  rfl

end Machine

section Div

variable {w : Width} {insn : CsInsn} {op : CsX86Op} {s : Machine} (h : insn.operands = [op])

/-- The quotient and the remainder by the word at address 0 in the pair. -/
def Machine.divided (w : Width) (s : Machine) : Machine :=
  s.putPair w (.ofNat 32 (s.pair w / (s.atZero w).toNat))
    (.ofNat 32 (s.pair w % (s.atZero w).toNat))

theorem ofNat_eq_of_toNat {x : BitVec 32} {n : ℕ} (h : x.toNat = n) : .ofNat 32 n = x := by
  rw [← h, BitVec.ofNat_toNat, BitVec.setWidth_eq]

theorem divided_byte : s.divided .byte = s.putPair .byte (low 16 (s.reg .eax) / s.atZero .byte)
    (low 16 (s.reg .eax) % s.atZero .byte) := by
  unfold Machine.divided
  rw [Machine.pair_byte, ofNat_eq_of_toNat BitVec.toNat_udiv, ofNat_eq_of_toNat BitVec.toNat_umod]

theorem divided_word : s.divided .word = s.putPair .word
    (((low 16 (s.reg .edx) <<< 16) ||| low 16 (s.reg .eax)) / s.atZero .word)
    (((low 16 (s.reg .edx) <<< 16) ||| low 16 (s.reg .eax)) % s.atZero .word) := by
  unfold Machine.divided
  rw [Machine.pair_word, ofNat_eq_of_toNat BitVec.toNat_udiv, ofNat_eq_of_toNat BitVec.toNat_umod]

theorem divided_dword : s.divided .dword = s.putPair .dword
    (((s.reg .edx ++ s.reg .eax) / (s.atZero .dword).setWidth 64).setWidth 32)
    (((s.reg .edx ++ s.reg .eax) % (s.atZero .dword).setWidth 64).setWidth 32) := by
  have hv : ((s.atZero .dword).setWidth 64).toNat = (s.atZero .dword).toNat :=
    BitVec.toNat_setWidth_of_le (by decide)
  unfold Machine.divided
  rw [Machine.pair_dword, ← hv, ← BitVec.toNat_udiv, ← BitVec.toNat_umod, BitVec.ofNat_toNat,
    BitVec.ofNat_toNat]

include h

theorem divI_fault (hs : op.size = w.size) (hv : s.atZero w = 0) (r : Ret × Machine) :
    (divI insn).run s ≠ .ok r := by
  unfold divI
  rw [run_bind_ok (advance_run s insn), run_bind_ok run_get_ok, op1_of_cons h, hs,
    widthOr32_size, run_bind_ok (load_op2_of_single h w _),
    if_pos (show (s.advance insn).atZero w = 0 from hv)]
  exact nofun

theorem divI_run (hs : op.size = w.size) (hv : s.atZero w ≠ 0) :
    (divI insn).run s = .ok (if 2 ^ w.bits ≤ s.pair w / (s.atZero w).toNat
      then (some (-1000), s.advance insn) else (some 0, (s.advance insn).divided w)) := by
  change _ = Except.ok (if 2 ^ w.bits ≤ (s.advance insn).pair w / ((s.advance insn).atZero w).toNat
    then _ else _)
  change (s.advance insn).atZero w ≠ 0 at hv
  unfold divI
  rw [run_bind_ok (advance_run s insn), run_bind_ok run_get_ok, op1_of_cons h, hs,
    widthOr32_size, run_bind_ok (load_op2_of_single h w _), if_neg hv]
  generalize s.advance insn = u
  cases w with
  | byte =>
    have hbig : 0xFF < low 16 (u.reg .eax) / u.atZero .byte ↔
        2 ^ Width.byte.bits ≤ u.pair .byte / (u.atZero .byte).toNat := by
      rw [BitVec.lt_def, BitVec.toNat_udiv, u.pair_byte]
      rfl
    rw [if_pos (show Width.byte.size = 1 by decide), run_ite hbig, divided_byte,
      ← Machine.poke_al_storeHigh]
    split <;> rfl
  | word =>
    have hbig : 0xFFFF < ((low 16 (u.reg .edx) <<< 16) ||| low 16 (u.reg .eax)) / u.atZero .word ↔
        2 ^ Width.word.bits ≤ u.pair .word / (u.atZero .word).toNat := by
      rw [BitVec.lt_def, BitVec.toNat_udiv, u.pair_word]
      rfl
    rw [if_neg (show Width.word.size ≠ 1 by decide), if_pos (show Width.word.size = 2 by decide),
      run_ite hbig, divided_word]
    split <;> rfl
  | dword =>
    have hv : ((u.atZero .dword).setWidth 64).toNat = (u.atZero .dword).toNat :=
      BitVec.toNat_setWidth_of_le (by decide)
    have hbig : 0xFFFFFFFF < (u.reg .edx ++ u.reg .eax) / (u.atZero .dword).setWidth 64 ↔
        2 ^ Width.dword.bits ≤ u.pair .dword / (u.atZero .dword).toNat := by
      rw [BitVec.lt_def, BitVec.toNat_udiv, u.pair_dword, hv]
      rfl
    rw [if_neg (show Width.dword.size ≠ 1 by decide),
      if_neg (show Width.dword.size ≠ 2 by decide), run_ite hbig, divided_dword]
    split <;> rfl

end Div

/-- The two halves are quotient and remainder, or `-1000` is returned and nothing has changed. -/
def IsQuotient (w : Width) (n d : ℕ) (s : Machine) (r : Ret) (t : Machine) : Prop :=
  if d ≠ 0 ∧ n / d < 2 ^ w.bits then r = some 0 ∧
    n = (t.lowHalf w).toNat * d + (t.highHalf w).toNat ∧ (t.highHalf w).toNat < d
  else r = some (-1000) ∧ t.reg = s.reg ∧ t.mem = s.mem

/-- Dividing `n` by `v` does what dividing by `d` should: it is `d`, or both are above `n`, or
neither quotient fits. -/
def DivAlike (w : Width) (n d v : ℕ) : Prop :=
  if d ≠ 0 ∧ n / d < 2 ^ w.bits then v = d ∨ (n < d ∧ n < v) else 2 ^ w.bits ≤ n / v

instance (w : Width) (n d v : ℕ) : Decidable (DivAlike w n d v) :=
  inferInstanceAs (Decidable (ite _ _ _))

section Quotient

variable {w : Width} {insn : CsInsn} {op : CsX86Op} {s : Machine}

/-- Quotient and remainder by `v` are those by `d` where it is the same, or both are above. -/
theorem divMod_alike_iff {n d v : ℕ} (hd : d ≠ 0) (hv : v ≠ 0) :
    n = n / v * d + n % v ∧ n % v < d ↔ v = d ∨ (n < d ∧ n < v) := by
  have hdm := Nat.div_add_mod' n v
  constructor
  · rintro ⟨hn, hlt⟩
    have hmul : n / v * v = n / v * d := by omega
    rcases Nat.eq_zero_or_pos (n / v) with hq | hq
    · rw [hq, Nat.zero_mul, Nat.zero_add] at hn hdm
      exact .inr ⟨by omega, (Nat.div_eq_zero_iff_lt (Nat.pos_of_ne_zero hv)).1 hq⟩
    · exact .inl (Nat.eq_of_mul_eq_mul_left hq hmul)
  · rintro (rfl | ⟨hnd, hnv⟩)
    · exact ⟨hdm.symm, Nat.mod_lt _ (Nat.pos_of_ne_zero hv)⟩
    · rw [Nat.div_eq_of_lt hnv, Nat.mod_eq_of_lt hnv]
      exact ⟨by omega, hnd⟩

theorem lowHalf_divided (h : s.pair w / (s.atZero w).toNat < 2 ^ w.bits) :
    ((s.divided w).lowHalf w).toNat = s.pair w / (s.atZero w).toNat := by
  have hle := Nat.pow_le_pow_right Nat.two_pos w.bits_le
  unfold Machine.divided
  rw [Machine.lowHalf_putPair, toNat_low, BitVec.toNat_ofNat,
    Nat.mod_eq_of_lt (lt_of_lt_of_le h hle), Nat.mod_eq_of_lt h]

theorem highHalf_divided (hv : s.atZero w ≠ 0) :
    ((s.divided w).highHalf w).toNat = s.pair w % (s.atZero w).toNat := by
  have hle := Nat.pow_le_pow_right Nat.two_pos w.bits_le
  have hpos : 0 < (s.atZero w).toNat := Nat.pos_of_ne_zero fun h => hv (BitVec.eq_of_toNat_eq h)
  have hlt : (s.atZero w).toNat < 2 ^ w.bits := s.peek_lt w _
  have hmod : s.pair w % (s.atZero w).toNat < 2 ^ w.bits := lt_trans (Nat.mod_lt _ hpos) hlt
  unfold Machine.divided
  rw [Machine.highHalf_putPair, toNat_low, BitVec.toNat_ofNat,
    Nat.mod_eq_of_lt (lt_of_lt_of_le hmod hle), Nat.mod_eq_of_lt hmod]

theorem divI_isQuotient_iff (h : insn.operands = [op]) (hop : op.IsLoc w) :
    (∃ r t, (divI insn).run s = .ok (r, t) ∧
      IsQuotient w (s.pair w) (op.value w s).toNat s r t) ↔
    DivAlike w (s.pair w) (op.value w s).toNat (s.atZero w).toNat := by
  unfold IsQuotient DivAlike
  by_cases hv : s.atZero w = 0
  · refine iff_of_false ?_ ?_
    · rintro ⟨r, t, hrun, -⟩
      exact divI_fault h hop.1 hv _ hrun
    · have hzero : (s.atZero w).toNat = 0 := congrArg BitVec.toNat hv
      have hpos := Nat.two_pow_pos w.bits
      rw [hzero]
      split_ifs with hd
      · rintro (hd0 | hlt)
        · exact hd.1 hd0.symm
        · exact absurd hlt.2 (Nat.not_lt_zero _)
      · rw [Nat.div_zero]
        omega
  · have hv' : (s.atZero w).toNat ≠ 0 := fun h0 => hv (BitVec.eq_of_toNat_eq h0)
    rw [divI_run h hop.1 hv]
    by_cases hbig : 2 ^ w.bits ≤ s.pair w / (s.atZero w).toNat
    · rw [if_pos hbig, exists_run_iff]
      split_ifs with hd
      · refine iff_of_false (fun hr => absurd hr.1 (by decide)) ?_
        rintro (heq | ⟨-, hlt⟩)
        · rw [heq] at hbig
          omega
        · rw [Nat.div_eq_of_lt hlt] at hbig
          exact absurd hbig (not_le.2 (Nat.two_pow_pos _))
      · exact iff_of_true ⟨rfl, rfl, rfl⟩ hbig
    · have hlow : (((s.advance insn).divided w).lowHalf w).toNat =
          s.pair w / (s.atZero w).toNat := lowHalf_divided (not_le.1 hbig)
      have hhigh : (((s.advance insn).divided w).highHalf w).toNat =
          s.pair w % (s.atZero w).toNat := highHalf_divided hv
      rw [if_neg hbig, exists_run_iff, hlow, hhigh]
      split_ifs with hd
      · rw [← divMod_alike_iff hd.1 hv']
        exact and_iff_right rfl
      · exact iff_of_false (fun hr => absurd hr.1 (by decide)) hbig

end Quotient

def divBl : CsInsn := .bare "div" 2 [⟨.reg .bl, 1⟩]

/-- `17 / 5`, with 5 also at address 0. -/
theorem divI_isQuotient_seventeen :
    ∃ r t, (divI divBl).run { twice 17 5 with mem := fun _ => 5 } = .ok (r, t) ∧
      IsQuotient .byte 17 5 { twice 17 5 with mem := fun _ => 5 } r t :=
  (@divI_isQuotient_iff .byte divBl ⟨.reg .bl, 1⟩ { twice 17 5 with mem := fun _ => 5 } rfl
    (by decide)).2 (by decide)

/-- With 0 at address 0 the division of 6 by 3 stops the host. -/
theorem divI_not_isQuotient : ¬ ∀ (w : Width) (insn : CsInsn) (op : CsX86Op) (s : Machine),
    insn.operands = [op] → op.IsLoc w → ∃ r t, (divI insn).run s = .ok (r, t) ∧
      IsQuotient w (s.pair w) (op.value w s).toNat s r t := by
  intro hall
  obtain ⟨r, t, hrun, -⟩ := hall .byte divBl ⟨.reg .bl, 1⟩
    ((Machine.blank.setReg .eax 6).setReg .ebx 3) rfl (by decide)
  exact divI_fault rfl (show (⟨.reg .bl, 1⟩ : CsX86Op).size = Width.byte.size by decide)
    (by decide) _ hrun

end I386Vm
