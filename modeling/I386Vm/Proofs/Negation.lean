import I386Vm.Proofs.ResultFlags
import I386Vm.Proofs.SameFlags

/-!
# `NEG` and `NOT`

Both handlers assign `X86_OP_REG` to the operand's type where they mean to compare it, and so take a
memory operand for the register in its place in the union, the segment. On registers `NOT` is right;
`NEG` has the overflow of an addition.
-/

namespace I386Vm

open Bytes Prog

namespace Machine

variable (s : Machine) (w : Width) (p : Ptr)

theorem poke_peek : s.poke w p (s.peek w p) = s := by
  cases p with
  | var v =>
    simp only [poke, peek, merge_low, merge_self, setReg, Function.update_eq_self]
  | eip => simp only [poke, peek, merge_low, merge_self]
  | eflags => simp only [poke, peek, merge_low, merge_self]
  | mem i =>
    simp only [poke, peek]
    rw [writeLE_readLE s.mem (by cases w <;> decide)]
  | null => rfl
  | wild => rfl

variable {s w p}

theorem poke_eq_self {x : BitVec 32} (h : low w.bits x = s.peek w p) : s.poke w p x = s := by
  rw [← s.poke_low w p x, h, poke_peek]

theorem poke_assignFlag [hp : SafePtr p] (f : Flag) (c : Bool) (x : BitVec 32) :
    (s.assignFlag f c).poke w p x = (s.poke w p x).assignFlag f c := by
  cases p with
  | eip => exact absurd rfl hp.ne_eip
  | eflags => exact absurd rfl hp.ne_eflags
  | _ => cases c <;> rfl

variable (s w p)

/-- The state after `neg_i` on what `p` points to. -/
def neg : Machine :=
  (((((s.poke w p (0 - s.peek w p)).assignFlag .CF (!zero (s.peek w p))).assignFlag .OF
    (overflow 0 (s.peek w p) (low w.bits (0 - s.peek w p)) (w.size * 8))).assignFlag .SF
    (sign (low w.bits (0 - s.peek w p)) (w.size * 8))).assignFlag .PF
    (parity (low w.bits (0 - s.peek w p)))).assignFlag .ZF (zero (low w.bits (0 - s.peek w p)))

theorem sameBut_neg : SameBut statusFlags (s.poke w p (0 - s.peek w p)) (s.neg w p) := by
  simp [neg, statusFlags]

theorem testFlag_neg (f : Flag) : (s.neg w p).testFlag f =
    match f with
    | .CF => !zero (s.peek w p)
    | .OF => overflow 0 (s.peek w p) (low w.bits (0 - s.peek w p)) (w.size * 8)
    | .SF => sign (low w.bits (0 - s.peek w p)) (w.size * 8)
    | .ZF => zero (low w.bits (0 - s.peek w p))
    | .PF => parity (low w.bits (0 - s.peek w p))
    | f => (s.poke w p (0 - s.peek w p)).testFlag f := by
  unfold neg
  simp only [testFlag_assignFlag]
  cases f <;> rfl

end Machine

theorem assignFlag_run (s : Machine) (f : Flag) (c : Bool) :
    (assignFlag f c).run s = .ok ((), s.assignFlag f c) := rfl

section Runs

variable {w : Width} {insn : CsInsn} {s : Machine} (hs : insn.op1.size = w.size)
include hs

theorem negI_run (hp : (regs insn.op1.reg).Valid) [SafePtr (regs insn.op1.reg)] :
    (negI insn).run s = .ok (some 0, (s.advance insn).neg w (regs insn.op1.reg)) := by
  have hpeek : ((s.advance insn).assignFlag .CF
      (!zero ((s.advance insn).peek w (regs insn.op1.reg)))).peek w (regs insn.op1.reg) =
      (s.advance insn).peek w (regs insn.op1.reg) := (SameData.assignFlag _ _ _).peek _ _
  unfold negI Machine.neg
  rw [hs, widthOr32_size, run_bind_ok (advance_run s insn), run_bind_ok (load_run hp),
    run_bind_ok (assignFlag_run _ _ _), run_bind_ok (rmw_run hp _), hpeek, Machine.poke_assignFlag]
  rfl

theorem notI_run (hp : (regs insn.op1.reg).Valid) :
    (notI insn).run s = .ok (some 0, (s.advance insn).poke w (regs insn.op1.reg)
      (~~~ (s.advance insn).peek w (regs insn.op1.reg))) := by
  unfold notI
  rw [hs, widthOr32_size, run_bind_ok (advance_run s insn), run_bind_ok (rmw_run hp _)]
  rfl

end Runs

section Spec

variable (w : Width) (x : BitVec 32) (p : Ptr) (s t : Machine)

/-- `t` is `s` with `x` negated at `p`, and the flags of that. -/
structure IsNegation : Prop where
  value : (t.peek w p).toNat = (2 ^ w.bits - x.toNat) % 2 ^ w.bits
  cf : t.testFlag .CF ↔ x.toNat ≠ 0
  of : t.testFlag .OF ↔ x.toNat = 2 ^ (w.bits - 1)
  shows : ShowsResult w t (t.peek w p).toNat
  same : ∃ y, SameBut statusFlags (s.poke w p y) t

/-- `t` is `s` with `x` complemented at `p`. -/
structure IsComplement : Prop where
  value : (t.peek w p).toNat = 2 ^ w.bits - 1 - x.toNat
  same : ∃ y, t = s.poke w p y

end Spec

section Negate

variable {w : Width} {x : BitVec 32} (hx : x.toNat < 2 ^ w.bits)
include hx

theorem toNat_low_neg_cases : (x.toNat = 0 ∧ (low w.bits (0 - x)).toNat = 0) ∨
    (0 < x.toNat ∧ (low w.bits (0 - x)).toNat = 2 ^ w.bits - x.toNat) := by
  rcases Nat.eq_zero_or_pos x.toNat with h | h
  · have hzero : x = 0 := BitVec.eq_of_toNat_eq h
    subst hzero
    exact .inl ⟨rfl, by simp⟩
  · exact .inr ⟨h, toNat_low_sub_of_lt hx h⟩

theorem toNat_low_neg : (low w.bits (0 - x)).toNat = (2 ^ w.bits - x.toNat) % 2 ^ w.bits := by
  rcases toNat_low_neg_cases hx with ⟨h, hr⟩ | ⟨h, hr⟩
  · rw [hr, h, Nat.sub_zero, Nat.mod_self]
  · rw [hr, Nat.mod_eq_of_lt (by omega)]

/-- The test of an addition finds an overflow below the half where there is none, and none at it. -/
theorem overflow_neg_iff : (overflow 0 x (low w.bits (0 - x)) (w.size * 8) = true ↔
      x.toNat = 2 ^ (w.bits - 1)) ↔ x.toNat = 0 ∨ 2 ^ (w.bits - 1) < x.toNat := by
  obtain ⟨hhalf, hpos, -⟩ := w.two_pow_bits
  have hzero : (0 : BitVec 32).toNat = 0 := rfl
  rw [overflow_iff (Nat.two_pow_pos _) hx (toNat_low_lt _ _), hzero]
  rcases toNat_low_neg_cases hx with ⟨h, hr⟩ | ⟨h, hr⟩ <;> rw [hr] <;> omega

end Negate

section Register

variable {w : Width} {p : Ptr} {s : Machine} (hp : p.Valid)
include hp

theorem peek_neg [SafePtr p] : (s.neg w p).peek w p = low w.bits (0 - s.peek w p) := by
  rw [(Machine.sameBut_neg s w p).sameData.peek, Machine.peek_poke _ _ hp]

theorem isNegation_neg_iff [SafePtr p] : IsNegation w (s.peek w p) p s (s.neg w p) ↔
    (s.peek w p).toNat = 0 ∨ 2 ^ (w.bits - 1) < (s.peek w p).toNat := by
  have hx := s.peek_lt w p
  have hflag := s.testFlag_neg w p
  rw [← overflow_neg_iff hx]
  constructor
  · rintro ⟨-, -, hof, -, -⟩
    rwa [hflag] at hof
  · intro hof
    constructor
    · rw [peek_neg hp, toNat_low_neg hx]
    · rw [hflag]
      simp [← zero_iff]
    · rw [hflag]
      exact hof
    · rw [peek_neg hp]
      exact showsResult_of (hflag .SF) (hflag .ZF) (hflag .PF)
    · exact ⟨_, s.sameBut_neg w p⟩

theorem isComplement_not : IsComplement w (s.peek w p) p s (s.poke w p (~~~ s.peek w p)) := by
  refine ⟨?_, _, rfl⟩
  have hx := s.peek_lt w p
  obtain ⟨k, hk⟩ := Nat.pow_dvd_pow 2 w.bits_le
  have hpos : 0 < k := Nat.pos_of_ne_zero fun h0 => by simp [h0] at hk
  have hsplit : 2 ^ w.bits * k = 2 ^ w.bits * (k - 1) + 2 ^ w.bits := by
    rw [← Nat.mul_succ, Nat.succ_eq_add_one, Nat.sub_add_cancel hpos]
  have hnot : 2 ^ 32 - 1 - (s.peek w p).toNat =
      2 ^ w.bits * (k - 1) + (2 ^ w.bits - 1 - (s.peek w p).toNat) := by omega
  rw [Machine.peek_poke s w hp, toNat_low, BitVec.toNat_not, hnot, Nat.mul_add_mod]
  exact Nat.mod_eq_of_lt (by omega)

end Register

section Memory

variable {w : Width} {s : Machine} {v : Var} {i : ℕ}

/-- A negation of a register leaves that of the memory operand only where both are zero. -/
theorem isNegation_neg_var_iff : IsNegation w (s.peek w (.mem i)) (.mem i) s (s.neg w (.var v)) ↔
    (s.peek w (.mem i)).toNat = 0 ∧ (s.peek w (.var v)).toNat = 0 := by
  have hx := s.peek_lt w (.mem i)
  have hy := s.peek_lt w (.var v)
  obtain ⟨hhalf, hpos, -⟩ := w.two_pow_bits
  have hflag := s.testFlag_neg w (.var v)
  have hsame := s.sameBut_neg w (.var v)
  have hmem : (s.neg w (.var v)).peek w (.mem i) = s.peek w (.mem i) := by
    rw [hsame.sameData.peek]
    rfl
  constructor
  · rintro ⟨hvalue, hcf, hof, -, y, hy'⟩
    -- the register has kept its value, so the negation is that value, and `OF` is clear
    have hreg : (s.neg w (.var v)).peek w (.var v) = s.peek w (.var v) := by
      rw [hy'.sameData.peek]
      rfl
    rw [peek_neg (.var v)] at hreg
    rw [hmem] at hvalue
    rw [hflag, hreg, overflow_iff (Nat.two_pow_pos _) hy hy] at hof
    rw [hflag, Bool.not_eq_true', ← Bool.not_eq_true, zero_iff] at hcf
    rcases toNat_low_neg_cases hx with ⟨h0, -⟩ | ⟨h0, hr⟩
    · omega
    · rw [Nat.mod_eq_of_lt (by omega)] at hvalue
      omega
  · rintro ⟨hx0, hy0⟩
    have hzero : s.peek w (.var v) = 0 := BitVec.eq_of_toNat_eq hy0
    have hlow : low w.bits (0 - s.peek w (.var v)) = s.peek w (.var v) := by
      rw [hzero, BitVec.sub_self]
      exact low_of_lt (Nat.two_pow_pos _)
    have hkeep : s.poke w (.var v) (0 - s.peek w (.var v)) = s := Machine.poke_eq_self hlow
    have hback : s.poke w (.mem i) (s.peek w (.mem i)) = s := s.poke_peek w _
    simp only [hlow] at hflag
    constructor
    · rw [hmem, hx0, Nat.sub_zero, Nat.mod_self]
    · rw [hflag, hzero, hx0]
      simp [zero]
    · rw [hflag, hzero, hx0, overflow_iff (Nat.two_pow_pos _) (Nat.two_pow_pos _)
        (Nat.two_pow_pos _)]
      simp only [iff_self, not_true, and_self, false_iff]
      omega
    · rw [hmem, hx0, ← hy0]
      exact showsResult_of (hflag .SF) (hflag .ZF) (hflag .PF)
    · refine ⟨s.peek w (.mem i), ?_⟩
      rw [hback]
      rwa [hkeep] at hsame

theorem not_isComplement_var {x : BitVec 32} :
    ¬ IsComplement w (s.peek w (.mem i)) (.mem i) s (s.poke w (.var v) x) := by
  rintro ⟨hvalue, -⟩
  have hx := s.peek_lt w (.mem i)
  obtain ⟨hhalf, -, -⟩ := w.two_pow_bits
  change (s.peek w (.mem i)).toNat = _ at hvalue
  omega

end Memory

section Operand

variable {w : Width} {insn : CsInsn} {s : Machine}

theorem load_error {p : Ptr} (hp : ¬ p.Valid) (w : Width) (s : Machine) :
    ∃ e, (load w p).run s = .error e := by
  unfold load
  rw [run_bind_ok run_get_ok]
  by_cases hnull : p = .null
  · exact ⟨.null, by rw [if_pos hnull]; rfl⟩
  · by_cases hwild : p = .wild
    · exact ⟨.wild, by rw [if_neg hnull, if_pos hwild]; rfl⟩
    · exact absurd ⟨hnull, hwild⟩ hp

/-- Where the pointer that the handlers take does not point, they fault. -/
theorem run_not_ok (hp : ¬ (regs insn.op1.reg).Valid) :
    (∀ t, (negI insn).run s ≠ .ok (some 0, t)) ∧ ∀ t, (notI insn).run s ≠ .ok (some 0, t) := by
  obtain ⟨e, he⟩ := load_error hp (widthOr32 insn.op1.size) (s.advance insn)
  unfold negI notI rmw
  constructor <;> intro t
  · rw [run_bind_ok (advance_run s insn), run_bind_error he]
    exact nofun
  · rw [run_bind_ok (advance_run s insn), bind_assoc, run_bind_error he]
    exact nofun

theorem exists_var {r : X86Reg} (hr : ¬ r.Control) (hp : (regs r).Valid) :
    ∃ v, regs r = .var v := by
  cases r <;> simp_all [regs, X86Reg.Control, Ptr.Valid]

variable (h : insn.op1.IsLoc w)
include h

/-- `NEG` negates a register that holds zero or a negative number other than the lowest, and leaves
memory that holds zero alone where the segment register does so too. -/
theorem negI_isNegation_iff : (∃ t, (negI insn).run s = .ok (some 0, t) ∧
      IsNegation w (insn.op1.value w s) (s.opPtr insn.op1) (s.advance insn) t) ↔
    (insn.op1.type = .reg ∧ ((insn.op1.value w s).toNat = 0 ∨
      2 ^ (w.bits - 1) < (insn.op1.value w s).toNat)) ∨
    (insn.op1.type = .mem ∧ (insn.op1.value w s).toNat = 0 ∧
      ∃ v, regs insn.op1.mem.segment = .var v ∧ (s.peek w (.var v)).toNat = 0) := by
  have hd := SameData.advance s insn
  have hsafe := h.safe s
  have hv : insn.op1.value w s = (s.advance insn).peek w (s.opPtr insn.op1) := (h.peek_eq hd).symm
  rcases h.cases with ⟨ht, hr⟩ | ⟨ht, hr⟩
  · have hp : s.opPtr insn.op1 = regs insn.op1.reg := Machine.opPtr_of_reg ht
    have hvalid := h.valid s
    rw [hp] at hvalid hsafe hv
    rw [negI_run h.1 hvalid, exists_ok_iff, hp, hv, isNegation_neg_iff hvalid]
    simp [ht]
  · by_cases hvalid : (regs insn.op1.reg).Valid
    · obtain ⟨v, hreg⟩ := exists_var (SafePtr.not_control_reg h.plain) hvalid
      have hsafe : SafePtr (regs insn.op1.reg) := by
        rw [hreg]
        infer_instance
      rw [Machine.opPtr_of_mem ht] at hv
      rw [negI_run h.1 hvalid, exists_ok_iff, Machine.opPtr_of_mem ht, hv, hreg,
        isNegation_neg_var_iff, ← hr, hreg, hd.peek w (.var v)]
      simp [ht]
    · have hfault := (run_not_ok (s := s) hvalid).1
      rw [hr] at hvalid
      constructor
      · rintro ⟨t, hrun, -⟩
        exact absurd hrun (hfault t)
      · rintro (⟨hreg, -⟩ | ⟨-, -, v, hreg, -⟩)
        · simp [ht] at hreg
        · rw [hreg] at hvalid
          exact absurd (.var v) hvalid

theorem notI_isComplement_iff : (∃ t, (notI insn).run s = .ok (some 0, t) ∧
      IsComplement w (insn.op1.value w s) (s.opPtr insn.op1) (s.advance insn) t) ↔
    insn.op1.type = .reg := by
  have hd := SameData.advance s insn
  have hsafe := h.safe s
  have hv : insn.op1.value w s = (s.advance insn).peek w (s.opPtr insn.op1) := (h.peek_eq hd).symm
  rcases h.cases with ⟨ht, -⟩ | ⟨ht, -⟩
  · have hp : s.opPtr insn.op1 = regs insn.op1.reg := Machine.opPtr_of_reg ht
    have hvalid := h.valid s
    rw [hp] at hvalid hv
    rw [notI_run h.1 hvalid, exists_ok_iff, hp, hv]
    exact iff_of_true (isComplement_not hvalid) ht
  · refine iff_of_false ?_ (by simp [ht])
    rintro ⟨t, hrun, hc⟩
    by_cases hvalid : (regs insn.op1.reg).Valid
    · obtain ⟨v, hreg⟩ := exists_var (SafePtr.not_control_reg h.plain) hvalid
      rw [notI_run h.1 hvalid] at hrun
      cases hrun
      rw [Machine.opPtr_of_mem ht] at hc hv
      rw [hv, hreg] at hc
      exact not_isComplement_var hc
    · exact absurd hrun ((run_not_ok hvalid).2 t)

/-- Where the two handlers leave what they should. -/
theorem negI_notI_iff :
    ((∃ t, (negI insn).run s = .ok (some 0, t) ∧
        IsNegation w (insn.op1.value w s) (s.opPtr insn.op1) (s.advance insn) t) ↔
      (insn.op1.type = .reg ∧ ((insn.op1.value w s).toNat = 0 ∨
        2 ^ (w.bits - 1) < (insn.op1.value w s).toNat)) ∨
      (insn.op1.type = .mem ∧ (insn.op1.value w s).toNat = 0 ∧
        ∃ v, regs insn.op1.mem.segment = .var v ∧ (s.peek w (.var v)).toNat = 0)) ∧
    ((∃ t, (notI insn).run s = .ok (some 0, t) ∧
        IsComplement w (insn.op1.value w s) (s.opPtr insn.op1) (s.advance insn) t) ↔
      insn.op1.type = .reg) :=
  ⟨negI_isNegation_iff h, notI_isComplement_iff h⟩

end Operand

def negAl : CsInsn := .bare "neg" 2 [⟨.reg .al, 1⟩]

/-- `0xFF` in `AL` is negated and complemented. -/
theorem negI_notI_al :
    (∃ t, (negI negAl).run (Machine.blank.setReg .eax 0xFF) = .ok (some 0, t) ∧
      IsNegation .byte 0xFF (.var .eax) ((Machine.blank.setReg .eax 0xFF).advance negAl) t) ∧
    ∃ t, (notI negAl).run (Machine.blank.setReg .eax 0xFF) = .ok (some 0, t) ∧
      IsComplement .byte 0xFF (.var .eax) ((Machine.blank.setReg .eax 0xFF).advance negAl) t := by
  have h := @negI_notI_iff .byte negAl (Machine.blank.setReg .eax 0xFF) (by decide)
  exact ⟨h.1.2 (.inl ⟨rfl, .inr (by decide)⟩), h.2.2 rfl⟩

def negMem : CsInsn := .bare "neg" 2 [⟨.mem ⟨.invalid, .eax, .invalid, 1, 0⟩, 4⟩]

/-- A memory operand without a segment override is the null entry of the table. -/
theorem negI_notI_fault : ¬ ∀ (w : Width) (insn : CsInsn) (s : Machine), insn.op1.IsLoc w →
    (∃ t, (negI insn).run s = .ok (some 0, t) ∧
      IsNegation w (insn.op1.value w s) (s.opPtr insn.op1) (s.advance insn) t) ∧
    ∃ t, (notI insn).run s = .ok (some 0, t) ∧
      IsComplement w (insn.op1.value w s) (s.opPtr insn.op1) (s.advance insn) t := by
  intro hall
  obtain ⟨-, t, hrun, -⟩ := hall .dword negMem Machine.blank (by decide)
  exact (run_not_ok (fun hp => hp.1 rfl)).2 t hrun

end I386Vm
