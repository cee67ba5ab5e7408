import I386Vm.Lib.BitShifts
import I386Vm.Lib.SignedWords
import I386Vm.Proofs.Counts

/-!
# `SHL`, `SAL`, `SHR` and `SAR`

The handlers take the count modulo the width and return where that leaves 0, so a word of 8 or 16
bits is not shifted out; and they return `-1` on memory.
-/

namespace I386Vm

open Bytes Prog TwosComplement BitShifts

/-! ## One bit -/

theorem and_shl_ne_zero {k : ℕ} (hk : k < 32) (v : BitVec 32) :
    decide (v &&& ↑(1 <<< k : ℕ) ≠ 0) = v.getLsbD k := by
  have hpow : ((1 <<< k : ℕ) : BitVec 32) = BitVec.twoPow 32 k := by
    apply BitVec.eq_of_toNat_eq
    rw [Nat.one_shiftLeft, BitVec.toNat_twoPow]
    exact BitVec.toNat_ofNat _ _
  have hne : BitVec.twoPow 32 k ≠ 0 := by
    intro h
    have hbit := congrArg (BitVec.getLsbD · k) h
    simp [hk] at hbit
  rw [hpow, BitVec.and_twoPow]
  cases v.getLsbD k
  · simp
  · exact decide_eq_true hne

theorem sshr_and_one_ne_zero {k : ℕ} (hk : k < 32) (v : BitVec 32) :
    decide (v.sshiftRight k &&& 1 ≠ 0) = v.getLsbD k := by
  have h := shr_and_one_ne_zero (v.sshiftRight k) 0
  rw [BitVec.ushiftRight_zero] at h
  rw [h, BitVec.getLsbD_sshiftRight]
  simp [hk]

/-! ## The state after a shift -/

namespace Machine

variable (s : Machine) (w : Width) (p : Ptr) (cf : Bool) (v : BitVec 32) (of : Option Bool)

/-- The state after a handler that has shifted: the result at `p`, `CF`, `OF` where it is assigned,
and the flags of the result. -/
def withShift : Machine :=
  (((of.elim ((s.assignFlag .CF cf).poke w p v)
    (((s.assignFlag .CF cf).poke w p v).assignFlag .OF)).assignFlag .ZF
    (zero (low w.bits v))).assignFlag .PF (parity (low w.bits v))).assignFlag .SF
    (sign (low w.bits v) (w.size * 8))

theorem testFlag_withShift [SafePtr p] (f : Flag) : (s.withShift w p cf v of).testFlag f =
    match f with
    | .CF => cf
    | .OF => of.getD (s.testFlag .OF)
    | .SF => sign (low w.bits v) (w.size * 8)
    | .ZF => zero (low w.bits v)
    | .PF => parity (low w.bits v)
    | f => s.testFlag f := by
  unfold withShift
  cases of <;> simp only [Option.elim, testFlag_assignFlag, testFlag_poke] <;> cases f <;> rfl

theorem sameBut_withShift [SafePtr p] :
    SameBut statusFlags (s.poke w p v) (s.withShift w p cf v of) := by
  cases of with
  | none => simp [withShift, Option.elim, poke_assignFlag, statusFlags]
  | some o => simp [withShift, Option.elim, poke_assignFlag, statusFlags]

theorem peek_withShift [SafePtr p] (hp : p.Valid) :
    (s.withShift w p cf v of).peek w p = low w.bits v := by
  rw [← s.peek_poke w hp v]
  exact (s.sameBut_withShift w p cf v of).sameData.peek w p

end Machine

/-! ## What a shift by `k` should leave -/

/-- The destination holds what `val` asks for, and the flags say `cf` of the bit shifted out, of the
result, and `of` of a single shift. No flag has changed where nothing was shifted. -/
structure Shifted (w : Width) (k : ℕ) (val : BitVec 32 → Prop) (cf : Prop) (of : Machine → Prop)
    (p : Ptr) (s t : Machine) : Prop where
  value : val (t.peek w p)
  same : k = 0 → t.eflags = s.eflags
  cf : 1 ≤ k → k ≤ w.bits → (t.testFlag .CF ↔ cf)
  shows : 1 ≤ k → ShowsResult w t (t.peek w p).toNat
  of : k = 1 → (t.testFlag .OF ↔ of t)

/-- `x * 2 ^ k`, cut; the last bit shifted out; and for a single shift whether the top bit of the
result is not `CF`. -/
def IsShl (w : Width) (k : ℕ) (x : BitVec 32) (p : Ptr) (s t : Machine) : Prop :=
  Shifted w k (fun y => y.toNat = x.toNat * 2 ^ k % 2 ^ w.bits) (x.getLsbD (w.bits - k))
    (fun t => ¬ (2 ^ (w.bits - 1) ≤ (t.peek w p).toNat ↔ t.testFlag .CF)) p s t

/-- `x / 2 ^ k`; the last bit shifted out; and for a single shift the top bit of the operand. -/
def IsShr (w : Width) (k : ℕ) (x : BitVec 32) (p : Ptr) (s t : Machine) : Prop :=
  Shifted w k (fun y => y.toNat = x.toNat / 2 ^ k) (x.getLsbD (k - 1))
    (fun _ => 2 ^ (w.bits - 1) ≤ x.toNat) p s t

/-- The same of the signed operand, and `OF` is cleared by a single shift. -/
def IsSar (w : Width) (k : ℕ) (x : BitVec 32) (p : Ptr) (s t : Machine) : Prop :=
  Shifted w k (fun y => w.signed y = w.signed x / 2 ^ k) (x.getLsbD (k - 1)) (fun _ => False) p s t

section Laws

variable {w : Width} {k : ℕ} {val : BitVec 32 → Prop} {cf : Prop} {of : Machine → Prop} {p : Ptr}
  {s u t : Machine}

/-- A shift by 0 is right where nothing has happened. -/
theorem shifted_zero_iff (he : u.eflags = s.eflags) :
    Shifted w 0 val cf of p s u ↔ val (u.peek w p) :=
  ⟨fun h => h.value, fun h => ⟨h, fun _ => he, fun h1 => absurd h1 (by decide),
    fun h1 => absurd h1 (by decide), fun h1 => absurd h1 (by decide)⟩⟩

theorem shifted_iff (hk : k ≠ 0) : Shifted w k val cf of p s t ↔
    val (t.peek w p) ∧ (k ≤ w.bits → (t.testFlag .CF ↔ cf)) ∧
      ShowsResult w t (t.peek w p).toNat ∧ (k = 1 → (t.testFlag .OF ↔ of t)) :=
  ⟨fun h => ⟨h.value, h.cf (Nat.pos_of_ne_zero hk), h.shows (Nat.pos_of_ne_zero hk), h.of⟩,
    fun ⟨hv, hc, hs, ho⟩ => ⟨hv, fun h0 => absurd h0 hk, fun _ => hc, fun _ => hs, ho⟩⟩

theorem shifted_withShift_iff [SafePtr p] (hp : p.Valid) (hk : k ≠ 0) {c : Bool} {v : BitVec 32}
    {o : Option Bool} : Shifted w k val cf of p s (u.withShift w p c v o) ↔
      val (low w.bits v) ∧ (k ≤ w.bits → (c = true ↔ cf)) ∧
        (k = 1 → (o.getD (u.testFlag .OF) = true ↔ of (u.withShift w p c v o))) := by
  have hshows : ShowsResult w (u.withShift w p c v o) (low w.bits v).toNat :=
    showsResult_of (u.testFlag_withShift w p c v o .SF) (u.testFlag_withShift w p c v o .ZF)
      (u.testFlag_withShift w p c v o .PF)
  have hcf := u.testFlag_withShift w p c v o .CF
  have hof := u.testFlag_withShift w p c v o .OF
  rw [shifted_iff hk, u.peek_withShift w p c v o hp, hcf, hof]
  exact ⟨fun ⟨hv, hc, _, ho⟩ => ⟨hv, hc, ho⟩, fun ⟨hv, hc, ho⟩ => ⟨hv, hc, hshows, ho⟩⟩

end Laws

/-! ## The handlers -/

namespace Machine

variable (s : Machine) (w : Width) (n : ℕ) (x : BitVec 32) (p : Ptr)

/-- The state after `shl_i` or `sal_i` has shifted `x` by `n`. -/
def shl : Machine :=
  s.withShift w p (x.getLsbD (w.bits - n)) (x <<< n)
    (if n = 1 then some ((low w.bits (x <<< n)).getLsbD (w.bits - 1) ^^ x.getLsbD (w.bits - n))
      else none)

/-- The state after `shr_i` has: `OF` of a single shift is the top bit of the result. -/
def shr : Machine :=
  s.withShift w p (x.getLsbD (n - 1)) (x >>> n)
    (some (decide (n = 1) && (low w.bits (x >>> n)).getLsbD (w.bits - 1)))

/-- The state after `sar_i` has. -/
def sar : Machine :=
  s.withShift w p ((asSigned w x).getLsbD (n - 1)) ((asSigned w x).sshiftRight n)
    (if n = 1 then some false else none)

end Machine

section Runs

variable {w : Width} {insn : CsInsn} {s : Machine}

/-- How the handlers end: a count of 0 ends them at once, and so does an operand in memory. -/
def afterShift (w : Width) (insn : CsInsn) (s t : Machine) : Ret × Machine :=
  if insn.op2.count s % w.bits = 0 then (some 0, s.advance insn)
  else if insn.op1.type ≠ .reg then (some (-1), s.advance insn) else (some 0, t)

variable (hop : insn.op1.IsLoc w) (hc : insn.op2.IsCount)
include hop hc

theorem shift_run {handler : Handler} {body : ℕ → Exec Ret}
    {f : Machine → Width → ℕ → BitVec 32 → Ptr → Machine}
    (hh : handler insn = do
      advance insn
      let n ← countOf insn.op2
      let count ← modulo n.toNat (insn.op1.size.toNat * 8)
      if count = 0 then return some 0
      else if insn.op1.type ≠ .reg then return some (-1)
      else body count)
    (hbody : ∀ n u x, n ≠ 0 → n < w.bits → (regs insn.op1.reg).Valid →
      SafePtr (regs insn.op1.reg) → (load w (regs insn.op1.reg)).run u = .ok (x, u) →
      (body n).run u = .ok (some 0, f u w n x (regs insn.op1.reg))) :
    (handler insn).run s = .ok (afterShift w insn s (f (s.advance insn) w
      (insn.op2.count s % w.bits) (insn.op1.value w s) (s.opPtr insn.op1))) := by
  have hlt : insn.op2.count s % w.bits < w.bits := Nat.mod_lt _ w.bits_pos
  unfold afterShift
  rw [hh, counted_run hop.1 hc]
  by_cases hn : insn.op2.count s % w.bits = 0
  · rw [if_pos hn, if_pos hn]
    rfl
  · rw [if_neg hn, if_neg hn]
    by_cases ht : insn.op1.type = .reg
    · have hload := hop.load_advance s insn
      have hvalid := hop.valid s
      have hsafe := hop.safe s
      have hp : (s.advance insn).opPtr insn.op1 = regs insn.op1.reg := Machine.opPtr_of_reg ht
      have hp' : s.opPtr insn.op1 = regs insn.op1.reg := Machine.opPtr_of_reg ht
      rw [hp] at hload
      rw [hp'] at hvalid hsafe ⊢
      rw [if_neg (not_not.2 ht), if_neg (not_not.2 ht), hbody _ _ _ hn hlt hvalid hsafe hload]
    · rw [if_pos ht, if_pos ht]
      rfl

theorem shiftLeft_run : (shiftLeft insn).run s = .ok (afterShift w insn s
    ((s.advance insn).shl w (insn.op2.count s % w.bits) (insn.op1.value w s)
      (s.opPtr insn.op1))) := by
  refine shift_run hop hc rfl fun n u x hn hlt hvalid hsafe hload => ?_
  have hbits := w.bits_le
  have hcf (c : Bool) (v : BitVec 32) :
      ((u.assignFlag .CF c).poke w (regs insn.op1.reg) v).testFlag .CF = c := by
    rw [Machine.testFlag_poke, Machine.testFlag_assignFlag, if_pos rfl]
  have hsub : (insn.op1.size.toNat * 8 - n : ℤ) = ↑(w.bits - n) := by
    have hsize := w.toNat_size_mul
    rw [hop.1]
    omega
  rw [hsub, hop.1, widthOr32_size, run_bind_ok hload,
    run_bind_ok (shiftAmount_run rfl (by omega) _), run_bind_ok (assignFlag_run _ _ _),
    run_bind_ok (shiftAmount_run rfl (by omega) _), run_bind_ok (store_run hvalid _),
    run_bind_ok (load_run hvalid), run_bind_ok (testFlag_run _), hcf,
    Machine.peek_poke _ _ hvalid, w.toNat_size_mul, shr_and_one_ne_zero, shr_and_one_ne_zero]
  unfold Machine.shl
  split <;> rfl

theorem shrI_run : (shrI insn).run s = .ok (afterShift w insn s
    ((s.advance insn).shr w (insn.op2.count s % w.bits) (insn.op1.value w s)
      (s.opPtr insn.op1))) := by
  refine shift_run hop hc rfl fun n u x hn hlt hvalid hsafe hload => ?_
  have hbits := w.bits_le
  have hsub : (w.size.toNat * 8 - 1 : ℤ) = ↑(w.bits - 1) := by
    have hsize := w.toNat_size_mul
    omega
  rw [hop.1, widthOr32_size, run_bind_ok hload,
    run_bind_ok (shiftAmount_run (n := n - 1) (by omega) (by omega) _),
    run_bind_ok (assignFlag_run _ _ _), run_bind_ok (shiftAmount_run rfl (by omega) _),
    run_bind_ok (store_run hvalid _), run_bind_ok (load_run hvalid), Machine.peek_poke _ _ hvalid,
    shr_and_one_ne_zero, hsub]
  unfold Machine.shr
  by_cases h1 : n = 1
  · rw [if_pos h1, bind_assoc, run_bind_ok (shiftAmount_run rfl (by omega) _),
      and_shl_ne_zero (by omega), decide_eq_true h1, Bool.true_and]
    rfl
  · rw [if_neg h1, decide_eq_false h1, Bool.false_and]
    rfl

theorem sarI_run : (sarI insn).run s = .ok (afterShift w insn s
    ((s.advance insn).sar w (insn.op2.count s % w.bits) (insn.op1.value w s)
      (s.opPtr insn.op1))) := by
  refine shift_run hop hc rfl fun n u x hn hlt hvalid hsafe hload => ?_
  have hbits := w.bits_le
  rw [hop.1, widthOr32_size, run_bind_ok hload,
    run_bind_ok (shiftAmount_run (n := n - 1) (by omega) (by omega) _),
    run_bind_ok (assignFlag_run _ _ _), run_bind_ok (shiftAmount_run rfl (by omega) _),
    run_bind_ok (store_run hvalid _), run_bind_ok (load_run hvalid), Machine.peek_poke _ _ hvalid,
    sshr_and_one_ne_zero (by omega)]
  unfold Machine.sar
  split <;> rfl

end Runs

/-! ## Where the handlers shift by the count -/

/-- The flags are those of the result `x` of a shift that has found it as it was. -/
def AlreadyShows (w : Width) (k : ℕ) (x : BitVec 32) (s : Machine) : Prop :=
  ShowsResult w s x.toNat ∧ (k ≤ w.bits → (s.testFlag .CF ↔ x ≠ 0)) ∧ (k = 1 → ¬ s.testFlag .OF)

/-- A count of 0 is right. One that the width divides leaves everything as it was, and so does any
on memory: that is right where `fixed` says that the operand is its own result and the flags show
it. A count below the width is right where `short` holds, and one above it where `long` does. -/
def ShiftHolds (w : Width) (k : ℕ) (op : CsX86Op) (fixed short long : Prop) (s : Machine) : Prop :=
  if k = 0 then True
  else if k % w.bits = 0 ∨ op.type ≠ .reg then fixed ∧ AlreadyShows w k (op.value w s) s
  else if k < w.bits then short else long

section Holds

variable {w : Width} {insn : CsInsn} {s : Machine}

theorem shift_iff {handler : Handler} {P : Machine → Prop} {t : Machine} {fixed short long : Prop}
    (hrun : (handler insn).run s = .ok (afterShift w insn s t)) {k : ℕ}
    (hk : insn.op2.count s % 32 = k) (hzero : k = 0 → P (s.advance insn))
    (hfixed : k ≠ 0 → (P (s.advance insn) ↔
      fixed ∧ AlreadyShows w k (insn.op1.value w s) s))
    (hshort : k ≠ 0 → insn.op2.count s % w.bits = k → (P t ↔ short))
    (hlong : w.bits < k → (P t ↔ long)) :
    (∃ r t, (handler insn).run s = .ok (r, t) ∧ P t) ↔
      ShiftHolds w k insn.op1 fixed short long s := by
  have hmod : insn.op2.count s % w.bits = k % w.bits := by rw [mod_bits, hk]
  unfold ShiftHolds
  rw [hrun]
  unfold afterShift
  by_cases h0 : k = 0
  · rw [if_pos h0, hmod, h0, Nat.zero_mod, if_pos rfl, exists_run_iff]
    exact iff_of_true (hzero h0) trivial
  rw [if_neg h0]
  by_cases hd : k % w.bits = 0 ∨ insn.op1.type ≠ .reg
  · rw [if_pos hd, ← hfixed h0]
    split_ifs
    · exact exists_run_iff
    · exact exists_run_iff
    · rename_i hn ht
      exact absurd hd (not_or.2 ⟨hmod ▸ hn, ht⟩)
  · rw [if_neg hd]
    rw [not_or] at hd
    rw [if_neg (hmod ▸ hd.1), if_neg hd.2, exists_run_iff]
    by_cases hlt : k < w.bits
    · rw [if_pos hlt]
      exact hshort h0 (hmod.trans (Nat.mod_eq_of_lt hlt))
    · rw [if_neg hlt]
      refine hlong (lt_of_le_of_ne (not_lt.1 hlt) fun heq => hd.1 ?_)
      rw [← heq, Nat.mod_self]

variable {op : CsX86Op} {k : ℕ} {val : BitVec 32 → Prop} {cf : Prop} {of : Machine → Prop}

theorem shifted_advance_iff (hop : op.IsLoc w) (hk : k ≠ 0) :
    Shifted w k val cf of (s.opPtr op) s (s.advance insn) ↔
      val (op.value w s) ∧ (k ≤ w.bits → (s.testFlag .CF ↔ cf)) ∧
        ShowsResult w s (op.value w s).toNat ∧
        (k = 1 → (s.testFlag .OF ↔ of (s.advance insn))) := by
  rw [shifted_iff hk, hop.peek_eq (SameData.advance s insn)]
  exact ⟨fun ⟨hv, hc, ⟨hs, hz, hp⟩, ho⟩ => ⟨hv, hc, ⟨hs, hz, hp⟩, ho⟩,
    fun ⟨hv, hc, ⟨hs, hz, hp⟩, ho⟩ => ⟨hv, hc, ⟨hs, hz, hp⟩, ho⟩⟩

end Holds

/-! ## To the left -/

section Left

variable {w : Width} {insn : CsInsn} {op : CsX86Op} {s u : Machine} {k n : ℕ} {x : BitVec 32}
  {p : Ptr}

theorem isShl_zero (hx : x.toNat < 2 ^ w.bits) (he : u.eflags = s.eflags) (hp : u.peek w p = x) :
    IsShl w 0 x p s u := by
  refine (shifted_zero_iff he).2 ?_
  rw [hp, Nat.pow_zero, Nat.mul_one, Nat.mod_eq_of_lt hx]

theorem isShl_advance_iff (hop : op.IsLoc w) (hk : k ≠ 0) :
    IsShl w k (op.value w s) (s.opPtr op) s (s.advance insn) ↔
      op.value w s = 0 ∧ AlreadyShows w k (op.value w s) s := by
  have hx := CsX86Op.IsLoc.value_lt op w s
  have hcf : (s.advance insn).testFlag .CF = s.testFlag .CF := rfl
  unfold IsShl AlreadyShows
  rw [shifted_advance_iff hop hk, eq_comm, shl_eq_self_iff hx hk,
    hop.peek_eq (SameData.advance s insn), hcf]
  generalize op.value w s = x
  have hzero : x.toNat = 0 ↔ x = 0 := BitVec.toNat_inj (y := 0)
  rw [hzero]
  refine and_congr_right fun h0 => ?_
  have hpos := Nat.two_pow_pos (w.bits - 1)
  have hbits := w.bits_pos
  have hbit : (0 : BitVec 32).getLsbD (w.bits - k) = false := BitVec.getLsbD_zero
  have hnot : ¬ 2 ^ (w.bits - 1) ≤ (0 : BitVec 32).toNat := not_le.2 hpos
  rw [h0, hbit]
  constructor
  · rintro ⟨hc, hs, ho⟩
    refine ⟨hs, fun hle => ?_, fun h1 => ?_⟩
    · simpa using hc hle
    · simpa [hnot, hc (by omega)] using ho h1
  · rintro ⟨hs, hc, ho⟩
    refine ⟨fun hle => ?_, hs, fun h1 => ?_⟩
    · simpa using hc hle
    · simpa [hnot, hc (by omega)] using ho h1

theorem toNat_low_shl : (low w.bits (x <<< n)).toNat = x.toNat * 2 ^ n % 2 ^ w.bits := by
  rw [toNat_low, BitVec.toNat_shiftLeft, Nat.mod_mod_of_dvd _ (Nat.pow_dvd_pow 2 w.bits_le),
    Nat.shiftLeft_eq]

theorem isShl_short [SafePtr p] (hp : p.Valid) (hk : k ≠ 0) : IsShl w k x p s (u.shl w k x p) := by
  unfold IsShl Machine.shl
  rw [shifted_withShift_iff hp hk, Machine.peek_withShift _ _ _ _ _ _ hp,
    Machine.testFlag_withShift, toNat_low_shl]
  refine ⟨rfl, fun _ => Iff.rfl, fun h1 => ?_⟩
  rw [if_pos h1, Option.getD_some, getLsbD_top (toNat_low_lt _ _), toNat_low_shl]
  cases x.getLsbD (w.bits - k) <;> simp

theorem isShl_long_iff [SafePtr p] (hp : p.Valid) (hk : w.bits < k) :
    IsShl w k x p s (u.shl w n x p) ↔ x.toNat * 2 ^ n % 2 ^ w.bits = 0 := by
  have hbits := w.bits_pos
  unfold IsShl Machine.shl
  rw [shifted_withShift_iff hp (by omega), toNat_low_shl, shl_eq_zero_of_le hk.le]
  exact and_iff_left ⟨fun h => absurd h (not_le.2 hk), fun h => absurd h (by omega)⟩

theorem shiftLeft_iff (hop : insn.op1.IsLoc w) (hc : insn.op2.IsCount) :
    (∃ r t, (shiftLeft insn).run s = .ok (r, t) ∧
      IsShl w (insn.op2.count s % 32) (insn.op1.value w s) (s.opPtr insn.op1) s t) ↔
    ShiftHolds w (insn.op2.count s % 32) insn.op1 (insn.op1.value w s = 0) True
      ((insn.op1.value w s).toNat * 2 ^ (insn.op2.count s % 32 % w.bits) % 2 ^ w.bits = 0) s := by
  have hvalid := hop.valid s
  have := hop.safe s
  refine shift_iff (shiftLeft_run hop hc) rfl (fun h0 => ?_) (isShl_advance_iff hop)
    (fun hk hn => ?_) (fun hk => ?_)
  · rw [h0]
    exact isShl_zero (CsX86Op.IsLoc.value_lt _ w s) rfl (hop.peek_eq (SameData.advance s insn))
  · rw [hn]
    exact iff_true_intro (isShl_short hvalid hk)
  · rw [← mod_bits]
    exact isShl_long_iff hvalid hk

/-- `SHL` and `SAL` shift to the left exactly where `ShiftHolds`: zero is its own result, and a
count above the width has to shift every bit out by its remainder. -/
theorem shlI_salI_iff {dst cnt : CsX86Op} (h : insn.operands = [dst, cnt]) (hdst : dst.IsLoc w)
    (hcnt : cnt.IsCount) :
    ((∃ r t, (shlI insn).run s = .ok (r, t) ∧
      IsShl w (cnt.count s % 32) (dst.value w s) (s.opPtr dst) s t) ↔
    ShiftHolds w (cnt.count s % 32) dst (dst.value w s = 0) True
      ((dst.value w s).toNat * 2 ^ (cnt.count s % 32 % w.bits) % 2 ^ w.bits = 0) s) ∧
    ((∃ r t, (salI insn).run s = .ok (r, t) ∧
      IsShl w (cnt.count s % 32) (dst.value w s) (s.opPtr dst) s t) ↔
    ShiftHolds w (cnt.count s % 32) dst (dst.value w s = 0) True
      ((dst.value w s).toNat * 2 ^ (cnt.count s % 32 % w.bits) % 2 ^ w.bits = 0) s) := by
  have h1 : insn.op1 = dst := op1_of_cons h
  have h2 : insn.op2 = cnt := op2_of_cons h
  subst h1 h2
  exact ⟨shiftLeft_iff hdst hcnt, shiftLeft_iff hdst hcnt⟩

end Left

/-- `SHL AL, n` -/
def shlAl (n : BitVec 64) : CsInsn := .bare "shl" 3 [⟨.reg .al, 1⟩, ⟨.imm n, 1⟩]

/-- `SHL AL, 3` with 5 in `AL` -/
theorem shlI_salI_three :
    (∃ r t, (shlI (shlAl 3)).run (twice 5 0) = .ok (r, t) ∧
      IsShl .byte 3 5 (.var .eax) (twice 5 0) t) ∧
    ∃ r t, (salI (shlAl 3)).run (twice 5 0) = .ok (r, t) ∧
      IsShl .byte 3 5 (.var .eax) (twice 5 0) t := by
  have hall := @shlI_salI_iff .byte (shlAl 3) (twice 5 0) ⟨.reg .al, 1⟩ ⟨.imm 3, 1⟩ rfl
    (by decide) (by decide)
  exact ⟨hall.1.2 trivial, hall.2.2 trivial⟩

/-- `SHL AL, 8` leaves 1 in `AL`. -/
theorem shlI_salI_eight : ¬ ∀ (w : Width) (insn : CsInsn) (dst cnt : CsX86Op) (s : Machine),
    insn.operands = [dst, cnt] → dst.IsLoc w → cnt.IsCount →
    ∃ r t, (shlI insn).run s = .ok (r, t) ∧
      IsShl w (cnt.count s % 32) (dst.value w s) (s.opPtr dst) s t := by
  intro hall
  obtain ⟨r, t, hrun, hshl⟩ := hall .byte (shlAl 8) ⟨.reg .al, 1⟩ ⟨.imm 8, 1⟩ (twice 1 0) rfl
    (by decide) (by decide)
  cases hrun
  exact absurd hshl.value (by decide)

/-! ## To the right -/

section Right

variable {w : Width} {insn : CsInsn} {op : CsX86Op} {s u : Machine} {k n : ℕ} {x : BitVec 32}
  {p : Ptr}

theorem isShr_zero (he : u.eflags = s.eflags) (hp : u.peek w p = x) : IsShr w 0 x p s u := by
  refine (shifted_zero_iff he).2 ?_
  rw [hp, Nat.pow_zero, Nat.div_one]

theorem isSar_zero (he : u.eflags = s.eflags) (hp : u.peek w p = x) : IsSar w 0 x p s u := by
  refine (shifted_zero_iff he).2 ?_
  rw [hp, pow_zero, Int.ediv_one]

theorem isShr_advance_iff (hop : op.IsLoc w) (hk : k ≠ 0) :
    IsShr w k (op.value w s) (s.opPtr op) s (s.advance insn) ↔
      op.value w s = 0 ∧ AlreadyShows w k (op.value w s) s := by
  unfold IsShr AlreadyShows
  rw [shifted_advance_iff hop hk, eq_comm, shr_eq_self_iff hk]
  generalize op.value w s = x
  have hzero : x.toNat = 0 ↔ x = 0 := BitVec.toNat_inj (y := 0)
  rw [hzero]
  refine and_congr_right fun h0 => ?_
  have hbit : (0 : BitVec 32).getLsbD (k - 1) = false := BitVec.getLsbD_zero
  have hnot : ¬ 2 ^ (w.bits - 1) ≤ (0 : BitVec 32).toNat := not_le.2 (Nat.two_pow_pos _)
  rw [h0, hbit]
  constructor
  · rintro ⟨hc, hs, ho⟩
    exact ⟨hs, fun hle => by simpa using hc hle, fun h1 => by simpa [hnot] using ho h1⟩
  · rintro ⟨hs, hc, ho⟩
    exact ⟨fun hle => by simpa using hc hle, hs, fun h1 => by simpa [hnot] using ho h1⟩

theorem toNat_low_shr (hx : x.toNat < 2 ^ w.bits) :
    (low w.bits (x >>> n)).toNat = x.toNat / 2 ^ n := by
  rw [toNat_low, BitVec.toNat_ushiftRight, Nat.shiftRight_eq_div_pow]
  exact Nat.mod_eq_of_lt (lt_of_le_of_lt (Nat.div_le_self _ _) hx)

/-- The top bit of the operand is lost before `OF` is assigned. -/
theorem isShr_short_iff [SafePtr p] (hp : p.Valid) (hx : x.toNat < 2 ^ w.bits) (hk : k ≠ 0) :
    IsShr w k x p s (u.shr w k x p) ↔ (k = 1 → x.toNat < 2 ^ (w.bits - 1)) := by
  have hhalf := w.two_pow_bits.1
  have htop : (low w.bits (x >>> 1)).getLsbD (w.bits - 1) = false := by
    rw [getLsbD_top (toNat_low_lt _ _), toNat_low_shr hx, decide_eq_false_iff_not]
    omega
  unfold IsShr Machine.shr
  rw [shifted_withShift_iff hp hk, toNat_low_shr hx]
  constructor
  · rintro ⟨-, -, ho⟩ rfl
    simpa [htop] using ho rfl
  · intro ho
    refine ⟨rfl, fun _ => Iff.rfl, ?_⟩
    rintro rfl
    simpa [htop] using ho rfl

theorem isShr_long_iff [SafePtr p] (hp : p.Valid) (hx : x.toNat < 2 ^ w.bits) (hk : w.bits < k) :
    IsShr w k x p s (u.shr w n x p) ↔ x.toNat < 2 ^ n := by
  have hbits := w.bits_pos
  have hlt : x.toNat < 2 ^ k := lt_trans hx (Nat.pow_lt_pow_right (by decide) hk)
  unfold IsShr Machine.shr
  rw [shifted_withShift_iff hp (by omega), toNat_low_shr hx, Nat.div_eq_of_lt hlt,
    Nat.div_eq_zero_iff_lt (Nat.two_pow_pos n)]
  exact and_iff_left ⟨fun h => absurd h (not_le.2 hk), fun h => absurd h (by omega)⟩

theorem asSigned_eq : asSigned w x = (x.setWidth w.bits).signExtend 32 := by
  cases w with
  | byte => rfl
  | word => rfl
  | dword =>
    change x = (x.setWidth 32).signExtend 32
    rw [BitVec.setWidth_eq, BitVec.signExtend_eq]

theorem toInt_asSigned : (asSigned w x).toInt = w.signed x := by
  rw [asSigned_eq]
  exact BitVec.toInt_signExtend_of_le w.bits_le

theorem getLsbD_asSigned (hn : n < w.bits) : (asSigned w x).getLsbD n = x.getLsbD n := by
  have hlt := w.bits_le
  rw [asSigned_eq, BitVec.getLsbD_signExtend, BitVec.getLsbD_setWidth]
  simp [hn, show n < 32 by omega]

theorem signed_low_sar :
    w.signed (low w.bits ((asSigned w x).sshiftRight n)) = w.signed x / 2 ^ n := by
  have hint : ((asSigned w x).sshiftRight n).toInt = w.signed x / 2 ^ n := by
    rw [BitVec.toInt_sshiftRight, toInt_asSigned, Int.shiftRight_eq_div_pow]
    push_cast
    rfl
  have hrange : InRange (2 ^ (w.bits - 1)) (w.signed x / 2 ^ n) := inRange_sar (inRange_signed x)
  rw [← hint] at hrange ⊢
  have h := signed_low_setWidth w.bits_le hrange
  rwa [BitVec.setWidth_eq] at h

/-- Every bit of a word that is its own arithmetic shift is alike. -/
theorem getLsbD_of_fixed (hx : x.toNat < 2 ^ w.bits) (hn : n < w.bits)
    (hz : w.signed x = 0 ∨ w.signed x = -1) : x.getLsbD n = true ↔ x ≠ 0 := by
  rcases hz with hz | hz
  · rw [w.signed_eq_zero_iff hx] at hz
    simp [hz]
  · have hpow : ((2 ^ w.bits : ℕ) : ℤ) = 2 ^ w.bits := by push_cast; rfl
    have hones : x.toNat = 2 ^ w.bits - 1 := by
      rw [w.signed_eq hx] at hz
      split_ifs at hz
      omega
    have hbit : x.getLsbD n = true := by
      change x.toNat.testBit n = true
      rw [hones, Nat.testBit_two_pow_sub_one, decide_eq_true hn]
    refine iff_of_true hbit ?_
    rintro rfl
    simp at hbit

theorem isSar_advance_iff (hop : op.IsLoc w) (hk : k ≠ 0) :
    IsSar w k (op.value w s) (s.opPtr op) s (s.advance insn) ↔
      (w.signed (op.value w s) = 0 ∨ w.signed (op.value w s) = -1) ∧
        AlreadyShows w k (op.value w s) s := by
  have hx := CsX86Op.IsLoc.value_lt op w s
  unfold IsSar AlreadyShows
  rw [shifted_advance_iff hop hk, eq_comm, sar_eq_self_iff hk]
  generalize op.value w s = x at *
  refine and_congr_right fun hz => ?_
  have hbit (hle : k ≤ w.bits) : x.getLsbD (k - 1) = true ↔ x ≠ 0 :=
    getLsbD_of_fixed hx (by omega) hz
  constructor
  · rintro ⟨hc, hs, ho⟩
    exact ⟨hs, fun hle => (hc hle).trans (hbit hle), fun h1 => (ho h1).1⟩
  · rintro ⟨hs, hc, ho⟩
    exact ⟨fun hle => (hc hle).trans (hbit hle).symm, hs, fun h1 => iff_of_false (ho h1) id⟩

theorem isSar_short [SafePtr p] (hp : p.Valid) (hk : k ≠ 0) (hlt : k < w.bits) :
    IsSar w k x p s (u.sar w k x p) := by
  unfold IsSar Machine.sar
  rw [shifted_withShift_iff hp hk, signed_low_sar, getLsbD_asSigned (by omega)]
  refine ⟨rfl, fun _ => Iff.rfl, fun h1 => ?_⟩
  rw [if_pos h1]
  simp

theorem isSar_long_iff [SafePtr p] (hp : p.Valid) (hk : w.bits < k) :
    IsSar w k x p s (u.sar w n x p) ↔ InRange (2 ^ n) (w.signed x) := by
  have hbits := w.bits_pos
  have hrange : InRange (2 ^ k) (w.signed x) :=
    inRange_mono (Nat.pow_le_pow_right Nat.two_pos (by omega)) (inRange_signed x)
  unfold IsSar Machine.sar
  rw [shifted_withShift_iff hp (by omega), signed_low_sar, sar_eq_sign_iff.2 hrange,
    sar_eq_sign_iff]
  exact and_iff_left ⟨fun h => absurd h (not_le.2 hk), fun h => absurd h (by omega)⟩

/-- `SHR` and `SAR` shift to the right exactly where `ShiftHolds`. `SHR` does not by 1 where the top
bit is set, and a count above the width has to shift every bit but the sign out by its remainder. -/
theorem shrI_sarI_iff {dst cnt : CsX86Op} (h : insn.operands = [dst, cnt]) (hdst : dst.IsLoc w)
    (hcnt : cnt.IsCount) :
    ((∃ r t, (shrI insn).run s = .ok (r, t) ∧
      IsShr w (cnt.count s % 32) (dst.value w s) (s.opPtr dst) s t) ↔
    ShiftHolds w (cnt.count s % 32) dst (dst.value w s = 0)
      (cnt.count s % 32 = 1 → (dst.value w s).toNat < 2 ^ (w.bits - 1))
      ((dst.value w s).toNat < 2 ^ (cnt.count s % 32 % w.bits)) s) ∧
    ((∃ r t, (sarI insn).run s = .ok (r, t) ∧
      IsSar w (cnt.count s % 32) (dst.value w s) (s.opPtr dst) s t) ↔
    ShiftHolds w (cnt.count s % 32) dst
      (w.signed (dst.value w s) = 0 ∨ w.signed (dst.value w s) = -1) True
      (InRange (2 ^ (cnt.count s % 32 % w.bits)) (w.signed (dst.value w s))) s) := by
  have h1 : insn.op1 = dst := op1_of_cons h
  have h2 : insn.op2 = cnt := op2_of_cons h
  subst h1 h2
  have hvalid := hdst.valid s
  have := hdst.safe s
  have hx := CsX86Op.IsLoc.value_lt insn.op1 w s
  have hpeek := hdst.peek_eq (SameData.advance s insn)
  rw [← mod_bits]
  constructor
  · refine shift_iff (shrI_run hdst hcnt) rfl (fun h0 => ?_) (isShr_advance_iff hdst)
      (fun hk hn => ?_) (fun hk => isShr_long_iff hvalid hx hk)
    · rw [h0]
      exact isShr_zero rfl hpeek
    · rw [hn]
      exact isShr_short_iff hvalid hx hk
  · refine shift_iff (sarI_run hdst hcnt) rfl (fun h0 => ?_) (isSar_advance_iff hdst)
      (fun hk hn => ?_) (fun hk => isSar_long_iff hvalid hk)
    · rw [h0]
      exact isSar_zero rfl hpeek
    · rw [hn]
      refine iff_true_intro (isSar_short hvalid hk ?_)
      rw [← hn]
      exact Nat.mod_lt _ w.bits_pos

end Right

/-- `SHR AL, n` -/
def shrAl (n : BitVec 64) : CsInsn := .bare "shr" 3 [⟨.reg .al, 1⟩, ⟨.imm n, 1⟩]

/-- Both shift `0x94` by 3. -/
theorem shrI_sarI_three :
    (∃ r t, (shrI (shrAl 3)).run (twice 0x94 0) = .ok (r, t) ∧
      IsShr .byte 3 0x94 (.var .eax) (twice 0x94 0) t) ∧
    ∃ r t, (sarI (shrAl 3)).run (twice 0x94 0) = .ok (r, t) ∧
      IsSar .byte 3 0x94 (.var .eax) (twice 0x94 0) t := by
  have hall := @shrI_sarI_iff .byte (shrAl 3) (twice 0x94 0) ⟨.reg .al, 1⟩ ⟨.imm 3, 1⟩ rfl
    (by decide) (by decide)
  exact ⟨hall.1.2 (fun h1 => absurd h1 (by decide)), hall.2.2 trivial⟩

/-- `SHR AL, 1` loses the top bit of `0x80` before it assigns `OF`. -/
theorem shrI_not_isShr : ¬ ∀ (w : Width) (insn : CsInsn) (dst cnt : CsX86Op) (s : Machine),
    insn.operands = [dst, cnt] → dst.IsLoc w → cnt.IsCount →
    ∃ r t, (shrI insn).run s = .ok (r, t) ∧
      IsShr w (cnt.count s % 32) (dst.value w s) (s.opPtr dst) s t := by
  intro hall
  obtain ⟨r, t, hrun, hshr⟩ := hall .byte (shrAl 1) ⟨.reg .al, 1⟩ ⟨.imm 1, 1⟩ (twice 0x80 0) rfl
    (by decide) (by decide)
  cases hrun
  exact absurd (hshr.of rfl) (by decide)

end I386Vm
