import I386Vm.Lib.BitShifts
import I386Vm.Proofs.Counts

/-!
# `SHRD`

The handler shifts the destination, reads the source register after that, and puts its low bits
above what is left. It takes the flags of a 16-bit result from the source register.
-/

namespace I386Vm

open Bytes Prog BitShifts

namespace Machine

variable (s : Machine) (w : Width) (p : Ptr) (cf : Bool) (v res : BitVec 32)

/-- The state after `shrd_i` has shifted: `v` at `p`, `CF`, and the flags of `res`. -/
def withShrd : Machine :=
  ((((s.assignFlag .CF cf).poke w p v).assignFlag .SF (sign res (w.size * 8))).assignFlag .ZF
    (zero res)).assignFlag .PF (parity res)

theorem testFlag_withShrd [SafePtr p] (f : Flag) : (s.withShrd w p cf v res).testFlag f =
    match f with
    | .CF => cf
    | .SF => sign res (w.size * 8)
    | .ZF => zero res
    | .PF => parity res
    | f => s.testFlag f := by
  unfold withShrd
  simp only [testFlag_assignFlag, testFlag_poke]
  cases f <;> rfl

theorem sameBut_withShrd [SafePtr p] :
    SameBut statusFlags (s.poke w p v) (s.withShrd w p cf v res) := by
  simp [withShrd, poke_assignFlag, statusFlags]

theorem peek_withShrd [SafePtr p] (hp : p.Valid) :
    (s.withShrd w p cf v res).peek w p = low w.bits v := by
  rw [← s.peek_poke w hp v]
  exact (s.sameBut_withShrd w p cf v res).sameData.peek w p

variable (k : ℕ) (x y : BitVec 32) (q : Ptr)

/-- `x` shifted by `k`, with the low bits of `y` above it. -/
def spliced : BitVec 32 := x >>> k ||| y <<< (w.bits - k)

/-- What the handler finds in the source register, which may be the destination. -/
def shiftedIn : BitVec 32 := if q = p then x >>> k else y

/-- The state after `shrd_i` has shifted `x` at `p` with `y` at `q`. -/
def shrd : Machine :=
  s.withShrd w p (x.getLsbD (k - 1)) (spliced w k x (shiftedIn p k x y q))
    (if w = .dword ∨ q = p then low w.bits (spliced w k x (shiftedIn p k x y q)) else y)

end Machine

open Machine

section Run

variable {w : Width} {insn : CsInsn} {s : Machine}

theorem CsX86Op.IsLoc.opPtr_reg {op : CsX86Op} (h : op.IsLoc w) (ht : op.type = .reg)
    (s : Machine) : ∃ v, s.opPtr op = .var v := by
  rw [Machine.opPtr_of_reg ht]
  exact (lowRegs_spec (h.reg_mem ht)).2.1

theorem peek_assignFlag_poke {p q : Ptr} [SafePtr p] [SafePtr q] (hp : p.Valid) {v : Var}
    (hq : q = .var v) (f : Flag) (c : Bool) (x : BitVec 32) :
    ((s.assignFlag f c).poke w p x).peek w q = if q = p then low w.bits x else s.peek w q := by
  split_ifs with hqp
  · rw [hqp, Machine.peek_poke _ w hp]
  · rw [Machine.peek_poke_of_ne _ w (.inr hq) hqp]
    exact (SameData.assignFlag s f c).peek w q

/-- The part of the handler that shifts. -/
theorem splice_run {p q : Ptr} [SafePtr p] [SafePtr q] {v : Var} (hp : p.Valid)
    (hq : q = .var v) {k : ℕ} (h0 : k ≠ 0) (hk : k < w.bits) :
    (do let x ← load w p
        let j ← shiftAmount k
        let i ← shiftAmount (j - 1)
        assignFlag .CF ((x >>> i) &&& 1 ≠ 0)
        store w p (x >>> j)
        let m ← shiftAmount (w.size.toNat * 8 - j)
        let temp ← load w q
        let z ← load w p
        store w p (z ||| (temp <<< m))
        let res ← load w (if w.size = 4 then p else q)
        assignFlag .SF (sign res (w.size * 8))
        assignFlag .ZF (zero res)
        assignFlag .PF (parity res)
        return some 0 : Exec Ret).run s =
      .ok (some 0, s.shrd w p k (s.peek w p) (s.peek w q) q) := by
  have hbits := w.bits_le
  have hqv : q.Valid := hq ▸ Ptr.Valid.var v
  have hsub : ((w.size.toNat * 8 : ℕ) - k : ℤ) = ↑(w.bits - k) := by
    rw [w.toNat_size_mul]
    omega
  have hlow : low w.bits (s.peek w p >>> k) = s.peek w p >>> k := by
    refine low_of_lt ?_
    rw [BitVec.toNat_ushiftRight, Nat.shiftRight_eq_div_pow]
    exact lt_of_le_of_lt (Nat.div_le_self _ _) (s.peek_lt w p)
  push_cast at hsub
  rw [run_bind_ok (load_run hp), run_bind_ok (shiftAmount_run rfl (by omega) _),
    run_bind_ok (shiftAmount_run (n := k - 1) (by omega) (by omega) _),
    run_bind_ok (assignFlag_run _ _ _), run_bind_ok (store_run hp _), hsub,
    run_bind_ok (shiftAmount_run rfl (by omega) _), run_bind_ok (load_run hqv),
    run_bind_ok (load_run hp), run_bind_ok (store_run hp _), shr_and_one_ne_zero,
    Machine.peek_poke _ w hp, Machine.poke_poke, peek_assignFlag_poke hp hq, hlow]
  have hfill : (if q = p then s.peek w p >>> k else s.peek w q) =
      Machine.shiftedIn p k (s.peek w p) (s.peek w q) q := rfl
  have hsplice (y : BitVec 32) : s.peek w p >>> k ||| y <<< (w.bits - k) =
      Machine.spliced w k (s.peek w p) y := rfl
  have hsize : (if w.size = 4 then p else q) = if w = .dword then p else q := by
    cases w <;> rfl
  rw [hfill, hsplice, hsize]
  unfold Machine.shrd
  by_cases hd : w = .dword
  · rw [if_pos hd, if_pos (.inl hd), run_bind_ok (load_run hp), Machine.peek_poke _ _ hp]
    rfl
  · simp only [hd, false_or, if_false]
    rw [run_bind_ok (load_run hqv), peek_assignFlag_poke hp hq]
    rfl

theorem shrdI_run (hw : w ≠ .byte) (hdst : insn.op1.IsLoc w) (hsrc : insn.op2.IsLoc w)
    (ht : insn.op2.type = .reg) (hc : insn.op3.IsCount) :
    (shrdI insn).run s = .ok (some 0,
      if insn.op3.count s % 32 = 0 ∨ w.bits ≤ insn.op3.count s % 32 then s.advance insn
      else (s.advance insn).shrd w (s.opPtr insn.op1) (insn.op3.count s % 32)
        (insn.op1.value w s) (insn.op2.value w s) (s.opPtr insn.op2)) := by
  obtain ⟨n, hrun, hn⟩ := @countOf_run insn.op3 (s.advance insn) hc
  have hcount : insn.op3.count (s.advance insn) = insn.op3.count s := rfl
  have hsize : ¬ (w.size ≠ 4 ∧ w.size ≠ 2) := by
    cases w with
    | byte => exact absurd rfl hw
    | word => decide
    | dword => decide
  have hq : regs insn.op2.reg = (s.advance insn).opPtr insn.op2 := (if_pos ht).symm
  obtain ⟨v, hv⟩ := hsrc.opPtr_reg ht (s.advance insn)
  have hsafe := hdst.safe (s.advance insn)
  have hsafe' := hsrc.safe (s.advance insn)
  unfold shrdI
  rw [run_bind_ok (advance_run s insn), run_bind_ok hrun, run_bind_ok run_get_ok,
    if_neg (not_not.2 ht), hn, hcount, hsrc.1, hq]
  by_cases h0 : insn.op3.count s % 32 = 0
  · rw [if_pos h0, if_pos (.inl h0)]
    rfl
  rw [if_neg h0, if_neg hsize, widthOr32_size, run_bind_ok (hsrc.load_advance s insn),
    w.toNat_size_mul]
  by_cases hk : w.bits ≤ insn.op3.count s % 32
  · rw [if_pos hk, if_pos (.inr hk)]
    rfl
  rw [if_neg hk, if_neg (not_or.2 ⟨h0, hk⟩)]
  have hp := hdst.peek_eq (SameData.advance s insn)
  have hp' := hsrc.peek_eq (SameData.advance s insn)
  rw [← hdst.opPtr_congr (SameData.advance s insn)] at hp ⊢
  rw [← hsrc.opPtr_congr (SameData.advance s insn)] at hp' ⊢
  have hcast : (insn.op3.count s % 32 : ℤ) = ↑(insn.op3.count s % 32) := rfl
  rw [hcast, splice_run (hdst.valid _) hv h0 (not_le.1 hk), hp, hp']

end Run

/-- The destination holds the low word of the two words shifted by `k`, `y` above `x`, and the flags
say the last bit shifted out and what the result is. -/
structure IsShrd (w : Width) (k : ℕ) (x y : BitVec 32) (p : Ptr) (s t : Machine) : Prop where
  value : (t.peek w p).toNat = (y.toNat * 2 ^ w.bits + x.toNat) / 2 ^ k % 2 ^ w.bits
  cf : t.testFlag .CF ↔ x.getLsbD (k - 1)
  shows : ShowsResult w t (t.peek w p).toNat
  same : ∃ r, SameBut statusFlags (s.poke w p r) t

/-- A count of 0 or past the width leaves everything as it was. -/
def ShrdDone (w : Width) (k : ℕ) (x y : BitVec 32) (p : Ptr) (s t : Machine) : Prop :=
  if k = 0 ∨ w.bits ≤ k then t = s else IsShrd w k x y p s t

/-- The sign, zero and parity of `y` are those of `y` above `x`, shifted by `k`. -/
def LooksShifted (w : Width) (k : ℕ) (x y : BitVec 32) : Prop :=
  (y.getLsbD (w.bits - 1) ↔ y.getLsbD (k - 1)) ∧
    (y = 0 ↔ y.toNat % 2 ^ k = 0 ∧ x.toNat < 2 ^ k) ∧
      (EvenParity y.toNat ↔ EvenParity ((y.toNat * 2 ^ w.bits + x.toNat) / 2 ^ k))

instance (w : Width) (k : ℕ) (x y : BitVec 32) : Decidable (LooksShifted w k x y) :=
  inferInstanceAs (Decidable (_ ∧ _))

/-- A destination of 16 bits needs a source register that looks like the result. One that is the
source register itself has lost the bits to be shifted in, and needs the next ones to be alike. -/
def ShrdHolds (w : Width) (k : ℕ) (x y : BitVec 32) (p q : Ptr) : Prop :=
  k = 0 ∨ w.bits ≤ k ∨
    if q = p then x.toNat / 2 ^ k % 2 ^ k = x.toNat % 2 ^ k else w = .word → LooksShifted w k x y

instance (w : Width) (k : ℕ) (x y : BitVec 32) (p q : Ptr) : Decidable (ShrdHolds w k x y p q) :=
  inferInstanceAs (Decidable (_ ∨ _ ∨ ite _ _ _))

section Laws

variable {w : Width} {k : ℕ} {x y z : BitVec 32} {p q : Ptr} {s : Machine}

theorem evenParity_mod (w : Width) (r : ℕ) : EvenParity (r % 2 ^ w.bits) ↔ EvenParity r := by
  have hbits := w.eight_le_bits
  have hcongr : ((List.range 8).countP fun i => (r % 2 ^ w.bits).testBit i) =
      (List.range 8).countP fun i => r.testBit i := by
    refine List.countP_congr fun i hi => ?_
    rw [Nat.testBit_mod_two_pow, decide_eq_true (lt_of_lt_of_le (List.mem_range.1 hi) hbits),
      Bool.true_and]
  unfold EvenParity
  rw [hcongr]

theorem toNat_spliced (hx : x.toNat < 2 ^ w.bits) (hk : k ≤ w.bits) :
    (low w.bits (Machine.spliced w k x y)).toNat =
      (y.toNat * 2 ^ w.bits + x.toNat) / 2 ^ k % 2 ^ w.bits := by
  have hdvd : 2 ^ w.bits ∣ 2 ^ 32 := Nat.pow_dvd_pow 2 w.bits_le
  unfold Machine.spliced
  rw [toNat_low, BitVec.toNat_or, BitVec.toNat_ushiftRight, BitVec.toNat_shiftLeft,
    Nat.shiftRight_eq_div_pow, Nat.shiftLeft_eq, Nat.or_mod_two_pow, Nat.mod_mod_of_dvd _ hdvd,
    ← Nat.or_mod_two_pow, or_shl_eq hx hk]

theorem isShrd_withShrd_iff [SafePtr p] (hp : p.Valid) {v res : BitVec 32} :
    IsShrd w k x y p s (s.withShrd w p (x.getLsbD (k - 1)) v res) ↔
      (low w.bits v).toNat = (y.toNat * 2 ^ w.bits + x.toNat) / 2 ^ k % 2 ^ w.bits ∧
        ShowsResult w (s.withShrd w p (x.getLsbD (k - 1)) v res) (low w.bits v).toNat := by
  have hpeek := s.peek_withShrd w p (x.getLsbD (k - 1)) v res hp
  have hcf := s.testFlag_withShrd w p (x.getLsbD (k - 1)) v res .CF
  constructor
  · rintro ⟨hv, -, hs, -⟩
    rw [hpeek] at hv hs
    exact ⟨hv, hs⟩
  · rintro ⟨hv, hs⟩
    rw [← hpeek] at hv hs
    exact ⟨hv, by rw [hcf], hs, _, s.sameBut_withShrd w p _ v res⟩

theorem showsResult_withShrd [SafePtr p] {c : Bool} {v : BitVec 32} :
    ShowsResult w (s.withShrd w p c v (low w.bits v)) (low w.bits v).toNat :=
  showsResult_of (s.testFlag_withShrd w p c v _ .SF) (s.testFlag_withShrd w p c v _ .ZF)
    (s.testFlag_withShrd w p c v _ .PF)

/-- The flags of the source register are those of the result where it looks like it. -/
theorem showsResult_source_iff [SafePtr p] {c : Bool} {v : BitVec 32} (hx : x.toNat < 2 ^ w.bits)
    (hy : y.toNat < 2 ^ w.bits) (h0 : k ≠ 0) (hk : k ≤ w.bits) :
    ShowsResult w (s.withShrd w p c v y)
      ((y.toNat * 2 ^ w.bits + x.toNat) / 2 ^ k % 2 ^ w.bits) ↔ LooksShifted w k x y := by
  have hbase : (w.size * 8).toNat = w.bits := by
    cases w <;> rfl
  have htop : 2 ^ (w.bits - 1) ≤ y.toNat ↔ y.getLsbD (w.bits - 1) = true := by
    rw [getLsbD_top hy, decide_eq_true_iff]
  have hzero : y.toNat = 0 ↔ y = 0 := BitVec.toNat_inj (y := 0)
  rw [showsResult_iff (s.testFlag_withShrd w p c v y .SF) (s.testFlag_withShrd w p c v y .ZF)
    (s.testFlag_withShrd w p c v y .PF), hbase, two_shr_top_iff hx hk h0, two_shr_eq_zero_iff hx hk,
    evenParity_mod, htop, hzero]
  rfl

/-- Below the width the shift is right exactly where `ShrdHolds`. -/
theorem isShrd_shrd_iff [SafePtr p] (hp : p.Valid) (hw : w ≠ .byte) (hx : x.toNat < 2 ^ w.bits)
    (hy : y.toNat < 2 ^ w.bits) (hsame : q = p → y = x) (h0 : k ≠ 0) (hk : k < w.bits) :
    IsShrd w k x y p s (s.shrd w p k x y q) ↔
      if q = p then x.toNat / 2 ^ k % 2 ^ k = x.toNat % 2 ^ k
      else w = .word → LooksShifted w k x y := by
  unfold Machine.shrd Machine.shiftedIn
  rw [isShrd_withShrd_iff hp]
  by_cases hq : q = p
  · rw [if_pos hq, if_pos hq, if_pos (.inr hq), and_iff_left showsResult_withShrd,
      toNat_spliced hx hk.le, hsame hq, two_shr_congr_iff hx hk.le, BitVec.toNat_ushiftRight,
      Nat.shiftRight_eq_div_pow]
  · rw [if_neg hq, if_neg hq, toNat_spliced hx hk.le, and_iff_right rfl]
    by_cases hd : w = .dword
    · rw [if_pos (.inl hd), ← toNat_spliced hx hk.le]
      exact iff_of_true showsResult_withShrd fun hword => nomatch hd.symm.trans hword
    · have hword : w = .word := by
        cases w with
        | byte => exact absurd rfl hw
        | word => rfl
        | dword => exact absurd rfl hd
      rw [if_neg (not_or.2 ⟨hd, hq⟩), showsResult_source_iff hx hy h0 hk.le]
      exact ⟨fun hlooks _ => hlooks, fun hlooks => hlooks hword⟩

end Laws

/-- `SHRD` shifts the destination and the source register exactly where `ShrdHolds`. -/
theorem shrdI_iff {w : Width} {insn : CsInsn} {dst src cnt : CsX86Op} {s : Machine}
    (hw : w ≠ .byte) (h : insn.operands = [dst, src, cnt]) (hdst : dst.IsLoc w)
    (hsrc : src.IsLoc w) (ht : src.type = .reg) (hcnt : cnt.IsCount) :
    (∃ r t, (shrdI insn).run s = .ok (r, t) ∧ ShrdDone w (cnt.count s % 32) (dst.value w s)
      (src.value w s) (s.opPtr dst) (s.advance insn) t) ↔
    ShrdHolds w (cnt.count s % 32) (dst.value w s) (src.value w s) (s.opPtr dst) (s.opPtr src) := by
  have h1 : insn.op1 = dst := op1_of_cons h
  have h2 : insn.op2 = src := op2_of_cons h
  have h3 : insn.op3 = cnt := op3_of_cons h
  subst h1 h2 h3
  have hx := CsX86Op.IsLoc.value_lt insn.op1 w s
  have hy := CsX86Op.IsLoc.value_lt insn.op2 w s
  have := hdst.safe s
  have hsame : s.opPtr insn.op2 = s.opPtr insn.op1 → insn.op2.value w s = insn.op1.value w s :=
    congrArg (s.peek w)
  unfold ShrdDone ShrdHolds
  rw [shrdI_run hw hdst hsrc ht hcnt, exists_run_iff, ← or_assoc]
  by_cases hk : insn.op3.count s % 32 = 0 ∨ w.bits ≤ insn.op3.count s % 32
  · rw [if_pos hk, if_pos hk]
    exact iff_of_true rfl (.inl hk)
  · rw [if_neg hk, if_neg hk, or_iff_right hk]
    rw [not_or, not_le] at hk
    exact isShrd_shrd_iff (hdst.valid s) hw hx hy hsame hk.1 hk.2

/-- `SHRD EAX, EBX, 4` -/
def shrdEax : CsInsn := .bare "shrd" 4 [⟨.reg .eax, 4⟩, ⟨.reg .ebx, 4⟩, ⟨.imm 4, 1⟩]

/-- It shifts `0x95` and puts the low digit of 7 on top. -/
theorem shrdI_four : ∃ r t, (shrdI shrdEax).run (twice 0x95 7) = .ok (r, t) ∧
    ShrdDone .dword 4 0x95 7 (.var .eax) ((twice 0x95 7).advance shrdEax) t :=
  (@shrdI_iff .dword shrdEax ⟨.reg .eax, 4⟩ ⟨.reg .ebx, 4⟩ ⟨.imm 4, 1⟩ (twice 0x95 7)
    (by decide) rfl (by decide) (by decide) rfl (by decide)).2 (by decide)

/-- `SHRD AX, BX, 4` sets `ZF` for a register `BX` that holds 0. -/
theorem shrdI_not_shrdDone : ¬ ∀ (w : Width) (insn : CsInsn) (dst src cnt : CsX86Op)
    (s : Machine), w ≠ .byte → insn.operands = [dst, src, cnt] → dst.IsLoc w → src.IsLoc w →
    src.type = .reg → cnt.IsCount →
    ∃ r t, (shrdI insn).run s = .ok (r, t) ∧ ShrdDone w (cnt.count s % 32) (dst.value w s)
      (src.value w s) (s.opPtr dst) (s.advance insn) t := by
  intro hall
  obtain ⟨r, t, hrun, hdone⟩ := hall .word
    (.bare "shrd" 4 [⟨.reg .ax, 2⟩, ⟨.reg .bx, 2⟩, ⟨.imm 4, 1⟩]) ⟨.reg .ax, 2⟩ ⟨.reg .bx, 2⟩
    ⟨.imm 4, 1⟩ (twice 0x10 0) (by decide) rfl (by decide) (by decide) rfl (by decide)
  cases hrun
  unfold ShrdDone at hdone
  rw [if_neg (by decide)] at hdone
  exact absurd hdone.shows.zf (by decide)

end I386Vm
