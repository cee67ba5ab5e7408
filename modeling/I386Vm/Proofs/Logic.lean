import I386Vm.Lib.Bitwise
import I386Vm.Proofs.HighBytes
import I386Vm.Proofs.Sums

/-!
# `AND`, `OR` and `XOR`

`and_i` is right for every operand that is read right, and `or_i` and `xor_i` are on a register. A
memory destination they find through the second operand, where a register or an immediate stands in
its place in the union, and its sign they look for in the middle of the result. What is read wrong
is a high byte, for which the low one is taken.
-/

namespace I386Vm

open Bytes Prog

inductive Logic
  | and | or | xor

namespace Logic

def handler : Logic → Handler
  | and => andI
  | or => orI
  | xor => xorI

def apply : Logic → BitVec 32 → BitVec 32 → BitVec 32
  | and => (· &&& ·)
  | or => (· ||| ·)
  | xor => (· ^^^ ·)

theorem handler_eq {op : Logic} (h : op ≠ and) : op.handler = orXor op.apply := by
  cases op with
  | and => exact absurd rfl h
  | or => rfl
  | xor => rfl

theorem low_apply (op : Logic) (n : ℕ) (x y : BitVec 32) :
    low n (op.apply x y) = op.apply (low n x) (low n y) := by
  apply BitVec.eq_of_getLsbD_eq
  intro i _
  cases op <;>
    simp only [apply, getLsbD_low, BitVec.getLsbD_and, BitVec.getLsbD_or, BitVec.getLsbD_xor] <;>
    by_cases hi : i < n <;> simp [hi]

end Logic

/-- A register or memory of the width, or an immediate of it. -/
def CsX86Op.IsLogicSource (w : Width) (op : CsX86Op) : Prop :=
  op.IsLoc w ∨ (op.type = .imm ∧ op.size = w.size)

/-- A register of the width, a high byte included, memory or an immediate of it. -/
def CsX86Op.IsLogicOperand (w : Width) (op : CsX86Op) : Prop :=
  op.IsCell w ∨ (op.type = .imm ∧ op.size = w.size)

theorem CsX86Op.IsLogicSource.any {w : Width} {op : CsX86Op} (h : op.IsLogicSource w) :
    op.IsLogicOperand w :=
  h.imp_left IsLoc.isCell

/-- `t` is `s` with the operation on `a` and `b` done at `p`, and its flags. -/
structure IsLogic (op : Logic) (w : Width) (a b : BitVec 32) (p : Ptr) (s t : Machine) : Prop where
  value : t.peek w p = op.apply a b
  cf : t.testFlag .CF = false
  of : t.testFlag .OF = false
  shows : ShowsResult w t (op.apply a b).toNat
  same : ∃ y, SameBut statusFlags (s.poke w p y) t

section Runs

variable {op : Logic} {w : Width} {insn : CsInsn} {s : Machine} {v : BitVec 32}

theorem rmw_low_run {p : Ptr} (hp : p.Valid) (f : BitVec 32 → BitVec 32) {r : BitVec 32}
    (hr : low w.bits (f (s.peek w p)) = r) :
    (rmw w p f).run s = .ok ((s.peek w p, r), s.poke w p r) := by
  rw [rmw_run hp, hr, ← s.poke_low w p (f _), hr]

theorem low_apply_value : low w.bits (op.apply (insn.op1.value w s) v) =
    op.apply (insn.op1.value w s) (low w.bits v) := by
  rw [op.low_apply, CsX86Op.IsLoc.low_value]

theorem low_apply_cut : low w.bits (op.apply (insn.op1.value w s) (cut w v)) =
    op.apply (insn.op1.value w s) (low w.bits v) := by
  rw [low_apply_value, cut_eq_low, low_low]

/-- The state after the operation on the first operand and `b`. -/
def Machine.logic (s : Machine) (op : Logic) (insn : CsInsn) (w : Width) (b : BitVec 32) :
    Machine :=
  ((s.advance insn).poke w (s.opPtr insn.op1) (op.apply (insn.op1.value w s) b)).withLogic
    (op.apply (insn.op1.value w s) b) (w.size * 8)

variable (h1 : insn.op1.IsLoc w) (h2 : insn.op2.IsLogicOperand w)
include h1 h2

theorem andI_run : (andI insn).run s =
    .ok (some 0, s.logic .and insn w (low w.bits (insn.op2.operand w s))) := by
  have hd := SameData.advance s insn
  have hcell := h2.imp_right And.left
  have hlow : low w.bits (insn.op1.value w s &&& insn.op2.operand w s) =
      insn.op1.value w s &&& low w.bits (insn.op2.operand w s) := @low_apply_value .and _ _ _ _
  have hcut : low w.bits (insn.op1.value w s &&& cut w (insn.op2.operand w s)) =
      insn.op1.value w s &&& low w.bits (insn.op2.operand w s) := @low_apply_cut .and _ _ _ _
  have hdst : (rmwDst insn.op1 (fun w' old => old &&& cut w' (insn.op2.operand w s))
      (fun old => old &&& insn.op2.operand w s)).run (s.advance insn) =
      .ok ((insn.op1.value w s, insn.op1.value w s &&& low w.bits (insn.op2.operand w s)),
        (s.advance insn).poke w (s.opPtr insn.op1)
          (insn.op1.value w s &&& low w.bits (insn.op2.operand w s))) := by
    rw [h1.rmwDst_run _ _ (by rw [h1.value_congr hd, hcut, hlow]), h1.value_congr hd,
      h1.opPtr_congr hd, ← Machine.poke_low, hlow]
  have hbase : (if insn.op1.type = .reg then regsSize insn.op1.reg else insn.op1.size * 8) =
      w.size * 8 := by
    rcases h1.cases with ⟨ht, hr⟩ | ⟨ht, -⟩
    · rw [if_pos ht, (lowRegs_spec hr).2.2.2]
    · rw [if_neg (by simp [ht]), h1.1]
  unfold andI
  rw [run_bind_ok (advance_run s insn), run_bind_ok (CsX86Op.srcBySize_cell hcell),
    CsX86Op.operand_cell_congr hcell hd, run_bind_ok hdst,
    run_bind_ok (logicFlags_run _ _ _), hbase]
  rfl

theorem orXor_reg_run (ht : insn.op1.type = .reg) : (orXor op.apply insn).run s =
    .ok (some 0, s.logic op insn w (low w.bits (insn.op2.operand w s))) := by
  have hd := SameData.advance s insn
  have hcell := h2.imp_right And.left
  have hcut : low w.bits (op.apply ((s.advance insn).peek w (s.opPtr insn.op1))
      (cut w (insn.op2.operand w s))) =
      op.apply (insn.op1.value w s) (low w.bits (insn.op2.operand w s)) := by
    rw [h1.peek_eq hd, low_apply_cut]
  have hdst := rmw_low_run (h1.valid s) (op.apply · (cut w (insn.op2.operand w s))) hcut
  unfold orXor
  rw [run_bind_ok (advance_run s insn), run_bind_ok (CsX86Op.srcBySize_cell hcell),
    CsX86Op.operand_cell_congr hcell hd, run_bind_ok run_get_ok, if_pos ht, if_pos ht,
    h1.rmwReg_eq (s.advance insn) ht, h1.opPtr_congr hd, run_bind_ok hdst,
    run_bind_ok (logicFlags_run _ _ _), (lowRegs_spec (h1.reg_mem ht)).2.2.2]
  rfl

/-- The word that `or_i` and `xor_i` change in place of a memory destination. -/
def Machine.elsewhere (s : Machine) (insn : CsInsn) : ℕ :=
  ((s.advance insn).effAddr insn.op2.mem).toNat

theorem orXor_mem_run (ht : insn.op1.type = .mem) : (orXor op.apply insn).run s =
    .ok (some 0, ((s.advance insn).poke w (.mem (s.elsewhere insn))
      (op.apply (s.peek w (.mem (s.elsewhere insn))) (low w.bits (insn.op2.operand w s)))).withLogic
      (op.apply (s.peek w (.mem (s.elsewhere insn))) (low w.bits (insn.op2.operand w s)))
      (w.size * 4)) := by
  have hd := SameData.advance s insn
  have hcell := h2.imp_right And.left
  have hsize : insn.op2.size = w.size := by
    rcases h2 with h | ⟨-, h⟩
    · exact h.1
    · exact h
  have hlow : low w.bits (op.apply ((s.advance insn).peek w (.mem (s.elsewhere insn)))
      (insn.op2.operand w s)) =
      op.apply (s.peek w (.mem (s.elsewhere insn))) (low w.bits (insn.op2.operand w s)) := by
    rw [op.low_apply, Machine.low_peek, hd.peek w (.mem _)]
  have hdst := rmw_low_run (.mem _) (op.apply · (insn.op2.operand w s)) hlow
  unfold orXor
  unfold Machine.elsewhere at hdst ⊢
  rw [run_bind_ok (advance_run s insn), run_bind_ok (CsX86Op.srcBySize_cell hcell),
    CsX86Op.operand_cell_congr hcell hd, run_bind_ok run_get_ok, if_neg (by simp [ht]), if_pos ht,
    hsize, widthOr8_size, run_bind_ok hdst, run_bind_ok (logicFlags_run _ _ _),
    if_neg (by simp [ht]), h1.1]
  rfl

end Runs

/-- What is read, `c`, does to `a` what `b` does. -/
def Logic.Agrees (op : Logic) (a b c : BitVec 32) : Prop :=
  match op with
  | and => (c ^^^ b) &&& a = 0
  | or => (c ^^^ b) &&& ~~~a = 0
  | xor => c = b

theorem Logic.agrees_iff {op : Logic} {a b c : BitVec 32} :
    op.Agrees a b c ↔ op.apply a c = op.apply a b := by
  cases op with
  | and => exact and_eq_and_iff.symm
  | or => exact or_eq_or_iff.symm
  | xor => exact (BitVec.xor_right_inj a).symm

section Right

variable {op : Logic} {w : Width} {insn : CsInsn} {s : Machine} {b c : BitVec 32}

theorem isLogic_logic (h1 : insn.op1.IsLoc w) (hb : low w.bits b = b) :
    IsLogic op w (insn.op1.value w s) b (s.opPtr insn.op1) (s.advance insn)
      (s.logic op insn w b) := by
  have := h1.safe s
  have hflag := ((s.advance insn).poke w (s.opPtr insn.op1)
    (op.apply (insn.op1.value w s) b)).testFlag_withLogic (op.apply (insn.op1.value w s) b)
    (w.size * 8)
  have hsame := ((s.advance insn).poke w (s.opPtr insn.op1)
    (op.apply (insn.op1.value w s) b)).sameBut_withLogic (op.apply (insn.op1.value w s) b)
    (w.size * 8)
  unfold Machine.logic
  constructor
  · rw [hsame.sameData.peek, Machine.peek_poke _ _ (h1.valid s), low_apply_value, hb]
  · exact hflag .CF
  · exact hflag .OF
  · exact showsResult_of (hflag .SF) (hflag .ZF) (hflag .PF)
  · exact ⟨_, hsame⟩

/-- The operation with `c` is that with `b` where the two agree. -/
theorem isLogic_logic_iff (h1 : insn.op1.IsLoc w) (hc : low w.bits c = c) :
    IsLogic op w (insn.op1.value w s) b (s.opPtr insn.op1) (s.advance insn) (s.logic op insn w c) ↔
      op.Agrees (insn.op1.value w s) b c := by
  have hright := @isLogic_logic op w insn s c h1 hc
  rw [Logic.agrees_iff]
  constructor
  · exact fun h => hright.value.symm.trans h.value
  · intro h
    obtain ⟨hvalue, hcf, hof, hshows, hsame⟩ := hright
    rw [h] at hvalue hshows
    exact ⟨hvalue, hcf, hof, hshows, hsame⟩

end Right

/-- Or-ing `c` to `v`, with the sign looked for in the middle, says what or-ing `b` to `a` does. -/
structure OrAlike (w : Width) (a b v c : BitVec 32) : Prop where
  sign : 2 ^ (w.bits / 2 - 1) ≤ v.toNat ∨ 2 ^ (w.bits / 2 - 1) ≤ c.toNat ↔
    2 ^ (w.bits - 1) ≤ a.toNat ∨ 2 ^ (w.bits - 1) ≤ b.toNat
  zero : v = 0 ∧ c = 0 ↔ a = 0 ∧ b = 0
  parity : parity (v &&& ~~~c) = parity c ↔ parity (a &&& ~~~b) = parity b

/-- Xor-ing `c` to `v`, with the sign looked for in the middle, says what xor-ing `b` to `a`
does. -/
structure XorAlike (w : Width) (a b v c : BitVec 32) : Prop where
  sign : v.toNat / 2 ^ (w.bits / 2 - 1) = c.toNat / 2 ^ (w.bits / 2 - 1) ↔
    a.toNat / 2 ^ (w.bits - 1) = b.toNat / 2 ^ (w.bits - 1)
  zero : v = c ↔ a = b
  parity : parity v = parity c ↔ parity a = parity b

/-- What `c` does to the word `v` at `j` is what `b` should do to the word `a` at `i`: in the
memory, which hides of a disjunction what is set in it, and in the flags. -/
def Logic.Reaches (op : Logic) (w : Width) (a b v c : BitVec 32) (m : ℕ → BitVec 8) (i j : ℕ) :
    Prop :=
  match op with
  | and => and.Agrees a b c
  | or => (∀ k, (alone j w.bytes c k ^^^ alone i w.bytes b k) &&& ~~~m k = 0) ∧ OrAlike w a b v c
  | xor => ((j = i ∧ c = b) ∨ (c = 0 ∧ b = 0)) ∧ XorAlike w a b v c

section Flags

variable {x y b : BitVec 32}

theorem parity_xor : parity (x ^^^ y) = (parity x == parity y) := by
  have hcount := countP_xor (fun i => x.toNat.testBit i) (fun i => y.toNat.testBit i) (List.range 8)
  rw [Bool.eq_iff_iff, beq_iff_eq, @Bool.eq_iff_iff (parity x), parity_iff, parity_iff, parity_iff,
    BitVec.toNat_xor]
  unfold EvenParity
  simp only [Nat.testBit_xor, Nat.even_iff]
  omega

theorem parity_or : parity (x ||| y) = (parity (x &&& ~~~y) == parity y) := by
  have hsplit : x ||| y = (x &&& ~~~y) ^^^ y := by
    apply BitVec.eq_of_getLsbD_eq
    intro i hi
    simp only [BitVec.getLsbD_or, BitVec.getLsbD_xor, BitVec.getLsbD_and, BitVec.getLsbD_not, hi]
    cases x.getLsbD i <;> cases y.getLsbD i <;> rfl
  rw [hsplit, parity_xor]

variable {w : Width} {a v c : BitVec 32}

theorem toNat_eq_zero_iff {x : BitVec 32} : x.toNat = 0 ↔ x = 0 := by
  rw [← BitVec.toNat_inj]
  rfl

theorem orAlike_iff : OrAlike w a b v c ↔
    (2 ^ (w.bits / 2 - 1) ≤ (v ||| c).toNat ↔ 2 ^ (w.bits - 1) ≤ (a ||| b).toNat) ∧
    ((v ||| c).toNat = 0 ↔ (a ||| b).toNat = 0) ∧
    (EvenParity (v ||| c).toNat ↔ EvenParity (a ||| b).toNat) := by
  rw [← parity_iff, ← parity_iff, parity_or, parity_or, beq_iff_eq, beq_iff_eq, BitVec.toNat_or,
    BitVec.toNat_or, le_or_iff, le_or_iff, Nat.or_eq_zero_iff, Nat.or_eq_zero_iff,
    toNat_eq_zero_iff, toNat_eq_zero_iff, toNat_eq_zero_iff, toNat_eq_zero_iff]
  exact ⟨fun ⟨hs, hz, hp⟩ => ⟨hs, hz, hp⟩, fun ⟨hs, hz, hp⟩ => ⟨hs, hz, hp⟩⟩

theorem xorAlike_iff : XorAlike w a b v c ↔
    (2 ^ (w.bits / 2 - 1) ≤ (v ^^^ c).toNat ↔ 2 ^ (w.bits - 1) ≤ (a ^^^ b).toNat) ∧
    ((v ^^^ c).toNat = 0 ↔ (a ^^^ b).toNat = 0) ∧
    (EvenParity (v ^^^ c).toNat ↔ EvenParity (a ^^^ b).toNat) := by
  rw [← parity_iff, ← parity_iff, parity_xor, parity_xor, beq_iff_eq, beq_iff_eq,
    BitVec.toNat_xor, BitVec.toNat_xor, le_xor_iff, le_xor_iff, Nat.xor_eq_zero_iff,
    Nat.xor_eq_zero_iff, BitVec.toNat_inj, BitVec.toNat_inj, not_iff_not]
  exact ⟨fun ⟨hs, hz, hp⟩ => ⟨hs, hz, hp⟩, fun ⟨hs, hz, hp⟩ => ⟨hs, hz, hp⟩⟩

end Flags

section Elsewhere

variable {op : Logic} {w : Width} {insn : CsInsn} {s : Machine} {i j : ℕ} {b c : BitVec 32}

theorem alone_eq_alone_iff (hb : low w.bits b = b) (hc : low w.bits c = c)
    (hcb : w = .byte ∨ c = b) :
    alone j w.bytes c = alone i w.bytes b ↔ (j = i ∧ c = b) ∨ (c = 0 ∧ b = 0) := by
  rcases hcb with rfl | rfl
  · have h : alone j 1 c = alone i 1 b ↔ _ := alone_one_eq_iff
    have hb8 : low 8 b = b := hb
    have hc8 : low 8 c = c := hc
    rw [hb8, hc8] at h
    exact h
  · have h : alone j w.bytes c = alone i w.bytes c ↔ j = i ∨ low w.bits c = 0 := alone_eq_iff
    rw [hc] at h
    rw [h]
    simp only [and_true, and_self]

theorem writes_eq_iff (hop : op ≠ .and) (hb : low w.bits b = b) (hc : low w.bits c = c)
    (hcb : w = .byte ∨ c = b) :
    writeLE s.mem j w.bytes (op.apply (s.peek w (.mem j)) c) =
      writeLE s.mem i w.bytes (op.apply (s.peek w (.mem i)) b) ↔
    match op with
    | .and => True
    | .or => ∀ k, (alone j w.bytes c k ^^^ alone i w.bytes b k) &&& ~~~s.mem k = 0
    | .xor => (j = i ∧ c = b) ∨ (c = 0 ∧ b = 0) := by
  have hw : 8 * w.bytes ≤ 32 := w.bits_le
  rw [funext_iff]
  cases op with
  | and => exact absurd rfl hop
  | or =>
    refine forall_congr' fun k => ?_
    simp only [Logic.apply, Machine.peek]
    rw [writeLE_bitwise byteOf_or (fun x => BitVec.or_zero) hw,
      writeLE_bitwise byteOf_or (fun x => BitVec.or_zero) hw, or_eq_or_iff]
  | xor =>
    simp only [Logic.apply, Machine.peek]
    rw [← alone_eq_alone_iff hb hc hcb, funext_iff]
    refine forall_congr' fun k => ?_
    rw [writeLE_bitwise byteOf_xor (fun x => BitVec.xor_zero) hw,
      writeLE_bitwise byteOf_xor (fun x => BitVec.xor_zero) hw, BitVec.xor_right_inj]

theorem isLogic_poke_iff {a x : BitVec 32} {base : BitVec 8}
    (hlow : low w.bits (op.apply a b) = op.apply a b) :
    IsLogic op w a b (.mem i) s ((s.poke w (.mem j) x).withLogic x base) ↔
      writeLE s.mem j w.bytes x = writeLE s.mem i w.bytes (op.apply a b) ∧
        ShowsResult w ((s.poke w (.mem j) x).withLogic x base) (op.apply a b).toNat := by
  have hflag := (s.poke w (.mem j) x).testFlag_withLogic x base
  have hsame := (s.poke w (.mem j) x).sameBut_withLogic x base
  constructor
  · rintro ⟨hvalue, -, -, hshows, y, hy⟩
    have hmem : writeLE s.mem i w.bytes y = writeLE s.mem j w.bytes x :=
      hy.sameData.mem.symm.trans hsame.sameData.mem
    have hlowy : low w.bits y = op.apply a b := by
      rw [← hvalue, hy.sameData.peek, Machine.peek_poke _ _ (.mem i)]
    refine ⟨?_, hshows⟩
    rw [← hmem, ← hlowy]
    exact (writeLE_low s.mem i w.bytes y).symm
  · rintro ⟨hmem, hshows⟩
    have hpoke : s.poke w (.mem j) x = s.poke w (.mem i) (op.apply a b) := by
      simp only [Machine.poke, hmem]
    constructor
    · rw [hsame.sameData.peek, hpoke, Machine.peek_poke _ _ (.mem i), hlow]
    · exact hflag .CF
    · exact hflag .OF
    · exact hshows
    · refine ⟨op.apply a b, ?_⟩
      rwa [← hpoke]

/-- What a write elsewhere leaves is right where it makes the same memory, and the flags agree. -/
theorem isLogic_elsewhere_iff (hop : op ≠ .and) (hb : low w.bits b = b) (hc : low w.bits c = c)
    (hcb : w = .byte ∨ c = b) :
    IsLogic op w (s.peek w (.mem i)) b (.mem i) s
      ((s.poke w (.mem j) (op.apply (s.peek w (.mem j)) c)).withLogic
        (op.apply (s.peek w (.mem j)) c) (w.size * 4)) ↔
      op.Reaches w (s.peek w (.mem i)) b (s.peek w (.mem j)) c s.mem i j := by
  have hhalf : (w.size * 4).toNat = w.bits / 2 := by cases w <;> decide
  have hlow : low w.bits (op.apply (s.peek w (.mem i)) b) = op.apply (s.peek w (.mem i)) b := by
    rw [op.low_apply, Machine.low_peek, hb]
  rw [isLogic_poke_iff hlow, showsResult_withLogic_iff, hhalf, writes_eq_iff hop hb hc hcb]
  cases op with
  | and => exact absurd rfl hop
  | or => exact and_congr_right fun _ => orAlike_iff.symm
  | xor => exact and_congr_right fun _ => xorAlike_iff.symm

end Elsewhere

section Operand

variable {op : Logic} {w : Width} {insn : CsInsn} {s : Machine}

theorem isLogic_orXor_mem_iff (hop : op ≠ .and) (h1 : insn.op1.IsLoc w)
    (h2 : insn.op2.IsLogicOperand w) (ht : insn.op1.type = .mem) :
    (∃ t, (orXor op.apply insn).run s = .ok (some 0, t) ∧
      IsLogic op w (insn.op1.value w s) (insn.op2.contents w s) (s.opPtr insn.op1)
        (s.advance insn) t) ↔
    op.Reaches w (insn.op1.value w s) (insn.op2.contents w s)
      (s.peek w (.mem (s.elsewhere insn))) (low w.bits (insn.op2.operand w s)) s.mem
      (s.effAddr insn.op1.mem).toNat (s.elsewhere insn) := by
  have hpeek (i : ℕ) : s.peek w (.mem i) = (s.advance insn).peek w (.mem i) :=
    ((SameData.advance s insn).peek w (.mem i)).symm
  have hv : insn.op1.value w s = s.peek w (.mem (s.effAddr insn.op1.mem).toNat) := by
    unfold CsX86Op.value
    rw [Machine.opPtr_of_mem ht]
  rw [orXor_mem_run h1 h2 ht, exists_ok_iff, hv, Machine.opPtr_of_mem ht, hpeek, hpeek]
  exact isLogic_elsewhere_iff hop (CsX86Op.low_contents (h2.imp_right And.left)) (low_low _ _)
    (CsX86Op.byte_or_eq (h2.imp_right And.left))

/-- On a register destination the three handlers are right where a high byte in the source does what
the low one beside it does, and so is `AND` in memory. The others are right in memory where the
word elsewhere happens to hide the mistake. -/
theorem logic_isLogic_iff (op : Logic) (h1 : insn.op1.IsLoc w) (h2 : insn.op2.IsLogicOperand w) :
    (∃ t, (op.handler insn).run s = .ok (some 0, t) ∧
      IsLogic op w (insn.op1.value w s) (insn.op2.contents w s) (s.opPtr insn.op1)
        (s.advance insn) t) ↔
    if insn.op1.type = .reg then
      op.Agrees (insn.op1.value w s) (insn.op2.contents w s) (low w.bits (insn.op2.operand w s))
    else op.Reaches w (insn.op1.value w s) (insn.op2.contents w s)
      (s.peek w (.mem (s.elsewhere insn))) (low w.bits (insn.op2.operand w s)) s.mem
      (s.effAddr insn.op1.mem).toNat (s.elsewhere insn) := by
  by_cases hop : op = .and
  · subst hop
    have hand : (Logic.and.handler insn).run s = _ := andI_run h1 h2
    rw [hand, exists_ok_iff, isLogic_logic_iff h1 (low_low _ _)]
    exact (ite_self _).symm ▸ Iff.rfl
  rw [Logic.handler_eq hop]
  rcases h1.cases with ⟨ht, -⟩ | ⟨ht, -⟩
  · rw [orXor_reg_run h1 h2 ht, exists_ok_iff, if_pos ht]
    exact isLogic_logic_iff h1 (low_low _ _)
  · rw [if_neg (by simp [ht])]
    exact isLogic_orXor_mem_iff hop h1 h2 ht

end Operand

/-- `XOR BL, AH` -/
def xorBlAh : CsInsn := .bare "xor" 2 [⟨.reg .bl, 1⟩, ⟨.reg .ah, 1⟩]

/-- The same byte in `AL` and in `AH`, and another in `BL`. -/
def sameBytes : Machine := (Machine.blank.setReg .eax 0x3C3C).setReg .ebx 0x0F

theorem logic_isLogic_ah : ∃ t, (xorI xorBlAh).run sameBytes = .ok (some 0, t) ∧
    IsLogic .xor .byte 0x0F 0x3C (.var .ebx) (sameBytes.advance xorBlAh) t := by
  refine (@logic_isLogic_iff .byte xorBlAh sameBytes .xor (by decide) (.inl (by decide))).2 ?_
  rw [if_pos (show xorBlAh.op1.type = .reg from rfl)]
  change low 8 _ = low 8 _
  decide

/-- `OR DWORD PTR [EBX], EAX` -/
def orMemEax : CsInsn :=
  .bare "or" 2 [⟨.mem ⟨.invalid, .ebx, .invalid, 1, 0⟩, 4⟩, ⟨.reg .eax, 4⟩]

/-- With 4 in `EBX` and 1 in `EAX` the word at 4 stays 0. -/
theorem logic_not_isLogic : ¬ ∀ (op : Logic) (w : Width) (insn : CsInsn) (s : Machine),
    insn.op1.IsLoc w → insn.op2.IsLogicOperand w → (insn.op1.type = .mem → insn.op2.type ≠ .mem) →
      ∃ t, (op.handler insn).run s = .ok (some 0, t) ∧ IsLogic op w (insn.op1.value w s)
        (insn.op2.contents w s) (s.opPtr insn.op1) (s.advance insn) t := by
  intro hall
  have h1 : orMemEax.op1.IsLoc .dword := by decide
  have h2 : orMemEax.op2.IsLogicOperand .dword := .inl (by decide)
  obtain ⟨t, hrun, hor⟩ := hall .or .dword orMemEax ((Machine.blank.setReg .ebx 4).setReg .eax 1)
    h1 h2 (by decide)
  have hne : Logic.or ≠ .and := nofun
  rw [Logic.handler_eq hne, orXor_mem_run h1 h2 rfl] at hrun
  cases hrun
  exact absurd hor.value (by decide)

end I386Vm
