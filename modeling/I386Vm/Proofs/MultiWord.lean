import I386Vm.Lib.Limbs
import I386Vm.Proofs.Compare

/-!
# Arithmetic on numbers of many words

`ADD` and then `ADC`, or `SUB` and then `SBB`, along the words of two numbers, with whatever leaves
`CF` alone in between. Each handler makes the right word; the carry out of `adc_i` and `sbb_i` is
lost when the source is all ones and a carry comes in, since they add the carry to the source
first.
-/

namespace I386Vm

open Bytes Prog

/-- A 32-bit register, memory or immediate. -/
def CsX86Op.IsSource (op : CsX86Op) : Prop := op.IsLoc .dword ∨ (op.type = .imm ∧ op.size = 4)

def CsX86Op.source (op : CsX86Op) (s : Machine) : BitVec 32 :=
  if op.type = .imm then op.imm.setWidth 32 else op.value .dword s

/-- Pointers to 32 bits that share no byte. -/
def Ptr.Apart : Ptr → Ptr → Prop
  | .var v, .var v' => v ≠ v'
  | .mem i, .mem j => i + 4 ≤ j ∨ j + 4 ≤ i
  | .var _, .mem _ => True
  | .mem _, .var _ => True
  | _, _ => False

theorem Machine.peek_poke_of_apart (s : Machine) {p q : Ptr} (h : p.Apart q) (x : BitVec 32) :
    (s.poke .dword p x).peek .dword q = s.peek .dword q := by
  cases p <;> cases q <;> try exact h.elim
  · simp only [poke, peek, setReg, Function.update_of_ne (Ne.symm h)]
  · rfl
  · rfl
  · exact readLE_writeLE_of_disjoint h

theorem Ptr.Apart.safe {p q : Ptr} (h : p.Apart q) : SafePtr q := by
  cases p <;> cases q <;> first | exact h.elim | infer_instance

section Source

variable {op1 op2 : CsX86Op} {s t : Machine}

theorem CsX86Op.IsSource.cases (h : op2.IsSource) :
    (op2.IsLoc .dword ∧ op2.source s = op2.value .dword s) ∨
      (op2.type = .imm ∧ op2.size = 4 ∧ op2.source s = op2.imm.setWidth 32) := by
  unfold CsX86Op.source
  rcases h with hl | ⟨ht, hs⟩
  · exact .inl ⟨hl, if_neg hl.type_ne_imm⟩
  · exact .inr ⟨ht, hs, if_pos ht⟩

theorem CsX86Op.IsSource.loc_or_imm (h : op2.IsSource) : op2.IsLoc .dword ∨ op2.type = .imm :=
  h.imp_right And.left

theorem CsX86Op.IsSource.source_congr (h : op2.IsSource) (hd : SameData s t) :
    op2.source t = op2.source s :=
  operand_congr h.loc_or_imm hd

theorem srcBySize_source (h : op2.IsSource) : (srcBySize op2).run s = .ok (op2.source s, s) :=
  srcBySize_operand h.loc_or_imm

theorem wide_dword (op : CsX86Op) (s : Machine) : op.wide .dword s = op.value .dword s := by
  unfold CsX86Op.wide
  split <;> rfl

theorem subSrc_source (h : op2.IsSource) :
    (subSrc op1 op2).run s = .ok (op2.source s, s) := by
  rcases h.cases with ⟨hl, hs⟩ | ⟨ht, hsize, hs⟩
  · rw [hs, subSrc_run hl, wide_dword]
  · unfold subSrc
    rw [hs, run_bind_ok run_get_ok, if_neg (by simp [ht]), if_pos ht]
    unfold immExtended
    rw [if_neg (by simp [hsize])]
    rfl

theorem sbbSrc_source (h1 : op1.size = 4) (h : op2.IsSource) :
    (sbbSrc op1 op2).run s = .ok (op2.source s, s) :=
  @sbbSrc_operand .dword op2 op1 s h1 h

end Source

/-- A handler has written the word and the carry `r`, the word at `d`, and no word apart from it. -/
structure Writes (s : Machine) (d : Ptr) (r : BitVec 32 × Bool) (t : Machine) : Prop where
  word : t.peek .dword d = r.1
  carry : t.testFlag .CF = r.2
  frame : ∀ q, d.Apart q → t.peek .dword q = s.peek .dword q

theorem writes_withArith (s : Machine) (insn : CsInsn) {d : Ptr} (hd : d.Valid) [SafePtr d]
    (x : BitVec 32) (c : Bool) (val1 val2 res : BitVec 32) (base : BitVec 8) :
    Writes s d (x, c)
      (((s.advance insn).poke .dword d x).withArith c val1 val2 res base) := by
  have hsame := ((s.advance insn).poke .dword d x).sameData_withArith c val1 val2 res base
  refine ⟨?_, ?_, fun q hq => ?_⟩
  · rw [hsame.peek, Machine.peek_poke _ _ hd, low_dword]
  · rw [Machine.testFlag_withArith]
  · have := hq.safe
    rw [hsame.peek, Machine.peek_poke_of_apart _ hq, (SameData.advance s insn).peek]

/-- The two families: the handler of the lowest word and that of the others. -/
inductive Arith
  | add | sub

namespace Arith

def handler : Arith → Bool → Handler
  | add, true => addI
  | add, false => adcI
  | sub, true => subI
  | sub, false => sbbI

/-- What `adc_i` and `sbb_i` make of the carry and the two words. -/
def step : Arith → Limbs.Step 32
  | add => fun c a b => (a + (b + if c then 1 else 0), a + (b + if c then 1 else 0) < a)
  | sub => fun c a b => (a - b - if c then 1 else 0, a < b + if c then 1 else 0)

def full : Arith → Limbs.Step 32
  | add => Limbs.fullAdd
  | sub => Limbs.fullSub

end Arith

section Handlers

variable {insn : CsInsn} {s : Machine} (h1 : insn.op1.IsLoc .dword) (h2 : insn.op2.IsSource)
include h1 h2

theorem addI_writes : ∃ t, (addI insn).run s = .ok (some 0, t) ∧
    Writes s (s.opPtr insn.op1)
      (Arith.add.step false (insn.op1.value .dword s) (insn.op2.source s)) t := by
  have hd := SameData.advance s insn
  have hsafe := h1.safe s
  have hrmw := @CsX86Op.IsLoc.rmwDst_run .dword insn.op1 (s.advance insn) h1
    (fun w old => old + cut w (insn.op2.source s)) (fun old => old + insn.op2.source s) rfl
  have hstep : Arith.add.step false (insn.op1.value .dword s) (insn.op2.source s) =
      (insn.op1.value .dword s + insn.op2.source s,
        decide (insn.op1.value .dword s + insn.op2.source s < insn.op1.value .dword s)) := by
    simp [Arith.step]
  unfold addI
  rw [run_bind_ok (advance_run s insn), run_bind_ok (srcBySize_source h2), h2.source_congr hd,
    run_bind_ok hrmw, run_bind_ok (arithFlags_run _ _ _ _ _ _), low_dword, h1.value_congr hd,
    h1.opPtr_congr hd, hstep]
  exact ⟨_, rfl, writes_withArith s insn (h1.valid s) _ _ _ _ _ _⟩

theorem adcI_writes : ∃ t, (adcI insn).run s = .ok (some 0, t) ∧
    Writes s (s.opPtr insn.op1)
      (Arith.add.step (s.testFlag .CF) (insn.op1.value .dword s) (insn.op2.source s)) t := by
  have hd := SameData.advance s insn
  have hsafe := h1.safe s
  have hrmw := @CsX86Op.IsLoc.rmwDst_run .dword insn.op1 (s.advance insn) h1
    (fun w old => old + (cut w (insn.op2.source s) + (s.advance insn).carry))
    (fun old => old + (insn.op2.source s + (s.advance insn).carry)) rfl
  unfold adcI
  rw [run_bind_ok (advance_run s insn), run_bind_ok (srcBySize_source h2), h2.source_congr hd,
    run_bind_ok run_get_ok, run_bind_ok hrmw, run_bind_ok (arithFlags_run _ _ _ _ _ _), low_dword,
    h1.value_congr hd, h1.opPtr_congr hd]
  exact ⟨_, rfl, writes_withArith s insn (h1.valid s) _ _ _ _ _ _⟩

theorem subI_writes : ∃ t, (subI insn).run s = .ok (some 0, t) ∧
    Writes s (s.opPtr insn.op1)
      (Arith.sub.step false (insn.op1.value .dword s) (insn.op2.source s)) t := by
  have hd := SameData.advance s insn
  have hsafe := h1.safe s
  have hstep : Arith.sub.step false (insn.op1.value .dword s) (insn.op2.source s) =
      (insn.op1.value .dword s - insn.op2.source s,
        decide (insn.op1.value .dword s < insn.op2.source s)) := by
    simp [Arith.step]
  unfold subI
  rw [run_bind_ok (advance_run s insn), run_bind_ok (subSrc_source h2), h2.source_congr hd,
    run_bind_ok (subDst_run h1 _), run_bind_ok (arithFlags_run _ _ _ _ _ _), wide_dword,
    h1.value_congr hd, h1.opPtr_congr hd, ite_self, hstep]
  exact ⟨_, rfl, writes_withArith s insn (h1.valid s) _ _ _ _ _ _⟩

/-- The flags after `CF` are those of `withArith` with the new carry in the second operand. -/
theorem sbbI_writes : ∃ t, (sbbI insn).run s = .ok (some 0, t) ∧
    Writes s (s.opPtr insn.op1)
      (Arith.sub.step (s.testFlag .CF) (insn.op1.value .dword s) (insn.op2.source s)) t := by
  have hd := SameData.advance s insn
  have hsafe := h1.safe s
  have hrmw := @rmw_run (s.advance insn) .dword ((s.advance insn).opPtr insn.op1) (h1.valid _)
    (fun old => old - insn.op2.source s - (s.advance insn).carry)
  unfold sbbI
  rw [run_bind_ok (advance_run s insn), run_bind_ok run_get_ok, run_bind_ok (sbbSrc_source h1.1 h2),
    h2.source_congr hd, h1.1, widthOr32_size, run_bind_ok hrmw, low_dword, h1.opPtr_congr hd]
  have hv : (s.advance insn).peek .dword (s.opPtr insn.op1) = insn.op1.value .dword s := hd.peek _ _
  rw [hv]
  exact ⟨_, rfl, writes_withArith s insn (h1.valid s) _ _ _ _ _ _⟩

end Handlers

namespace Arith

theorem handler_writes (op : Arith) (first : Bool) {insn : CsInsn} {s : Machine}
    (h1 : insn.op1.IsLoc .dword) (h2 : insn.op2.IsSource) :
    ∃ t, (op.handler first insn).run s = .ok (some 0, t) ∧ Writes s (s.opPtr insn.op1)
      (op.step (!first && s.testFlag .CF) (insn.op1.value .dword s) (insn.op2.source s)) t := by
  cases op <;> cases first
  · exact adcI_writes h1 h2
  · exact addI_writes h1 h2
  · exact sbbI_writes h1 h2
  · exact subI_writes h1 h2

theorem step_word (op : Arith) (c : Bool) (a b : BitVec 32) :
    (op.step c a b).1 = (op.full c a b).1 := by
  cases op <;> rfl

theorem full_word_ne (op : Arith) (a b : BitVec 32) :
    (op.full true a b).1 ≠ (op.full false a b).1 := by
  cases op with
  | add =>
    change a + (b + 1) ≠ a + (b + 0)
    bv_omega
  | sub =>
    change a - b - 1 ≠ a - b - 0
    bv_omega

/-- The carry out is exact unless the source is all ones and a carry comes in. -/
theorem step_carry_iff (op : Arith) (c : Bool) (a b : BitVec 32) :
    (op.step c a b).2 = (op.full c a b).2 ↔ (b = -1 → c = false) := by
  have ha := a.isLt
  have hb := b.isLt
  have hones : b = -1 ↔ b.toNat = 2 ^ 32 - 1 := by
    rw [← BitVec.toNat_inj]
    rfl
  rw [hones]
  cases op with
  | add =>
    change decide (_ < a) = decide _ ↔ _
    rw [decide_eq_decide, BitVec.lt_def, BitVec.toNat_add, BitVec.toNat_add]
    cases c <;> simp <;> omega
  | sub =>
    change decide (a < _) = decide _ ↔ _
    rw [decide_eq_decide, BitVec.lt_def, BitVec.toNat_add]
    cases c <;> simp <;> omega

/-- The words `ds` and the carry `c` are those of the sum or the difference. -/
def IsResult (op : Arith) (l : List (BitVec 32 × BitVec 32)) (ds : List (BitVec 32)) (c : Bool) :
    Prop :=
  match op with
  | add =>
    Limbs.value ds = (Limbs.value (l.map Prod.fst) + Limbs.value (l.map Prod.snd))
      % 2 ^ (32 * l.length) ∧
    (c = true ↔ 2 ^ (32 * l.length) ≤ Limbs.value (l.map Prod.fst) + Limbs.value (l.map Prod.snd))
  | sub =>
    (Limbs.value ds : ℤ) = (Limbs.value (l.map Prod.fst) - Limbs.value (l.map Prod.snd) : ℤ)
      % 2 ^ (32 * l.length) ∧
    (c = true ↔ Limbs.value (l.map Prod.fst) < Limbs.value (l.map Prod.snd))

/-- No word of the second number is all ones where the words below it carry or borrow. -/
def NoLostCarry (op : Arith) (l : List (BitVec 32 × BitVec 32)) : Prop :=
  ∀ i p, l[i]? = some p → p.2 = -1 →
    match op with
    | add => Limbs.value ((l.take i).map Prod.fst) + Limbs.value ((l.take i).map Prod.snd)
        < 2 ^ (32 * i)
    | sub => Limbs.value ((l.take i).map Prod.snd) ≤ Limbs.value ((l.take i).map Prod.fst)

theorem isResult_iff_full (op : Arith) {l : List (BitVec 32 × BitVec 32)} {ds : List (BitVec 32)}
    {c : Bool} (hlen : ds.length = l.length) :
    op.IsResult l ds c ↔
      ds = Limbs.limbs op.full false l ∧ c = Limbs.carry op.full false l := by
  have hw : 0 < 32 := by omega
  rw [Limbs.eq_limbs_iff hw hlen, Bool.eq_iff_iff]
  cases op with
  | add =>
    unfold full IsResult
    rw [Limbs.limbs_fullAdd hw, Limbs.carry_fullAdd hw]
  | sub =>
    unfold full IsResult
    rw [Limbs.carry_fullSub hw, ← Limbs.limbs_fullSub hw, Int.natCast_inj]

theorem noLostCarry_iff (op : Arith) (l : List (BitVec 32 × BitVec 32)) :
    op.NoLostCarry l ↔ ∀ i p, l[i]? = some p →
      (op.step (Limbs.carry op.full false (l.take i)) p.1 p.2).2 =
        (op.full (Limbs.carry op.full false (l.take i)) p.1 p.2).2 := by
  have hw : 0 < 32 := by omega
  unfold NoLostCarry
  refine forall_congr' fun i => forall_congr' fun p => forall_congr' fun hp => ?_
  have hlen : (l.take i).length = i := by
    obtain ⟨hi, -⟩ := List.getElem?_eq_some_iff.1 hp
    rw [List.length_take, Nat.min_eq_left hi.le]
  rw [step_carry_iff, ← Bool.not_eq_true]
  refine imp_congr_right fun _ => ?_
  cases op with
  | add =>
    unfold full
    rw [Limbs.carry_fullAdd hw, hlen, not_le]
  | sub =>
    unfold full
    rw [Limbs.carry_fullSub hw, not_lt]

end Arith

/-- Nothing has changed `CF` or the words already written. -/
def Quiet (done : List Ptr) (t u : Machine) : Prop :=
  u.testFlag .CF = t.testFlag .CF ∧ ∀ q ∈ done, u.peek .dword q = t.peek .dword q

/-- A run along the words `l`, from `s` to `v`: each instruction finds one pair of words in its
operands and writes at a place of its own, those of `done` being taken; between the instructions
anything quiet may happen. `ds` are the places written. -/
inductive Chain (op : Arith) :
    Bool → List Ptr → Machine → List (BitVec 32 × BitVec 32) → List Ptr → Machine → Prop
  | nil {first : Bool} {done : List Ptr} {s : Machine} : Chain op first done s [] [] s
  | cons {first : Bool} {done ds : List Ptr} {s t u v : Machine} {insn : CsInsn}
      {l : List (BitVec 32 × BitVec 32)} (h1 : insn.op1.IsLoc .dword) (h2 : insn.op2.IsSource)
      (apart : ∀ q ∈ done, (s.opPtr insn.op1).Apart q)
      (run : (op.handler first insn).run s = .ok (some 0, t))
      (quiet : Quiet (s.opPtr insn.op1 :: done) t u)
      (rest : Chain op false (s.opPtr insn.op1 :: done) u l ds v) :
      Chain op first done s ((insn.op1.value .dword s, insn.op2.source s) :: l)
        (s.opPtr insn.op1 :: ds) v

namespace Chain

variable {op : Arith} {first : Bool} {done ds : List Ptr} {s v : Machine}
  {l : List (BitVec 32 × BitVec 32)}

theorem length_eq (h : Chain op first done s l ds v) : ds.length = l.length := by
  induction h with
  | nil => rfl
  | cons _ _ _ _ _ _ ih => rw [List.length_cons, ih, List.length_cons]

theorem peek_done (h : Chain op first done s l ds v) :
    ∀ q ∈ done, v.peek .dword q = s.peek .dword q := by
  induction h with
  | nil => exact fun _ _ => rfl
  | @cons first done ds s t u v insn l h1 h2 apart run quiet rest ih =>
    intro q hq
    obtain ⟨t', hrun, hw⟩ := @Arith.handler_writes op first _ s h1 h2
    rw [run] at hrun
    cases hrun
    rw [ih q (List.mem_cons_of_mem _ hq), quiet.2 q (List.mem_cons_of_mem _ hq),
      hw.frame q (apart q hq)]

/-- The words at the end and the carry are those of the chain of steps. -/
theorem spec (h : Chain op first done s l ds v) :
    ds.map (v.peek .dword) = Limbs.limbs op.step (!first && s.testFlag .CF) l ∧
      ((first = true → l ≠ []) →
        v.testFlag .CF = Limbs.carry op.step (!first && s.testFlag .CF) l) := by
  induction h with
  | @nil first done s =>
    refine ⟨rfl, fun hne => ?_⟩
    cases first with
    | true => exact absurd rfl (hne rfl)
    | false => rfl
  | @cons first done ds s t u v insn l h1 h2 apart run quiet rest ih =>
    obtain ⟨t', hrun, hw⟩ := @Arith.handler_writes op first _ s h1 h2
    rw [run] at hrun
    cases hrun
    have hcf : u.testFlag .CF = _ := quiet.1.trans hw.carry
    have hword : v.peek .dword (s.opPtr insn.op1) = _ :=
      (rest.peek_done _ List.mem_cons_self).trans
        ((quiet.2 _ List.mem_cons_self).trans hw.word)
    obtain ⟨hds, hc⟩ := ih
    rw [Bool.not_false, Bool.true_and, hcf] at hds hc
    refine ⟨?_, fun _ => hc nofun⟩
    rw [List.map_cons, hword, hds]
    rfl

theorem isResult_iff (h : Chain op true [] s l ds v) (hne : l ≠ []) :
    op.IsResult l (ds.map (v.peek .dword)) (v.testFlag .CF) ↔ op.NoLostCarry l := by
  obtain ⟨hds, hc⟩ := h.spec
  rw [op.isResult_iff_full (by rw [List.length_map, h.length_eq]), hds, hc fun _ => hne,
    op.noLostCarry_iff]
  exact Limbs.chain_eq_iff op.step_word op.full_word_ne false l

end Chain

/-- Every instruction of such a run ends, and the run leaves the words and the carry of the sum or
the difference exactly when no carry is lost. -/
theorem chain_isResult_iff (op : Arith) :
    (∀ (first : Bool) (insn : CsInsn) (s : Machine), insn.op1.IsLoc .dword → insn.op2.IsSource →
      ∃ t, (op.handler first insn).run s = .ok (some 0, t)) ∧
    ∀ (s v : Machine) (l : List (BitVec 32 × BitVec 32)) (ds : List Ptr), l ≠ [] →
      Chain op true [] s l ds v →
      (op.IsResult l (ds.map (v.peek .dword)) (v.testFlag .CF) ↔ op.NoLostCarry l) := by
  constructor
  · intro first insn s h1 h2
    obtain ⟨t, ht, -⟩ := @Arith.handler_writes op first _ s h1 h2
    exact ⟨t, ht⟩
  · exact fun s v l ds hne h => h.isResult_iff hne

def onRegs (r r' : X86Reg) : CsInsn := .bare "" 2 [⟨.reg r, 4⟩, ⟨.reg r', 4⟩]

theorem exists_chain (op : Arith) (s : Machine) : ∃ v, Chain op true [] s
    [(s.reg .eax, s.reg .ebx), (s.reg .ecx, s.reg .edx)] [.var .eax, .var .ecx] v := by
  have h1 : (onRegs .eax .ebx).op1.IsLoc .dword ∧ (onRegs .eax .ebx).op2.IsLoc .dword := by decide
  have h2 : (onRegs .ecx .edx).op1.IsLoc .dword ∧ (onRegs .ecx .edx).op2.IsLoc .dword := by decide
  obtain ⟨t, ht, hw⟩ := @Arith.handler_writes op true _ s h1.1 (.inl h1.2)
  obtain ⟨v, hv, -⟩ := @Arith.handler_writes op false _ t h2.1 (.inl h2.2)
  have hq (q : Ptr) (u : Machine) (done : List Ptr) : Quiet (q :: done) u u :=
    ⟨rfl, fun _ _ => rfl⟩
  have hreg (w : Var) (hne : .eax ≠ w) : low 32 (t.reg w) = s.reg w := by
    have := hw.frame (.var w) hne
    exact this.trans (low_dword _)
  have hapart : ∀ q ∈ [Ptr.var .eax], (Ptr.var .ecx).Apart q := by
    intro q hq
    rw [List.mem_singleton.1 hq]
    exact nofun
  have h := Chain.cons h1.1 (.inl h1.2) (by simp) ht (hq _ _ _)
    (Chain.cons h2.1 (.inl h2.2) hapart hv (hq _ _ _) .nil)
  have hl : [((onRegs .eax .ebx).op1.value .dword s, (onRegs .eax .ebx).op2.source s),
      ((onRegs .ecx .edx).op1.value .dword t, (onRegs .ecx .edx).op2.source t)] =
      [(s.reg .eax, s.reg .ebx), (s.reg .ecx, s.reg .edx)] := by
    change [(low 32 (s.reg .eax), low 32 (s.reg .ebx)), (low 32 (t.reg .ecx), low 32 (t.reg .edx))]
      = _
    rw [hreg .ecx nofun, hreg .edx nofun]
    simp only [low_of_le (le_refl 32)]
  rw [hl] at h
  exact ⟨v, h⟩

def words (a b a' b' : BitVec 32) : Machine :=
  (((Machine.blank.setReg .eax a).setReg .ebx b).setReg .ecx a').setReg .edx b'

/-- `0xFFFFFFFF + 1` carries into the second word, which is 7 + 5. -/
theorem chain_isResult_carry : ∃ v, Arith.add.IsResult [(0xFFFFFFFF, 1), (7, 5)]
    ([Ptr.var .eax, .var .ecx].map (Machine.peek v .dword)) (v.testFlag .CF) := by
  obtain ⟨v, hv⟩ := exists_chain .add (words 0xFFFFFFFF 1 7 5)
  refine ⟨v, ((chain_isResult_iff .add).2 _ v _ _ (by simp) hv).2 ?_⟩
  rintro (_ | _ | i) p hp h1
  · exact absurd (Option.some.inj hp ▸ h1) (by decide)
  · exact absurd (Option.some.inj hp ▸ h1) (by decide)
  · cases hp

/-- A second word of `0 + 0xFFFFFFFF` with a carry coming in loses the carry out. -/
theorem chain_not_isResult : ¬ ∀ (op : Arith) (s v : Machine) (l : List (BitVec 32 × BitVec 32))
    (ds : List Ptr), l ≠ [] → Chain op true [] s l ds v →
      op.IsResult l (ds.map (v.peek .dword)) (v.testFlag .CF) := by
  intro hall
  obtain ⟨v, hv⟩ := exists_chain .add (words 0xFFFFFFFF 1 0 0xFFFFFFFF)
  have hlost := (hv.isResult_iff (by simp)).1 (hall .add _ v _ _ (by simp) hv)
  have hcarry := hlost 1 (0, 0xFFFFFFFF) rfl rfl
  revert hcarry
  decide

end I386Vm
