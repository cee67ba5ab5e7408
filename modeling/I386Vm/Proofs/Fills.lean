import I386Vm.Proofs.Moves
import I386Vm.Proofs.ThreadLocal

/-!
# `REP STOS`

Each dispatch stores one element at `ES:EDI` and stays at the instruction until `ECX` is zero. The
base of `ES` is read from the descriptor table every time, so that the elements have to be clear of
the table. After `k` dispatches the first `k` elements are stored and nothing else is.
-/

namespace I386Vm

open Bytes Prog

namespace Machine

variable (s : Machine) (w : Width) (n : ℕ)

/-- The address of element `i`. -/
def fillAddr (i : ℕ) : ℕ := (s.getGdtBase ((s.reg .es).setWidth 16) + s.elem .edi w i).toNat

/-- The lowest address of `n` elements. -/
def fillLow : ℕ :=
  if s.testFlag .DF then s.fillAddr w 0 - (n - 1) * w.bytes else s.fillAddr w 0

/-- The `n` elements from `ES:EDI` on, in the direction of `DF`, neither wrap nor lie in the
descriptor table. -/
structure CanFill : Prop where
  wraps : if s.testFlag .DF then
      (n - 1) * w.bytes ≤ s.fillAddr w 0 ∧ s.fillAddr w 0 + w.bytes ≤ 2 ^ 32
    else s.fillAddr w 0 + n * w.bytes ≤ 2 ^ 32
  apart : s.fillLow w n + n * w.bytes ≤ s.gdtr.base.toNat ∨
    s.gdtr.base.toNat + gdtEntries * gdtDescriptorSize ≤ s.fillLow w n

/-- The place of element `i` among the `n`, from the lowest on. -/
def fillSlot (i : ℕ) : ℕ := if s.testFlag .DF then n - 1 - i else i

variable {s w n}

theorem fillAddr_eq (h : s.CanFill w n) {i : ℕ} (hi : i < n) :
    s.fillAddr w i = s.fillLow w n + s.fillSlot n i * w.bytes := by
  have hwraps := h.wraps
  have hzero : s.fillAddr w 0 =
      (s.getGdtBase ((s.reg .es).setWidth 16) + s.reg .edi).toNat := by
    unfold fillAddr
    rw [elem_zero]
  unfold fillLow fillSlot
  rw [hzero] at hwraps ⊢
  unfold fillAddr elem stride
  rw [← BitVec.add_assoc]
  generalize s.getGdtBase ((s.reg .es).setWidth 16) + s.reg .edi = a at hwraps ⊢
  split_ifs at hwraps ⊢ with hdf
  · rw [BitVec.mul_neg, ← BitVec.ofNat_mul, ← BitVec.sub_eq_add_neg]
    cases w <;> simp only [Width.bytes] at hwraps ⊢ <;> bv_omega
  · rw [← BitVec.ofNat_mul]
    cases w <;> simp only [Width.bytes] at hwraps ⊢ <;> bv_omega

theorem fillSlot_lt {i : ℕ} (hi : i < n) : s.fillSlot n i < n := by
  unfold fillSlot
  split <;> omega

/-- Two elements do not overlap. -/
theorem fillAddr_apart (h : s.CanFill w n) {i k : ℕ} (hi : i < n) (hk : k < n) (hne : i ≠ k) :
    s.fillAddr w i + w.bytes ≤ s.fillAddr w k ∨ s.fillAddr w k + w.bytes ≤ s.fillAddr w i := by
  have hslot : s.fillSlot n i ≠ s.fillSlot n k := by
    unfold fillSlot
    split <;> omega
  rw [fillAddr_eq h hi, fillAddr_eq h hk]
  cases w <;> simp only [Width.bytes] <;> omega

theorem fillAddr_clear (h : s.CanFill w n) {i : ℕ} (hi : i < n) (x : BitVec 16) :
    s.fillAddr w i + w.bytes ≤ s.gdtDescriptor x ∨ s.gdtDescriptor x + 9 ≤ s.fillAddr w i := by
  have hapart := h.apart
  have hslot := @fillSlot_lt s n i hi
  have hindex : ((x >>> 3) &&& 0x1FFF).toNat % gdtEntries < gdtEntries := Nat.mod_lt _ (by decide)
  rw [fillAddr_eq h hi]
  unfold gdtDescriptor
  unfold gdtEntries gdtDescriptorSize at *
  cases w <;> simp only [Width.bytes] at hapart ⊢ <;> omega

end Machine

/-- What a dispatch of `REP STOS` does before it looks at `ECX`. -/
def Machine.repStored (s : Machine) (w : Width) : Machine :=
  (s.stored w).setReg .ecx (s.reg .ecx - 1)

/-- The first `k` elements are stored, and the pointer and the count have moved as far. -/
structure Filled (w : Width) (k : ℕ) (s t : Machine) : Prop where
  state : t = { s with
    reg := Function.update (Function.update s.reg .edi (s.elem .edi w k)) .ecx
      (s.reg .ecx - BitVec.ofNat 32 k)
    mem := t.mem }
  elems : ∀ i < k, t.peek w (.mem (s.fillAddr w i)) = s.peek w (.var .eax)
  frame : ∀ x, (∀ i < k, ¬ (s.fillAddr w i ≤ x ∧ x < s.fillAddr w i + w.bytes)) →
    t.mem x = s.mem x

section Steps

variable {w : Width} {insn : CsInsn} {s t : Machine} {n k : ℕ}

theorem repStosI_run (hs : insn.op1.size = w.size) :
    (repStosI insn).run s = .ok (some 0,
      if s.reg .ecx - 1 = 0 then (s.repStored w).advance insn else s.repStored w) := by
  have hecx : (s.repStored w).reg .ecx = s.reg .ecx - 1 := s.reg_setReg .ecx _
  have hdone : (advanceIfDone insn).run (s.repStored w) = .ok ((),
      if s.reg .ecx - 1 = 0 then (s.repStored w).advance insn else s.repStored w) := by
    unfold advanceIfDone
    rw [run_bind_ok run_get_ok, hecx]
    split <;> rfl
  unfold repStosI
  rw [hs, widthOr32_size, run_bind_ok (stosElem_run w s)]
  change (advanceIfDone insn >>= fun _ => pure (some 0)).run (s.repStored w) = _
  rw [run_bind_ok hdone]
  rfl

theorem filled_zero (w : Width) (s : Machine) : Filled w 0 s s := by
  refine ⟨?_, nofun, fun _ _ => rfl⟩
  rw [Machine.elem_zero, Function.update_eq_self, BitVec.sub_zero, Function.update_eq_self]

theorem Filled.reg_eq (h : Filled w k s t) {v : Var} (h1 : v ≠ .edi) (h2 : v ≠ .ecx) :
    t.reg v = s.reg v := by
  rw [h.state]
  exact (Function.update_of_ne h2 _ _).trans (Function.update_of_ne h1 _ _)

theorem Filled.edi (h : Filled w k s t) : t.reg .edi = s.elem .edi w k := by
  rw [h.state]
  simp

theorem Filled.ecx (h : Filled w k s t) : t.reg .ecx = s.reg .ecx - BitVec.ofNat 32 k := by
  rw [h.state]
  simp

theorem Filled.stride (h : Filled w k s t) (n : ℕ) : t.stride n = s.stride n := by
  rw [h.state]
  rfl

/-- The base of `ES` is what it was, so that the next element goes where it should. -/
theorem Filled.addr (h : Filled w k s t) (hfill : s.CanFill w n) (hk : k < n) :
    (t.getGdtBase ((t.reg .es).setWidth 16) + t.reg .edi).toNat = s.fillAddr w k := by
  have hgdtr : t.gdtr = s.gdtr := by
    rw [h.state]
  rw [h.reg_eq (by decide) (by decide), h.edi, getGdtBase_congr hgdtr fun x h1 h2 => h.frame x
    fun i hi hin => ?_]
  · rfl
  · have hclear := Machine.fillAddr_clear hfill (hi.trans hk) ((s.reg .es).setWidth 16)
    omega

theorem Filled.next (h : Filled w k s t) (hfill : s.CanFill w n) (hk : k < n) :
    Filled w (k + 1) s (t.repStored w) := by
  have hmem : (t.repStored w).mem = writeLE t.mem (s.fillAddr w k) w.bytes (s.reg .eax) := by
    rw [← h.addr hfill hk, ← h.reg_eq (v := .eax) (by decide) (by decide)]
    rfl
  have hstate : t.repStored w = { t with
      reg := Function.update (Function.update t.reg .edi (t.reg .edi + t.stride w.bytes)) .ecx
        (t.reg .ecx - 1)
      mem := (t.repStored w).mem } := rfl
  refine ⟨?_, fun i hi => ?_, fun x hx => ?_⟩
  · have hcount : s.reg .ecx - BitVec.ofNat 32 k - 1 = s.reg .ecx - BitVec.ofNat 32 (k + 1) := by
      rw [BitVec.ofNat_add]
      bv_omega
    have hreg : Function.update (Function.update t.reg .edi (t.reg .edi + t.stride w.bytes)) .ecx
        (t.reg .ecx - 1) = Function.update (Function.update s.reg .edi (s.elem .edi w (k + 1))) .ecx
          (s.reg .ecx - BitVec.ofNat 32 (k + 1)) := by
      funext v
      rw [h.edi, h.ecx, h.stride, ← s.elem_succ, hcount]
      by_cases h2 : v = .ecx
      · rw [h2, Function.update_self, Function.update_self]
      · rw [Function.update_of_ne h2, Function.update_of_ne h2]
        by_cases h1 : v = .edi
        · rw [h1, Function.update_self, Function.update_self]
        · rw [Function.update_of_ne h1, Function.update_of_ne h1, h.reg_eq h1 h2]
    rw [hreg] at hstate
    rw [hstate, h.state]
  · change readLE (t.repStored w).mem _ _ = _
    rw [hmem]
    rcases Nat.lt_succ_iff_lt_or_eq.1 hi with hlt | rfl
    · have hapart := Machine.fillAddr_apart hfill (hlt.trans hk) hk hlt.ne
      rw [readLE_writeLE_of_disjoint (by omega)]
      exact h.elems i hlt
    · exact readLE_writeLE _ _ _ _
  · rw [hmem, writeLE_of_not_mem (hx k (Nat.lt_succ_self k))]
    exact h.frame x fun i hi => hx i (Nat.lt_succ_of_lt hi)

end Steps

def repStosMnemonics : List String := ["rep stosb", "rep stosw", "rep stosd"]

set_option maxRecDepth 4000 in
theorem dispatcher_repStos (host : Host) {m : String} (hm : m ∈ repStosMnemonics)
    (insn : CsInsn) : dispatcher host m insn = repStosI insn := by
  have hhandler : handlerOf host m = some repStosI := by
    simp only [repStosMnemonics, List.mem_cons, List.not_mem_nil, or_false] at hm
    rcases hm with rfl | rfl | rfl <;> rfl
  unfold dispatcher
  rw [hhandler]

/-- It takes `n` dispatches, which leave `ECX` zero, `EDI` at element `n` and `eip` behind the
instruction; they store `n` elements and change nothing else. -/
structure Fills (host : Host) (m : String) (w : Width) (insn : CsInsn) (n : ℕ) (s t : Machine) :
    Prop where
  dispatches : Leaves host m insn n s t
  eip : t.eip = s.eip + insn.size.setWidth 32
  ecx : t.reg .ecx = 0
  edi : t.reg .edi = s.reg .edi + BitVec.ofNat 32 n * s.stride w.bytes
  elems : ∀ i < n, t.peek w (.mem (s.fillAddr w i)) = s.peek w (.var .eax)
  frame : ∀ x, (∀ i < n, ¬ (s.fillAddr w i ≤ x ∧ x < s.fillAddr w i + w.bytes)) →
    t.mem x = s.mem x
  regs : ∀ v, v ≠ .ecx → v ≠ .edi → t.reg v = s.reg v
  rest : t = { s with reg := t.reg, mem := t.mem, eip := t.eip }

section Runs

variable {w : Width} {host : Host} {m : String} {insn : CsInsn} {s : Machine} {n : ℕ}

/-- From `k` elements on, `l + 1` dispatches are left. -/
theorem leaves_of_filled (hm : m ∈ repStosMnemonics) (hs : insn.op1.size = w.size) [insn.Decoded]
    (hfill : s.CanFill w n) (hecx : (s.reg .ecx).toNat = n) :
    ∀ (l k : ℕ) (u : Machine), k + l + 1 = n → Filled w k s u →
      ∃ t, Leaves host m insn (l + 1) u (t.advance insn) ∧ Filled w n s t := by
  intro l
  induction l with
  | zero =>
    intro k u hk hu
    have hlast : u.reg .ecx - 1 = 0 := by
      rw [hu.ecx]
      bv_omega
    have hrun := @repStosI_run w insn u hs
    rw [if_pos hlast, ← dispatcher_repStos host hm] at hrun
    have hnext := hu.next hfill (by omega)
    obtain rfl : k + 1 = n := by omega
    exact ⟨_, .last hrun (advance_eip_ne u insn), hnext⟩
  | succ l ih =>
    intro k u hk hu
    have hmore : u.reg .ecx - 1 ≠ 0 := by
      rw [hu.ecx]
      bv_omega
    have hrun := @repStosI_run w insn u hs
    rw [if_neg hmore, ← dispatcher_repStos host hm] at hrun
    obtain ⟨t, hleaves, ht⟩ := ih (k + 1) _ (by omega) (hu.next hfill (by omega))
    exact ⟨t, .again hrun rfl hleaves, ht⟩

/-- `REP STOS` stores as many elements as `ECX` says, one a dispatch. -/
theorem repStos_fills (host : Host) (hm : m ∈ repStosMnemonics) (hs : insn.op1.size = w.size)
    [insn.Decoded] (hn : 1 ≤ n) (hecx : (s.reg .ecx).toNat = n) (hfill : s.CanFill w n) :
    ∃ t, Fills host m w insn n s t := by
  obtain ⟨t, hleaves, ht⟩ := @leaves_of_filled w host m insn s n hm hs _ hfill hecx (n - 1)
    0 s (by omega) (filled_zero w s)
  rw [Nat.sub_add_cancel hn] at hleaves
  have heip : t.eip = s.eip := by
    rw [ht.state]
  refine ⟨t.advance insn, hleaves, ?_, ?_, ht.edi, ht.elems, ht.frame,
    fun v h1 h2 => ht.reg_eq h2 h1, ?_⟩
  · rw [← heip]
    rfl
  · change t.reg .ecx = 0
    rw [ht.ecx]
    bv_omega
  · rw [ht.state]
    rfl

end Runs

def repStosb : CsInsn := .bare "rep stosb" 2 [⟨.mem ⟨.es, .edi, .invalid, 1, 0⟩, 1⟩, ⟨.reg .al, 1⟩]

/-- Three bytes behind the descriptor table at 0. -/
theorem repStos_fills_three : ∃ t, Fills .silent "rep stosb" .byte repStosb 3
    ((Machine.blank.setReg .ecx 3).setReg .edi 100) t := by
  have hd : repStosb.Decoded := ⟨by decide, by decide, by decide⟩
  exact repStos_fills .silent (by decide) (by decide) (by decide) (by decide)
    ⟨by decide, by decide⟩

end I386Vm
