import I386Vm.Proofs.Leave
import I386Vm.Proofs.SaveAreas

/-!
# `ENTER`

`enter_i` pushes `EBP`, then a word for each level below its own and the new frame pointer, and each
of those words is the address in the display where it should read one. `Machine.pushAll` is the
list of pushes. The words of a list are back in memory, so that two lists of a length that give the
same memory are one.
-/

namespace I386Vm

open Bytes Prog

namespace Machine

/-- The words pushed one after the other. -/
def pushAll (s : Machine) (ws : List (BitVec 32)) : Machine := ws.foldl push32 s

variable {s : Machine} {v w x : BitVec 32} {ws ws' : List (BitVec 32)} {i : ℕ}

theorem pushAll_cons : s.pushAll (w :: ws) = (s.push32 w).pushAll ws := rfl

theorem pushAll_append : s.pushAll (ws ++ ws') = (s.pushAll ws).pushAll ws' := List.foldl_append

theorem push32_setReg_ebp : (s.setReg .ebp x).push32 v = (s.push32 v).setReg .ebp x := by
  have hne : Var.esp ≠ Var.ebp := by decide
  have hesp : (s.setReg .ebp x).reg .esp = s.reg .esp := s.reg_setReg_of_ne hne _
  unfold push32
  rw [hesp]
  exact congrArg (fun reg => { s.push32 v with reg := reg }) (Function.update_comm hne.symm _ _ _)

theorem pushAll_setReg_ebp : ∀ {ws : List (BitVec 32)} {s : Machine},
    (s.setReg .ebp x).pushAll ws = (s.pushAll ws).setReg .ebp x
  | [], _ => rfl
  | w :: ws, s => by
    rw [pushAll_cons, push32_setReg_ebp, pushAll_setReg_ebp, pushAll_cons]

/-- What was on the stack lies above the words. -/
theorem stack_pushAll : ∀ {ws : List (BitVec 32)} {s : Machine} {i : ℕ},
    4 * ws.length + i < 2 ^ 32 → (s.pushAll ws).stack (4 * ws.length + i) = s.stack i
  | [], s, i, _ => by
    rw [List.length_nil, Nat.mul_zero, Nat.zero_add]
    rfl
  | w :: ws, s, i, h => by
    rw [List.length_cons] at h ⊢
    have hadd : 4 * (ws.length + 1) + i = 4 * ws.length + (4 + i) := by omega
    rw [pushAll_cons, hadd, stack_pushAll (by omega), isPush_push32.high s w i (by omega)]

/-- The first word lies above the others. -/
theorem stack_pushAll_cons (hlen : 4 * ws.length + 4 ≤ 2 ^ 32) (hi : i < 4) :
    (s.pushAll (w :: ws)).stack (4 * ws.length + i) = byteOf i w := by
  rw [pushAll_cons, stack_pushAll (by omega), isPush_push32.low s w i hi]

theorem eq_of_byteOf (h : ∀ i < 4, byteOf i v = byteOf i w) : v = w := by
  apply BitVec.eq_of_getLsbD_eq
  intro i hi
  have hbit := byteOf_eq_iff.1 (h (i / 8) (by omega)) (i % 8) (by omega)
  rwa [Nat.div_add_mod] at hbit

theorem pushAll_inj : ∀ {ws ws' : List (BitVec 32)} {s : Machine}, ws.length = ws'.length →
    4 * ws.length ≤ 2 ^ 32 → (s.pushAll ws).stack = (s.pushAll ws').stack → ws = ws'
  | [], [], _, _, _, _ => rfl
  | w :: ws, w' :: ws', s, hlen, hle, h => by
    rw [List.length_cons, List.length_cons, Nat.add_right_cancel_iff] at hlen
    rw [List.length_cons] at hle
    obtain rfl : w = w' := by
      refine eq_of_byteOf fun i hi => ?_
      rw [← @stack_pushAll_cons s w ws i (by omega) hi, h, hlen,
        stack_pushAll_cons (by omega) hi]
    rw [pushAll_inj hlen (by omega) h]

theorem esp_pushAll : ∀ {ws : List (BitVec 32)} {s : Machine},
    (s.pushAll ws).reg .esp = s.reg .esp - BitVec.ofNat 32 (4 * ws.length)
  | [], s => (BitVec.sub_zero _).symm
  | w :: ws, s => by
    rw [pushAll_cons, esp_pushAll, reg_push32_esp, List.length_cons, Nat.mul_succ, BitVec.ofNat_add]
    bv_omega

end Machine

namespace Machine

/-- What `ENTER` pushes, with a word from `get` for each address in the display. -/
def frameWords (s : Machine) (get : BitVec 32 → BitVec 32) (level : ℕ) : List (BitVec 32) :=
  s.reg .ebp :: if level = 0 then [] else
    (List.range (level - 1)).map (fun i => get (s.reg .ebp - BitVec.ofNat 32 (4 * (i + 1)))) ++
      [s.reg .esp - 4]

/-- The words are pushed, `EBP` points to the first, and `n` bytes are below the last. -/
def framed (s : Machine) (ws : List (BitVec 32)) (n : BitVec 32) : Machine :=
  ((s.pushAll ws).setReg .ebp (s.reg .esp - 4)).setReg .esp ((s.pushAll ws).reg .esp - n)

end Machine

section Handler

variable {insn : CsInsn} {s : Machine}

/-- The display as `enter_i` goes through it. -/
theorem enterLevels_run : ∀ (n : ℕ) (s : Machine), (enterLevels n).run s = .ok ((),
    (s.pushAll ((List.range n).map fun i => s.reg .ebp - BitVec.ofNat 32 (4 * (i + 1)))).setReg
      .ebp (s.reg .ebp - BitVec.ofNat 32 (4 * n)))
  | 0, s => by
    have hzero : s.reg .ebp - BitVec.ofNat 32 0 = s.reg .ebp := BitVec.sub_zero _
    rw [Nat.mul_zero, hzero]
    exact congrArg (fun t => Except.ok ((), t)) (s.setReg_self .ebp).symm
  | n + 1, s => by
    have hebp : ((s.push32 (s.reg .ebp - 4)).setReg .ebp (s.reg .ebp - 4)).reg .ebp =
        s.reg .ebp - 4 := Machine.reg_setReg _ _ _
    have hsub (i : ℕ) : s.reg .ebp - 4 - BitVec.ofNat 32 (4 * i) =
        s.reg .ebp - BitVec.ofNat 32 (4 * (i + 1)) := by
      rw [Nat.mul_succ, BitVec.ofNat_add]
      bv_omega
    have hrun : (enterLevels (n + 1)).run s = (enterLevels n).run
        ((s.setReg .ebp (s.reg .ebp - 4)).push32 (s.reg .ebp - 4)) := rfl
    rw [hrun, Machine.push32_setReg_ebp, enterLevels_run n, hebp, Machine.pushAll_setReg_ebp,
      List.range_succ_eq_map, List.map_cons, List.map_map, Machine.pushAll_cons, hsub n]
    simp only [hsub, Machine.setReg_setReg]
    rfl

variable (insn) in
/-- The level that `ENTER` gives. -/
def CsInsn.enterLevel : ℕ := (insn.op2.imm.setWidth 8).toNat

variable (insn) in
def CsInsn.enterSize : BitVec 32 := (insn.op1.imm.setWidth 16).setWidth 32

/-- The words pushed are the addresses themselves. -/
theorem enterI_run (insn : CsInsn) (s : Machine) : (enterI insn).run s = .ok (some 0,
    (s.advance insn).framed (s.frameWords id insn.enterLevel) insn.enterSize) := by
  have hlevels : ∃ y, (if (insn.op2.imm.setWidth 8 : BitVec 8) ≠ 0 then do
        enterLevels ((insn.op2.imm.setWidth 8).toNat - 1)
        push32 (s.reg .esp - 4)
      else return ()).run ((s.advance insn).push32 (s.reg .ebp)) =
      .ok ((), ((s.advance insn).pushAll (s.frameWords id insn.enterLevel)).setReg .ebp y) := by
    unfold Machine.frameWords CsInsn.enterLevel
    by_cases hlevel : (insn.op2.imm.setWidth 8 : BitVec 8) = 0
    · refine ⟨s.reg .ebp, ?_⟩
      rw [if_neg (not_not.2 hlevel), hlevel, if_pos (by rfl)]
      exact congrArg (fun t => Except.ok ((), t)) (Machine.setReg_self _ .ebp).symm
    · have hpos : (insn.op2.imm.setWidth 8).toNat ≠ 0 := fun h =>
        hlevel (BitVec.eq_of_toNat_eq h)
      rw [if_pos hlevel, if_neg hpos, run_bind_ok (enterLevels_run _ _), push32_run,
        Machine.push32_setReg_ebp, Machine.pushAll_cons, Machine.pushAll_append]
      exact ⟨_, rfl⟩
  obtain ⟨y, hy⟩ := hlevels
  unfold enterI
  rw [run_bind_ok (advance_run s insn), run_bind_ok run_get_ok, run_bind_ok (push32_run _ _)]
  refine (run_bind_ok hy).trans ?_
  rw [run_bind_ok (setReg_run _ _ _), run_bind_ok (addEsp_run _ _), Machine.setReg_setReg,
    Machine.reg_setReg_of_ne _ (by decide)]
  have hsize : zeroExtend16_32 (insn.op1.imm.setWidth 16) = insn.enterSize := by
    have hmask : (0x0000FFFF : BitVec 32).toNat = 2 ^ 16 - 1 := rfl
    unfold zeroExtend16_32 CsInsn.enterSize
    apply BitVec.eq_of_toNat_eq
    rw [BitVec.toNat_and, hmask, Nat.and_two_pow_sub_one_eq_mod, Nat.mod_eq_of_lt]
    bv_omega
  rw [hsize, ← BitVec.sub_eq_add_neg]
  rfl

end Handler

/-- `ENTER` pushes the words that the display holds. -/
def EntersFrame (insn : CsInsn) (s : Machine) : Prop :=
  ∃ r, (enterI insn).run s = .ok (r,
    (s.advance insn).framed (s.frameWords s.read32 insn.enterLevel) insn.enterSize)

/-- After `ENTER`, and whatever keeps `EBP` and the slot it points to, `LEAVE` restores `EBP` and
`ESP`. -/
def LeavesFrame (insn leave : CsInsn) (s : Machine) : Prop :=
  ∃ r t, (enterI insn).run s = .ok (r, t) ∧ ∀ w : Machine, w.reg .ebp = t.reg .ebp →
    (∀ j < 4, w.mem (slotByte (s.reg .esp) j) = t.mem (slotByte (s.reg .esp) j)) →
    ∃ x, (leaveI leave).run w = .ok (some 0, x) ∧ x.reg .ebp = s.reg .ebp ∧
      x.reg .esp = s.reg .esp

section Frame

variable {s : Machine} {get get' : BitVec 32 → BitVec 32} {level : ℕ} {n : BitVec 32}

theorem length_frameWords (s : Machine) (get : BitVec 32 → BitVec 32) (level : ℕ) :
    (s.frameWords get level).length = level + 1 := by
  unfold Machine.frameWords
  rcases level with _ | level
  · rfl
  · simp

theorem frameWords_eq_iff : s.frameWords get level = s.frameWords get' level ↔
    ∀ i, 1 ≤ i → i < level → get (s.reg .ebp - BitVec.ofNat 32 (4 * i)) =
      get' (s.reg .ebp - BitVec.ofNat 32 (4 * i)) := by
  unfold Machine.frameWords
  rcases level with _ | level
  · exact iff_of_true rfl fun i _ hi => absurd hi (Nat.not_lt_zero i)
  · simp only [List.cons.injEq, true_and, Nat.succ_ne_zero, if_false, List.append_cancel_right_eq,
      Nat.add_sub_cancel, List.map_inj_left, List.mem_range]
    constructor
    · intro h i h1 hi
      obtain ⟨i, rfl⟩ := Nat.exists_eq_add_of_le' h1
      exact h i (by omega)
    · exact fun h i hi => h (i + 1) (by omega) (by omega)

/-- The same state twice only with the same words. -/
theorem framed_inj {ws ws' : List (BitVec 32)} (hlen : ws.length = ws'.length)
    (hle : 4 * ws.length ≤ 2 ^ 32) (h : s.framed ws n = s.framed ws' n) : ws = ws' := by
  have hmem : (s.framed ws n).mem = (s.framed ws' n).mem := congrArg Machine.mem h
  change (s.pushAll ws).mem = (s.pushAll ws').mem at hmem
  have hstack : (s.pushAll ws).stack = (s.pushAll ws').stack := by
    funext i
    unfold Machine.stack Machine.wrapped
    rw [Machine.esp_pushAll, Machine.esp_pushAll, hlen, hmem]
  exact Machine.pushAll_inj hlen hle hstack

/-- The slot keeps the first word. -/
theorem framed_slot {w : BitVec 32} {ws : List (BitVec 32)} (hle : 4 * ws.length + 4 ≤ 2 ^ 32)
    {j : ℕ} (hj : j < 4) :
    (s.framed (w :: ws) n).mem (slotByte (s.reg .esp) j) = byteOf j w := by
  have hsub (y : BitVec 32) :
      s.reg .esp - (BitVec.ofNat 32 (4 * ws.length) + BitVec.ofNat 32 4) +
        (BitVec.ofNat 32 (4 * ws.length) + y) = s.reg .esp - BitVec.ofNat 32 4 + y := by
    bv_omega
  rw [← @Machine.stack_pushAll_cons s w ws j hle hj]
  unfold Machine.stack Machine.wrapped
  rw [Machine.esp_pushAll, List.length_cons, Nat.mul_succ, BitVec.ofNat_add, BitVec.ofNat_add,
    hsub, Machine.toNat_add_lit _ j hj]
  rfl

end Frame

section Instructions

variable {insn leave : CsInsn}

theorem enterLevel_lt (insn : CsInsn) : insn.enterLevel < 2 ^ 8 := BitVec.isLt _

theorem entersFrame_iff (s : Machine) : EntersFrame insn s ↔
    ∀ i, 1 ≤ i → i < insn.enterLevel →
      s.read32 (s.reg .ebp - BitVec.ofNat 32 (4 * i)) = s.reg .ebp - BitVec.ofNat 32 (4 * i) := by
  have hlt := enterLevel_lt insn
  have hlen : (s.frameWords id insn.enterLevel).length =
      (s.frameWords s.read32 insn.enterLevel).length := by
    rw [length_frameWords, length_frameWords]
  unfold EntersFrame
  rw [enterI_run]
  constructor
  · rintro ⟨r, h⟩
    simp only [Except.ok.injEq, Prod.mk.injEq] at h
    have hwords := framed_inj hlen (by rw [length_frameWords]; omega) h.2
    exact fun i h1 hi => (frameWords_eq_iff.1 hwords i h1 hi).symm
  · intro h
    exact ⟨some 0, by rw [frameWords_eq_iff.2 fun i h1 hi => (h i h1 hi).symm]⟩

/-- `ENTER` puts `EBP` in a slot and the address of the slot in `EBP`. -/
theorem enterI_slot_run (insn : CsInsn) (s : Machine) :
    ∃ t, (enterI insn).run s = .ok (some 0, t) ∧ t.reg .ebp = s.reg .esp - 4 ∧
      ∀ j < 4, t.mem (slotByte (s.reg .esp) j) = byteOf j (s.reg .ebp) := by
  have hlt := enterLevel_lt insn
  refine ⟨_, enterI_run insn s, ?_, fun j hj => ?_⟩
  · refine (Machine.reg_setReg_of_ne _ (by decide) _).trans ?_
    exact Machine.reg_setReg _ _ _
  · refine @framed_slot (s.advance insn) insn.enterSize (s.reg .ebp)
      (s.frameWords id insn.enterLevel).tail ?_ j hj
    rw [List.length_tail, length_frameWords]
    omega

theorem leavesFrame_iff (hwide : leave.prefix0 ≠ 0x66) (s : Machine) :
    LeavesFrame insn leave s ↔ (s.reg .ebp).toNat < 2 ^ 16 := by
  obtain ⟨t, hrun, hebp, hslot⟩ := enterI_slot_run insn s
  unfold LeavesFrame
  rw [hrun, ← low_sixteen_eq_iff]
  constructor
  · rintro ⟨r, t', heq, hall⟩
    cases heq
    obtain ⟨x, hx, hxebp, -⟩ := hall t rfl fun _ _ => rfl
    obtain ⟨x', hx', -, hlow⟩ := leaveI_slot_run hwide hebp hslot
    rw [hx] at hx'
    cases hx'
    rw [← hlow, hxebp]
  · intro hlow
    refine ⟨_, t, rfl, fun w hw hkept => ?_⟩
    obtain ⟨x, hx, hxesp, hxebp⟩ := leaveI_slot_run hwide (hw.trans hebp) fun j hj =>
      (hkept j hj).trans (hslot j hj)
    exact ⟨x, hx, hxebp.trans hlow, hxesp⟩

/-- `ENTER` does what it should iff the words of the display are their own addresses, and `LEAVE`
after it iff `EBP` has 16 bits. -/
theorem enter_leave_iff (hwide : leave.prefix0 ≠ 0x66) (s : Machine) :
    (EntersFrame insn s ↔ ∀ i, 1 ≤ i → i < insn.enterLevel →
      s.read32 (s.reg .ebp - BitVec.ofNat 32 (4 * i)) = s.reg .ebp - BitVec.ofNat 32 (4 * i)) ∧
    (LeavesFrame insn leave s ↔ (s.reg .ebp).toNat < 2 ^ 16) :=
  ⟨entersFrame_iff s, leavesFrame_iff hwide s⟩

end Instructions

def enterInsn (size level : BitVec 64) : CsInsn :=
  .bare "enter" 4 [⟨.imm size, 2⟩, ⟨.imm level, 1⟩]

/-- `EBP` is 8, `ESP` is 256, and the word at 4 is this byte. -/
def displayAt4 (x : BitVec 8) : Machine :=
  { (Machine.blank.setReg .ebp 8).setReg .esp 256 with mem := fun i => if i = 4 then x else 0 }

/-- Level 2, where the word of the display is its address. -/
theorem enter_leave_two : EntersFrame (enterInsn 16 2) (displayAt4 4) ∧
    LeavesFrame (enterInsn 16 2) leave32 (displayAt4 4) := by
  have h := @enter_leave_iff (enterInsn 16 2) leave32 (by decide) (displayAt4 4)
  refine ⟨h.1.2 fun i h1 hi => ?_, h.2.2 (by decide)⟩
  change i < 2 at hi
  obtain rfl : i = 1 := by omega
  rfl

/-- Level 2 with the display below the stack, and a word of it that is not its address. -/
theorem not_enter_leave : ¬ ∀ (insn leave : CsInsn) (s : Machine), leave.prefix0 ≠ 0x66 →
    insn.enterLevel < 32 →
    4 * (insn.enterLevel + 1) + insn.enterSize.toNat ≤ (s.reg .esp).toNat →
    4 * insn.enterLevel ≤ (s.reg .ebp).toNat + 4 →
    (s.reg .ebp).toNat ≤ (s.reg .esp).toNat - 4 * (insn.enterLevel + 1) →
    EntersFrame insn s ∧ LeavesFrame insn leave s := by
  intro hall
  have h := hall (enterInsn 16 2) leave32 (displayAt4 0) (by decide) (by decide) (by decide)
    (by decide) (by decide)
  have hword := (entersFrame_iff (displayAt4 0)).1 h.1 1 le_rfl (by decide)
  revert hword
  decide

end I386Vm
