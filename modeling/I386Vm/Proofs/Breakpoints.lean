import I386Vm.Debugger
import Mathlib.Tactic.Ring

/-!
# The breakpoint table

What the commands are for is a table of 25 slots with an address in each live one. `b` fills the
slots in turn and `d` empties one. The debugger keeps an array and a counter that is both the next
slot and the number of slots it tests, and a deleted slot holds 0, so after a multiple of 25 `b`s it
tests nothing, and a deleted breakpoint stops at address 0.
-/

namespace I386Vm

/-- The table: the address in each live slot, and how many breakpoints were ever added. -/
structure Breakpoints where
  live : ℕ → Option (BitVec 32)
  added : ℕ

namespace Breakpoints

def empty : Breakpoints := ⟨fun _ => none, 0⟩

variable (t : Breakpoints)

def add (dir : BitVec 32) : Breakpoints where
  live := Function.update t.live (t.added % maxBrk) (some dir)
  added := t.added + 1

def remove (slot : ℕ) : Breakpoints := { t with live := Function.update t.live slot none }

/-- `eip` is the address of a live breakpoint. -/
def Live (eip : BitVec 32) : Prop := ∃ i < maxBrk, t.live i = some eip

/-- Some slot before the one that is filled next has these contents. -/
def Below (o : Option (BitVec 32)) : Prop := ∃ i < t.added % maxBrk, t.live i = o

/-- If `eip` is live, it is so before the next slot, or it is 0 and a slot there is empty; and if it
is 0 and a slot there is empty, it is live. -/
def Fits (eip : BitVec 32) : Prop :=
  (t.Live eip → t.Below (some eip) ∨ (eip = 0 ∧ t.Below none)) ∧
    (eip = 0 → t.Below none → t.Live 0)

end Breakpoints

/-- What the commands given so far should have made and what they have made. The breakpoint in slot
`i` has the number `i + 1`. -/
inductive Session : Breakpoints → Debugger → Prop
  | start (garbage : ℕ → BitVec 32) : Session .empty (.start garbage)
  | b {t : Breakpoints} {d : Debugger} (dir : BitVec 32) (before : Session t d) :
      Session (t.add dir) (d.cmdB dir)
  | d {t : Breakpoints} {d : Debugger} {i : ℕ} {dir : BitVec 32} (before : Session t d)
      (slot : i < maxBrk) (exist : t.live i = some dir) :
      Session (t.remove i) (d.cmdD (BitVec.ofNat 32 (i + 1)))

/-- The array holds the live addresses, and 0 where a breakpoint was and is no more. -/
structure Represents (t : Breakpoints) (d : Debugger) : Prop where
  ctr : d.brkCtr.toNat = t.added % maxBrk
  live : ∀ i < maxBrk, ∀ dir, t.live i = some dir → d.brkpts i = dir
  dead : ∀ i < maxBrk, i < t.added → t.live i = none → d.brkpts i = 0

section Represents

variable {t : Breakpoints} {d : Debugger}

theorem Represents.cmdB (h : Represents t d) (dir : BitVec 32) :
    Represents (t.add dir) (d.cmdB dir) := by
  have hctr := h.ctr
  constructor
  · have hone : (1 : BitVec 8).toNat = 1 := rfl
    have hmax : (BitVec.ofNat 8 maxBrk).toNat = maxBrk := rfl
    unfold Debugger.cmdB Breakpoints.add
    rw [BitVec.toNat_umod, BitVec.toNat_add, hctr, hone, hmax]
    change _ = (t.added + 1) % maxBrk
    unfold maxBrk
    omega
  · intro i hi a hl
    simp only [Debugger.cmdB, Breakpoints.add, hctr, Function.update_apply] at hl ⊢
    split at hl
    · rename_i hslot
      rw [if_pos hslot]
      exact (Option.some.inj hl)
    · rename_i hslot
      rw [if_neg hslot]
      exact h.live i hi a hl
  · intro i hi hadded hl
    simp only [Debugger.cmdB, Breakpoints.add, hctr, Function.update_apply] at hadded hl ⊢
    split at hl
    · cases hl
    · rename_i hslot
      rw [if_neg hslot]
      -- a slot that is neither filled now nor was before is one of the first round still to come
      refine h.dead i hi ?_ hl
      by_contra hge
      have hi' : i = t.added := by omega
      rw [← hi', Nat.mod_eq_of_lt hi] at hslot
      exact hslot rfl

theorem Represents.cmdD (h : Represents t d) {i : ℕ} (hi : i < maxBrk) :
    Represents (t.remove i) (d.cmdD (BitVec.ofNat 32 (i + 1))) := by
  have hidx : ((BitVec.ofNat 32 (i + 1) - 1) % BitVec.ofNat 32 maxBrk).toNat = i := by
    have hone : (1 : BitVec 32).toNat = 1 := rfl
    have hmax : (BitVec.ofNat 32 maxBrk).toNat = maxBrk := rfl
    rw [BitVec.toNat_umod, BitVec.toNat_sub, BitVec.toNat_ofNat, hone, hmax]
    unfold maxBrk at *
    omega
  refine ⟨h.ctr, fun j hj a hl => ?_, fun j hj hadded hl => ?_⟩
  · simp only [Debugger.cmdD, Breakpoints.remove, hidx, Function.update_apply] at hl ⊢
    split at hl
    · cases hl
    · rename_i hne
      rw [if_neg hne]
      exact h.live j hj a hl
  · simp only [Debugger.cmdD, Breakpoints.remove, hidx, Function.update_apply] at hl ⊢
    split at hl
    · rename_i heq
      rw [if_pos heq]
    · rename_i hne
      rw [if_neg hne]
      exact h.dead j hj hadded hl

theorem Session.represents (h : Session t d) : Represents t d := by
  induction h with
  | start garbage =>
    refine ⟨rfl, fun i _ dir hl => ?_, fun i _ hlt _ => ?_⟩
    · cases hl
    · cases hlt
  | b dir _ ih => exact ih.cmdB dir
  | d _ slot _ ih => exact ih.cmdD slot

theorem contains_iff {arr : ℕ → BitVec 32} {size : ℕ} {val : BitVec 32} :
    contains arr size val ↔ ∃ i < size, arr i = val := by
  simp [contains]

theorem Represents.stopsAt_iff (h : Represents t d) (eip : BitVec 32) :
    d.stopsAt eip ↔ t.Below (some eip) ∨ (eip = 0 ∧ t.Below none) := by
  have hmod : t.added % maxBrk < maxBrk := Nat.mod_lt _ (by decide)
  have hle : t.added % maxBrk ≤ t.added := Nat.mod_le _ _
  unfold Debugger.stopsAt
  rw [contains_iff, h.ctr]
  constructor
  · rintro ⟨i, hi, heq⟩
    rcases hl : t.live i with _ | dir
    · exact .inr ⟨by rw [← heq, h.dead i (by omega) (by omega) hl], i, hi, hl⟩
    · rw [h.live i (by omega) dir hl] at heq
      exact .inl ⟨i, hi, by rw [hl, heq]⟩
  · rintro (⟨i, hi, hl⟩ | ⟨rfl, i, hi, hl⟩)
    · exact ⟨i, hi, h.live i (by omega) eip hl⟩
    · exact ⟨i, hi, h.dead i (by omega) (by omega) hl⟩

end Represents

/-- After any commands, the test of `c` finds the live breakpoints exactly at the addresses that
fit. -/
theorem stopsAt_iff_live_iff {t : Breakpoints} {d : Debugger} (h : Session t d)
    (eip : BitVec 32) : (d.stopsAt eip ↔ t.Live eip) ↔ t.Fits eip := by
  have hmod : t.added % maxBrk < maxBrk := Nat.mod_lt _ (by decide)
  have hlive (h : t.Below (some eip)) : t.Live eip := by
    obtain ⟨i, hi, hl⟩ := h
    exact ⟨i, by omega, hl⟩
  rw [h.represents.stopsAt_iff eip]
  unfold Breakpoints.Fits
  constructor
  · intro hiff
    refine ⟨hiff.2, ?_⟩
    rintro rfl hnone
    exact hiff.1 (.inr ⟨rfl, hnone⟩)
  · rintro ⟨hto, hfrom⟩
    refine ⟨?_, hto⟩
    rintro (hb | ⟨rfl, hnone⟩)
    · exact hlive hb
    · exact hfrom rfl hnone

theorem stopsAt_one : (((Debugger.start fun _ => 0).cmdB 0x1000).stopsAt 0x1000 ↔
    (Breakpoints.empty.add 0x1000).Live 0x1000) := by
  refine (stopsAt_iff_live_iff (.b 0x1000 (.start fun _ => 0)) 0x1000).2 ⟨fun _ => .inl ?_, ?_⟩
  · exact ⟨0, by decide, by decide⟩
  · intro h
    cases h

/-- The table and the debugger after `n` times `b dir`. -/
theorem session_repeat (dir : BitVec 32) : ∀ n, ∃ t d, Session t d ∧ t.added = n ∧
    (0 < n → t.Live dir)
  | 0 => ⟨_, _, .start fun _ => 0, rfl, by simp⟩
  | n + 1 => by
    obtain ⟨t, d, h, hn, -⟩ := session_repeat dir n
    refine ⟨_, _, h.b dir, by simp [Breakpoints.add, hn], fun _ => ?_⟩
    exact ⟨t.added % maxBrk, Nat.mod_lt _ (by decide), by simp [Breakpoints.add]⟩

/-- After 25 `b`s nothing is tested. -/
theorem not_stopsAt_iff_live : ¬ ∀ (t : Breakpoints) (d : Debugger) (eip : BitVec 32),
    Session t d → (d.stopsAt eip ↔ t.Live eip) := by
  intro hall
  obtain ⟨t, d, h, hn, hlive⟩ := session_repeat 0x1000 25
  have hstops := (hall t d 0x1000 h).2 (hlive (by decide))
  rcases (h.represents.stopsAt_iff 0x1000).1 hstops with ⟨i, hi, -⟩ | ⟨h0, -⟩
  · rw [hn] at hi
    cases hi
  · cases h0

end I386Vm
