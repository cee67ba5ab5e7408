import I386Vm.Proofs.Straight
import Mathlib.Tactic.IntervalCases

/-!
# The reserved bits of `eflags`

Bits 3, 5 and 15 of `eflags` are 0 and bit 1 is 1 in the initial value. Every masked change of a
flag keeps them, so every handler does but the three that overwrite `eflags` from the stack or from
`AH`: those keep them exactly when the word they load has them right.
-/

namespace I386Vm

open Bytes Prog

set_option synthInstance.maxSize 1000

/-- Bit 1 is 1 and bits 3, 5 and 15 are 0. -/
structure Reserved (e : BitVec 32) : Prop where
  bit1 : e.getLsbD 1 = true
  bit3 : e.getLsbD 3 = false
  bit5 : e.getLsbD 5 = false
  bit15 : e.getLsbD 15 = false

theorem reserved_eflagsInit : Reserved eflagsInit := by
  constructor <;> decide

/-- The reserved bits of `eflags` are the same in both states. -/
def SameReserved (s t : Machine) : Prop :=
  ∀ i, reservedMask.getLsbD i = true → t.eflags.getLsbD i = s.eflags.getLsbD i

theorem SameReserved.reserved {s t : Machine} (h : SameReserved s t) (hs : Reserved s.eflags) :
    Reserved t.eflags where
  bit1 := (h 1 (by decide)).trans hs.bit1
  bit3 := (h 3 (by decide)).trans hs.bit3
  bit5 := (h 5 (by decide)).trans hs.bit5
  bit15 := (h 15 (by decide)).trans hs.bit15

theorem Flag.getLsbD_mask_of_reserved (f : Flag) {i : ℕ} (h : reservedMask.getLsbD i = true) :
    f.mask.getLsbD i = false := by
  have hi := BitVec.lt_of_getLsbD h
  revert h
  interval_cases i <;> cases f <;> decide

theorem sameReserved_assignFlag (s : Machine) (f : Flag) (c : Bool) :
    SameReserved s (s.assignFlag f c) := by
  intro i hi
  have hf := f.getLsbD_mask_of_reserved hi
  have hlt := BitVec.lt_of_getLsbD hi
  unfold Machine.assignFlag
  split
  · simp [Machine.setFlag, hf]
  · rw [BitVec.getLsbD_eq_getElem hlt] at hf
    simp [Machine.clearFlag, hlt, hf]

theorem sameReserved_complementFlag (s : Machine) (f : Flag) :
    SameReserved s (s.complementFlag f) := by
  intro i hi
  have hf := f.getLsbD_mask_of_reserved hi
  simp [Machine.complementFlag, hf]

instance : Tame SameReserved where
  refl _ _ _ := rfl
  trans _ _ _ h g i hi := (g i hi).trans (h i hi)
  setReg _ _ _ _ _ := rfl
  setMem _ _ _ _ := rfl
  assignFlag := sameReserved_assignFlag
  complementFlag := sameReserved_complementFlag
  setGdtr _ _ _ _ := rfl
  setIdtr _ _ _ _ := rfl
  setLdtr _ _ _ _ := rfl
  setCr0 _ _ _ _ := rfl

instance keepsReserved_setEip (x : BitVec 32) : Keeps SameReserved (setEip x) :=
  Keeps.modify fun _ _ _ => rfl

instance keepsReserved_advance (insn : CsInsn) : Keeps SameReserved (advance insn) :=
  Keeps.modify fun _ _ _ => rfl

instance keepsReserved_jumpTo (op : CsX86Op) : Keeps SameReserved (jumpTo op) := by
  unfold jumpTo
  infer_instance

instance keepsReserved_advanceIfDone (insn : CsInsn) :
    Keeps SameReserved (advanceIfDone insn) := by
  unfold advanceIfDone
  infer_instance

instance keepsReserved_jcc (cond : Machine → Bool) (insn : CsInsn) :
    Keeps SameReserved (jcc cond insn) := by
  unfold jcc
  infer_instance

instance keepsReserved_loopcc (cond : Machine → Bool) (insn : CsInsn) :
    Keeps SameReserved (loopcc cond insn) := by
  unfold loopcc
  infer_instance

instance keepsReserved_jmpI (insn : CsInsn) : Keeps SameReserved (jmpI insn) := by
  unfold jmpI
  infer_instance

instance keepsReserved_callI (insn : CsInsn) : Keeps SameReserved (callI insn) := by
  unfold callI
  infer_instance

instance keepsReserved_retI (insn : CsInsn) : Keeps SameReserved (retI insn) := by
  unfold retI
  infer_instance

instance keepsReserved_repMovsI (insn : CsInsn) : Keeps SameReserved (repMovsI insn) := by
  unfold repMovsI
  infer_instance

instance keepsReserved_repStosI (insn : CsInsn) : Keeps SameReserved (repStosI insn) := by
  unfold repStosI
  infer_instance

theorem Straight.keepsReserved {h : Handler} (hs : Straight h) (insn : CsInsn) [insn.Decoded] :
    Keeps SameReserved (h insn) := by
  obtain ⟨m, hm, hk⟩ := hs.body insn
  rw [hm]
  have := hk SameReserved
  infer_instance

/-- The word or byte that `popf_i`, `popfd_i` and `sahf_i` load into `eflags` has the reserved bits
right. -/
structure LoadsReserved (insn : CsInsn) (s : Machine) : Prop where
  popf : insn.mnemonic = "popf" → Reserved (s.read16 (s.reg .esp))
  popfd : insn.mnemonic = "popfd" → Reserved (s.read32 (s.reg .esp))
  sahf : insn.mnemonic = "sahf" → (s.reg .eax).getLsbD 9 = true ∧
    (s.reg .eax).getLsbD 11 = false ∧ (s.reg .eax).getLsbD 13 = false

theorem reserved_merge_iff (e v : BitVec 32) : Reserved (merge 16 e v) ↔ Reserved v := by
  have hbit (i : ℕ) (hi : i < 16) : (merge 16 e v).getLsbD i = v.getLsbD i := by
    rw [getLsbD_merge, if_pos hi]
  have h1 := hbit 1 (by decide)
  have h3 := hbit 3 (by decide)
  have h5 := hbit 5 (by decide)
  have h15 := hbit 15 (by decide)
  constructor
  · intro h
    exact ⟨h1 ▸ h.bit1, h3 ▸ h.bit3, h5 ▸ h.bit5, h15 ▸ h.bit15⟩
  · intro h
    exact ⟨h1.trans h.bit1, h3.trans h.bit3, h5.trans h.bit5, h15.trans h.bit15⟩

section Loads

variable {insn : CsInsn} {s t : Machine} {r : Ret}

theorem popfI_reserved_iff (h : (popfI insn).run s = .ok (r, t)) :
    Reserved t.eflags ↔ Reserved (s.read16 (s.reg .esp)) := by
  have he : merge 16 s.eflags (s.read16 (s.reg .esp)) = t.eflags :=
    congrArg (fun x => x.2.eflags) (Except.ok.inj h)
  rw [← he]
  exact reserved_merge_iff _ _

/-- The mask of the loaded word is that of its low half, which is all that is merged. -/
theorem popfdI_reserved_iff (h : (popfdI insn).run s = .ok (r, t)) :
    Reserved t.eflags ↔ Reserved (s.read32 (s.reg .esp)) := by
  have he : merge 16 s.eflags (s.read32 (s.reg .esp) &&& 0xFFFF) = t.eflags :=
    congrArg (fun x => x.2.eflags) (Except.ok.inj h)
  have hmask : merge 16 s.eflags (s.read32 (s.reg .esp) &&& 0xFFFF) =
      merge 16 s.eflags (s.read32 (s.reg .esp)) := by
    apply BitVec.eq_of_getLsbD_eq
    intro i hi
    rw [getLsbD_merge, getLsbD_merge]
    by_cases h16 : i < 16
    · have hone : (0xFFFF : BitVec 32).getLsbD i = true := by
        interval_cases i <;> rfl
      rw [if_pos h16, if_pos h16, BitVec.getLsbD_and, hone, Bool.and_true]
    · rw [if_neg h16, if_neg h16]
  rw [← he, hmask]
  exact reserved_merge_iff _ _

/-- Bit 15 is not part of the byte that `AH` overwrites. -/
theorem sahfI_reserved_iff (h : (sahfI insn).run s = .ok (r, t)) (hs : Reserved s.eflags) :
    Reserved t.eflags ↔ (s.reg .eax).getLsbD 9 = true ∧ (s.reg .eax).getLsbD 11 = false ∧
      (s.reg .eax).getLsbD 13 = false := by
  have he : merge 8 s.eflags (low 8 (s.reg .eax >>> 8)) = t.eflags :=
    congrArg (fun x => x.2.eflags) (Except.ok.inj h)
  have hbit (i : ℕ) (hi : i < 8) : t.eflags.getLsbD i = (s.reg .eax).getLsbD (8 + i) := by
    rw [← he, getLsbD_merge, if_pos hi, getLsbD_low, BitVec.getLsbD_ushiftRight]
    simp [hi]
  have h1 := hbit 1 (by decide)
  have h3 := hbit 3 (by decide)
  have h5 := hbit 5 (by decide)
  constructor
  · intro ht
    exact ⟨h1 ▸ ht.bit1, h3 ▸ ht.bit3, h5 ▸ ht.bit5⟩
  · rintro ⟨h9, h11, h13⟩
    refine ⟨h1.trans h9, h3.trans h11, h5.trans h13, ?_⟩
    rw [← he, getLsbD_merge, if_neg (by omega), hs.bit15]

end Loads

theorem Special.reserved {m : String} {f : Handler} (hf : Special m f) {insn : CsInsn}
    (hm : insn.mnemonic = m) {s t : Machine} {r : Ret} (hs : Reserved s.eflags)
    (hl : LoadsReserved insn s) (h : (f insn).run s = .ok (r, t)) : Reserved t.eflags := by
  have hkeeps (k : Keeps SameReserved (f insn)) : Reserved t.eflags := (k.out s r t h).reserved hs
  cases hf with
  | popf => exact (popfI_reserved_iff h).2 (hl.popf hm)
  | popfd => exact (popfdI_reserved_iff h).2 (hl.popfd hm)
  | sahf => exact (sahfI_reserved_iff h hs).2 (hl.sahf hm)
  | null => cases h
  | _ => exact hkeeps inferInstance

/-- A run of decoded instructions from `s`, each meeting `P` in the state it is executed in. -/
inductive Run (host : Host) (P : CsInsn → Machine → Prop) (s : Machine) : Machine → Prop
  | refl : Run host P s s
  | step {t u : Machine} {insn : CsInsn} {r : Ret} (h : Run host P s t) (decoded : insn.Decoded)
      (cond : P insn t) (exec : (dispatcher host insn.mnemonic insn).run t = .ok (r, u)) :
      Run host P s u

theorem dispatcher_reserved {host : Host} {insn : CsInsn} [insn.Decoded] {s t : Machine} {r : Ret}
    (hs : Reserved s.eflags) (hl : LoadsReserved insn s)
    (h : (dispatcher host insn.mnemonic insn).run s = .ok (r, t)) : Reserved t.eflags := by
  rcases dispatcher_cases (straight_or_special host) insn.mnemonic insn with
    ⟨-, f, hf, heq⟩ | ⟨-, heq⟩ <;> rw [heq] at h
  · rcases hf with hf | hf
    · exact ((hf.keepsReserved insn).out s r t h).reserved hs
    · exact hf.reserved rfl hs hl h
  · cases h
    exact hs

/-- In a run from the initial `eflags` whose loads of `eflags` have the reserved bits right, every
state has them right. -/
theorem run_reserved {host : Host} {s t : Machine} (hs : s.eflags = eflagsInit)
    (h : Run host LoadsReserved s t) : Reserved t.eflags := by
  induction h with
  | refl =>
    rw [hs]
    exact reserved_eflagsInit
  | step _ decoded cond exec ih => exact dispatcher_reserved ih cond exec

/-- A `POPFD` of a zero word clears bit 1. -/
theorem run_not_reserved : ¬ ∀ (host : Host) (s t : Machine), s.eflags = eflagsInit →
    Run host (fun _ _ => True) s t → Reserved t.eflags := by
  intro h
  have hd : (CsInsn.bare "popfd" 1 []).Decoded := ⟨by decide, by decide, by decide⟩
  have hexec : (dispatcher .silent "popfd" (CsInsn.bare "popfd" 1 [])).run .blank =
      .ok (some 0, { Machine.blank with
        eip := 1
        eflags := 0
        reg := Function.update Machine.blank.reg .esp 4 }) := rfl
  have hbit := (h _ _ _ rfl (Run.refl.step hd trivial hexec)).bit1
  exact absurd hbit (by decide)

/-- `SAHF` with `AH = 2`, and then `STC`. -/
theorem run_reserved_sahf_stc :
    ∃ t, Run .silent LoadsReserved (Machine.blank.setReg .eax 0x200) t ∧ t.eflags = 0x203 ∧
      Reserved t.eflags := by
  have hd : (CsInsn.bare "sahf" 1 []).Decoded := ⟨by decide, by decide, by decide⟩
  have hd' : (CsInsn.bare "stc" 1 []).Decoded := ⟨by decide, by decide, by decide⟩
  have hsahf : (dispatcher .silent "sahf" (CsInsn.bare "sahf" 1 [])).run
      (Machine.blank.setReg .eax 0x200) =
      .ok (some 0, { Machine.blank.setReg .eax 0x200 with eip := 1, eflags := 0x202 }) := rfl
  have hstc : (dispatcher .silent "stc" (CsInsn.bare "stc" 1 [])).run
      { Machine.blank.setReg .eax 0x200 with eip := 1, eflags := 0x202 } =
      .ok (some 0, { Machine.blank.setReg .eax 0x200 with eip := 2, eflags := 0x203 }) := rfl
  have hrun : Run .silent LoadsReserved (Machine.blank.setReg .eax 0x200) _ :=
    (Run.refl.step hd ⟨by simp [CsInsn.bare], by simp [CsInsn.bare], by decide⟩ hsahf).step hd'
      ⟨by simp [CsInsn.bare], by simp [CsInsn.bare], by simp [CsInsn.bare]⟩ hstc
  exact ⟨_, hrun, rfl, run_reserved rfl hrun⟩

end I386Vm
