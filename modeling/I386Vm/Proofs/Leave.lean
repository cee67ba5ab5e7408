import I386Vm.Proofs.Aliasing
import I386Vm.Proofs.Compare
import I386Vm.Proofs.Stack

/-!
# Function frames

A frame is entered by `PUSH EBP`, `MOV EBP, ESP` and `SUB ESP, n` and left by `LEAVE`. Frames follow
one another and nest, in runs whose own steps leave `EBP` alone. `leave_i` reads the saved `EBP`
back as 16 bits, so of all the frames of a run `EBP` is restored exactly when every one of them
saved an `EBP` below `2^16`; `ESP` comes from `EBP` and is right as soon as the frames inside
restore that.
-/

namespace I386Vm

open Bytes Prog

/-- Byte `j` of the slot that a push from `esp` fills. -/
def slotByte (esp : BitVec 32) (j : ℕ) : ℕ := ((esp - 4).toNat + j) % 2 ^ 32

/-- `PUSH EBP`, `MOV EBP, ESP`, `SUB ESP, n`. -/
structure Prologue where
  push : CsInsn
  mov : CsInsn
  sub : CsInsn
  size : BitVec 64
  push_op : push.op1 = ⟨.reg .ebp, 4⟩
  mov_dst : mov.op1 = ⟨.reg .ebp, 4⟩
  mov_src : mov.op2 = ⟨.reg .esp, 4⟩
  sub_dst : sub.op1 = ⟨.reg .esp, 4⟩
  sub_src : sub.op2.val = .imm size

def Prologue.enter (p : Prologue) : Exec Unit := do
  let _ ← pushI p.push
  let _ ← movI p.mov
  let _ ← subI p.sub

section Instructions

variable {s : Machine}

theorem regVal_dword {r : X86Reg} {v : Var} (h : r.slice = some ⟨v, 0, .dword⟩) (s : Machine) :
    s.regVal r = s.reg v := by
  rw [regVal_slice h, low_dword]

theorem srcWide_reg_run {op : CsX86Op} {r : X86Reg} (h : op.val = .reg r) :
    (srcWide op).run s = .ok (s.regVal r, s) := by
  have ht : op.type = .reg := by
    unfold CsX86Op.type
    rw [h]
  have hr : op.reg = r := by
    unfold CsX86Op.reg
    rw [h]
  unfold srcWide
  rw [run_bind_ok run_get_ok, if_pos ht, hr]
  rfl

/-- `SUB ESP, n` changes neither `EBP` nor memory. -/
theorem subI_esp_run {insn : CsInsn} {n : BitVec 64} (h1 : insn.op1 = ⟨.reg .esp, 4⟩)
    (h2 : insn.op2.val = .imm n) (s : Machine) :
    ∃ t, (subI insn).run s = .ok (some 0, t) ∧ t.reg .ebp = s.reg .ebp ∧ t.mem = s.mem := by
  have hloc : insn.op1.IsLoc .dword := by
    rw [h1]
    decide
  have hsrc : (subSrc insn.op1 insn.op2).run (s.advance insn) =
      .ok (immExtended insn.op1 insn.op2, s.advance insn) := by
    unfold subSrc CsX86Op.type
    rw [run_bind_ok run_get_ok, h2]
    rfl
  unfold subI
  rw [run_bind_ok (advance_run s insn), run_bind_ok hsrc, run_bind_ok (subDst_run hloc _),
    run_bind_ok (arithFlags_run _ _ _ _ _ _)]
  have hptr : (s.advance insn).opPtr insn.op1 = .var .esp := by
    rw [h1]
    rfl
  have hne : insn.op1.type ≠ .mem := by
    rw [h1]
    decide
  rw [hptr, if_neg hne]
  refine ⟨_, rfl, ?_, Machine.mem_withArith ..⟩
  rw [(Machine.sameData_withArith ..).reg]
  exact (s.advance insn).reg_setReg_of_ne (by decide) _

/-- Entering a frame puts `EBP` in the slot and the address of the slot in `EBP`. -/
theorem enter_run (p : Prologue) (s : Machine) :
    ∃ t, p.enter.run s = .ok ((), t) ∧ t.reg .ebp = s.reg .esp - 4 ∧
      (∀ j < 4, t.mem (slotByte (s.reg .esp) j) = byteOf j (s.reg .ebp)) ∧
      ∀ i, (∀ j < 4, i ≠ slotByte (s.reg .esp) j) → t.mem i = s.mem i := by
  have hpush : (pushI p.push).run s =
      .ok (some 0, (s.advance p.push).push32 (s.reg .ebp)) := by
    unfold pushI
    rw [run_bind_ok (advance_run s p.push), p.push_op, run_bind_ok (srcWide_reg_run rfl),
      regVal_dword rfl]
    rfl
  generalize hu : (s.advance p.push).push32 (s.reg .ebp) = u at hpush
  have hesp : u.reg .esp = s.reg .esp - 4 := by
    rw [← hu]
    exact (s.advance p.push).reg_push32_esp _
  have hmov : (movI p.mov).run u = .ok (some 0, (u.advance p.mov).setReg .ebp (u.reg .esp)) := by
    have hsrc : (srcWide p.mov.op2).run (u.advance p.mov) =
        .ok (u.reg .esp, u.advance p.mov) := by
      rw [srcWide_reg_run (by rw [p.mov_src]), regVal_dword rfl]
      rfl
    rw [@movI_reg_run p.mov u _ .ebp ⟨.ebp, 0, .dword⟩ rfl (by rw [p.mov_dst]) hsrc,
      Machine.poke_dword_var]
  obtain ⟨t, hsub, hebp, hmem⟩ := subI_esp_run p.sub_dst p.sub_src
    ((u.advance p.mov).setReg .ebp (u.reg .esp))
  have hpushed : t.mem = u.mem := hmem
  refine ⟨t, ?_, ?_, fun j hj => ?_, fun i hi => ?_⟩
  · unfold Prologue.enter
    rw [run_bind_ok hpush, run_bind_ok hmov, run_bind_ok hsub]
    rfl
  · rw [hebp, Machine.reg_setReg, hesp]
  · rw [hpushed, ← hu]
    exact Machine.write32_mem_idx _ _ _ hj
  · rw [hpushed, ← hu]
    exact Machine.write32_mem_of_ne _ _ _ hi

/-- `LEAVE` reads 16 bits of the slot it finds at `EBP`. -/
theorem leaveI_run {insn : CsInsn} (hwide : insn.prefix0 ≠ 0x66) (s : Machine) :
    ∃ t, (leaveI insn).run s = .ok (some 0, t) ∧ t.reg .esp = s.reg .ebp + 4 ∧
      t.reg .ebp = s.read16 (s.reg .ebp) ∧ t.mem = s.mem := by
  unfold leaveI
  rw [run_bind_ok (advance_run s insn), run_bind_ok run_get_ok, run_bind_ok (setReg_run _ _ _),
    if_neg hwide, bind_assoc, run_bind_ok (setReg_run _ _ _), run_bind_ok (addEsp_run _ _)]
  refine ⟨_, rfl, ?_, ?_, rfl⟩
  · rw [Machine.reg_setReg, Machine.reg_setReg_of_ne _ (by decide), Machine.reg_setReg]
    rfl
  · rw [Machine.reg_setReg_of_ne _ (by decide), Machine.reg_setReg]
    rfl

/-- Of a word whose first two bytes are those of `x`, 16 bits come back. -/
theorem read16_eq {a x : BitVec 32} (h : ∀ j < 2, s.mem ((a.toNat + j) % 2 ^ 32) = byteOf j x) :
    s.read16 a = low 16 x := by
  rw [s.read16_eq_wrapped]
  refine readLE_of_bytes fun j hj => ?_
  rw [Nat.zero_add, Machine.wrapped, Machine.toNat_add_lit a j (by omega)]
  exact h j hj

/-- Where `EBP` points to a slot, `LEAVE` takes `ESP` back above it and 16 bits out of it. -/
theorem leaveI_slot_run {insn : CsInsn} {esp ebp : BitVec 32} (hwide : insn.prefix0 ≠ 0x66)
    (hebp : s.reg .ebp = esp - 4) (hslot : ∀ j < 4, s.mem (slotByte esp j) = byteOf j ebp) :
    ∃ t, (leaveI insn).run s = .ok (some 0, t) ∧ t.reg .esp = esp ∧ t.reg .ebp = low 16 ebp := by
  obtain ⟨t, hrun, hesp, hebp', -⟩ := leaveI_run hwide s
  rw [hebp] at hesp hebp'
  refine ⟨t, hrun, ?_, ?_⟩
  · rw [hesp]
    bv_omega
  · rw [hebp']
    exact read16_eq fun j hj => hslot j (by omega)

end Instructions

/-- `EBP` and `ESP` before the push of a frame and after its `LEAVE`. -/
structure FrameRegs where
  ebp : BitVec 32
  esp : BitVec 32
  ebpAfter : BitVec 32
  espAfter : BitVec 32

def FrameRegs.Restored (f : FrameRegs) : Prop := f.ebpAfter = f.ebp ∧ f.espAfter = f.esp

/-- A run with frames, each entered before those inside it and those after it. What happens outside
the entering and leaving keeps `EBP`, and from entering a frame to leaving it its slot stays. -/
inductive Framed : List FrameRegs → Machine → Machine → Prop
  | nil {s t : Machine} (ebp : t.reg .ebp = s.reg .ebp) : Framed [] s t
  | frame {inside after : List FrameRegs} {s u v w x t : Machine} {p : Prologue} {leave : CsInsn}
      (before : u.reg .ebp = s.reg .ebp) (enter : p.enter.run u = .ok ((), v))
      (body : Framed inside v w)
      (slot : ∀ j < 4, w.mem (slotByte (u.reg .esp) j) = v.mem (slotByte (u.reg .esp) j))
      (wide : leave.prefix0 ≠ 0x66) (leaves : (leaveI leave).run w = .ok (some 0, x))
      (rest : Framed after x t) :
      Framed (⟨u.reg .ebp, u.reg .esp, x.reg .ebp, x.reg .esp⟩ :: (inside ++ after)) s t

section Frames

variable {frames : List FrameRegs} {s t u v w x : Machine}

/-- Where `EBP` still points to the slot, `ESP` is restored and so are 16 bits of `EBP`. -/
theorem frame_spec {p : Prologue} {leave : CsInsn} (enter : p.enter.run u = .ok ((), v))
    (hebp : w.reg .ebp = v.reg .ebp)
    (slot : ∀ j < 4, w.mem (slotByte (u.reg .esp) j) = v.mem (slotByte (u.reg .esp) j))
    (wide : leave.prefix0 ≠ 0x66) (leaves : (leaveI leave).run w = .ok (some 0, x)) :
    x.reg .esp = u.reg .esp ∧ x.reg .ebp = low 16 (u.reg .ebp) := by
  obtain ⟨v', henter, hv, hslot, -⟩ := enter_run p u
  rw [enter] at henter
  cases henter
  obtain ⟨x', hleave, hx⟩ := leaveI_slot_run wide (hebp.trans hv) fun j hj =>
    (slot j hj).trans (hslot j hj)
  rw [leaves] at hleave
  cases hleave
  exact hx

theorem Framed.ebp_eq (h : Framed frames s t) (hf : ∀ f ∈ frames, f.Restored) :
    t.reg .ebp = s.reg .ebp := by
  induction h with
  | nil ebp => exact ebp
  | @frame inside after s u v w x t p leave before _ _ _ _ _ _ _ ihrest =>
    have hrest := ihrest fun f hmem => hf f (by simp [hmem])
    have hx : x.reg .ebp = u.reg .ebp := (hf _ List.mem_cons_self).1
    rw [hrest, hx, before]

theorem low_sixteen_eq_iff {x : BitVec 32} : low 16 x = x ↔ x.toNat < 2 ^ 16 := by
  constructor
  · intro h
    rw [← h]
    exact toNat_low_lt 16 x
  · exact low_of_lt

/-- All frames of a run are restored exactly when every saved `EBP` has 16 bits. -/
theorem Framed.restored_iff (h : Framed frames s t) :
    (∀ f ∈ frames, f.Restored) ↔ ∀ f ∈ frames, f.ebp.toNat < 2 ^ 16 := by
  induction h with
  | nil ebp => simp
  | @frame inside after s u v w x t p leave before enter body slot wide leaves rest ihbody ihrest =>
    simp only [List.forall_mem_cons, List.forall_mem_append]
    rw [← ihrest]
    -- whichever side is given, the frames inside are restored, and `EBP` points to the slot
    have hstep (hin : ∀ f ∈ inside, f.Restored) :
        FrameRegs.Restored ⟨u.reg .ebp, u.reg .esp, x.reg .ebp, x.reg .esp⟩ ↔
          (u.reg .ebp).toNat < 2 ^ 16 := by
      obtain ⟨hesp, hebp⟩ := frame_spec enter (body.ebp_eq hin) slot wide leaves
      unfold FrameRegs.Restored
      rw [hesp, hebp, low_sixteen_eq_iff]
      exact and_iff_left rfl
    constructor
    · rintro ⟨hf, hin, hrest⟩
      exact ⟨(hstep hin).1 hf, ihbody.1 hin, hrest⟩
    · rintro ⟨hf, hin, hrest⟩
      exact ⟨(hstep (ihbody.2 hin)).2 hf, ihbody.2 hin, hrest⟩

end Frames

/-- Entering and leaving always end, and the frames of a run are all restored exactly when every one
of them saved an `EBP` below `2^16`. -/
theorem frames_restored_iff (p : Prologue) {leave : CsInsn} (wide : leave.prefix0 ≠ 0x66)
    (u : Machine) {frames : List FrameRegs} {s t : Machine} (h : Framed frames s t) :
    (∃ v, p.enter.run u = .ok ((), v)) ∧ (∃ v, (leaveI leave).run u = .ok (some 0, v)) ∧
      ((∀ f ∈ frames, f.Restored) ↔ ∀ f ∈ frames, f.ebp.toNat < 2 ^ 16) := by
  obtain ⟨v, hv, -⟩ := enter_run p u
  obtain ⟨w, hw, -⟩ := leaveI_run wide u
  exact ⟨⟨v, hv⟩, ⟨w, hw⟩, h.restored_iff⟩

def prologueEight : Prologue where
  push := .bare "push" 1 [⟨.reg .ebp, 4⟩]
  mov := .bare "mov" 2 [⟨.reg .ebp, 4⟩, ⟨.reg .esp, 4⟩]
  sub := .bare "sub" 3 [⟨.reg .esp, 4⟩, ⟨.imm 8, 1⟩]
  size := 8
  push_op := rfl
  mov_dst := rfl
  mov_src := rfl
  sub_dst := rfl
  sub_src := rfl

def leave32 : CsInsn := .bare "leave" 1 []

/-- A frame around nothing. -/
theorem exists_framed (s : Machine) :
    ∃ t x y, Framed [⟨s.reg .ebp, s.reg .esp, x, y⟩] s t := by
  obtain ⟨v, henter, -⟩ := enter_run prologueEight s
  obtain ⟨x, hleave, -⟩ := @leaveI_run leave32 (by decide) v
  exact ⟨x, _, _, .frame rfl henter (.nil rfl) (fun _ _ => rfl) (by decide)
    hleave (.nil rfl)⟩

/-- A frame with another one in it, whose slot is elsewhere. -/
theorem exists_framed_nested (s : Machine) {esp : BitVec 32}
    (hapart : ∀ j < 4, ∀ k < 4, slotByte (s.reg .esp) j ≠ slotByte esp k) :
    ∃ t x y x' y', Framed [⟨s.reg .ebp, s.reg .esp, x, y⟩, ⟨s.reg .esp - 4, esp, x', y'⟩] s t := by
  obtain ⟨v, henter, hebp, -⟩ := enter_run prologueEight s
  obtain ⟨v', henter', -, -, hframe⟩ := enter_run prologueEight (v.setReg .esp esp)
  obtain ⟨x', hleave', -, -, hmem⟩ := @leaveI_run leave32 (by decide) v'
  obtain ⟨x, hleave, -⟩ := @leaveI_run leave32 (by decide) x'
  have hv : (v.setReg .esp esp).reg .ebp = v.reg .ebp := v.reg_setReg_of_ne (by decide) _
  have hesp : (v.setReg .esp esp).reg .esp = esp := v.reg_setReg .esp _
  rw [hesp] at hframe
  have hinner : Framed _ v x' :=
    .frame hv henter' (.nil rfl) (fun _ _ => rfl) (by decide) hleave' (.nil rfl)
  rw [hv, hesp, hebp] at hinner
  exact ⟨x, _, _, _, _, .frame rfl henter hinner
    (fun j hj => (congrFun hmem _).trans (hframe _ fun k hk => hapart j hj k hk)) (by decide) hleave
    (.nil rfl)⟩

/-- `EBP` at 0x1234, and at 0x7FFC in the frame inside. -/
theorem frames_restored_nested : ∃ t x y x' y',
    Framed [⟨0x1234, 0x8000, x, y⟩, ⟨0x7FFC, 0x4000, x', y'⟩]
      ((Machine.blank.setReg .ebp 0x1234).setReg .esp 0x8000) t ∧
    x = 0x1234 ∧ y = 0x8000 ∧ x' = 0x7FFC ∧ y' = 0x4000 := by
  obtain ⟨t, x, y, x', y', h⟩ := @exists_framed_nested
    ((Machine.blank.setReg .ebp 0x1234).setReg .esp 0x8000) 0x4000 (by decide)
  obtain ⟨-, -, hiff⟩ := @frames_restored_iff prologueEight leave32 (by decide) .blank _ _ _ h
  have hrestored := hiff.2 (by simp [Machine.setReg])
  obtain ⟨hx, hy⟩ := hrestored _ List.mem_cons_self
  obtain ⟨hx', hy'⟩ := hrestored _ (List.mem_cons_of_mem _ List.mem_cons_self)
  exact ⟨t, x, y, x', y', h, hx, hy, hx', hy'⟩

/-- `EBP` at 0x10000 comes back as 0. -/
theorem frames_not_restored : ¬ ∀ (frames : List FrameRegs) (s t : Machine),
    Framed frames s t → ∀ f ∈ frames, f.Restored := by
  intro hall
  obtain ⟨t, x, y, h⟩ := exists_framed (Machine.blank.setReg .ebp 0x10000)
  have hlt : ((Machine.blank.setReg .ebp 0x10000).reg .ebp).toNat < 2 ^ 16 :=
    h.restored_iff.1 (hall _ _ _ h) _ List.mem_cons_self
  revert hlt
  decide

end I386Vm
