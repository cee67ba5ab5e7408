import I386Vm.Strings
import I386Vm.Proofs.Status

/-!
# String handlers, element by element

Element `i` of a string lies `i` strides from where its pointer is now, upwards or downwards with
`DF`. What one execution of each handler does to memory and to the pointers, in these terms.
-/

namespace I386Vm

open Bytes Prog

namespace Machine

variable (s : Machine)

/-- The address of element `i` of the string at `v`. -/
def elem (v : Var) (w : Width) (i : ℕ) : BitVec 32 :=
  s.reg v + BitVec.ofNat 32 i * s.stride w.bytes

@[simp] theorem elem_zero (v : Var) (w : Width) : s.elem v w 0 = s.reg v := by
  simp [elem]

theorem elem_succ (v : Var) (w : Width) (i : ℕ) :
    s.elem v w (i + 1) = s.elem v w i + s.stride w.bytes := by
  unfold elem
  rw [BitVec.ofNat_add, BitVec.add_mul, BitVec.add_assoc]
  simp

/-- A pointer comes back to where it was only after whole turns of the address space. -/
theorem elem_eq_iff {v : Var} {w : Width} {i : ℕ} :
    s.elem v w i = s.reg v ↔ 2 ^ 32 ∣ i * w.bytes := by
  have hzero : BitVec.ofNat 32 i * BitVec.ofNat 32 w.bytes = 0 ↔ 2 ^ 32 ∣ i * w.bytes := by
    rw [← BitVec.ofNat_mul, ← BitVec.toNat_inj]
    exact (Nat.dvd_iff_mod_eq_zero ..).symm
  have hadd (x : BitVec 32) : s.reg v + x = s.reg v ↔ x = 0 := by
    constructor <;> intro h <;> bv_omega
  unfold elem stride
  rw [hadd, ← hzero]
  split
  · rw [BitVec.mul_neg]
    exact BitVec.neg_eq_zero_iff
  · rfl

theorem stride_congr {s t : Machine} (h : t.testFlag .DF = s.testFlag .DF) (n : ℕ) :
    t.stride n = s.stride n := by
  unfold stride
  rw [h]

/-- The state after one element has been moved. -/
def moved (w : Width) : Machine :=
  ((s.poke w (.mem (s.reg .edi).toNat) (s.peek w (.mem (s.reg .esi).toNat))).setReg .edi
    (s.reg .edi + s.stride w.bytes)).setReg .esi (s.reg .esi + s.stride w.bytes)

end Machine

section Handlers

variable {w : Width} {insn : CsInsn} {s : Machine}

theorem movsElem_run : (movsElem w).run s = .ok ((),
    s.poke w (.mem (s.reg .edi).toNat) (s.peek w (.mem (s.reg .esi).toNat))) := by
  unfold movsElem
  rw [run_bind_ok run_get_ok, run_bind_ok (load_run (.mem _)), store_run (.mem _)]

theorem movsI_run (hs : insn.op1.size = w.size) :
    (movsI insn).run s = .ok (some 0, (s.advance insn).moved w) := by
  unfold movsI
  rw [run_bind_ok (advance_run s insn), hs, widthOr32_size, run_bind_ok movsElem_run]
  rfl

/-- What a dispatch of `REP MOVS` does before it looks at `ECX`. -/
def Machine.repMoved (s : Machine) (w : Width) : Machine :=
  (s.setReg .ecx (s.reg .ecx - 1)).moved w

theorem repMovsI_run (hs : insn.op1.size = w.size) :
    (repMovsI insn).run s = .ok (some 0,
      if s.reg .ecx - 1 = 0 then (s.repMoved w).advance insn else s.repMoved w) := by
  have hecx : (s.repMoved w).reg .ecx = s.reg .ecx - 1 := rfl
  have hdone : (advanceIfDone insn).run (s.repMoved w) = .ok ((),
      if s.reg .ecx - 1 = 0 then (s.repMoved w).advance insn else s.repMoved w) := by
    unfold advanceIfDone
    rw [run_bind_ok run_get_ok, hecx]
    split <;> rfl
  unfold repMovsI
  rw [hs, widthOr32_size, run_bind_ok movsElem_run]
  change (advanceIfDone insn >>= fun _ => pure (some 0)).run (s.repMoved w) = _
  rw [run_bind_ok hdone]
  rfl

/-- The state after one element has been stored. -/
def Machine.stored (s : Machine) (w : Width) : Machine :=
  (s.poke w (.mem (s.getGdtBase ((s.reg .es).setWidth 16) + s.reg .edi).toNat)
    (s.reg .eax)).setReg .edi (s.reg .edi + s.stride w.bytes)

theorem stosElem_run (w : Width) (s : Machine) :
    (stosElem w).run s = .ok ((), s.stored w) := by
  unfold stosElem
  rw [run_bind_ok run_get_ok, run_bind_ok (store_run (.mem _) _)]
  rfl

theorem stosI_run (hs : insn.op1.size = w.size) :
    (stosI insn).run s = .ok (none, (s.advance insn).stored w) := by
  unfold stosI
  rw [run_bind_ok (advance_run s insn), hs, widthOr32_size, run_bind_ok (stosElem_run w _)]
  rfl

/-- The handlers that load an element of the width. -/
def Width.lods : Width → List Handler
  | .byte => [lodsI, lodsbI]
  | .word => [lodsI, lodswI]
  | .dword => [lodsI, lodsdI]

/-- Whatever address the element is read from, only `EAX` and `eip` change. -/
theorem lods_run {h : Handler} (hm : h ∈ w.lods) (hs : insn.op1.size = w.size) (s : Machine) :
    ∃ val, (h insn).run s =
      .ok (some 0, (s.advance insn).poke w (.var .eax) val) := by
  have hof : (lodsOf w insn).run s = .ok (some 0, (s.advance insn).poke w (.var .eax)
      ((s.advance insn).peek w (.mem (s.reg .esi).toNat))) := by
    unfold lodsOf
    rw [run_bind_ok (advance_run s insn), run_bind_ok run_get_ok, run_bind_ok (load_run (.mem _)),
      run_bind_ok (store_run (.var _) _)]
    rfl
  have hlist : w.lods = [lodsI, lodsOf w] := by cases w <;> rfl
  have hgen : h = lodsI ∨ h = lodsOf w := by
    rw [hlist] at hm
    simpa using hm
  rcases hgen with rfl | rfl
  · unfold lodsI
    rw [run_bind_ok (advance_run s insn), run_bind_ok run_get_ok, hs, widthOr32_size,
      run_bind_ok (load_run (.mem _)), run_bind_ok (store_run (.var _) _)]
    exact ⟨_, rfl⟩
  · exact ⟨_, hof⟩

/-- A comparison moves both pointers and keeps the direction. -/
theorem cmps_step (w : Width) (insn : CsInsn) (s : Machine) :
    ∃ t, (cmps w insn).run s = .ok (some 0, t) ∧
      t.reg .esi = s.reg .esi + s.stride w.bytes ∧
      t.reg .edi = s.reg .edi + s.stride w.bytes ∧ t.stride w.bytes = s.stride w.bytes := by
  unfold cmps
  rw [run_bind_ok (advance_run s insn), run_bind_ok run_get_ok, run_bind_ok (load_run (.mem _)),
    run_bind_ok (load_run (.mem _)), run_bind_ok (arithFlags_run _ _ _ _ _ _)]
  generalize hu : (s.advance insn).withArith _ _ _ _ _ = u
  have hreg : u.reg = s.reg := by
    rw [← hu, (Machine.sameData_withArith ..).reg]
    rfl
  have hdf : u.testFlag .DF = s.testFlag .DF := by
    rw [← hu, Machine.testFlag_withArith]
    rfl
  have hstride := Machine.stride_congr hdf w.bytes
  refine ⟨(u.setReg .edi (u.reg .edi + u.stride w.bytes)).setReg .esi
    (u.reg .esi + u.stride w.bytes), rfl, ?_, ?_, hstride⟩
  · rw [Machine.reg_setReg, hreg, hstride]
  · rw [Machine.reg_setReg_of_ne _ (by decide), Machine.reg_setReg, hreg, hstride]

end Handlers

end I386Vm
