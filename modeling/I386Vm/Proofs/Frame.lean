import I386Vm.Dispatch
import Mathlib.Data.List.Forall2

/-!
# What the handlers can change

A relation between machine states is `Tame` when it is a preorder that allows every change except
those of `eip` and those that overwrite `eflags` as a whole. The primitive steps of the handlers
move the machine along every tame relation, as long as the pointers they store through are not
those to `eip` and `eflags`, which the operands of a decoded instruction never are. A handler is
`Straight` when it moves `eip` past the instruction and then does nothing but tame steps.
-/

namespace I386Vm

open Prog

set_option synthInstance.maxSize 400

/-- A preorder that allows every change but those of `eip` and of the whole of `eflags`. -/
class Tame (R : Machine → Machine → Prop) : Prop extends IsPreorder Machine R where
  setReg : ∀ s v x, R s (s.setReg v x)
  setMem : ∀ (s : Machine) m, R s { s with mem := m }
  assignFlag : ∀ s f c, R s (s.assignFlag f c)
  complementFlag : ∀ s f, R s (s.complementFlag f)
  setGdtr : ∀ (s : Machine) g, R s { s with gdtr := g }
  setIdtr : ∀ (s : Machine) g, R s { s with idtr := g }
  setLdtr : ∀ (s : Machine) x, R s { s with ldtr := x }
  setCr0 : ∀ (s : Machine) x, R s { s with cr0 := x }

/-- A pointer that a store may follow without reaching `eip` or `eflags`. -/
class SafePtr (p : Ptr) : Prop where
  ne_eip : p ≠ .eip
  ne_eflags : p ≠ .eflags

namespace SafePtr

instance var (v : Var) : SafePtr (.var v) := ⟨nofun, nofun⟩

instance mem (i : ℕ) : SafePtr (.mem i) := ⟨nofun, nofun⟩

instance ite (c : Prop) [Decidable c] (p q : Ptr) [SafePtr p] [SafePtr q] :
    SafePtr (if c then p else q) := by
  split <;> assumption

theorem of_not_control {r : X86Reg} (h : ¬ r.Control) : SafePtr (regs r) := by
  constructor <;> intro hr <;> cases r <;> simp_all [regs, X86Reg.Control]

theorem plain_op (insn : CsInsn) [insn.Decoded] (i : ℕ) : (insn.op i).Plain := by
  unfold CsInsn.op
  rw [List.getD_eq_getElem?_getD]
  rcases h : insn.operands[i]? with _ | op
  · trivial
  · exact CsInsn.Decoded.plain op (List.mem_of_getElem? h)

theorem not_control_reg {op : CsX86Op} (h : op.Plain) : ¬ op.reg.Control := by
  unfold CsX86Op.reg
  unfold CsX86Op.Plain at h
  split at h
  · simp [X86Reg.Control]
  · exact h
  · simp [X86Reg.Control]
  · exact h.1

instance regs (insn : CsInsn) [insn.Decoded] (i : ℕ) : SafePtr (regs (insn.op i).reg) :=
  of_not_control (not_control_reg (plain_op insn i))

instance opPtr (insn : CsInsn) [insn.Decoded] (i : ℕ) (s : Machine) :
    SafePtr (s.opPtr (insn.op i)) := by
  unfold Machine.opPtr
  split <;> infer_instance

end SafePtr

section Steps

variable {R : Machine → Machine → Prop} [Tame R]

theorem Tame.poke (s : Machine) (w : Width) (p : Ptr) [h : SafePtr p] (x : BitVec 32) :
    R s (s.poke w p x) := by
  cases p with
  | var v => exact Tame.setReg s v _
  | eip => exact absurd rfl h.ne_eip
  | eflags => exact absurd rfl h.ne_eflags
  | mem i => exact Tame.setMem s _
  | null => exact refl_of R s
  | wild => exact refl_of R s

theorem Tame.write8 (s : Machine) (a : BitVec 32) (x : BitVec 8) : R s (s.write8 a x) :=
  Tame.setMem s _

theorem Tame.write16 (s : Machine) (a : BitVec 32) (x : BitVec 16) : R s (s.write16 a x) :=
  trans_of R (Tame.write8 s _ _) (Tame.write8 _ _ _)

theorem Tame.write32 (s : Machine) (a x : BitVec 32) : R s (s.write32 a x) :=
  trans_of R (trans_of R (trans_of R (Tame.write8 s _ _) (Tame.write8 _ _ _))
    (Tame.write8 _ _ _)) (Tame.write8 _ _ _)

instance keeps_load (w : Width) (p : Ptr) : Keeps R (load w p) := by
  unfold load
  infer_instance

instance keeps_store (w : Width) (p : Ptr) [SafePtr p] (x : BitVec 32) :
    Keeps R (store w p x) := by
  unfold store
  have h : Keeps R (modify (·.poke w p x) : Exec PUnit) := Keeps.modify fun s => Tame.poke s w p x
  infer_instance

instance keeps_rmw (w : Width) (p : Ptr) [SafePtr p] (f : BitVec 32 → BitVec 32) :
    Keeps R (rmw w p f) := by
  unfold rmw
  infer_instance

instance keeps_setReg (v : Var) (x : BitVec 32) : Keeps R (setReg v x) :=
  Keeps.modify fun s => Tame.setReg s v x

instance keeps_loadHigh (v : Var) : Keeps R (loadHigh v) := by
  unfold loadHigh
  infer_instance

instance keeps_storeHigh (v : Var) (x : BitVec 32) : Keeps R (storeHigh v x) :=
  Keeps.modify fun s => Tame.setReg s v _

instance keeps_setFlag (f : Flag) : Keeps R (setFlag f) :=
  Keeps.modify fun s => Tame.assignFlag s f true

instance keeps_clearFlag (f : Flag) : Keeps R (clearFlag f) :=
  Keeps.modify fun s => Tame.assignFlag s f false

instance keeps_complementFlag (f : Flag) : Keeps R (complementFlag f) :=
  Keeps.modify fun s => Tame.complementFlag s f

instance keeps_assignFlag (f : Flag) (c : Bool) : Keeps R (assignFlag f c) :=
  Keeps.modify fun s => Tame.assignFlag s f c

instance keeps_testFlag (f : Flag) : Keeps R (testFlag f) := by
  unfold testFlag
  infer_instance

instance keeps_arithFlags (c : Bool) (x y z : BitVec 32) (b : BitVec 8) :
    Keeps R (arithFlags c x y z b) := by
  unfold arithFlags
  infer_instance

instance keeps_logicFlags (z : BitVec 32) (b : BitVec 8) : Keeps R (logicFlags z b) := by
  unfold logicFlags
  infer_instance

instance keeps_srcBySize (op : CsX86Op) : Keeps R (srcBySize op) := by
  unfold srcBySize
  infer_instance

instance keeps_srcWide (op : CsX86Op) : Keeps R (srcWide op) := by
  unfold srcWide
  infer_instance

instance keeps_shiftAmount (n : ℤ) : Keeps R (shiftAmount n) := by
  unfold shiftAmount
  infer_instance

end Steps

/-- What holds of every entry of the table holds of the handler a mnemonic selects; any other
mnemonic is answered with -1 and no change. -/
theorem dispatcher_cases {host : Host} {P : String → Handler → Prop}
    (hP : List.Forall₂ P inss (instructions host)) (m : String) (insn : CsInsn) :
    (m ∈ inss ∧ ∃ h, P m h ∧ dispatcher host m insn = h insn) ∨
      m ∉ inss ∧ dispatcher host m insn = pure (some (-1)) := by
  obtain ⟨hlen, hzip⟩ := List.forall₂_iff_zip.1 hP
  unfold dispatcher handlerOf
  rcases hf : (inss.zip (instructions host)).find? fun e => e.1 = m with _ | ⟨m', h⟩
  · right
    refine ⟨fun hm => ?_, by rw [hf]; rfl⟩
    have hm' : m ∈ (inss.zip (instructions host)).map Prod.fst := by
      rwa [List.map_fst_zip (le_of_eq hlen)]
    obtain ⟨e, he, hem⟩ := List.mem_map.1 hm'
    simpa [hem] using List.find?_eq_none.1 hf e he
  · left
    have hmem := List.mem_of_find?_eq_some hf
    have hm : m' = m := by simpa using List.find?_some hf
    subst hm
    exact ⟨(List.of_mem_zip hmem).1, h, hzip hmem, by rw [hf]; rfl⟩

end I386Vm
