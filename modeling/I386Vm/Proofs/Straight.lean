import I386Vm.Proofs.Frame
import Mathlib.Tactic.CasesM

/-!
# The handlers that only move past themselves

Every entry of the dispatch table is straight or one of the few `Special` ones. The shape of a
handler's program shows that it is straight, once its parts are known to be tame; only the loop of
`bsf_i` and `bsr_i` needs an induction.
-/

namespace I386Vm

open Prog

set_option synthInstance.maxSize 10000

/-- The handler moves `eip` past the instruction and then takes tame steps only. -/
structure Straight (h : Handler) : Prop where
  body : ∀ (insn : CsInsn) [insn.Decoded], ∃ m : Exec Ret,
    h insn = (do advance insn; m) ∧ ∀ R [Tame R], Keeps R m

theorem Straight.of {h : Handler} {m : CsInsn → Exec Ret}
    (e : h = fun insn => do advance insn; m insn)
    (k : ∀ (insn : CsInsn) [insn.Decoded] (R) [Tame R], Keeps R (m insn)) : Straight h where
  body insn _ := ⟨m insn, congrFun e insn, fun R _ => k insn R⟩

section Parts

variable {R : Machine → Machine → Prop} [Tame R] (insn : CsInsn) [insn.Decoded] (i : ℕ)

instance keeps_rmwReg (f : Width → BitVec 32 → BitVec 32) :
    Keeps R (rmwReg (insn.op i).reg f) := by
  unfold rmwReg
  infer_instance

instance keeps_rmwDst (f : Width → BitVec 32 → BitVec 32) (g : BitVec 32 → BitVec 32) :
    Keeps R (rmwDst (insn.op i) f g) := by
  unfold rmwDst
  infer_instance

instance keeps_subSrc (op1 op2 : CsX86Op) : Keeps R (subSrc op1 op2) := by
  unfold subSrc
  infer_instance

instance keeps_subDst (x : BitVec 32) : Keeps R (subDst (insn.op i) x) := by
  unfold subDst
  infer_instance

instance keeps_cmpSrc (op1 op2 : CsX86Op) : Keeps R (cmpSrc op1 op2) := by
  unfold cmpSrc
  infer_instance

instance keeps_cmpDst (op : CsX86Op) (x : BitVec 32) : Keeps R (cmpDst op x) := by
  unfold cmpDst
  infer_instance

instance keeps_sbbSrc (op1 op2 : CsX86Op) : Keeps R (sbbSrc op1 op2) := by
  unfold sbbSrc
  infer_instance

instance keeps_stepReg (f : BitVec 32 → BitVec 32) : Keeps R (stepReg (insn.op i).reg f) := by
  unfold stepReg
  infer_instance

instance keeps_assignCfOf (c : Bool) : Keeps R (assignCfOf c) := by
  unfold assignCfOf
  infer_instance

instance keeps_imulImm (w : Width) (p q : Ptr) [SafePtr p] (x : BitVec 32) :
    Keeps R (imulImm w p q x) := by
  unfold imulImm
  infer_instance

instance keeps_alFlags (c : Bool) : Keeps R (alFlags c) := by
  unfold alFlags
  infer_instance

instance keeps_modulo (a b : ℕ) : Keeps R (modulo a b) := by
  unfold modulo
  infer_instance

theorem keeps_scan (w : Width) (p : Ptr) [SafePtr p] (val : BitVec 32) (step : ℤ) :
    ∀ (n : ℕ) (temp : ℤ), Keeps R (scan w p val step n temp)
  | 0, _ => by
    unfold scan
    infer_instance
  | n + 1, temp => by
    have ih := keeps_scan w p val step n (temp + step)
    unfold scan
    infer_instance

instance (w : Width) (p : Ptr) [SafePtr p] (val : BitVec 32) (step : ℤ) (n : ℕ) (temp : ℤ) :
    Keeps R (scan w p val step n temp) :=
  keeps_scan w p val step n temp

instance keeps_bitOffset (op : CsX86Op) : Keeps R (bitOffset op) := by
  unfold bitOffset
  infer_instance

instance keeps_bitModify (w : Width) (p : Ptr) [SafePtr p] (x : BitVec 32) (b : BitVec 8)
    (f : BitVec 32 → BitVec 32 → BitVec 32) : Keeps R (bitModify w p x b f) := by
  unfold bitModify
  infer_instance

instance keeps_countOf (op : CsX86Op) : Keeps R (countOf op) := by
  unfold countOf
  infer_instance

instance keeps_shiftFlags (x : BitVec 32) (b : BitVec 8) : Keeps R (shiftFlags x b) := by
  unfold shiftFlags
  infer_instance

instance keeps_push16 (x : BitVec 32) : Keeps R (push16 x) :=
  Keeps.modify fun s => trans_of R (Tame.setReg s _ _) (Tame.write16 _ _ _)

instance keeps_push32 (x : BitVec 32) : Keeps R (push32 x) :=
  Keeps.modify fun s => trans_of R (Tame.setReg s _ _) (Tame.write32 _ _ _)

instance keeps_write32 (a x : BitVec 32) : Keeps R (write32 a x) :=
  Keeps.modify fun s => Tame.write32 s a x

instance keeps_addEsp (n : BitVec 32) : Keeps R (addEsp n) :=
  Keeps.modify fun s => Tame.setReg s _ _

instance keeps_popVar16 (v : Var) : Keeps R (popVar16 v) := by
  unfold popVar16
  infer_instance

instance keeps_popVar32 (v : Var) : Keeps R (popVar32 v) := by
  unfold popVar32
  infer_instance

instance keeps_stepVar (v : Var) (n : ℕ) : Keeps R (stepVar v n) :=
  Keeps.modify fun s => Tame.setReg s v _

instance keeps_stosElem (w : Width) : Keeps R (stosElem w) := by
  unfold stosElem
  infer_instance

instance keeps_movsElem (w : Width) : Keeps R (movsElem w) := by
  unfold movsElem
  infer_instance

instance keeps_decEcx : Keeps R decEcx :=
  Keeps.modify fun s => Tame.setReg s _ _

instance keeps_setGdtr (g : GDTR) : Keeps R (setGdtr g) :=
  Keeps.modify fun s => Tame.setGdtr s g

instance keeps_setIdtr (g : GDTR) : Keeps R (setIdtr g) :=
  Keeps.modify fun s => Tame.setIdtr s g

instance keeps_setLdtr (x : BitVec 16) : Keeps R (setLdtr x) :=
  Keeps.modify fun s => Tame.setLdtr s x

instance keeps_setCr0 (x : BitVec 32) : Keeps R (setCr0 x) :=
  Keeps.modify fun s => Tame.setCr0 s x

instance keeps_setMem (m : ℕ → BitVec 8) : Keeps R (setMem m) :=
  Keeps.modify fun s => Tame.setMem s m

instance keeps_loadGDTR (op : CsX86Op) : Keeps R (loadGDTR op) := by
  unfold loadGDTR
  infer_instance

instance keeps_storeGDTR (op : CsX86Op) (g : GDTR) : Keeps R (storeGDTR op g) := by
  unfold storeGDTR
  infer_instance

instance keeps_pread (host : Host) (w : Width) (p : Ptr) [SafePtr p] (port : BitVec 16) :
    Keeps R (pread host w p port) := by
  unfold pread
  infer_instance

instance keeps_portOf (op : CsX86Op) : Keeps R (portOf op) := by
  unfold portOf
  infer_instance

instance keeps_int80 (host : Host) : Keeps R (int80 host) := by
  unfold int80
  infer_instance

instance keeps_intDispatcher (host : Host) (v : BitVec 8) : Keeps R (intDispatcher host v) := by
  unfold intDispatcher
  rw [List.getD_eq_getElem?_getD]
  rcases h : (idt host)[v.toNat]? with _ | f
  · exact Keeps.throw Fault.table
  · have hf := List.mem_of_getElem? h
    simp only [idt, List.mem_append, List.mem_cons, List.mem_replicate] at hf
    rcases hf with ⟨-, rfl⟩ | rfl | ⟨-, rfl⟩
    · exact Keeps.pure 0
    · exact keeps_int80 host
    · exact Keeps.pure 0

end Parts

/-- The mnemonics of the table whose handlers jump without pushing or counting. -/
def jumps : List String :=
  ["ja", "jae", "jb", "jbe", "jc", "jcxz", "jecxz_i", "je", "jg", "jge", "jl", "jle", "jmp", "jna",
   "jnae", "jnb", "jnbe", "jnc", "jne", "jng", "jnge", "jnl", "jnle", "jno", "jnp", "jns", "jo",
   "jp", "jpe", "jpo", "js", "jz"]

/-- The entries of the table whose handlers are not straight: those that move `eip` elsewhere or not
at once, those that overwrite `eflags`, and the null at the end. -/
inductive Special : String → Handler → Prop
  | jcc {m : String} (hm : m ∈ jumps) (cond : Machine → Bool) : Special m (jcc cond)
  | loopcc (m : String) (cond : Machine → Bool) : Special m (loopcc cond)
  | jmp : Special "jmp" jmpI
  | call : Special "call" callI
  | ret : Special "ret" retI
  | repMovs (m : String) : Special m repMovsI
  | repStos (m : String) : Special m repStosI
  | popf : Special "popf" popfI
  | popfd : Special "popfd" popfdI
  | sahf : Special "sahf" sahfI
  | null : Special "" nullHandler

theorem straight_or_special (host : Host) :
    List.Forall₂ (fun m h => Straight h ∨ Special m h) inss (instructions host) := by
  unfold inss instructions loopI loopeI loopneI loopnzI loopzI
  constructorm* List.Forall₂ _ _ _
  all_goals first
    | with_reducible exact .inr (by constructor)
    | exact .inl (.of rfl fun _ _ _ _ => inferInstance)
    | exact .inr (.jcc (by simp [jumps]) _)

end I386Vm
