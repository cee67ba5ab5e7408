import I386Vm.Proofs.Reserved
import I386Vm.Proofs.ResultFlags

/-!
# What most handlers change

A relation between machine states is `Mild` when it is a preorder that allows every change of the
register variables, of `eip` and of the status flags, and the stores at an address of 32 bits or two
bytes above one. That is all that the handlers do but the few `Privileged` ones, which the shape of
their programs shows as in `Straight`.
-/

namespace I386Vm

open Bytes Prog

set_option synthInstance.maxSize 20000

/-- A flag that describes a result. -/
class Flag.Status (f : Flag) : Prop where
  mem : f ∈ statusFlags

namespace Flag.Status

instance : Flag.CF.Status := ⟨by simp [statusFlags]⟩
instance : Flag.PF.Status := ⟨by simp [statusFlags]⟩
instance : Flag.AF.Status := ⟨by simp [statusFlags]⟩
instance : Flag.ZF.Status := ⟨by simp [statusFlags]⟩
instance : Flag.SF.Status := ⟨by simp [statusFlags]⟩
instance : Flag.OF.Status := ⟨by simp [statusFlags]⟩

end Flag.Status

/-- One past the highest offset at which a handler stores a word, the base that `sgdt_i` stores two
bytes above its operand. -/
def storeEnd : ℕ := 2 ^ 32 + 2

/-- A preorder that allows what most handlers do. -/
class Mild (R : Machine → Machine → Prop) : Prop extends IsPreorder Machine R where
  setReg : ∀ s v x, R s (s.setReg v x)
  setEip : ∀ (s : Machine) x, R s { s with eip := x }
  assignFlag : ∀ (s : Machine) (f : Flag) [f.Status] c, R s (s.assignFlag f c)
  pokeMem : ∀ (s : Machine) w i x, i < storeEnd → R s (s.poke w (.mem i) x)

/-- A pointer through which a handler may store. -/
class GuestPtr (p : Ptr) : Prop extends SafePtr p where
  lt : ∀ i, p = .mem i → i < storeEnd

namespace GuestPtr

instance var (v : Var) : GuestPtr (.var v) := ⟨nofun⟩

theorem mem {i : ℕ} (h : i < storeEnd) : GuestPtr (.mem i) := ⟨fun _ hi => by cases hi; exact h⟩

instance address (a : BitVec 32) : GuestPtr (.mem a.toNat) :=
  mem (by have := a.isLt; unfold storeEnd; omega)

instance above (a : BitVec 32) : GuestPtr (.mem (a.toNat + 2)) :=
  mem (by have := a.isLt; unfold storeEnd; omega)

instance ite (c : Prop) [Decidable c] (p q : Ptr) [GuestPtr p] [GuestPtr q] :
    GuestPtr (if c then p else q) := by
  split <;> assumption

theorem regs_ne_mem (r : X86Reg) (i : ℕ) : regs r ≠ .mem i := by
  cases r <;> exact nofun

instance regs (insn : CsInsn) [insn.Decoded] (i : ℕ) : GuestPtr (regs (insn.op i).reg) :=
  ⟨fun k hk => absurd hk (regs_ne_mem _ k)⟩

instance opPtr (insn : CsInsn) [insn.Decoded] (i : ℕ) (s : Machine) :
    GuestPtr (s.opPtr (insn.op i)) := by
  unfold Machine.opPtr
  infer_instance

end GuestPtr

section Steps

variable {R : Machine → Machine → Prop} [Mild R]

theorem Mild.poke (s : Machine) (w : Width) (p : Ptr) [h : GuestPtr p] (x : BitVec 32) :
    R s (s.poke w p x) := by
  cases p with
  | var v => exact Mild.setReg s v _
  | eip => exact absurd rfl h.ne_eip
  | eflags => exact absurd rfl h.ne_eflags
  | mem i => exact Mild.pokeMem s w i x (h.lt i rfl)
  | null => exact refl_of R s
  | wild => exact refl_of R s

/-- A byte is the word of one byte. -/
theorem Machine.write8_eq_poke (s : Machine) (a : BitVec 32) (x : BitVec 8) :
    s.write8 a x = s.poke .byte (.mem a.toNat) (x.setWidth 32) := by
  unfold write8 poke
  congr 1
  funext k
  by_cases hk : k = a.toNat
  · subst hk
    have hbyte := writeLE_add (m := s.mem) (a := a.toNat) (v := x.setWidth 32)
      (show 0 < Width.byte.bytes by decide)
    rw [Nat.add_zero] at hbyte
    rw [Function.update_self, hbyte]
    unfold byteOf
    simp
  · have hbytes : ¬ (a.toNat ≤ k ∧ k < a.toNat + Width.byte.bytes) := by
      change ¬ (a.toNat ≤ k ∧ k < a.toNat + 1)
      omega
    rw [Function.update_of_ne hk, writeLE_of_not_mem hbytes]

theorem Mild.write8 (s : Machine) (a : BitVec 32) (x : BitVec 8) : R s (s.write8 a x) := by
  rw [s.write8_eq_poke]
  exact Mild.poke s _ _ _

theorem Mild.write16 (s : Machine) (a : BitVec 32) (x : BitVec 16) : R s (s.write16 a x) :=
  trans_of R (Mild.write8 s _ _) (Mild.write8 _ _ _)

theorem Mild.write32 (s : Machine) (a x : BitVec 32) : R s (s.write32 a x) :=
  trans_of R (trans_of R (trans_of R (Mild.write8 s _ _) (Mild.write8 _ _ _))
    (Mild.write8 _ _ _)) (Mild.write8 _ _ _)

instance mild_load (w : Width) (p : Ptr) : Keeps R (load w p) := by
  unfold load
  infer_instance

instance mild_store (w : Width) (p : Ptr) [GuestPtr p] (x : BitVec 32) :
    Keeps R (store w p x) := by
  unfold store
  have h : Keeps R (modify (·.poke w p x) : Exec PUnit) := Keeps.modify fun s => Mild.poke s w p x
  infer_instance

instance mild_rmw (w : Width) (p : Ptr) [GuestPtr p] (f : BitVec 32 → BitVec 32) :
    Keeps R (rmw w p f) := by
  unfold rmw
  infer_instance

instance mild_advance (insn : CsInsn) : Keeps R (advance insn) :=
  Keeps.modify fun s => Mild.setEip s _

instance mild_setEip (x : BitVec 32) : Keeps R (setEip x) := Keeps.modify fun s => Mild.setEip s x

instance mild_setReg (v : Var) (x : BitVec 32) : Keeps R (setReg v x) :=
  Keeps.modify fun s => Mild.setReg s v x

instance mild_loadHigh (v : Var) : Keeps R (loadHigh v) := by
  unfold loadHigh
  infer_instance

instance mild_storeHigh (v : Var) (x : BitVec 32) : Keeps R (storeHigh v x) :=
  Keeps.modify fun s => Mild.setReg s v _

instance mild_assignFlag (f : Flag) [f.Status] (c : Bool) : Keeps R (assignFlag f c) :=
  Keeps.modify fun s => Mild.assignFlag s f c

instance mild_setFlag (f : Flag) [f.Status] : Keeps R (setFlag f) :=
  Keeps.modify fun s => Mild.assignFlag s f true

instance mild_clearFlag (f : Flag) [f.Status] : Keeps R (clearFlag f) :=
  Keeps.modify fun s => Mild.assignFlag s f false

instance mild_complementFlag (f : Flag) [f.Status] : Keeps R (complementFlag f) :=
  Keeps.modify fun s => by
    rw [s.complementFlag_eq]
    exact Mild.assignFlag s f _

instance mild_testFlag (f : Flag) : Keeps R (testFlag f) := by
  unfold testFlag
  infer_instance

instance mild_arithFlags (c : Bool) (x y z : BitVec 32) (b : BitVec 8) :
    Keeps R (arithFlags c x y z b) := by
  unfold arithFlags
  infer_instance

instance mild_logicFlags (z : BitVec 32) (b : BitVec 8) : Keeps R (logicFlags z b) := by
  unfold logicFlags
  infer_instance

instance mild_srcBySize (op : CsX86Op) : Keeps R (srcBySize op) := by
  unfold srcBySize
  infer_instance

instance mild_srcWide (op : CsX86Op) : Keeps R (srcWide op) := by
  unfold srcWide
  infer_instance

instance mild_shiftAmount (n : ℤ) : Keeps R (shiftAmount n) := by
  unfold shiftAmount
  infer_instance

end Steps

section Parts

variable {R : Machine → Machine → Prop} [Mild R] (insn : CsInsn) [insn.Decoded] (i : ℕ)

instance mild_rmwReg (f : Width → BitVec 32 → BitVec 32) :
    Keeps R (rmwReg (insn.op i).reg f) := by
  unfold rmwReg
  infer_instance

instance mild_rmwDst (f : Width → BitVec 32 → BitVec 32) (g : BitVec 32 → BitVec 32) :
    Keeps R (rmwDst (insn.op i) f g) := by
  unfold rmwDst
  infer_instance

instance mild_subSrc (op1 op2 : CsX86Op) : Keeps R (subSrc op1 op2) := by
  unfold subSrc
  infer_instance

instance mild_subDst (x : BitVec 32) : Keeps R (subDst (insn.op i) x) := by
  unfold subDst
  infer_instance

instance mild_cmpSrc (op1 op2 : CsX86Op) : Keeps R (cmpSrc op1 op2) := by
  unfold cmpSrc
  infer_instance

instance mild_cmpDst (op : CsX86Op) (x : BitVec 32) : Keeps R (cmpDst op x) := by
  unfold cmpDst
  infer_instance

instance mild_sbbSrc (op1 op2 : CsX86Op) : Keeps R (sbbSrc op1 op2) := by
  unfold sbbSrc
  infer_instance

instance mild_stepReg (f : BitVec 32 → BitVec 32) : Keeps R (stepReg (insn.op i).reg f) := by
  unfold stepReg
  infer_instance

instance mild_assignCfOf (c : Bool) : Keeps R (assignCfOf c) := by
  unfold assignCfOf
  infer_instance

instance mild_imulImm (w : Width) (p q : Ptr) [GuestPtr p] (x : BitVec 32) :
    Keeps R (imulImm w p q x) := by
  unfold imulImm
  infer_instance

instance mild_alFlags (c : Bool) : Keeps R (alFlags c) := by
  unfold alFlags
  infer_instance

instance mild_modulo (a b : ℕ) : Keeps R (modulo a b) := by
  unfold modulo
  infer_instance

theorem mild_scan (w : Width) (p : Ptr) [GuestPtr p] (val : BitVec 32) (step : ℤ) :
    ∀ (n : ℕ) (temp : ℤ), Keeps R (scan w p val step n temp)
  | 0, _ => by
    unfold scan
    infer_instance
  | n + 1, temp => by
    have ih := mild_scan w p val step n (temp + step)
    unfold scan
    infer_instance

instance mild_scan_inst (w : Width) (p : Ptr) [GuestPtr p] (val : BitVec 32) (step : ℤ) (n : ℕ)
    (temp : ℤ) : Keeps R (scan w p val step n temp) :=
  mild_scan w p val step n temp

instance mild_bitOffset (op : CsX86Op) : Keeps R (bitOffset op) := by
  unfold bitOffset
  infer_instance

instance mild_bitModify (w : Width) (p : Ptr) [GuestPtr p] (x : BitVec 32) (b : BitVec 8)
    (f : BitVec 32 → BitVec 32 → BitVec 32) : Keeps R (bitModify w p x b f) := by
  unfold bitModify
  infer_instance

instance mild_countOf (op : CsX86Op) : Keeps R (countOf op) := by
  unfold countOf
  infer_instance

instance mild_shiftFlags (x : BitVec 32) (b : BitVec 8) : Keeps R (shiftFlags x b) := by
  unfold shiftFlags
  infer_instance

instance mild_push16 (x : BitVec 32) : Keeps R (push16 x) :=
  Keeps.modify fun s => trans_of R (Mild.setReg s _ _) (Mild.write16 _ _ _)

instance mild_push32 (x : BitVec 32) : Keeps R (push32 x) :=
  Keeps.modify fun s => trans_of R (Mild.setReg s _ _) (Mild.write32 _ _ _)

instance mild_write32 (a x : BitVec 32) : Keeps R (write32 a x) :=
  Keeps.modify fun s => Mild.write32 s a x

instance mild_addEsp (n : BitVec 32) : Keeps R (addEsp n) :=
  Keeps.modify fun s => Mild.setReg s _ _

instance mild_popVar16 (v : Var) : Keeps R (popVar16 v) := by
  unfold popVar16
  infer_instance

instance mild_popVar32 (v : Var) : Keeps R (popVar32 v) := by
  unfold popVar32
  infer_instance

instance mild_jumpTo (op : CsX86Op) : Keeps R (jumpTo op) := by
  unfold jumpTo
  infer_instance

instance mild_stepVar (v : Var) (n : ℕ) : Keeps R (stepVar v n) :=
  Keeps.modify fun s => Mild.setReg s v _

instance mild_stosElem (w : Width) : Keeps R (stosElem w) := by
  unfold stosElem
  infer_instance

instance mild_movsElem (w : Width) : Keeps R (movsElem w) := by
  unfold movsElem
  infer_instance

instance mild_decEcx : Keeps R decEcx :=
  Keeps.modify fun s => Mild.setReg s _ _

instance mild_advanceIfDone : Keeps R (advanceIfDone insn) := by
  unfold advanceIfDone
  infer_instance

instance mild_loadGDTR (op : CsX86Op) : Keeps R (loadGDTR op) := by
  unfold loadGDTR
  infer_instance

instance mild_storeGDTR (op : CsX86Op) (g : GDTR) : Keeps R (storeGDTR op g) := by
  unfold storeGDTR
  infer_instance

instance mild_pread (host : Host) (w : Width) (p : Ptr) [GuestPtr p] (port : BitVec 16) :
    Keeps R (pread host w p port) := by
  unfold pread
  infer_instance

instance mild_portOf (op : CsX86Op) : Keeps R (portOf op) := by
  unfold portOf
  infer_instance

end Parts

/-- The entries of the table that change more than a mild relation allows. -/
inductive Privileged : String → Handler → Prop
  | lgdt : Privileged "lgdt" lgdtI
  | lidt : Privileged "lidt" lidtI
  | lldt : Privileged "lldt" lldtI
  | lmsw : Privileged "lmsw" lmswI
  | cli : Privileged "cli" cliI
  | sti : Privileged "sti" stiI
  | cld : Privileged "cld" cldI
  | std : Privileged "std" stdI
  | popf : Privileged "popf" popfI
  | popfd : Privileged "popfd" popfdI
  | sahf : Privileged "sahf" sahfI
  | int (host : Host) : Privileged "int" (intI host)

/-- `unimplemented` is behind the interrupt 4. -/
instance mild_intoI {R : Machine → Machine → Prop} [Mild R] (host : Host) (insn : CsInsn) :
    Keeps R (intoI host insn) := by
  have h : intDispatcher host 0x4 = pure 0 := rfl
  unfold intoI
  rw [h]
  infer_instance

theorem mild_or_privileged (host : Host) :
    List.Forall₂ (fun m h => (∀ R [Mild R] (insn : CsInsn) [insn.Decoded], Keeps R (h insn)) ∨
      Privileged m h) inss (instructions host) := by
  unfold inss instructions loopI loopeI loopneI loopnzI loopzI
  constructorm* List.Forall₂ _ _ _
  all_goals first
    | with_reducible exact .inr (by constructor)
    | exact .inl fun R _ insn _ => (Keeps.bind _ _ : Keeps R (_ >>= _))
    | exact .inl fun R _ insn _ => (Keeps.throw Fault.null : Keeps R (throw _))
    | exact .inl fun _ _ _ _ => inferInstance

end I386Vm
