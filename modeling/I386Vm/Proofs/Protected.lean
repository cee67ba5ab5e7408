import I386Vm.Proofs.Interrupts
import I386Vm.Proofs.Mild

/-!
# What a guest cannot reach

The descriptor table registers, `cr0`, the control flags and the host's memory past the last byte
that a handler can store are protected: a run changes none of them without an instruction made for
it.
-/

namespace I386Vm

open Bytes Prog

set_option synthInstance.maxSize 20000

/-- What is changed by the instructions made for it alone; `past d` is the byte `d` bytes past the
last one that a handler can store. -/
inductive Part
  | gdtr | idtr | ldtr | cr0 | trap | interrupt | direction
  | past (d : ℕ)

namespace Part

/-- The part is the same in both states. -/
def Same (p : Part) (s t : Machine) : Prop :=
  match p with
  | gdtr => t.gdtr = s.gdtr
  | idtr => t.idtr = s.idtr
  | ldtr => t.ldtr = s.ldtr
  | cr0 => t.cr0 = s.cr0
  | trap => t.testFlag .TF = s.testFlag .TF
  | interrupt => t.testFlag .IF = s.testFlag .IF
  | direction => t.testFlag .DF = s.testFlag .DF
  | past d => t.mem (storeEnd + 3 + d) = s.mem (storeEnd + 3 + d)

/-- The mnemonics of the instructions made for it. -/
def writers : Part → List String
  | gdtr => ["lgdt"]
  | idtr => ["lidt"]
  | ldtr => ["lldt"]
  | cr0 => ["lmsw"]
  | trap => ["popf", "popfd"]
  | interrupt => ["cli", "sti", "popf", "popfd"]
  | direction => ["cld", "std", "popf", "popfd"]
  | past _ => ["int"]

variable (p : Part) {s t : Machine}

theorem same_of_eq (hmem : t.mem = s.mem) (hflags : t.eflags = s.eflags) (hg : t.gdtr = s.gdtr)
    (hi : t.idtr = s.idtr) (hl : t.ldtr = s.ldtr) (hc : t.cr0 = s.cr0) : p.Same s t := by
  cases p <;> simp only [Same, Machine.testFlag, hmem, hflags, hg, hi, hl, hc]

/-- The flag that the part is. -/
def flag? : Part → Option Flag
  | trap => some .TF
  | interrupt => some .IF
  | direction => some .DF
  | _ => none

theorem same_of_flags (h : t = { s with eflags := t.eflags })
    (hf : ∀ f, p.flag? = some f → t.testFlag f = s.testFlag f) : p.Same s t := by
  cases p with
  | trap => exact hf _ rfl
  | interrupt => exact hf _ rfl
  | direction => exact hf _ rfl
  | _ =>
    unfold Same
    rw [h]

theorem same_assignFlag (s : Machine) {f : Flag} (h : p.flag? ≠ some f) (c : Bool) :
    p.Same s (s.assignFlag f c) := by
  refine p.same_of_flags (SameBut.assignFlag s (List.mem_singleton_self f) c).state fun g hg => ?_
  rw [Machine.testFlag_assignFlag, if_neg]
  rintro rfl
  exact h hg

theorem flag?_ne_status (f : Flag) [h : f.Status] : p.flag? ≠ some f := by
  intro hf
  have hmem := h.mem
  cases p <;> cases hf <;> simp [statusFlags] at hmem

/-- A store of the low `n` bits of `eflags` leaves the flags above them. -/
theorem same_storeFlags (s : Machine) {n : ℕ} (h : ∀ f, p.flag? = some f → n ≤ f.bit)
    (x : BitVec 32) : p.Same s { s with eflags := merge n s.eflags x } := by
  refine p.same_of_flags rfl fun f hf => ?_
  rw [Machine.testFlag_eq_getLsbD, Machine.testFlag_eq_getLsbD, getLsbD_merge,
    if_neg (Nat.not_lt.2 (h f hf))]

theorem same_pokeMem (s : Machine) (w : Width) {i : ℕ} (x : BitVec 32) (h : i < storeEnd) :
    p.Same s (s.poke w (.mem i) x) := by
  cases p with
  | past d =>
    have hbytes : w.bytes ≤ 4 := by cases w <;> decide
    exact writeLE_of_not_mem (by omega)
  | _ => exact rfl

instance : Mild p.Same where
  refl s := p.same_of_eq rfl rfl rfl rfl rfl rfl
  trans s t u h g := by
    cases p <;> exact g.trans h
  setReg s v x := p.same_of_eq rfl rfl rfl rfl rfl rfl
  setEip s x := p.same_of_eq rfl rfl rfl rfl rfl rfl
  assignFlag s f _ c := p.same_assignFlag s (p.flag?_ne_status f) c
  pokeMem s w i x h := p.same_pokeMem s w x h

end Part

section Privileged

variable {p : Part}

theorem keepsSame_setGdtr (h : p ≠ .gdtr) (g : GDTR) : Keeps p.Same (setGdtr g) :=
  Keeps.modify fun _ => by
    cases p with
    | gdtr => exact absurd rfl h
    | _ => exact rfl

theorem keepsSame_setIdtr (h : p ≠ .idtr) (g : GDTR) : Keeps p.Same (setIdtr g) :=
  Keeps.modify fun _ => by
    cases p with
    | idtr => exact absurd rfl h
    | _ => exact rfl

theorem keepsSame_setLdtr (h : p ≠ .ldtr) (x : BitVec 16) : Keeps p.Same (setLdtr x) :=
  Keeps.modify fun _ => by
    cases p with
    | ldtr => exact absurd rfl h
    | _ => exact rfl

theorem keepsSame_setCr0 (h : p ≠ .cr0) (x : BitVec 32) : Keeps p.Same (setCr0 x) :=
  Keeps.modify fun _ => by
    cases p with
    | cr0 => exact absurd rfl h
    | _ => exact rfl

theorem keepsSame_setMem (h : ∀ d, p ≠ .past d) (m : ℕ → BitVec 8) : Keeps p.Same (setMem m) :=
  Keeps.modify fun _ => by
    cases p with
    | past d => exact absurd rfl (h d)
    | _ => exact rfl

theorem keepsSame_assignFlag {f : Flag} (h : p.flag? ≠ some f) (c : Bool) :
    Keeps p.Same (assignFlag f c) :=
  Keeps.modify fun s => p.same_assignFlag s h c

theorem keepsSame_storeFlags {n : ℕ} (h : ∀ f, p.flag? = some f → n ≤ f.bit) (x : BitVec 32) :
    Keeps p.Same (storeFlags n x) :=
  Keeps.modify fun s => p.same_storeFlags s h x

/-- The byte of flags that `SAHF` loads has none that is protected. -/
theorem eight_le_bit {f : Flag} (h : p.flag? = some f) : 8 ≤ f.bit := by
  cases p <;> cases h <;> decide

theorem keepsSame_intDispatcher (h : ∀ d, p ≠ .past d) (host : Host) (v : BitVec 8) :
    Keeps p.Same (intDispatcher host v) := by
  have hmem := keepsSame_setMem h
  have hcall : Keeps p.Same (int80 host) := by
    unfold int80
    infer_instance
  unfold intDispatcher
  rw [List.getD_eq_getElem?_getD]
  rcases hf : (idt host)[v.toNat]? with _ | f
  · exact Keeps.throw Fault.table
  · have hmem := List.mem_of_getElem? hf
    simp only [idt, List.mem_append, List.mem_cons, List.mem_replicate] at hmem
    rcases hmem with ⟨-, rfl⟩ | rfl | ⟨-, rfl⟩
    · exact Keeps.pure 0
    · exact hcall
    · exact Keeps.pure 0

/-- A privileged handler leaves alone what it is not made for. -/
theorem Privileged.keepsSame {m : String} {h : Handler} (hp : Privileged m h)
    (hw : m ∉ p.writers) (insn : CsInsn) [insn.Decoded] : Keeps p.Same (h insn) := by
  cases hp with
  | lgdt =>
    have hset := @keepsSame_setGdtr p (by rintro rfl; simp [Part.writers] at hw)
    unfold lgdtI
    infer_instance
  | lidt =>
    have hset := @keepsSame_setIdtr p (by rintro rfl; simp [Part.writers] at hw)
    unfold lidtI
    infer_instance
  | lldt =>
    have hset := @keepsSame_setLdtr p (by rintro rfl; simp [Part.writers] at hw)
    unfold lldtI
    infer_instance
  | lmsw =>
    have hset := @keepsSame_setCr0 p (by rintro rfl; simp [Part.writers] at hw)
    unfold lmswI
    infer_instance
  | cli =>
    have hset : Keeps p.Same (clearFlag .IF) :=
      keepsSame_assignFlag (by cases p <;> simp [Part.writers, Part.flag?] at hw ⊢) false
    unfold cliI
    infer_instance
  | sti =>
    have hset : Keeps p.Same (setFlag .IF) :=
      keepsSame_assignFlag (by cases p <;> simp [Part.writers, Part.flag?] at hw ⊢) true
    unfold stiI
    infer_instance
  | cld =>
    have hset : Keeps p.Same (clearFlag .DF) :=
      keepsSame_assignFlag (by cases p <;> simp [Part.writers, Part.flag?] at hw ⊢) false
    unfold cldI
    infer_instance
  | std =>
    have hset : Keeps p.Same (setFlag .DF) :=
      keepsSame_assignFlag (by cases p <;> simp [Part.writers, Part.flag?] at hw ⊢) true
    unfold stdI
    infer_instance
  | popf =>
    have hset := @keepsSame_storeFlags p 16
      (by cases p <;> simp [Part.writers, Part.flag?] at hw ⊢)
    unfold popfI
    infer_instance
  | popfd =>
    have hset := @keepsSame_storeFlags p 16
      (by cases p <;> simp [Part.writers, Part.flag?] at hw ⊢)
    unfold popfdI
    infer_instance
  | sahf =>
    have hset := @keepsSame_storeFlags p 8 fun _ => eight_le_bit
    unfold sahfI
    infer_instance
  | int host =>
    have hint := @keepsSame_intDispatcher p (by rintro d rfl; simp [Part.writers] at hw) host
    unfold intI
    infer_instance

end Privileged

/-- What every instruction of a run moves along a preorder, the run does. -/
theorem Run.keeps {R : Machine → Machine → Prop} [IsPreorder Machine R] {host : Host}
    {P : CsInsn → Machine → Prop} {s t : Machine} (hrun : Run host P s t)
    (h : ∀ (insn : CsInsn) [insn.Decoded] (u : Machine), P insn u →
      Keeps R (dispatcher host insn.mnemonic insn)) : R s t := by
  induction hrun with
  | refl => exact refl_of R s
  | step _ decoded cond exec ih => exact trans_of R ih ((h _ _ cond).out _ _ _ exec)

theorem Run.mono {host : Host} {P Q : CsInsn → Machine → Prop} {s t : Machine}
    (hrun : Run host P s t) (h : ∀ insn u, P insn u → Q insn u) : Run host Q s t := by
  induction hrun with
  | refl => exact .refl
  | step _ decoded cond exec ih => exact ih.step decoded (h _ _ cond) exec

theorem keepsSame_dispatcher {p : Part} (host : Host) (insn : CsInsn) [insn.Decoded]
    (hw : insn.mnemonic ∉ p.writers) : Keeps p.Same (dispatcher host insn.mnemonic insn) := by
  rcases dispatcher_cases (mild_or_privileged host) insn.mnemonic insn with
    ⟨-, f, hf, heq⟩ | ⟨-, heq⟩ <;> rw [heq]
  · rcases hf with hf | hf
    · exact hf p.Same insn
    · exact hf.keepsSame hw insn
  · infer_instance

/-- A run without the instructions made for a part leaves it alone. -/
theorem run_same {p : Part} {host : Host} {s t : Machine}
    (h : Run host (fun insn _ => insn.mnemonic ∉ p.writers) s t) : p.Same s t :=
  h.keeps fun insn _ _ hw => keepsSame_dispatcher host insn hw

/-- A machine whose memory is all ones. -/
def Machine.ones : Machine := { Machine.blank with mem := fun _ => 0xFF }

/-- An instruction with the operand `[0]`. -/
def CsInsn.atZero (m : String) : CsInsn :=
  .bare m 3 [⟨.mem ⟨.invalid, .invalid, .invalid, 1, 0⟩, 2⟩]

theorem CsInsn.atZero_decoded (m : String) : (CsInsn.atZero m).Decoded :=
  ⟨by simp [atZero, bare], by simp [atZero, bare], by
    simp [atZero, bare, CsX86Op.Plain, X86Reg.Control]⟩

/-- A host whose system calls fill memory. -/
def Host.filling : Host := { Host.silent with syscalls := fun _ _ => (0, fun _ => 1) }

/-- Some run of one instruction with this mnemonic changes the part. -/
def Part.ChangedBy (p : Part) (m : String) : Prop :=
  ∃ (host : Host) (insn : CsInsn) (s t : Machine) (r : Ret), insn.Decoded ∧ insn.mnemonic = m ∧
    (dispatcher host insn.mnemonic insn).run s = .ok (r, t) ∧ ¬ p.Same s t

theorem changedBy_atZero {p : Part} {m : String} {s t : Machine} {r : Ret}
    (h : (dispatcher .silent m (.atZero m)).run s = .ok (r, t)) (hne : ¬ p.Same s t) :
    p.ChangedBy m :=
  ⟨_, _, s, t, r, CsInsn.atZero_decoded m, rfl, h, hne⟩

theorem changedBy_writer {p : Part} {m : String} (h : m ∈ p.writers) : p.ChangedBy m := by
  cases p <;> simp only [Part.writers, List.mem_cons, List.not_mem_nil, or_false] at h
  case gdtr =>
    subst h
    exact @changedBy_atZero _ _ .ones _ _ rfl (by simp [Part.Same]; decide)
  case idtr =>
    subst h
    exact @changedBy_atZero _ _ .ones _ _ rfl (by simp [Part.Same]; decide)
  case ldtr =>
    subst h
    exact @changedBy_atZero _ _ .ones _ _ rfl (by simp [Part.Same]; decide)
  case cr0 =>
    subst h
    exact @changedBy_atZero _ _ .ones _ _ rfl (by simp [Part.Same]; decide)
  case trap =>
    rcases h with rfl | rfl
    · exact @changedBy_atZero _ _ .ones _ _ rfl (by unfold Part.Same; decide)
    · exact @changedBy_atZero _ _ .ones _ _ rfl (by unfold Part.Same; decide)
  case interrupt =>
    rcases h with rfl | rfl | rfl | rfl
    · exact @changedBy_atZero _ _ .blank _ _ rfl (by unfold Part.Same; decide)
    · exact @changedBy_atZero _ _ (Machine.blank.clearFlag .IF) _ _ rfl
        (by unfold Part.Same; decide)
    · exact @changedBy_atZero _ _ .blank _ _ rfl (by unfold Part.Same; decide)
    · exact @changedBy_atZero _ _ .blank _ _ rfl (by unfold Part.Same; decide)
  case direction =>
    rcases h with rfl | rfl | rfl | rfl
    · exact @changedBy_atZero _ _ (Machine.blank.setFlag .DF) _ _ rfl
        (by unfold Part.Same; decide)
    · exact @changedBy_atZero _ _ .blank _ _ rfl (by unfold Part.Same; decide)
    · exact @changedBy_atZero _ _ .ones _ _ rfl (by unfold Part.Same; decide)
    · exact @changedBy_atZero _ _ .ones _ _ rfl (by unfold Part.Same; decide)
  case past d =>
    subst h
    exact ⟨.filling, int80Insn, .blank, _, _,
      ⟨by simp [int80Insn, CsInsn.bare], by simp [int80Insn, CsInsn.bare],
        by simp [int80Insn, CsInsn.bare, CsX86Op.Plain]⟩, rfl, rfl, fun hsame => by cases hsame⟩

/-- The runs of the instructions with some mnemonics all leave a part alone exactly where none of
these is made for it. -/
theorem run_same_iff (p : Part) (M : Set String) :
    (∀ (host : Host) (s t : Machine), Run host (fun insn _ => insn.mnemonic ∈ M) s t →
      p.Same s t) ↔ ∀ m ∈ p.writers, m ∉ M := by
  constructor
  · rintro h m hw hM
    obtain ⟨host, insn, s, t, r, hd, rfl, hrun, hne⟩ := changedBy_writer hw
    exact hne (h host s t (Run.refl.step hd hM hrun))
  · intro h host s t hrun
    exact run_same (hrun.mono fun insn _ hM hw => h _ hw hM)

/-- `SGDT [EBX]` -/
def sgdtEbx : CsInsn := .bare "sgdt" 3 [⟨.mem ⟨.invalid, .ebx, .invalid, 1, 0⟩, 6⟩]

theorem sgdtEbx_decoded : sgdtEbx.Decoded :=
  ⟨by simp [sgdtEbx, CsInsn.bare], by simp [sgdtEbx, CsInsn.bare], by
    simp [sgdtEbx, CsInsn.bare, CsX86Op.Plain, X86Reg.Control]⟩

/-- Every byte of memory is 1, `GDTR` is all ones, and `EBX` is `a`. -/
def Machine.aimed (a : BitVec 32) : Machine :=
  { Machine.blank.setReg .ebx a with mem := fun _ => 1, gdtr := ⟨0xFFFF, 0xFFFFFFFF⟩ }

theorem sgdtEbx_run (a : BitVec 32) : (dispatcher .silent "sgdt" sgdtEbx).run (.aimed a) =
    .ok (some 0, ((Machine.aimed a).advance sgdtEbx |>.poke .word (.mem a.toNat) 0xFFFF).poke
      .dword (.mem (a.toNat + 2)) 0xFFFFFF) := by
  have haddr : ((Machine.aimed a).advance sgdtEbx).effAddr sgdtEbx.op1.mem = a := by
    simp [Machine.effAddr, sgdtEbx, CsInsn.bare, CsInsn.op, CsX86Op.mem, Machine.regVal,
      Machine.regVal?, regs, regsSize, Machine.peek, widthOfBase, Machine.aimed, Machine.advance,
      Machine.setReg, low_of_le (show 32 ≤ Width.dword.bits from le_refl 32)]
  have hlimit : ((Machine.aimed a).advance sgdtEbx).gdtr.limit.setWidth 32 = 0xFFFF := by
    change (0xFFFF : BitVec 16).setWidth 32 = _
    decide
  have hbase : ((Machine.aimed a).advance sgdtEbx).gdtr.base &&& 0xFFFFFF = 0xFFFFFF := by
    change (0xFFFFFFFF : BitVec 32) &&& 0xFFFFFF = _
    decide
  change (do
    advance sgdtEbx
    let s ← get
    storeGDTR sgdtEbx.op1 s.gdtr
    return some 0 : Exec Ret).run (.aimed a) = _
  rw [run_bind_ok (advance_run _ _), run_bind_ok run_get_ok]
  unfold storeGDTR
  rw [bind_assoc, run_bind_ok run_get_ok, haddr, bind_assoc,
    run_bind_ok (store_run (.mem _) _), run_bind_ok (store_run (.mem _) _), hlimit, hbase]
  rfl

/-- The six bytes that `SGDT` stores from `a` on are changed. -/
theorem sgdtEbx_changes (a : BitVec 32) {j : ℕ} (hj : j < 6) :
    writeLE (writeLE (fun _ => (1 : BitVec 8)) a.toNat 2 (0xFFFF : BitVec 32)) (a.toNat + 2) 4
      (0xFFFFFF : BitVec 32) (a.toNat + j) ≠ 1 := by
  by_cases hlow : j < 2
  · rw [writeLE_of_not_mem (by omega), writeLE_add hlow]
    interval_cases j <;> decide
  · obtain ⟨i, rfl⟩ := Nat.exists_eq_add_of_le (Nat.le_of_not_lt hlow)
    have hi : i < 4 := by omega
    rw [← Nat.add_assoc, writeLE_add hi]
    interval_cases i <;> decide

/-- Runs without `INT` can change the bytes up to six past those that are allocated, and no
others. -/
theorem byte_changes_iff (k : ℕ) :
    (∃ (host : Host) (s t : Machine), Run host (fun insn _ => insn.mnemonic ≠ "int") s t ∧
      t.mem k ≠ s.mem k) ↔ k < memSize + 6 := by
  constructor
  · rintro ⟨host, s, t, hrun, hne⟩
    by_contra hk
    obtain ⟨d, rfl⟩ := Nat.exists_eq_add_of_le (Nat.le_of_not_lt hk)
    refine hne (hrun.keeps (R := (Part.past d).Same) fun insn _ _ hm =>
      keepsSame_dispatcher host insn ?_)
    simpa [Part.writers] using hm
  · intro hk
    have hsize : memSize = 2 ^ 32 - 1 := rfl
    obtain ⟨a, j, hj, rfl⟩ : ∃ (a : BitVec 32) (j : ℕ), j < 6 ∧ a.toNat + j = k := by
      by_cases hin : k < 2 ^ 32
      · exact ⟨BitVec.ofNat 32 k, 0, by omega, by simp; omega⟩
      · exact ⟨BitVec.ofNat 32 (2 ^ 32 - 1), k - (2 ^ 32 - 1), by omega, by simp; omega⟩
    exact ⟨.silent, _, _, Run.refl.step sgdtEbx_decoded (by decide) (sgdtEbx_run a),
      sgdtEbx_changes a hj⟩

end I386Vm
