import I386Vm.Proofs.Stack

/-!
# No iteration repeats its state, except for unlisted mnemonics

Every handler of the table moves `eip`, `esp` or `ecx`, so an iteration that ends in the state it
began in was a jump or a return to its own address. An instruction whose mnemonic is not in the
table is rejected with -1 and changes nothing, and the loop, which does not look at the -1, decodes
it again.
-/

namespace I386Vm

open Prog

/-- A jump whose target is its own address, or a return to it. -/
def TargetsItself (m : String) (insn : CsInsn) (s : Machine) : Prop :=
  (m ∈ jumps ∧ s.branchTarget insn.op1 = s.eip) ∨ (m = "ret" ∧ s.read32 (s.reg .esp) = s.eip)

/-- Under this mnemonic the handler ends where it began only when it targets itself. -/
structure Progresses (m : String) (h : Handler) : Prop where
  targets : ∀ (insn : CsInsn) [insn.Decoded] (s : Machine) (r : Ret),
    (h insn).run s = .ok (r, s) → TargetsItself m insn s

theorem advance_eip_ne (s : Machine) (insn : CsInsn) [hd : insn.Decoded] :
    (s.advance insn).eip ≠ s.eip := by
  have hpos := hd.pos
  have hle := hd.le
  change s.eip + insn.size.setWidth 32 ≠ s.eip
  bv_omega

def SameEip (s t : Machine) : Prop := t.eip = s.eip

instance : Tame SameEip where
  refl _ := rfl
  trans _ _ _ h g := g.trans h
  setReg _ _ _ := rfl
  setMem _ _ := rfl
  assignFlag s f c := by
    unfold SameEip Machine.assignFlag
    split <;> rfl
  complementFlag _ _ := rfl
  setGdtr _ _ := rfl
  setIdtr _ _ := rfl
  setLdtr _ _ := rfl
  setCr0 _ _ := rfl

theorem progresses_of_keeps {m : String} {h : Handler}
    (hk : ∀ (insn : CsInsn) [insn.Decoded], ∃ b : Exec Ret,
      h insn = (do advance insn; b) ∧ Keeps SameEip b) : Progresses m h where
  targets insn _ s r hrun := by
    obtain ⟨b, hb, hkeeps⟩ := hk insn
    rw [hb, run_bind_ok (advance_run s insn)] at hrun
    exact absurd (hkeeps.out _ _ _ hrun).symm (advance_eip_ne s insn)

theorem Straight.progresses {m : String} {h : Handler} (hs : Straight h) : Progresses m h :=
  progresses_of_keeps fun insn _ => by
    obtain ⟨b, hb, hkeeps⟩ := hs.body insn
    exact ⟨b, hb, hkeeps SameEip⟩

instance (n : ℕ) (x : BitVec 32) : Keeps SameEip (storeFlags n x) := Keeps.modify fun _ => rfl

theorem progresses_of_reg {m : String} {h : Handler} (v : Var) (n : BitVec 32) (hn : n ≠ 0)
    (hreg : ∀ insn s r t, (h insn).run s = .ok (r, t) → t.reg v = s.reg v - n) :
    Progresses m h where
  targets insn _ s r hrun := by
    have hv := hreg insn s r s hrun
    exact absurd hv (by bv_omega)

theorem progresses_callI (m : String) : Progresses m callI :=
  progresses_of_reg .esp 4 (by decide) fun insn s r t hrun => by
    rw [callI_run] at hrun
    obtain ⟨-, rfl⟩ := Prod.mk.inj (Except.ok.inj hrun)
    exact (s.advance insn).reg_push32_esp (s.advance insn).eip

def SameEcx (s t : Machine) : Prop := t.reg .ecx = s.reg .ecx

instance : IsPreorder Machine SameEcx where
  refl _ := rfl
  trans _ _ _ h g := g.trans h

instance (x : BitVec 32) : Keeps SameEcx (setEip x) := Keeps.modify fun _ => rfl

instance (insn : CsInsn) : Keeps SameEcx (advance insn) := Keeps.modify fun _ => rfl

instance (insn : CsInsn) : Keeps SameEcx (advanceIfDone insn) := by
  unfold advanceIfDone
  infer_instance

theorem keeps_stepVar_ecx {v : Var} (hv : .ecx ≠ v) (n : ℕ) : Keeps SameEcx (stepVar v n) :=
  Keeps.modify fun s => s.reg_setReg_of_ne hv _

instance (n : ℕ) : Keeps SameEcx (stepVar .edi n) := keeps_stepVar_ecx (by decide) n
instance (n : ℕ) : Keeps SameEcx (stepVar .esi n) := keeps_stepVar_ecx (by decide) n

instance (w : Width) (p : Ptr) : Keeps SameEcx (load w p) := by
  unfold load
  infer_instance

instance (w : Width) (i : ℕ) (x : BitVec 32) : Keeps SameEcx (store w (.mem i) x) := by
  unfold store
  have h : Keeps SameEcx (modify (·.poke w (.mem i) x) : Exec PUnit) := Keeps.modify fun _ => rfl
  infer_instance

instance (w : Width) : Keeps SameEcx (stosElem w) := by
  unfold stosElem
  infer_instance

instance (w : Width) : Keeps SameEcx (movsElem w) := by
  unfold movsElem
  infer_instance

theorem ecx_of_decEcx {α β : Type} {x : Exec α} {y : Exec β} [Keeps SameEcx x] [Keeps SameEcx y]
    {s t : Machine} {b : β} (h : (do let _ ← x; decEcx; y : Exec β).run s = .ok (b, t)) :
    t.reg .ecx = s.reg .ecx - 1 := by
  obtain ⟨a, u, hx, hrest⟩ := run_bind_inv h
  have hu : SameEcx s u := Keeps.out s a u hx
  have hdec : (decEcx).run u = .ok ((), u.setReg .ecx (u.reg .ecx - 1)) := rfl
  rw [run_bind_ok hdec] at hrest
  have ht : SameEcx (u.setReg .ecx (u.reg .ecx - 1)) t := Keeps.out _ b t hrest
  rw [ht, Machine.reg_setReg, hu]

theorem progresses_loopcc (m : String) (cond : Machine → Bool) : Progresses m (loopcc cond) :=
  progresses_of_reg .ecx 1 (by decide) fun insn s r t hrun => by
    unfold loopcc at hrun
    rw [run_bind_ok (advance_run s insn), run_bind_ok run_get_ok,
      run_bind_ok (setReg_run _ _ _)] at hrun
    have ht : SameEcx _ t := Keeps.out _ r t hrun
    rw [ht, Machine.reg_setReg]
    rfl

theorem progresses_jcc {m : String} (hm : m ∈ jumps) (cond : Machine → Bool) :
    Progresses m (jcc cond) where
  targets insn _ s r hrun := by
    have ht : (s.advance insn).branchTarget insn.op1 = s.branchTarget insn.op1 :=
      (SameData.advance s insn).branchTarget (SafePtr.plain_op insn 0)
    unfold jcc at hrun
    rw [run_bind_ok (advance_run s insn), run_bind_ok run_get_ok] at hrun
    split at hrun
    · have heip := congrArg (fun x => x.2.eip) (Except.ok.inj hrun)
      exact .inl ⟨hm, ht.symm.trans heip⟩
    · have heip := congrArg (fun x => x.2.eip) (Except.ok.inj hrun)
      exact absurd heip (advance_eip_ne s insn)

theorem Special.progresses {m : String} {h : Handler} (hs : Special m h) : Progresses m h := by
  cases hs with
  | jcc hm cond => exact progresses_jcc hm cond
  | loopcc m cond => exact progresses_loopcc m cond
  | jmp =>
    refine ⟨fun insn _ s r hrun => .inl ⟨by simp [jumps], ?_⟩⟩
    exact congrArg (fun x => x.2.eip) (Except.ok.inj hrun)
  | call => exact progresses_callI _
  | ret =>
    refine ⟨fun insn _ s r hrun => .inr ⟨rfl, ?_⟩⟩
    rw [retI_run] at hrun
    exact congrArg (fun x => x.2.eip) (Except.ok.inj hrun)
  | repMovs => exact progresses_of_reg .ecx 1 (by decide) fun _ _ _ _ => ecx_of_decEcx
  | repStos => exact progresses_of_reg .ecx 1 (by decide) fun _ _ _ _ => ecx_of_decEcx
  | popf => exact progresses_of_keeps fun _ _ => ⟨_, rfl, inferInstance⟩
  | popfd => exact progresses_of_keeps fun _ _ => ⟨_, rfl, inferInstance⟩
  | sahf => exact progresses_of_keeps fun _ _ => ⟨_, rfl, inferInstance⟩
  | null => exact ⟨fun _ _ _ _ hrun => by cases hrun⟩

theorem progresses_table (host : Host) : List.Forall₂ Progresses inss (instructions host) :=
  (straight_or_special host).imp fun _ _ h => h.elim Straight.progresses Special.progresses

/-- The iteration does not end in the state it began in, unless it was a jump or a return to its own
address. -/
def Advances (host : Host) (disasm : Disasm) (limit : BitVec 32) (insn : CsInsn) (s : Machine) :
    Prop :=
  iteration host disasm limit s ≠ .ok (some s) ∨ TargetsItself insn.mnemonic insn s

section Loop

variable {host : Host} {disasm : Disasm} {limit : BitVec 32} {insn : CsInsn} {s : Machine}

theorem iteration_eq
    (h : disasm (fun i => s.mem (s.eip.toNat + i)) s.eip (limit - s.eip) = some insn) :
    iteration host disasm limit s = (do
      let r ← (dispatcher host insn.mnemonic insn).run s
      return if exits insn r.1 then none else some r.2) := by
  unfold iteration
  rw [h]

theorem advances_of_mem [insn.Decoded]
    (h : disasm (fun i => s.mem (s.eip.toNat + i)) s.eip (limit - s.eip) = some insn)
    (hm : insn.mnemonic ∈ inss) : Advances host disasm limit insn s := by
  rcases dispatcher_cases (progresses_table host) insn.mnemonic insn with
    ⟨-, f, hf, heq⟩ | ⟨hn, -⟩
  · by_contra hstuck
    obtain ⟨hrepeat, htarget⟩ := not_or.1 hstuck
    rw [not_not, iteration_eq h, heq] at hrepeat
    rcases hrun : (f insn).run s with e | ⟨r, t⟩
    · rw [hrun] at hrepeat
      cases hrepeat
    · rw [hrun] at hrepeat
      have hsome : (if exits insn r then none else some t) = some s := Except.ok.inj hrepeat
      split at hsome
      · cases hsome
      · obtain rfl := Option.some.inj hsome
        exact htarget (hf.targets insn t r hrun)
  · exact absurd hm hn

theorem iteration_of_not_mem
    (h : disasm (fun i => s.mem (s.eip.toNat + i)) s.eip (limit - s.eip) = some insn)
    (hm : insn.mnemonic ∉ inss) : iteration host disasm limit s = .ok (some s) := by
  rcases dispatcher_cases (progresses_table host) insn.mnemonic insn with ⟨hn, -⟩ | ⟨-, heq⟩
  · exact absurd hn hm
  · have hexit : exits insn (some (-1)) = false := by
      unfold exits
      simp
    rw [iteration_eq h, heq]
    change Except.ok (if exits insn (some (-1)) then none else some s) = _
    rw [hexit]
    rfl

set_option maxRecDepth 4000 in
theorem jumps_subset : "ret" :: jumps ⊆ inss := by
  intro m hm
  revert m
  decide

theorem not_advances_of_not_mem
    (h : disasm (fun i => s.mem (s.eip.toNat + i)) s.eip (limit - s.eip) = some insn)
    (hm : insn.mnemonic ∉ inss) : ¬ Advances host disasm limit insn s := by
  rintro (hne | ⟨hj, -⟩ | ⟨hr, -⟩)
  · exact hne (iteration_of_not_mem h hm)
  · exact hm (jumps_subset (List.mem_cons_of_mem _ hj))
  · exact hm (jumps_subset (hr ▸ List.mem_cons_self))

/-- The loop goes on exactly with the mnemonics of the table. -/
theorem advances_iff [insn.Decoded]
    (h : disasm (fun i => s.mem (s.eip.toNat + i)) s.eip (limit - s.eip) = some insn) :
    Advances host disasm limit insn s ↔ insn.mnemonic ∈ inss :=
  ⟨fun ha => by_contra fun hm => not_advances_of_not_mem h hm ha, advances_of_mem h⟩

set_option maxRecDepth 4000 in
theorem advances_nop : Advances .silent (fun _ _ _ => some (.bare "nop" 1 [])) 1
    (.bare "nop" 1 []) .blank := by
  have hd : (CsInsn.bare "nop" 1 []).Decoded := ⟨by decide, by decide, by decide⟩
  exact (advances_iff rfl).2 (by decide)

set_option maxRecDepth 4000 in
/-- `CPUID` is not in the table. -/
theorem not_advances_cpuid : ¬ ∀ (host : Host) (disasm : Disasm) (limit : BitVec 32)
    (insn : CsInsn) (s : Machine), insn.Decoded →
      disasm (fun i => s.mem (s.eip.toNat + i)) s.eip (limit - s.eip) = some insn →
      Advances host disasm limit insn s := by
  intro hall
  have hd : (CsInsn.bare "cpuid" 2 []).Decoded := ⟨by decide, by decide, by decide⟩
  have hstuck := hall .silent (fun _ _ _ => some (.bare "cpuid" 2 [])) 2 _ .blank hd rfl
  exact not_advances_of_not_mem rfl (by decide) hstuck

end Loop

end I386Vm
