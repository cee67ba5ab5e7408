import I386Vm.Proofs.Stack

/-!
# Calls and returns nest

`n` calls, each after pushes of its arguments, and then `n` returns that drop them, with anything in
between that leaves `esp` and the pushed words alone. Each return goes to the address after its
call, each call went to its target, and at the end `esp` and the memory outside the pushed words are
as they were. The invariant is `Kept`: what lies between `esp` and the top of the stack stays.
-/

namespace I386Vm

open Bytes Prog

/-- `esp` as an address. -/
def Machine.sp (s : Machine) : ℕ := (s.reg .esp).toNat

section Steps

variable {insn : CsInsn} {s : Machine}

theorem push32_spec (x : BitVec 32) (h : 4 ≤ s.sp) :
    (s.push32 x).sp = s.sp - 4 ∧ (s.push32 x).mem = writeLE s.mem (s.sp - 4) 4 x := by
  have hesp : (s.reg .esp - 4).toNat = s.sp - 4 := by
    unfold Machine.sp at *
    bv_omega
  have hlt := (s.reg .esp).isLt
  constructor
  · unfold Machine.sp
    rw [s.reg_push32_esp x, hesp]
    rfl
  · unfold Machine.push32
    rw [Machine.write32_eq _ _ _ (by rw [hesp]; unfold Machine.sp; omega), hesp]
    rfl

theorem pushI_run (hsize : insn.op1.size ≠ 2) (ht : insn.op1.type ≠ .invalid) :
    ∃ x, (pushI insn).run s = .ok (some 0, (s.advance insn).push32 x) := by
  have hsrc : ∃ x, (srcWide insn.op1).run (s.advance insn) = .ok (x, s.advance insn) := by
    unfold srcWide
    rw [run_bind_ok run_get_ok]
    split_ifs with h1 h2 h3
    · exact ⟨_, rfl⟩
    · exact ⟨_, rfl⟩
    · exact ⟨_, load_run (.mem _)⟩
    · rcases hty : insn.op1.type with _ | _ | _ | _
      · exact absurd hty ht
      · exact absurd hty h1
      · exact absurd hty h2
      · exact absurd hty h3
  obtain ⟨x, hx⟩ := hsrc
  refine ⟨x, ?_⟩
  unfold pushI
  rw [run_bind_ok (advance_run s insn), run_bind_ok hx, if_neg hsize]
  rfl

end Steps

/-- What may happen between the instructions: `esp`, the stack from there up to `top` and the bytes
of `keep` stay. -/
structure Respects (keep : ℕ → Prop) (top : ℕ) (s t : Machine) : Prop where
  esp : t.reg .esp = s.reg .esp
  stack : ∀ i, s.sp ≤ i → i < top → t.mem i = s.mem i
  kept : ∀ i, keep i → t.mem i = s.mem i

/-- `k` pushes of 32 bits. -/
inductive Pushes (keep : ℕ → Prop) (top : ℕ) : ℕ → Machine → Machine → Prop
  | none {s t : Machine} (before : Respects keep top s t) : Pushes keep top 0 s t
  | push {k : ℕ} {s t u v : Machine} {insn : CsInsn} (before : Respects keep top s t)
      (size : insn.op1.size ≠ 2) (operand : insn.op1.type ≠ .invalid)
      (run : (pushI insn).run t = .ok (some 0, u)) (rest : Pushes keep top k u v) :
      Pushes keep top (k + 1) s v

/-- A `RET` that drops `k` words. -/
def CsInsn.Drops (insn : CsInsn) (k : ℕ) : Prop :=
  (insn.opCount = 1 ∧ insn.op1.imm = BitVec.ofNat 64 (4 * k)) ∨ (insn.opCount = 0 ∧ k = 0)

/-- Of one call: the address after it, where its return went, its target and where it went. -/
structure CallRet where
  after : BitVec 32
  back : BitVec 32
  target : BitVec 32
  entered : BitVec 32

/-- Calls, each after as many pushes as the list says, and then their returns in reverse order. -/
inductive Nested (keep : ℕ → Prop) (top : ℕ) :
    List ℕ → Machine → Machine → List CallRet → Prop
  | nil {s t : Machine} (between : Respects keep top s t) : Nested keep top [] s t []
  | cons {k : ℕ} {ks : List ℕ} {s t u v w x : Machine} {c r : CsInsn} {frames : List CallRet}
      (pushes : Pushes keep top k s t) (plain : c.op1.Plain)
      (call : (callI c).run t = .ok (some 0, u)) (body : Nested keep top ks u v frames)
      (drops : r.Drops k) (ret : (retI r).run v = .ok (some 0, w))
      (between : Respects keep top w x) :
      Nested keep top (k :: ks) s x
        (⟨(t.advance c).eip, w.eip, t.branchTarget c.op1, u.eip⟩ :: frames)

/-- The bytes that the pushes and the calls push. -/
def pushed : List ℕ → ℕ
  | [] => 0
  | k :: ks => 4 * k + 4 + pushed ks

/-- Between `s` and `t` the stack above the `esp` of `s` stays, and of `keep` all but the bytes from
`lo` up to it. -/
structure Kept (keep : ℕ → Prop) (top lo : ℕ) (s t : Machine) : Prop where
  stack : ∀ i, s.sp ≤ i → i < top → t.mem i = s.mem i
  kept : ∀ i, keep i → ¬ (lo ≤ i ∧ i < s.sp) → t.mem i = s.mem i

section Invariant

variable {keep : ℕ → Prop} {top lo lo' : ℕ} {s t u : Machine}

theorem Respects.sp (h : Respects keep top s t) : t.sp = s.sp := by
  unfold Machine.sp
  rw [h.esp]

theorem Respects.keeps (h : Respects keep top s t) : Kept keep top lo s t :=
  ⟨h.stack, fun i hi _ => h.kept i hi⟩

theorem Kept.trans (h : Kept keep top lo s t) (g : Kept keep top lo' t u) (hsp : t.sp ≤ s.sp)
    (hlo : lo' ≤ lo) : Kept keep top lo' s u := by
  constructor
  · intro i hi htop
    rw [g.stack i (le_trans hsp hi) htop, h.stack i hi htop]
  · intro i hi hout
    rw [g.kept i hi (by omega), h.kept i hi (by omega)]

theorem kept_of_mem {x : BitVec 32} (h : 4 ≤ s.sp)
    (hmem : t.mem = writeLE s.mem (s.sp - 4) 4 x) : Kept keep top (s.sp - 4) s t := by
  constructor
  · intro i hi _
    rw [hmem, writeLE_of_not_mem (by omega)]
  · intro i _ hout
    rw [hmem, writeLE_of_not_mem (by omega)]

theorem Pushes.spec {k : ℕ} (h : Pushes keep top k s t) (hroom : 4 * k ≤ s.sp) :
    t.sp = s.sp - 4 * k ∧ Kept keep top t.sp s t := by
  induction h with
  | none before => exact ⟨before.sp, before.keeps⟩
  | @push k s t u v insn before size operand run rest ih =>
    obtain ⟨x, hx⟩ := @pushI_run insn t size operand
    rw [run] at hx
    cases hx
    have hsp := before.sp
    obtain ⟨husp, humem⟩ := @push32_spec (t.advance insn) x (by
      change 4 ≤ t.sp
      omega)
    change _ = t.sp - 4 at husp
    obtain ⟨hvsp, hv⟩ := ih (by omega)
    have hpush : Kept keep top (t.sp - 4) t _ := kept_of_mem (by omega) humem
    have hbefore : Kept keep top (t.sp - 4) s t := before.keeps
    refine ⟨by omega, ?_⟩
    exact hbefore.trans (hpush.trans hv (by omega) (by omega)) (by omega) (by omega)

theorem CsInsn.Drops.retBytes {insn : CsInsn} {k : ℕ} (h : insn.Drops k) :
    insn.retBytes = BitVec.ofNat 32 (4 * k) := by
  unfold CsInsn.retBytes
  rcases h with ⟨h1, himm⟩ | ⟨h0, rfl⟩
  · rw [if_pos h1, himm]
    apply BitVec.eq_of_toNat_eq
    rw [BitVec.toNat_setWidth, BitVec.toNat_ofNat, BitVec.toNat_ofNat,
      Nat.mod_mod_of_dvd _ (Nat.pow_dvd_pow 2 (by decide))]
  · rw [if_neg (by simp [h0])]
    rfl

theorem call_spec {c : CsInsn} (plain : c.op1.Plain) (hroom : 4 ≤ s.sp)
    (run : (callI c).run s = .ok (some 0, t)) :
    t.sp = s.sp - 4 ∧ t.mem = writeLE s.mem (s.sp - 4) 4 (s.advance c).eip ∧
      t.eip = s.branchTarget c.op1 := by
  obtain ⟨hsp, hmem⟩ := @push32_spec (s.advance c) (s.advance c).eip hroom
  have htarget := (SameData.advance s c).branchTarget plain
  rw [callI_run] at run
  cases run
  exact ⟨hsp, hmem, htarget⟩

theorem ret_spec {r : CsInsn} {k : ℕ} (drops : r.Drops k)
    (run : (retI r).run s = .ok (some 0, t)) :
    t.reg .esp = s.reg .esp + 4 + BitVec.ofNat 32 (4 * k) ∧ t.mem = s.mem ∧
      t.eip = s.read32 (s.reg .esp) := by
  rw [retI_run, drops.retBytes] at run
  cases run
  exact ⟨s.reg_setReg .esp _, rfl, rfl⟩

/-- What the call pushed is what the return pops. -/
theorem return_address {x : BitVec 32} (hroom : 4 ≤ s.sp) (htop : s.sp ≤ top)
    (hsp : t.sp = s.sp - 4) (hmem : t.mem = writeLE s.mem (s.sp - 4) 4 x)
    (hesp : u.reg .esp = t.reg .esp) (hkept : Kept keep top lo t u) :
    u.read32 (u.reg .esp) = x := by
  have hu : u.sp = s.sp - 4 := by
    rw [← hsp]
    unfold Machine.sp
    rw [hesp]
  have hlt : s.sp < 2 ^ 32 := (s.reg .esp).isLt
  have haddr : (u.reg .esp).toNat = s.sp - 4 := hu
  rw [Machine.read32_eq _ _ (by omega), haddr]
  calc (readLE u.mem (s.sp - 4) 4 : BitVec 32) = readLE t.mem (s.sp - 4) 4 :=
        readLE_congr fun i h1 h2 => hkept.stack i (by omega) (by omega)
    _ = readLE (writeLE s.mem (s.sp - 4) 4 x) (s.sp - 4) 4 := by rw [hmem]
    _ = low (8 * 4) x := readLE_writeLE _ _ _ _
    _ = x := low_of_le (le_refl 32) x

theorem Nested.spec {ks : List ℕ} {frames : List CallRet} (h : Nested keep top ks s t frames)
    (hroom : pushed ks ≤ s.sp) (htop : s.sp ≤ top) :
    t.reg .esp = s.reg .esp ∧ Kept keep top (s.sp - pushed ks) s t ∧
      ∀ f ∈ frames, f.back = f.after ∧ f.entered = f.target := by
  induction h with
  | nil between => exact ⟨between.esp, between.keeps, by simp⟩
  | @cons k ks s t u v w x c r frames pushes plain call body drops ret between ih =>
    unfold pushed at hroom ⊢
    obtain ⟨htsp, hst⟩ := pushes.spec (by omega)
    obtain ⟨husp, humem, htarget⟩ := call_spec plain (by omega) call
    have htu : Kept keep top (t.sp - 4) t u := kept_of_mem (by omega) humem
    obtain ⟨hvesp, huv, hframes⟩ := ih (by omega) (by omega)
    obtain ⟨hwesp, hwmem, hback⟩ := ret_spec drops ret
    have hret := return_address (by omega) (by omega) husp humem hvesp huv
    -- `esp` is where it was before the pushes
    have hesp : w.reg .esp = s.reg .esp := by
      have hv : (v.reg .esp).toNat = s.sp - 4 * k - 4 := by
        rw [hvesp, ← htsp]
        exact husp
      have hs := (s.reg .esp).isLt
      have hsp : (s.reg .esp).toNat = s.sp := rfl
      apply BitVec.eq_of_toNat_eq
      rw [hwesp, BitVec.toNat_add, BitVec.toNat_add, BitVec.toNat_ofNat, hv, hsp]
      have h4 : (4 : BitVec 32).toNat = 4 := rfl
      rw [h4]
      omega
    have hsv : Kept keep top (u.sp - pushed ks) s v :=
      hst.trans (htu.trans huv (by omega) (by omega)) (by omega) (by omega)
    have hsw : Kept keep top (u.sp - pushed ks) s w := by
      constructor
      · rw [hwmem]
        exact hsv.stack
      · rw [hwmem]
        exact hsv.kept
    have hlo : u.sp - pushed ks = s.sp - (4 * k + 4 + pushed ks) := by omega
    have hwsp : w.sp = s.sp := by
      unfold Machine.sp
      rw [hesp]
    refine ⟨between.esp.trans hesp, ?_, ?_⟩
    · rw [← hlo]
      exact hsw.trans between.keeps (le_of_eq hwsp) (le_refl _)
    · intro f hf
      rcases List.mem_cons.1 hf with rfl | hf
      · exact ⟨hback.trans hret, htarget⟩
      · exact hframes f hf

theorem Nested.length_eq {ks : List ℕ} {frames : List CallRet}
    (h : Nested keep top ks s t frames) : frames.length = ks.length := by
  induction h with
  | nil _ => rfl
  | cons _ _ _ _ _ _ _ ih => rw [List.length_cons, ih, List.length_cons]

theorem respects_refl (s : Machine) : Respects keep top s s :=
  ⟨rfl, fun _ _ _ => rfl, fun _ _ => rfl⟩

end Invariant

/-- Every push, call and return ends, and in a nest of them each call goes to its target and its
return to the address after it, `esp` ends where it began, and of the bytes that nothing else writes
only the pushed ones change. -/
theorem nested_returns :
    ((∀ (insn : CsInsn) (s : Machine), insn.op1.size ≠ 2 → insn.op1.type ≠ .invalid →
        ∃ t, (pushI insn).run s = .ok (some 0, t)) ∧
      ∀ (insn : CsInsn) (s : Machine), (∃ t, (callI insn).run s = .ok (some 0, t)) ∧
        ∃ t, (retI insn).run s = .ok (some 0, t)) ∧
    ∀ (keep : ℕ → Prop) (ks : List ℕ) (s t : Machine) (frames : List CallRet),
      Nested keep s.sp ks s t frames → pushed ks ≤ s.sp →
      frames.length = ks.length ∧ (∀ f ∈ frames, f.back = f.after ∧ f.entered = f.target) ∧
        t.reg .esp = s.reg .esp ∧
        ∀ i, keep i → ¬ (s.sp - pushed ks ≤ i ∧ i < s.sp) → t.mem i = s.mem i := by
  refine ⟨⟨fun insn s hsize ht => ?_, fun insn s => ⟨⟨_, callI_run⟩, _, retI_run⟩⟩, ?_⟩
  · obtain ⟨x, hx⟩ := @pushI_run insn s hsize ht
    exact ⟨_, hx⟩
  · intro keep ks s t frames h hroom
    obtain ⟨hesp, hkept, hframes⟩ := h.spec hroom (le_refl _)
    exact ⟨h.length_eq, hframes, hesp, hkept.kept⟩

def pushEax : CsInsn := .bare "push" 1 [⟨.reg .eax, 4⟩]

def callEax : CsInsn := .bare "call" 2 [⟨.reg .eax, 4⟩]

/-- `RET` that drops `k` words. -/
def retWords (k : ℕ) : CsInsn := .bare "ret" 3 [⟨.imm (BitVec.ofNat 64 (4 * k)), 2⟩]

theorem exists_pushes (keep : ℕ → Prop) (top k : ℕ) (s : Machine) :
    ∃ t, Pushes keep top k s t := by
  induction k generalizing s with
  | zero => exact ⟨s, .none (respects_refl s)⟩
  | succ k ih =>
    obtain ⟨x, hx⟩ := @pushI_run pushEax s (by decide) (by decide)
    obtain ⟨t, ht⟩ := ih ((s.advance pushEax).push32 x)
    exact ⟨t, .push (respects_refl s) (by decide) (by decide) hx ht⟩

theorem exists_nested (keep : ℕ → Prop) (top : ℕ) (ks : List ℕ) (s : Machine) :
    ∃ t frames, Nested keep top ks s t frames := by
  induction ks generalizing s with
  | nil => exact ⟨s, [], .nil (respects_refl s)⟩
  | cons k ks ih =>
    obtain ⟨t, hpushes⟩ := exists_pushes keep top k s
    obtain ⟨u, frames, hbody⟩ := ih _
    exact ⟨_, _, .cons hpushes (by decide : callEax.op1.Plain) callI_run hbody (.inl ⟨rfl, rfl⟩)
      (@retI_run (retWords k) u) (respects_refl _)⟩

/-- A call after one push and inside it another one after two. -/
theorem nested_returns_two : ∃ t frames,
    Nested (fun _ => True) 0x100 [1, 2] ((Machine.blank.setReg .eax 0x1234).setReg .esp 0x100) t
      frames ∧
    frames.length = 2 ∧ (∀ f ∈ frames, f.back = f.after ∧ f.entered = f.target) ∧
      t.reg .esp = 0x100 := by
  obtain ⟨t, frames, h⟩ := exists_nested (fun _ => True) 0x100 [1, 2]
    ((Machine.blank.setReg .eax 0x1234).setReg .esp 0x100)
  obtain ⟨hlen, hframes, hesp, -⟩ := nested_returns.2 (fun _ => True) [1, 2]
    ((Machine.blank.setReg .eax 0x1234).setReg .esp 0x100) t frames h (by decide)
  exact ⟨t, frames, h, hlen, hframes, hesp⟩

end I386Vm
