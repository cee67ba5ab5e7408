import I386Vm.Proofs.Interrupts

/-!
# How a system call reports its answer

`EAX` becomes the low half of what `syscall()` returned, less `mem` where the handler translates an
address back. A failing `syscall()` returns -1, and nothing looks at `errno`: the guest sees
`EPERM`, or from the translating handlers the error that the placement of `mem` happens to spell.
-/

namespace I386Vm

open Prog

/-- What the kernel answers to the call that entry `n` makes, if it makes one. -/
def Kernel.answer (k : Kernel) (n : ℕ) (s : Machine) : Option Answer :=
  match k.action n s with
  | .done _ _ => none
  | .undefined => none
  | .call c _ _ => some (k.syscall c s).answer

/-- The handlers whose errors and addresses are looked at, and their numbers in the table. -/
inductive ErrnoCall
  | doRead | doWrite | doOpen | doClose | doWritev | doBrk | doMmap | doGetcwd

namespace ErrnoCall

def number : ErrnoCall → ℕ
  | doRead => 3
  | doWrite => 4
  | doOpen => 5
  | doClose => 6
  | doWritev => 146
  | doBrk => 45
  | doMmap => 90
  | doGetcwd => 183

def ReturnsAddress (c : ErrnoCall) : Prop := c = doMmap ∨ c = doBrk

/-- What the handler subtracts from what `syscall()` returned. -/
def base (k : Kernel) : ErrnoCall → BitVec 64
  | doMmap => k.mem
  | doGetcwd => k.mem
  | _ => 0

/-- `EAX` is the negated error, or the address less `mem`. -/
def Reports (c : ErrnoCall) (k : Kernel) (eax : BitVec 32) : Answer → Prop
  | .fail e => 1 ≤ e → e ≤ 4095 → eax.toNat = 2 ^ 32 - e
  | .ok v => c.ReturnsAddress → (eax.toNat : ℤ) = v.toNat - k.mem.toNat

/-- The error is the one that -1 less the base spells, and the address is in the 4 GiB from `mem` on
and comes back relative to it. -/
def Right (c : ErrnoCall) (k : Kernel) : Answer → Prop
  | .fail e => 1 ≤ e → e ≤ 4095 → (c.base k).toNat % 2 ^ 32 + 1 = e
  | .ok v => c.ReturnsAddress → k.mem.toNat ≤ v.toNat ∧ v.toNat < k.mem.toNat + 2 ^ 32 ∧
      k.mem.toNat % 2 ^ 32 = (c.base k).toNat % 2 ^ 32

end ErrnoCall

section Arithmetic

variable (v b m : BitVec 64)

theorem toNat_minus_one_sub : ((-1 - b).setWidth 32).toNat = 2 ^ 32 - 1 - b.toNat % 2 ^ 32 := by
  have hb := b.isLt
  have hone : (-1 : BitVec 64).toNat = 2 ^ 64 - 1 := rfl
  rw [BitVec.toNat_setWidth, BitVec.toNat_sub, hone]
  omega

theorem toNat_sub_eq_iff : (((v - b).setWidth 32).toNat : ℤ) = v.toNat - m.toNat ↔
    m.toNat ≤ v.toNat ∧ v.toNat < m.toNat + 2 ^ 32 ∧
      m.toNat % 2 ^ 32 = b.toNat % 2 ^ 32 := by
  have hb := b.isLt
  have hv := v.isLt
  rw [BitVec.toNat_setWidth, BitVec.toNat_sub]
  omega

theorem setWidth_sub_eq_iff : (v - b).setWidth 32 = (v - m).setWidth 32 ↔
    m.toNat % 2 ^ 32 = b.toNat % 2 ^ 32 := by
  have hb := b.isLt
  have hm := m.isLt
  rw [← BitVec.toNat_inj, BitVec.toNat_setWidth, BitVec.toNat_sub, BitVec.toNat_setWidth,
    BitVec.toNat_sub]
  omega

end Arithmetic

section Reports

variable {c : ErrnoCall} {k : Kernel} {s : Machine}

theorem ErrnoCall.number_lt (c : ErrnoCall) : c.number < nsyscalls := by
  cases c <;> decide

/-- Each of these handlers asks the kernel once, and returns its answer less the base. -/
theorem ErrnoCall.action_eq (c : ErrnoCall) (k : Kernel) (s : Machine) :
    ∃ call back, k.action c.number s = .call call (c.base k) back := by
  cases c <;> exact ⟨_, _, rfl⟩

theorem int80_answer (ports : Host) (hn : s.reg .eax = BitVec.ofNat 32 c.number) :
    ∃ a t, k.answer c.number s = some a ∧ (int80 (k.host ports)).run s = .ok (t.reg .eax, t) ∧
      t.reg .eax = (a.ret - c.base k).setWidth 32 := by
  obtain ⟨call, back, haction⟩ := c.action_eq k s
  have hlt := c.number_lt
  have hnat : (s.reg .eax).toNat = c.number := by
    unfold nsyscalls at hlt
    rw [hn, BitVec.toNat_ofNat, Nat.mod_eq_of_lt (by omega)]
  have hrun := @int80_of_lt (k.host ports) s (by rwa [hnat])
  rw [hnat] at hrun
  refine ⟨(k.syscall call s).answer, s.answered ((k.host ports).syscalls c.number s), ?_, ?_, ?_⟩
  · unfold Kernel.answer
    rw [haction]
  · rwa [Machine.eax_answered]
  · rw [Machine.eax_answered]
    change ((k.action c.number s).run k s).1 = _
    rw [haction]
    rfl

theorem reports_iff_right (c : ErrnoCall) (k : Kernel) (a : Answer) :
    c.Reports k ((a.ret - c.base k).setWidth 32) a ↔ c.Right k a := by
  cases a with
  | ok v => exact imp_congr_right fun _ => toNat_sub_eq_iff v (c.base k) k.mem
  | fail e =>
    refine imp_congr_right fun h1 => imp_congr_right fun h2 => ?_
    change ((-1 - c.base k).setWidth 32).toNat = 2 ^ 32 - e ↔ _
    rw [toNat_minus_one_sub]
    omega

end Reports

/-- The eight calls report the answer exactly when the error is the one that the return of -1 spells
and the address is relative to `mem` already; modulo `2^32` the latter is all an address needs. -/
theorem reports_iff (c : ErrnoCall) (k : Kernel) (ports : Host) (s : Machine)
    (hn : s.reg .eax = BitVec.ofNat 32 c.number) :
    ∃ a t, k.answer c.number s = some a ∧ (int80 (k.host ports)).run s = .ok (t.reg .eax, t) ∧
      (c.Reports k (t.reg .eax) a ↔ c.Right k a) ∧
      ∀ v, a = .ok v → (t.reg .eax = (v - k.mem).setWidth 32 ↔
        k.mem.toNat % 2 ^ 32 = (c.base k).toNat % 2 ^ 32) := by
  obtain ⟨a, t, ha, hrun, heax⟩ := int80_answer ports hn
  refine ⟨a, t, ha, hrun, ?_, ?_⟩
  · rw [heax]
    exact reports_iff_right c k a
  · rintro v rfl
    rw [heax]
    exact setWidth_sub_eq_iff v (c.base k) k.mem

/-- A kernel that fails every call. -/
def Kernel.failing (e : ℕ) : Kernel :=
  { Kernel.zero with syscall := fun _ s => ⟨.fail e, s.mem, fun _ => 0⟩ }

/-- `EPERM`, whose number is 1. -/
theorem reports_eperm :
    ∃ t, (int80 ((Kernel.failing 1).host .silent)).run (Machine.blank.setReg .eax 3) =
      .ok (t.reg .eax, t) ∧ (t.reg .eax).toNat = 2 ^ 32 - 1 := by
  obtain ⟨a, t, ha, hrun, hiff, -⟩ :=
    reports_iff .doRead (.failing 1) .silent (Machine.blank.setReg .eax 3) rfl
  obtain rfl : a = .fail 1 := (Option.some.inj ha).symm
  exact ⟨t, hrun, hiff.2 (fun _ _ => rfl) le_rfl (by decide)⟩

/-- A `READ` of a file that is not open: `EBADF` is 9. -/
theorem not_reports_ebadf : ¬ ∀ (c : ErrnoCall) (k : Kernel) (ports : Host) (s : Machine),
    s.reg .eax = BitVec.ofNat 32 c.number →
      ∃ a t, k.answer c.number s = some a ∧ (int80 (k.host ports)).run s = .ok (t.reg .eax, t) ∧
        c.Reports k (t.reg .eax) a := by
  intro hall
  obtain ⟨a, t, ha, hrun, hreports⟩ :=
    hall .doRead (.failing 9) .silent (Machine.blank.setReg .eax 3) rfl
  obtain rfl : a = .fail 9 := (Option.some.inj ha).symm
  have heax : t.reg .eax = -1 := (congrArg Prod.fst (Except.ok.inj hrun)).symm
  have hnat := hreports (by decide) (by decide)
  rw [heax] at hnat
  exact absurd hnat (by decide)

end I386Vm
