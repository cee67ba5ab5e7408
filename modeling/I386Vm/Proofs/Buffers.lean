import I386Vm.Proofs.Interrupts

/-!
# The buffers handed to the host

A handler adds a guest offset to `mem` and takes the length from another register or from guest
memory, and compares neither with the end of the array. An offset of 32 bits never wraps a host
address, so a buffer is inside exactly when its offset and its length together stay within the
allocated bytes. `do_time` adds nothing, and its word is inside only when the guest names a host
address.
-/

namespace I386Vm

open Bytes

/-- The host addresses of a call at which the kernel reads or writes a length that the call gives:
the buffers of `read`, `write`, `readlink` and `getcwd`, the vector of `writev`, and the eight bytes
of `time` unless its pointer is null. -/
def HostCall.buffers (c : HostCall) : List (BitVec 64 × BitVec 64) :=
  match c.nr, c.args with
  | .sysRead, [_, .ptr p, .long n] => [(p, n)]
  | .sysWrite, [_, .ptr p, .long n] => [(p, n)]
  | .sysReadlink, [_, .ptr p, .long n] => [(p, n)]
  | .sysGetcwd, [.ptr p, .long n] => [(p, n)]
  | .sysWritev, [_, .iovecs l, _] => l.map fun iov => (iov.iovBase, iov.iovLen)
  | .sysTime, [.long p] => [(p, 8)]
  | _, _ => []

namespace Kernel

/-- The bytes are among the allocated ones. -/
def Owns (k : Kernel) (b : BitVec 64 × BitVec 64) : Prop :=
  k.mem.toNat ≤ b.1.toNat ∧ b.1.toNat + b.2.toNat ≤ k.mem.toNat + memSize

/-- The handler makes no call, or one whose buffers are in guest memory. -/
def StaysInside (k : Kernel) : Action → Prop
  | .done _ _ => True
  | .undefined => True
  | .call c _ _ => ∀ b ∈ c.buffers, k.Owns b

variable (k : Kernel)

theorem toNat_addr (x : BitVec 32) : (k.addr x).toNat = k.mem.toNat + x.toNat := by
  have hfits := k.fits
  have hx := x.isLt
  unfold addr
  unfold memSize at hfits
  rw [BitVec.toNat_add, BitVec.toNat_setWidth_of_le (by decide), Nat.mod_eq_of_lt (by omega)]

theorem owns_addr_iff (x n : BitVec 32) :
    k.Owns (k.addr x, n.setWidth 64) ↔ x.toNat + n.toNat ≤ memSize := by
  have hn : (n.setWidth 64).toNat = n.toNat := BitVec.toNat_setWidth_of_le (by decide)
  unfold Owns
  rw [k.toNat_addr, hn]
  omega

theorem staysInside_call_iff {c : HostCall} {base : BitVec 64} {back : Reply → ℕ → BitVec 8} :
    k.StaysInside (.call c base back) ↔ ∀ b ∈ c.buffers, k.Owns b := Iff.rfl

theorem staysInside_one {c : HostCall} {base : BitVec 64} {back : Reply → ℕ → BitVec 8}
    {x n : BitVec 32} (h : c.buffers = [(k.addr x, n.setWidth 64)]) :
    k.StaysInside (.call c base back) ↔ x.toNat + n.toNat ≤ memSize := by
  rw [staysInside_call_iff, h, List.forall_mem_singleton, owns_addr_iff]

end Kernel

/-- The handlers that hand over buffers, and their numbers in the table. -/
inductive BufferCall
  | doRead | doWrite | doWritev | doGetcwd | doReadlink | doTime

namespace BufferCall

def number : BufferCall → ℕ
  | doRead => 3
  | doWrite => 4
  | doWritev => 146
  | doGetcwd => 183
  | doReadlink => 85
  | doTime => 13

/-- The buffers end within the allocated bytes. -/
def Fits (k : Kernel) (s : Machine) : BufferCall → Prop
  | doRead => s.arg2.toNat + s.arg3.toNat ≤ memSize
  | doWrite => s.arg2.toNat + s.arg3.toNat ≤ memSize
  | doWritev => ∀ i : ℕ, (i : ℤ) < s.arg3.toInt →
      (iovec s.mem s.arg2.toNat i).iovBase.toNat + (iovec s.mem s.arg2.toNat i).iovLen.toNat
        ≤ memSize
  | doGetcwd => s.arg1.toNat + s.arg2.toNat ≤ memSize
  | doReadlink => s.arg2.toNat + s.arg3.toNat ≤ memSize
  | doTime => s.arg1 = 0 ∨
      k.mem.toNat ≤ s.arg1.toNat ∧ s.arg1.toNat + 8 ≤ k.mem.toNat + memSize

end BufferCall

section Calls

variable (k : Kernel) (s : Machine)

theorem staysInside_doWritev_iff :
    k.StaysInside (doWritev k s) ↔ BufferCall.doWritev.Fits k s := by
  unfold doWritev BufferCall.Fits
  rw [k.staysInside_call_iff]
  by_cases hneg : s.arg3.slt 0 = true
  · -- a negative count passes no vector
    have hlt : s.arg3.toInt < 0 := by simpa [BitVec.slt] using hneg
    rw [if_pos hneg]
    refine iff_of_true (fun b hb => by cases hb) fun i hi => ?_
    omega
  · have hcount : s.arg3.toInt = s.arg3.toNat := by
      have hle : 0 ≤ s.arg3.toInt := by simpa [BitVec.slt] using hneg
      rw [BitVec.toInt_eq_toNat_cond] at hle ⊢
      have hlt := s.arg3.isLt
      split <;> omega
    rw [if_neg hneg, hcount]
    unfold HostCall.buffers
    simp only [List.forall_mem_map, List.mem_range, Nat.cast_lt]
    exact forall₂_congr fun i _ => k.owns_addr_iff _ _

theorem staysInside_doTime_iff : k.StaysInside (doTime k s) ↔ BufferCall.doTime.Fits k s := by
  have harg : (s.arg1.setWidth 64).toNat = s.arg1.toNat :=
    BitVec.toNat_setWidth_of_le (by decide)
  have hcall : doTime k s =
      .call ⟨.sysTime, if s.arg1 ≠ 0 then [.wide s.arg1] else [.ptr 0]⟩ 0 Reply.mem := rfl
  rw [hcall, k.staysInside_call_iff]
  by_cases h0 : s.arg1 = 0
  · rw [if_neg (not_not.2 h0)]
    exact iff_of_true (fun b hb => by cases hb) (.inl h0)
  · rw [if_pos h0]
    change (∀ b ∈ [(s.arg1.setWidth 64, (8 : BitVec 64))], k.Owns b) ↔ _
    unfold Kernel.Owns BufferCall.Fits
    rw [List.forall_mem_singleton, or_iff_right h0, harg]
    rfl

end Calls

/-- A call stays inside guest memory exactly when its buffers fit. -/
theorem buffersInside_iff (b : BufferCall) (k : Kernel) (s : Machine) :
    k.StaysInside (k.action b.number s) ↔ b.Fits k s := by
  cases b with
  | doRead => exact k.staysInside_one rfl
  | doWrite => exact k.staysInside_one rfl
  | doWritev => exact staysInside_doWritev_iff k s
  | doGetcwd => exact k.staysInside_one rfl
  | doReadlink => exact k.staysInside_one rfl
  | doTime => exact staysInside_doTime_iff k s

/-- `TIME` with a guest address, which the host takes as its own. -/
theorem not_staysInside_doTime : ¬ ∀ (b : BufferCall) (k : Kernel) (s : Machine),
    k.StaysInside (k.action b.number s) := by
  intro hall
  have hinside := hall .doTime .zero (Machine.blank.setReg .ebx 0x1000)
  rcases (staysInside_doTime_iff _ _).1 hinside with h0 | ⟨hle, -⟩
  · exact absurd h0 (by decide)
  · exact absurd hle (by decide)

end I386Vm
