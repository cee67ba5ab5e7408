import I386Vm.Proofs.Interrupts

/-!
# Argument vectors

`do_execve` counts the words of a vector up to the zero and makes a host address of each. A null
vector is counted like any other one, from the first word of guest memory on.
-/

namespace I386Vm

open Bytes

/-- A zero-terminated array of these words at `a`, inside guest memory. -/
structure IsVector (m : ℕ → BitVec 8) (a : ℕ) (ws : List (BitVec 32)) : Prop where
  entry : ∀ (i : ℕ) (h : i < ws.length), readLE m (a + 4 * i) 4 = ws[i]
  ne_zero : ∀ w ∈ ws, w ≠ 0
  zero : (readLE m (a + 4 * ws.length) 4 : BitVec 32) = 0
  inside : a + 4 * (ws.length + 1) ≤ memSize

/-- The words that a guest pointer stands for, none if it is null. -/
def PointsTo (m : ℕ → BitVec 8) (p : BitVec 32) (ws : List (BitVec 32)) : Prop :=
  (p = 0 ∧ ws = []) ∨ (p ≠ 0 ∧ IsVector m p.toNat ws)

section Vector

variable {m : ℕ → BitVec 8} {a n : ℕ} {p : BitVec 32} {ws : List (BitVec 32)} {k : Kernel}
  {s : Machine}

theorem bufferSizeFrom_eq (hzero : (readLE m (a + 4 * n) 4 : BitVec 32) = 0)
    (hne : ∀ i < n, (readLE m (a + 4 * i) 4 : BitVec 32) ≠ 0) :
    ∀ fuel count : ℕ, count ≤ n → n < count + fuel → bufferSizeFrom m a fuel count = some n
  | 0, count, h1, h2 => absurd h1 (by omega)
  | fuel + 1, count, h1, h2 => by
    unfold bufferSizeFrom
    rcases Nat.eq_or_lt_of_le h1 with rfl | hlt
    · exact if_pos hzero
    · rw [if_neg (hne count hlt)]
      exact bufferSizeFrom_eq hzero hne fuel (count + 1) hlt (by omega)

/-- What is counted ends with a zero. -/
theorem bufferSizeFrom_zero : ∀ fuel count : ℕ, bufferSizeFrom m a fuel count = some n →
    (readLE m (a + 4 * n) 4 : BitVec 32) = 0
  | 0, _, h => by cases h
  | fuel + 1, count, h => by
    unfold bufferSizeFrom at h
    split_ifs at h with hzero
    · cases h
      exact hzero
    · exact bufferSizeFrom_zero fuel (count + 1) h

theorem IsVector.bufferSize (h : IsVector m a ws) : bufferSize m a = some ws.length := by
  have hinside := h.inside
  unfold memSize at hinside
  refine bufferSizeFrom_eq h.zero (fun i hi => ?_) _ 0 (Nat.zero_le _) (by omega)
  rw [h.entry i hi]
  exact h.ne_zero _ (List.getElem_mem hi)

theorem IsVector.translateBuffer (h : IsVector m a ws) (k : Kernel) :
    k.translateBuffer m a ws.length = ws.map k.addr ++ [0] := by
  unfold Kernel.translateBuffer
  congr 1
  refine List.ext_getElem (by simp) fun i h1 h2 => ?_
  rw [List.length_map, List.length_range] at h1
  rw [List.getElem_map, List.getElem_map, List.getElem_range, h.entry i h1]

/-- The host array for a vector is the right one iff the vector is not null or a zero word lies at
address 0. -/
theorem PointsTo.translated_iff (h : PointsTo m p ws) (k : Kernel) :
    (∃ n, I386Vm.bufferSize m p.toNat = some n ∧
      k.translateBuffer m p.toNat n = ws.map k.addr ++ [0]) ↔
      p ≠ 0 ∨ (readLE m 0 4 : BitVec 32) = 0 := by
  rcases h with ⟨rfl, rfl⟩ | ⟨hp, hvec⟩
  · have hp : ¬ (0 : BitVec 32) ≠ 0 := fun h => h rfl
    rw [or_iff_right hp]
    constructor
    · rintro ⟨n, hn, hhost⟩
      have hlen := congrArg List.length hhost
      simp only [Kernel.translateBuffer, List.map_nil, List.length_append, List.length_map,
        List.length_range, List.length_cons, List.length_nil, Nat.zero_add] at hlen
      obtain rfl : n = 0 := by omega
      exact bufferSizeFrom_zero _ 0 hn
    · intro hzero
      exact ⟨0, if_pos hzero, rfl⟩
  · exact iff_of_true ⟨_, hvec.bufferSize, hvec.translateBuffer k⟩ (.inl hp)

theorem doExecve_eq_iff {argv envp : List (BitVec 64)} :
    doExecve k s = .call ⟨.sysExecve, [k.ptr s.arg1, .strings argv, .strings envp]⟩ 0 Reply.mem ↔
      (∃ n, bufferSize s.mem s.arg2.toNat = some n ∧
        k.translateBuffer s.mem s.arg2.toNat n = argv) ∧
      ∃ n, bufferSize s.mem s.arg3.toNat = some n ∧
        k.translateBuffer s.mem s.arg3.toNat n = envp := by
  unfold doExecve
  rcases bufferSize s.mem s.arg2.toNat with _ | ar32 <;>
    rcases bufferSize s.mem s.arg3.toNat with _ | en32 <;> simp

/-- The vectors that `do_execve` passes on are those of the guest iff none of them is null or a
zero word lies at address 0. -/
theorem doExecve_iff {argv envp : List (BitVec 32)} (k : Kernel)
    (hargv : PointsTo s.mem s.arg2 argv) (henvp : PointsTo s.mem s.arg3 envp) :
    doExecve k s = .call ⟨.sysExecve, [k.ptr s.arg1, .strings (argv.map k.addr ++ [0]),
        .strings (envp.map k.addr ++ [0])]⟩ 0 Reply.mem ↔
      (s.arg2 ≠ 0 ∨ (readLE s.mem 0 4 : BitVec 32) = 0) ∧
        (s.arg3 ≠ 0 ∨ (readLE s.mem 0 4 : BitVec 32) = 0) := by
  rw [doExecve_eq_iff, hargv.translated_iff k, henvp.translated_iff k]

end Vector

/-- The words 5, 9 and 0 from 16 on, and 7 and 0 from 28 on, as the two vectors. -/
def twoVectors : Machine :=
  { (Machine.blank.setReg .ecx 16).setReg .edx 28 with
    mem := fun i => if i = 16 then 5 else if i = 20 then 9 else if i = 28 then 7 else 0 }

theorem isVector_argv : IsVector twoVectors.mem 16 [5, 9] where
  entry i hi := by
    rcases i with _ | _ | i
    · rfl
    · rfl
    · exact absurd hi (by simp)
  ne_zero := by simp
  zero := rfl
  inside := by decide

theorem isVector_envp : IsVector twoVectors.mem 28 [7] where
  entry i hi := by
    obtain rfl : i = 0 := Nat.lt_one_iff.1 hi
    rfl
  ne_zero := by simp
  zero := rfl
  inside := by decide

theorem doExecve_two : doExecve .zero twoVectors =
    .call ⟨.sysExecve, [Kernel.zero.ptr 0, .strings [Kernel.zero.addr 5, Kernel.zero.addr 9, 0],
      .strings [Kernel.zero.addr 7, 0]]⟩ 0 Reply.mem :=
  (@doExecve_iff twoVectors [5, 9] [7] .zero (.inr ⟨by decide, isVector_argv⟩)
    (.inr ⟨by decide, isVector_envp⟩)).2 ⟨.inl (by decide), .inl (by decide)⟩

/-- `ecx` and `edx` are 0, and the first byte of memory is not. -/
def startsWith (x : BitVec 8) : Machine :=
  { Machine.blank with mem := fun i => if i = 0 then x else 0 }

/-- Null vectors, and a program that starts with a byte that is not zero. -/
theorem not_doExecve : ¬ ∀ (k : Kernel) (s : Machine) (argv envp : List (BitVec 32)),
    PointsTo s.mem s.arg2 argv → PointsTo s.mem s.arg3 envp →
      doExecve k s = .call ⟨.sysExecve, [k.ptr s.arg1, .strings (argv.map k.addr ++ [0]),
        .strings (envp.map k.addr ++ [0])]⟩ 0 Reply.mem := by
  intro hall
  have h := hall .zero (startsWith 5) [] [] (.inl ⟨rfl, rfl⟩) (.inl ⟨rfl, rfl⟩)
  obtain ⟨⟨n, hn, hhost⟩, -⟩ := doExecve_eq_iff.1 h
  have hsize : bufferSize (startsWith 5).mem (startsWith 5).arg2.toNat = some 1 := rfl
  rw [hsize] at hn
  cases hn
  cases hhost

end I386Vm
