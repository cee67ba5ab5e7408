import I386Vm.Lib.Access
import I386Vm.Proofs.Stack

/-!
# The two ways to reach memory

`PUSH`, `POP`, `CALL` and `RET` go through `write16` to `read32`, and `MOV`, `ADD`, `MOVS` and the
others through a pointer to `mem + A`. Both reach the same bytes below the last one `initialize`
allocates exactly when the word ends there: the helpers wrap at `2^32` and the pointer runs on.
-/

namespace I386Vm

open Bytes Prog

namespace Machine

variable (s : Machine)

theorem write16_mem (a : BitVec 32) (v : BitVec 16) (i : ℕ) : (s.write16 a v).mem i =
    if i = (a.toNat + 1) % 2 ^ 32 then byteOf 1 v
    else if i = a.toNat then byteOf 0 v else s.mem i := by
  rw [← toNat_add_lit a 1 (by omega)]
  unfold write16 write8
  simp only [Function.update_apply]
  rfl

theorem wrapped_write16 (a : BitVec 32) (v : BitVec 16) {j : ℕ} (hj : j < 2) :
    (s.write16 a v).wrapped a j = byteOf j v := by
  have ha := a.isLt
  unfold wrapped
  rw [toNat_add_lit a j (by omega), write16_mem]
  rcases j with _ | _ | j
  · rw [if_neg (by omega), if_pos (by omega)]
  · rw [if_pos rfl]
  · omega

theorem write16_mem_of_ne {a : BitVec 32} {i : ℕ} (v : BitVec 16)
    (h : ∀ j < 2, i ≠ (a.toNat + j) % 2 ^ 32) : (s.write16 a v).mem i = s.mem i := by
  have ha := a.isLt
  have h0 := h 0 (by omega)
  rw [write16_mem, if_neg (h 1 (by omega)), if_neg (by omega)]

theorem write16_eq {a : BitVec 32} (v : BitVec 16) (h : a.toNat + 2 ≤ 2 ^ 32) :
    s.write16 a v = { s with mem := writeLE s.mem a.toNat 2 v } := by
  have hmem : (s.write16 a v).mem = writeLE s.mem a.toNat 2 v := by
    funext i
    rw [write16_mem, Nat.mod_eq_of_lt (by omega)]
    by_cases hi : a.toNat ≤ i ∧ i < a.toNat + 2
    · obtain ⟨j, rfl⟩ := Nat.exists_eq_add_of_le hi.1
      rw [writeLE_add (by omega)]
      rcases j with _ | _ | j
      · rw [if_neg (by omega), if_pos (by omega)]
      · rw [if_pos rfl]
      · omega
    · rw [writeLE_of_not_mem hi, if_neg (by omega), if_neg (by omega)]
  rw [← hmem]
  rfl

theorem read16_eq_readLE {a : BitVec 32} (h : a.toNat + 2 ≤ 2 ^ 32) :
    s.read16 a = readLE s.mem a.toNat 2 := by
  rw [read16_eq_wrapped]
  apply BitVec.eq_of_getLsbD_eq
  intro i hi
  rw [getLsbD_readLE, getLsbD_readLE, Nat.zero_add]
  by_cases hn : i < 8 * 2
  · rw [wrapped, toNat_add_lit a _ (by omega), Nat.mod_eq_of_lt (by omega)]
  · simp [hn]

end Machine

/-- A way to read and write a word at an address. -/
structure Way where
  read : Machine → BitVec 32
  write : Machine → BitVec 32 → Machine

namespace Way

/-- `read16` and `write16` at two bytes, `read32` and `write32` at four. One byte is `mem[addr]`
itself. -/
def helpers (w : Width) (a : BitVec 32) : Way :=
  match w with
  | .byte => ⟨fun s => s.read8 a, fun s v => s.write8 a (v.setWidth 8)⟩
  | .word => ⟨fun s => s.read16 a, fun s v => s.write16 a (v.setWidth 16)⟩
  | .dword => ⟨fun s => s.read32 a, fun s v => s.write32 a v⟩

/-- `*(uintN_t *)(mem + a)` -/
def direct (w : Width) (a : BitVec 32) : Way where
  read s := s.peek w (.mem a.toNat)
  write s v := s.poke w (.mem a.toNat) v

/-- The byte of `mem` at index `i` is read, or written with the value `v`. -/
def Touches (f : Way) (s : Machine) (v : BitVec 32) (i : ℕ) : Prop :=
  ReadsAt (fun m => f.read { s with mem := m }) i ∨
    WritesAt (fun m => (f.write { s with mem := m } v).mem) i

theorem touches_direct {w : Width} {a : BitVec 32} {s : Machine} {v : BitVec 32} {i : ℕ} :
    (direct w a).Touches s v i ↔ a.toNat ≤ i ∧ i < a.toNat + w.bytes := by
  have hw : 8 * w.bytes ≤ 32 := by cases w <;> decide
  have hread := @readsAt_readLE 32 a.toNat w.bytes i hw
  have hwrite := @writesAt_writeLE 32 a.toNat w.bytes i v
  unfold Touches
  exact (or_congr hread hwrite).trans (or_self_iff)

variable {w : Width} {a : BitVec 32}

/-- Below `2^32` the helpers are the direct accesses. -/
theorem helpers_eq_direct (hw : w ≠ .byte) (h : a.toNat + w.bytes ≤ 2 ^ 32) :
    helpers w a = direct w a := by
  cases w with
  | byte => exact absurd rfl hw
  | word =>
    have hread (s : Machine) : s.read16 a = readLE s.mem a.toNat 2 := s.read16_eq_readLE h
    have hwrite (s : Machine) (v : BitVec 32) :
        s.write16 a (v.setWidth 16) = { s with mem := writeLE s.mem a.toNat 2 v } := by
      rw [s.write16_eq _ h, writeLE_setWidth _ _ (by decide)]
    simp only [helpers, direct, Way.mk.injEq]
    exact ⟨funext hread, funext fun s => funext (hwrite s)⟩
  | dword =>
    simp only [helpers, direct, Way.mk.injEq]
    exact ⟨funext fun s => s.read32_eq a h, funext fun s => funext fun v => s.write32_eq a v h⟩

end Way

/-- The helpers and the pointer read the same word, leave the same machine and touch only bytes
that are allocated. -/
structure Agree (w : Width) (a : BitVec 32) (s : Machine) (v : BitVec 32) : Prop where
  read : (Way.helpers w a).read s = (Way.direct w a).read s
  write : (Way.helpers w a).write s v = (Way.direct w a).write s v
  helpers : ∀ i, (Way.helpers w a).Touches s v i → i < memSize
  direct : ∀ i, (Way.direct w a).Touches s v i → i < memSize

/-- The two ways agree exactly on the words that end inside the allocated bytes. -/
theorem agree_iff {w : Width} (hw : w ≠ .byte) (a : BitVec 32) (s : Machine) (v : BitVec 32) :
    Agree w a s v ↔ a.toNat + w.bytes ≤ memSize := by
  have hpos : 0 < w.bytes := by cases w <;> decide
  constructor
  · intro h
    have hlast := h.direct (a.toNat + (w.bytes - 1)) (Way.touches_direct.2 (by omega))
    omega
  · intro h
    have hsize : memSize < 2 ^ 32 := by decide
    have hway := Way.helpers_eq_direct hw (a := a) (by omega)
    have hin : ∀ i, (Way.direct w a).Touches s v i → i < memSize := by
      intro i hi
      have := Way.touches_direct.1 hi
      omega
    refine ⟨by rw [hway], by rw [hway], ?_, hin⟩
    rw [hway]
    exact hin

theorem agree_stack : Width.dword ≠ .byte ∧
    Agree .dword 0xFFEFFFFC .blank 0xDEADBEEF :=
  ⟨by decide, (agree_iff (by decide) _ _ _).2 (by decide)⟩

/-- At `0xFFFFFFFD` the top byte of a doubleword goes to index 0 one way and past the end of the
array the other. -/
theorem not_agree_top : ¬ ∀ (w : Width) (a : BitVec 32) (s : Machine) (v : BitVec 32), w ≠ .byte →
    Agree w a s v := by
  intro h
  have hwrite := (h .dword 0xFFFFFFFD .blank 0xAABBCCDD (by decide)).write
  have hbyte : (0xAA : BitVec 8) = 0 := congrArg (fun t => t.mem 0) hwrite
  exact absurd hbyte (by decide)

end I386Vm
