import I386Vm.ThreadArea
import I386Vm.Proofs.Operands

/-!
# What `set_thread_area` writes

`doSetThreadArea` always ends. It creates an entry, named by the structure or found free, or finds
none and changes nothing. A created entry is nine bytes of the table and the four of the
`entry_number`.
-/

namespace I386Vm

open Bytes Prog

/-- `n` bytes from `a` on written with a word that is computed from the memory itself. -/
def writes (a n : ℕ) (f : (ℕ → BitVec 8) → BitVec 32) (m : ℕ → BitVec 8) : ℕ → BitVec 8 :=
  writeLE m a n (f m)

def userEntry (u : ℕ) (m : ℕ → BitVec 8) : BitVec 32 := readLE m u 4

def userBase (u : ℕ) (m : ℕ → BitVec 8) : BitVec 32 := readLE m (u + 4) 4

def userLimit (u : ℕ) (m : ℕ → BitVec 8) : BitVec 32 := readLE m (u + 8) 4

def userBits (u : ℕ) (m : ℕ → BitVec 8) : UserBits := ⟨readLE m (u + 12) 4⟩

/-- Clearing the present bit of the descriptor at `d` if the structure at `u` asks for it. -/
def clearPresent (d u : ℕ) (m : ℕ → BitVec 8) : ℕ → BitVec 8 :=
  if (userBits u m).segNotPresent then
    writes (d + 5) 1 (fun m => readLE m (d + 5) 1 &&& ~~~0x80) m
  else m

/-- `used`, the limit and the base of the descriptor at `d`, from the structure at `u`. -/
def createdBase (d u : ℕ) (m : ℕ → BitVec 8) : ℕ → BitVec 8 :=
  writes (d + 7) 1 (fun m => (userBase u m >>> 24) &&& 0xFF) <|
  writes (d + 4) 1 (fun m => (userBase u m >>> 16) &&& 0xFF) <|
  writes (d + 2) 2 (fun m => userBase u m &&& 0xFFFF) <|
  writes d 2 (userLimit u) <| writes (d + 8) 1 (fun _ => 1) m

/-- And then the rights, and the number of the entry in the structure. -/
def created (d u : ℕ) (index : BitVec 8) (m : ℕ → BitVec 8) : ℕ → BitVec 8 :=
  writes u 4 (fun _ => index.setWidth 32) <|
  writes (d + 6) 1 (fun m => (userBits u m).granularity (userLimit u m)) <|
  clearPresent d u <|
  writes (d + 5) 1 (fun m => (userBits u m).access) <| createdBase d u m

section Created

variable {a n d u i : ℕ} {f : (ℕ → BitVec 8) → BitVec 32} {m : ℕ → BitVec 8} {index : BitVec 8}

theorem writes_of_not_mem (h : ¬ (a ≤ i ∧ i < a + n)) : writes a n f m i = m i :=
  writeLE_of_not_mem h

theorem readLE_writes : (readLE (writes a n f m) a n : BitVec 32) = low (8 * n) (f m) :=
  readLE_writeLE ..

theorem readLE_writes_of_disjoint {b k : ℕ} (h : a + n ≤ b ∨ b + k ≤ a) :
    (readLE (writes a n f m) b k : BitVec 32) = readLE m b k :=
  readLE_writeLE_of_disjoint h

theorem clearPresent_of_ne (h : i ≠ d + 5) : clearPresent d u m i = m i := by
  unfold clearPresent
  split
  · exact writes_of_not_mem (by omega)
  · rfl

theorem createdBase_of_not_mem (h : ¬ (d ≤ i ∧ i < d + 9)) : createdBase d u m i = m i := by
  unfold createdBase
  rw [writes_of_not_mem (by omega), writes_of_not_mem (by omega), writes_of_not_mem (by omega),
    writes_of_not_mem (by omega), writes_of_not_mem (by omega)]

/-- Outside the rights and the number, memory is as it was before these were written. -/
theorem created_eq (h5 : i ≠ d + 5) (h6 : i ≠ d + 6) (hu : ¬ (u ≤ i ∧ i < u + 4)) :
    created d u index m i = createdBase d u m i := by
  unfold created
  rw [writes_of_not_mem hu, writes_of_not_mem (by omega), clearPresent_of_ne h5,
    writes_of_not_mem (by omega)]

theorem created_of_not_mem (hd : ¬ (d ≤ i ∧ i < d + 9)) (hu : ¬ (u ≤ i ∧ i < u + 4)) :
    created d u index m i = m i := by
  rw [created_eq (by omega) (by omega) hu, createdBase_of_not_mem hd]

theorem userEntry_created : userEntry u (created d u index m) = index.setWidth 32 := by
  unfold userEntry created
  rw [readLE_writes]
  exact low_of_le (le_refl 32) _

end Created

section Run

variable {s : Machine} {u : ℕ} {index : BitVec 8}

theorem createEntry_run : (createEntry u index).run s =
    .ok (0, { s with mem := created (s.gdtEntry index) u index s.mem }) := by
  have hstore (s : Machine) (w : Width) (a : ℕ) (x : BitVec 32) :
      (store w (.mem a) x).run s = .ok ((), { s with mem := writeLE s.mem a w.bytes x }) :=
    store_run (.mem a) x
  have hload (s : Machine) (w : Width) (a : ℕ) :
      (load w (.mem a)).run s = .ok (readLE s.mem a w.bytes, s) := load_run (.mem a)
  have hbits (s : Machine) : (loadBits u).run s = .ok (userBits u s.mem, s) := rfl
  have hclear (s : Machine) (d : ℕ) :
      (if (userBits u s.mem).segNotPresent then do
        let access ← load .byte (.mem (d + 5))
        store .byte (.mem (d + 5)) (access &&& ~~~0x80)
      else return () : Exec Unit).run s = .ok ((), { s with mem := clearPresent d u s.mem }) := by
    unfold clearPresent
    split
    · rw [run_bind_ok (hload _ _ _), hstore]
      rfl
    · rfl
  unfold createEntry
  rw [run_bind_ok run_get_ok, run_bind_ok (hstore _ _ _ _), run_bind_ok (hload _ _ _),
    run_bind_ok (hstore _ _ _ _), run_bind_ok (hload _ _ _), run_bind_ok (hstore _ _ _ _),
    run_bind_ok (hload _ _ _), run_bind_ok (hstore _ _ _ _), run_bind_ok (hload _ _ _),
    run_bind_ok (hstore _ _ _ _), run_bind_ok (hbits _), run_bind_ok (hstore _ _ _ _),
    run_bind_ok (hbits _), run_bind_ok (hclear _ _), run_bind_ok (hload _ _ _),
    run_bind_ok (hbits _), run_bind_ok (hstore _ _ _ _), run_bind_ok (hstore _ _ _ _)]
  rfl

/-- The entry the call names, or the free one it finds. -/
def Machine.pickEntry (s : Machine) (u : ℕ) : Option (BitVec 8) :=
  if userEntry u s.mem ≠ -1 then some ((userEntry u s.mem).setWidth 8) else s.freeEntry

def Machine.withEntry (s : Machine) (u : ℕ) (index : BitVec 8) : Machine :=
  { s with mem := created (s.gdtEntry index) u index s.mem }

theorem doSetThreadArea_run (s : Machine) (arg1 : BitVec 32) :
    (doSetThreadArea arg1).run s = match s.pickEntry arg1.toNat with
      | some index => .ok (0, s.withEntry arg1.toNat index)
      | none => .ok (-1, s) := by
  have hload : (load .dword (.mem arg1.toNat)).run s = .ok (userEntry arg1.toNat s.mem, s) :=
    load_run (.mem _)
  unfold doSetThreadArea Machine.pickEntry
  rw [run_bind_ok run_get_ok, run_bind_ok hload]
  split
  · exact createEntry_run
  · rcases s.freeEntry with _ | index
    · rfl
    · exact createEntry_run

theorem doSetThreadArea_of_some {arg1 : BitVec 32} (h : s.pickEntry arg1.toNat = some index) :
    (doSetThreadArea arg1).run s = .ok (0, s.withEntry arg1.toNat index) := by
  have hrun := doSetThreadArea_run s arg1
  rw [h] at hrun
  exact hrun

theorem doSetThreadArea_of_none {arg1 : BitVec 32} (h : s.pickEntry arg1.toNat = none) :
    (doSetThreadArea arg1).run s = .ok (-1, s) := by
  have hrun := doSetThreadArea_run s arg1
  rw [h] at hrun
  exact hrun

theorem tlsEntries_eq : tlsEntries = [6, 7, 8] := by decide

theorem freeEntry_spec (h : s.freeEntry = some index) :
    index ∈ tlsEntries ∧ s.mem (s.gdtEntry index + 8) = 0 :=
  ⟨List.mem_of_find?_eq_some h, by simpa using List.find?_some h⟩

theorem freeEntry_eq_none : s.freeEntry = none ↔
    ∀ i ∈ tlsEntries, s.mem (s.gdtEntry i + 8) ≠ 0 := by
  unfold Machine.freeEntry
  rw [List.find?_eq_none]
  simp

end Run

/-- The call changes reserved descriptors and the number in the structure alone, and refuses other
entries. -/
def StaysInTls (s : Machine) (arg1 : BitVec 32) : Prop :=
  ∃ ret t, (doSetThreadArea arg1).run s = .ok (ret, t) ∧
    (∀ i, (∀ e ∈ tlsEntries, ¬ (s.gdtEntry e ≤ i ∧ i < s.gdtEntry e + gdtDescriptorSize)) →
      ¬ (arg1.toNat ≤ i ∧ i < arg1.toNat + 4) → t.mem i = s.mem i) ∧
    (userEntry arg1.toNat s.mem ∉ [-1, 6, 7, 8] → ret ≠ 0 ∧ t = s)

section Stays

variable {s : Machine} {arg1 : BitVec 32} {u : ℕ} {index : BitVec 8}

theorem mem_tlsEntries_of_pickEntry (h : userEntry u s.mem ∈ [-1, 6, 7, 8])
    (hp : s.pickEntry u = some index) : index ∈ tlsEntries := by
  unfold Machine.pickEntry at hp
  split at hp
  · rename_i hne
    have hmem : userEntry u s.mem ∈ [6, 7, 8] := (List.mem_cons.1 h).resolve_left hne
    obtain rfl := Option.some.inj hp
    rw [tlsEntries_eq]
    simp only [List.mem_cons, List.not_mem_nil, or_false] at hmem ⊢
    rcases hmem with he | he | he <;> rw [he] <;> decide
  · exact (freeEntry_spec hp).1

theorem withEntry_of_not_mem {i : ℕ}
    (hd : ¬ (s.gdtEntry index ≤ i ∧ i < s.gdtEntry index + gdtDescriptorSize))
    (hu : ¬ (u ≤ i ∧ i < u + 4)) : (s.withEntry u index).mem i = s.mem i := by
  unfold gdtDescriptorSize at hd
  exact created_of_not_mem (by omega) hu

/-- An entry the structure names is created, whatever it is. -/
theorem entry_of_staysInTls (h : StaysInTls s arg1) :
    userEntry arg1.toNat s.mem ∈ [-1, 6, 7, 8] := by
  obtain ⟨ret, t, hrun', -, hrefused⟩ := h
  by_contra hmem
  have hpick : s.pickEntry arg1.toNat = some ((userEntry arg1.toNat s.mem).setWidth 8) :=
    if_pos fun he => hmem (by rw [he]; decide)
  rw [doSetThreadArea_of_some hpick] at hrun'
  cases hrun'
  exact (hrefused hmem).1 rfl

/-- The call keeps to the reserved entries exactly when it names one of them or leaves the choice to
the system. -/
theorem staysInTls_iff : StaysInTls s arg1 ↔ userEntry arg1.toNat s.mem ∈ [-1, 6, 7, 8] := by
  refine ⟨entry_of_staysInTls, fun hmem => ?_⟩
  rcases hp : s.pickEntry arg1.toNat with _ | index
  · exact ⟨-1, s, doSetThreadArea_of_none hp, fun _ _ _ => rfl, fun h => absurd hmem h⟩
  · refine ⟨0, _, doSetThreadArea_of_some hp, fun i htable hu => ?_, fun h => absurd hmem h⟩
    exact withEntry_of_not_mem (htable index (mem_tlsEntries_of_pickEntry hmem hp)) hu

/-- A machine after `initialize`, with `entry` at address 0. -/
def withUserEntry (entry : BitVec 32) : Machine :=
  { Machine.blank with mem := writeLE (fun _ => 0) 0 4 entry, gdtr := ⟨90, 0xC0FFF000⟩ }

/-- Entry 9 is created behind the table. -/
theorem not_staysInTls : ¬ ∀ (s : Machine) (arg1 : BitVec 32),
    s.gdtr = ⟨90, 0xC0FFF000⟩ → StaysInTls s arg1 := by
  intro hall
  have hmem := entry_of_staysInTls (hall (withUserEntry 9) 0 rfl)
  revert hmem
  decide

end Stays

end I386Vm
