import I386Vm.Proofs.TwoWays

/-!
# Register save areas

`PUSHAD`, `PUSHA` and `PUSHFD` put an area of registers on the stack, and `POPAD`, `POPA` and
`POPFD` take one back. `Machine.stack` are the bytes from `ESP` on, so that pushing and popping move
through it as through a list, wherever `ESP` is and also where it wraps. What a run of nested areas
leaves in its open ones stays, as long as they do not meet themselves around the end of memory.
-/

namespace I386Vm

open Bytes Prog

namespace Machine

/-- Byte `i` from `ESP`, which wraps. -/
def stack (s : Machine) (i : ℕ) : BitVec 8 := s.wrapped (s.reg .esp) i

/-- `push` puts the `n` low bytes of a word below `ESP`. -/
structure IsPush (n : ℕ) (push : Machine → BitVec 32 → Machine) : Prop where
  esp : ∀ s x, (push s x).reg .esp = s.reg .esp - BitVec.ofNat 32 n
  low : ∀ s x i, i < n → (push s x).stack i = byteOf i x
  high : ∀ s x i, n + i < 2 ^ 32 → (push s x).stack (n + i) = s.stack i

/-- A write of `n` bytes below `ESP`, with `ESP` moved there, is a push. -/
theorem isPush_of {n : ℕ} {write : Machine → BitVec 32 → BitVec 32 → Machine}
    (hreg : ∀ s a x, (write s a x).reg = s.reg)
    (hlow : ∀ s a x i, i < n → (write s a x).wrapped a i = byteOf i x)
    (hother : ∀ s a x i, (∀ j < n, i ≠ (a.toNat + j) % 2 ^ 32) → (write s a x).mem i = s.mem i) :
    IsPush n fun s x => write (s.setReg .esp (s.reg .esp - BitVec.ofNat 32 n))
      (s.reg .esp - BitVec.ofNat 32 n) x := by
  have hesp (s : Machine) (a x : BitVec 32) : (write (s.setReg .esp a) a x).reg .esp = a := by
    rw [hreg, reg_setReg]
  refine ⟨fun s x => hesp s _ x, fun s x i hi => ?_, fun s x i hi => ?_⟩
  · unfold stack
    rw [hesp]
    exact hlow _ _ x i hi
  · generalize ha : s.reg .esp - BitVec.ofNat 32 n = a
    have hadd : a + BitVec.ofNat 32 (n + i) = s.reg .esp + BitVec.ofNat 32 i := by
      rw [← ha, BitVec.ofNat_add, ← BitVec.add_assoc, BitVec.sub_add_cancel]
    unfold stack wrapped
    rw [hesp, ← hadd]
    refine hother _ _ x _ fun j hj => ?_
    rw [BitVec.toNat_add, BitVec.toNat_ofNat]
    omega

theorem isPush_push32 : IsPush 4 push32 :=
  isPush_of (fun _ _ _ => rfl) (fun s a x _ => s.wrapped_write32 a x)
    fun s a x _ => s.write32_mem_of_ne a x

theorem isPush_push16 : IsPush 2 push16 :=
  @isPush_of 2 (fun s a x => s.write16 a (x.setWidth 16)) (fun _ _ _ => rfl)
    (fun s a x i hi => (s.wrapped_write16 a _ hi).trans (byteOf_setWidth (by omega) x))
    fun s _ _ _ => s.write16_mem_of_ne _

/-- The slots from the last to the first, each with its value in `f`. -/
def pushSlots (push : Machine → BitVec 32 → Machine) (f : Var → BitVec 32) (slots : List Var)
    (s : Machine) : Machine :=
  slots.foldr (fun v t => push t (f v)) s

/-- The word on top goes to the low bits of `v`, or nowhere for `esp`, and is popped. -/
def popSlot (w : Width) (s : Machine) (v : Var) : Machine :=
  (if v = .esp then s else s.poke w (.var v) (readLE s.stack 0 w.bytes)).setReg .esp
    (s.reg .esp + BitVec.ofNat 32 w.bytes)

def popSlots (w : Width) (slots : List Var) (s : Machine) : Machine := slots.foldl (popSlot w) s

/-- The bytes `m` begin with `n` bytes of the value of each slot, the first slot lowest. -/
def HoldsSlots (n : ℕ) (f : Var → BitVec 32) : List Var → (ℕ → BitVec 8) → Prop
  | [], _ => True
  | v :: slots, m =>
    readLE m 0 n = Bytes.low (8 * n) (f v) ∧ HoldsSlots n f slots fun i => m (n + i)

variable {s : Machine} {n : ℕ} {f : Var → BitVec 32}

theorem HoldsSlots.congr : ∀ {slots : List Var} {m m' : ℕ → BitVec 8},
    (∀ i < n * slots.length, m' i = m i) → HoldsSlots n f slots m → HoldsSlots n f slots m'
  | [], _, _, _, _ => trivial
  | v :: slots, m, m', h, ⟨hread, hrest⟩ => by
    rw [List.length_cons, Nat.mul_succ] at h
    refine ⟨?_, hrest.congr fun i hi => h (n + i) (by omega)⟩
    rw [← hread]
    exact readLE_congr fun k _ hk => h k (by omega)

theorem IsPush.slots_spec {push : Machine → BitVec 32 → Machine} (h : IsPush n push) :
    ∀ {slots : List Var}, n * slots.length ≤ 2 ^ 32 →
      (pushSlots push f slots s).reg .esp = s.reg .esp - BitVec.ofNat 32 (n * slots.length) ∧
      HoldsSlots n f slots (pushSlots push f slots s).stack ∧
        ∀ i, n * slots.length + i < 2 ^ 32 →
          (pushSlots push f slots s).stack (n * slots.length + i) = s.stack i
  | [], _ => by
    refine ⟨(BitVec.sub_zero _).symm, trivial, fun i _ => ?_⟩
    rw [List.length_nil, Nat.mul_zero, Nat.zero_add]
    rfl
  | v :: slots, hlen => by
    rw [List.length_cons, Nat.mul_succ] at hlen ⊢
    have hlen' : n * slots.length ≤ 2 ^ 32 := by omega
    obtain ⟨hesp, hheld, hhigh⟩ := h.slots_spec hlen'
    have hcons : pushSlots push f (v :: slots) s =
        push (pushSlots push f slots s) (f v) := rfl
    generalize pushSlots push f slots s = t at hesp hheld hhigh hcons
    rw [hcons]
    refine ⟨?_, ⟨?_, ?_⟩, fun i hi => ?_⟩
    · rw [h.esp, hesp, Nat.add_comm, BitVec.ofNat_add]
      bv_omega
    · refine readLE_of_bytes fun k hk => ?_
      rw [Nat.zero_add]
      exact h.low t (f v) k hk
    · exact hheld.congr fun i hi => h.high t (f v) i (by omega)
    · have hadd : n * slots.length + n + i = n + (n * slots.length + i) := by omega
      rw [hadd, h.high t (f v) _ (by omega), hhigh i (by omega)]

variable {w : Width}

theorem stack_popSlot (s : Machine) (v : Var) :
    (s.popSlot w v).stack = fun i => s.stack (w.bytes + i) := by
  have hmem : (s.popSlot w v).mem = s.mem := by
    unfold popSlot
    split <;> rfl
  have hesp : (s.popSlot w v).reg .esp = s.reg .esp + BitVec.ofNat 32 w.bytes := reg_setReg ..
  funext i
  unfold stack wrapped
  rw [hmem, hesp, BitVec.ofNat_add, BitVec.add_assoc]

theorem reg_popSlot {v v' : Var} (hv : v' ≠ .esp) : (s.popSlot w v).reg v' =
    if v' = v then merge w.bits (s.reg v) (readLE s.stack 0 w.bytes) else s.reg v' := by
  unfold popSlot
  rw [reg_setReg_of_ne _ hv]
  by_cases h : v' = v
  · subst h
    rw [if_neg hv, if_pos rfl]
    exact s.reg_setReg v' _
  · rw [if_neg h]
    split
    · rfl
    · exact s.reg_setReg_of_ne h _

theorem popSlots_spec : ∀ {slots : List Var} {s : Machine}, slots.Nodup →
    HoldsSlots w.bytes f slots s.stack →
      (popSlots w slots s).reg .esp = s.reg .esp + BitVec.ofNat 32 (w.bytes * slots.length) ∧
      (∀ i, (popSlots w slots s).stack i = s.stack (w.bytes * slots.length + i)) ∧
        ∀ v ≠ .esp, (popSlots w slots s).reg v =
          if v ∈ slots then merge w.bits (s.reg v) (f v) else s.reg v
  | [], s, _, _ => by
    refine ⟨(BitVec.add_zero _).symm, fun i => ?_, fun v _ => by simp [popSlots]⟩
    rw [List.length_nil, Nat.mul_zero, Nat.zero_add]
    rfl
  | v :: slots, s, hnodup, ⟨hread, hrest⟩ => by
    obtain ⟨hnot, hnodup⟩ := List.nodup_cons.1 hnodup
    have hstack := s.stack_popSlot (w := w) v
    rw [← hstack] at hrest
    obtain ⟨hesp, hshift, hreg⟩ := popSlots_spec hnodup hrest
    have hcons : popSlots w (v :: slots) s = popSlots w slots (s.popSlot w v) := rfl
    have htop : (s.popSlot w v).reg .esp = s.reg .esp + BitVec.ofNat 32 w.bytes := reg_setReg ..
    rw [List.length_cons, Nat.mul_succ, hcons]
    refine ⟨?_, fun i => ?_, fun v' hv => ?_⟩
    · rw [hesp, htop, Nat.add_comm, BitVec.ofNat_add, BitVec.add_assoc]
    · have hadd : w.bytes + (w.bytes * slots.length + i) =
          w.bytes * slots.length + w.bytes + i := by
        omega
      rw [← hadd, hshift, hstack]
    · rw [hreg v' hv, reg_popSlot hv, hread]
      by_cases h : v' = v
      · subst h
        rw [if_neg hnot, if_pos rfl, if_pos List.mem_cons_self]
        exact merge_low _ _ _
      · simp [h]

end Machine

section Handlers

variable (s : Machine)

theorem popVar32_run {v : Var} (hv : v ≠ .esp) :
    (popVar32 v).run s = .ok ((), s.popSlot .dword v) := by
  have hread : s.read32 (s.reg .esp) = readLE s.stack 0 4 := s.read32_eq_wrapped _
  unfold popVar32 Machine.popSlot
  rw [run_bind_ok run_get_ok, run_bind_ok (setReg_run s v _), addEsp_run, if_neg hv,
    Machine.poke_dword_var, Machine.reg_setReg_of_ne _ hv.symm, hread]
  rfl

theorem popVar16_run {v : Var} (hv : v ≠ .esp) :
    (popVar16 v).run s = .ok ((), s.popSlot .word v) := by
  have hread : s.read16 (s.reg .esp) = readLE s.stack 0 2 := s.read16_eq_wrapped _
  have hesp (x : BitVec 32) : (s.poke .word (.var v) x).reg .esp = s.reg .esp :=
    s.reg_setReg_of_ne hv.symm _
  unfold popVar16 Machine.popSlot
  rw [run_bind_ok run_get_ok, run_bind_ok (store_run (.var v) _), addEsp_run, if_neg hv, hesp,
    hread]
  rfl

/-- The registers of an area, lowest first, with `esp` for the slot that is thrown away. -/
def saveSlots : List Var := [.edi, .esi, .ebp, .esp, .ebx, .edx, .ecx, .eax]

variable (insn : CsInsn)

theorem pushadI_run : (pushadI insn).run s =
    .ok (some 0, .pushSlots .push32 s.reg saveSlots (s.advance insn)) := by
  unfold pushadI
  rw [run_bind_ok (advance_run s insn), run_bind_ok run_get_ok, run_bind_ok (push32_run _ _),
    run_bind_ok (push32_run _ _), run_bind_ok (push32_run _ _), run_bind_ok (push32_run _ _),
    run_bind_ok (push32_run _ _), run_bind_ok (push32_run _ _), run_bind_ok (push32_run _ _),
    run_bind_ok (push32_run _ _)]
  simp only [Machine.pushSlots, saveSlots, List.foldr]
  rfl

theorem pushaI_run : (pushaI insn).run s =
    .ok (some 0, .pushSlots .push16 s.reg saveSlots (s.advance insn)) := by
  unfold pushaI
  rw [run_bind_ok (advance_run s insn), run_bind_ok run_get_ok, run_bind_ok (push16_run _ _),
    run_bind_ok (push16_run _ _), run_bind_ok (push16_run _ _), run_bind_ok (push16_run _ _),
    run_bind_ok (push16_run _ _), run_bind_ok (push16_run _ _), run_bind_ok (push16_run _ _),
    run_bind_ok (push16_run _ _)]
  simp only [Machine.pushSlots, saveSlots, List.foldr]
  rfl

theorem pushfdI_run : (pushfdI insn).run s = .ok (some 0, (s.advance insn).push32 s.eflags) := rfl

theorem popadI_run : (popadI insn).run s =
    .ok (some 0, .popSlots .dword saveSlots (s.advance insn)) := by
  have hesp (t : Machine) : (addEsp 4).run t = .ok ((), t.popSlot .dword .esp) := rfl
  unfold popadI
  rw [run_bind_ok (advance_run s insn), run_bind_ok (popVar32_run _ (by decide)),
    run_bind_ok (popVar32_run _ (by decide)), run_bind_ok (popVar32_run _ (by decide)),
    run_bind_ok (hesp _), run_bind_ok (popVar32_run _ (by decide)),
    run_bind_ok (popVar32_run _ (by decide)), run_bind_ok (popVar32_run _ (by decide)),
    run_bind_ok (popVar32_run _ (by decide))]
  rfl

theorem popaI_run : (popaI insn).run s =
    .ok (some 0, .popSlots .word saveSlots (s.advance insn)) := by
  have hesp (t : Machine) : (addEsp 2).run t = .ok ((), t.popSlot .word .esp) := rfl
  unfold popaI
  rw [run_bind_ok (advance_run s insn), run_bind_ok (popVar16_run _ (by decide)),
    run_bind_ok (popVar16_run _ (by decide)), run_bind_ok (popVar16_run _ (by decide)),
    run_bind_ok (hesp _), run_bind_ok (popVar16_run _ (by decide)),
    run_bind_ok (popVar16_run _ (by decide)), run_bind_ok (popVar16_run _ (by decide)),
    run_bind_ok (popVar16_run _ (by decide))]
  rfl

theorem popfdI_run : (popfdI insn).run s =
    .ok (some 0, .popSlot .dword { s.advance insn with
      eflags := merge 16 s.eflags (readLE s.stack 0 4) } .esp) := by
  have hread : (s.advance insn).read32 ((s.advance insn).reg .esp) = readLE s.stack 0 4 :=
    (s.advance insn).read32_eq_wrapped _
  have hlow (x : BitVec 32) : x &&& 0xFFFF = low 16 x := cut_eq_low .word x
  rw [← hread, ← merge_low, ← hlow]
  rfl

end Handlers

/-- The pairs that save and restore an area. -/
inductive SaveKind
  | pushad | pusha | pushfd

namespace SaveKind

def push : SaveKind → Handler
  | pushad => pushadI
  | pusha => pushaI
  | pushfd => pushfdI

def pop : SaveKind → Handler
  | pushad => popadI
  | pusha => popaI
  | pushfd => popfdI

def bytes : SaveKind → ℕ
  | pushad => 32
  | pusha => 16
  | pushfd => 4

/-- The bytes `m` begin with the area that `s` saves. -/
def Saved (k : SaveKind) (s : Machine) (m : ℕ → BitVec 8) : Prop :=
  match k with
  | pushad => Machine.HoldsSlots 4 s.reg saveSlots m
  | pusha => Machine.HoldsSlots 2 s.reg saveSlots m
  | pushfd => readLE m 0 4 = s.eflags

/-- What was saved in `s` is back in `t`, and of a register that was saved in part the rest is that
of `u`, the state it is restored in. -/
def Restores (k : SaveKind) (s u t : Machine) : Prop :=
  t.reg .esp = s.reg .esp ∧
    match k with
    | pushad => ∀ v ∈ saveSlots, t.reg v = s.reg v
    | pusha => ∀ v ∈ saveSlots, v ≠ .esp →
        low 16 (t.reg v) = low 16 (s.reg v) ∧ t.reg v >>> 16 = u.reg v >>> 16
    | pushfd => low 16 t.eflags = low 16 s.eflags

variable (k : SaveKind) (insn : CsInsn)

theorem Saved.congr {k : SaveKind} {s : Machine} {m m' : ℕ → BitVec 8} (h : k.Saved s m)
    (hm : ∀ i < k.bytes, m' i = m i) : k.Saved s m' := by
  cases k with
  | pushad => exact Machine.HoldsSlots.congr hm h
  | pusha => exact Machine.HoldsSlots.congr hm h
  | pushfd =>
    refine (readLE_congr fun i _ hi => hm i ?_).trans h
    rwa [Nat.zero_add] at hi

/-- The area lies on top of what was there. -/
theorem push_spec (s : Machine) : ∃ t, (k.push insn).run s = .ok (some 0, t) ∧
    t.reg .esp = s.reg .esp - BitVec.ofNat 32 k.bytes ∧ k.Saved s t.stack ∧
      ∀ i, k.bytes + i < 2 ^ 32 → t.stack (k.bytes + i) = s.stack i := by
  have hlen : 4 * saveSlots.length ≤ 2 ^ 32 := by decide
  have hpush := Machine.isPush_push32
  cases k with
  | pushad => exact ⟨_, pushadI_run s insn, hpush.slots_spec hlen⟩
  | pusha => exact ⟨_, pushaI_run s insn, Machine.isPush_push16.slots_spec (by decide)⟩
  | pushfd =>
    refine ⟨_, pushfdI_run s insn, hpush.esp _ _, ?_, hpush.high (s.advance insn) _⟩
    refine (readLE_of_bytes fun i hi => ?_).trans (low_of_le (le_refl 32) s.eflags)
    rw [Nat.zero_add]
    exact hpush.low (s.advance insn) _ i hi

/-- Where the area lies on top, it is taken off. -/
theorem pop_spec {s u : Machine} (h : k.Saved s u.stack)
    (hesp : u.reg .esp + BitVec.ofNat 32 k.bytes = s.reg .esp) :
    ∃ t, (k.pop insn).run u = .ok (some 0, t) ∧ k.Restores s u t ∧
      ∀ i, t.stack i = u.stack (k.bytes + i) := by
  have hnodup : saveSlots.Nodup := by decide
  cases k with
  | pushad =>
    obtain ⟨htop, hstack, hreg⟩ := @Machine.popSlots_spec _ .dword _ (u.advance insn) hnodup h
    have hrestored : (Machine.popSlots .dword saveSlots (u.advance insn)).reg .esp = s.reg .esp :=
      htop.trans hesp
    refine ⟨_, popadI_run u insn, ⟨hrestored, fun v hv => ?_⟩, hstack⟩
    by_cases hne : v = .esp
    · rw [hne, hrestored]
    · rw [hreg v hne, if_pos hv, ← low_dword (merge _ _ _), low_merge, low_dword]
  | pusha =>
    obtain ⟨htop, hstack, hreg⟩ := @Machine.popSlots_spec _ .word _ (u.advance insn) hnodup h
    refine ⟨_, popaI_run u insn, ⟨htop.trans hesp, fun v hv hne => ?_⟩, hstack⟩
    rw [hreg v hne, if_pos hv]
    exact ⟨low_merge 16 _ _, merge_ushiftRight 16 _ _⟩
  | pushfd =>
    have hread : readLE u.stack 0 4 = s.eflags := h
    have hrun := popfdI_run u insn
    rw [hread] at hrun
    refine ⟨_, hrun, ⟨?_, low_merge 16 u.eflags s.eflags⟩, fun i => ?_⟩
    · exact (Machine.reg_setReg ..).trans hesp
    · rw [Machine.stack_popSlot]
      rfl

theorem pop_run (u : Machine) : ∃ t, (k.pop insn).run u = .ok (some 0, t) := by
  cases k with
  | pushad => exact ⟨_, popadI_run u insn⟩
  | pusha => exact ⟨_, popaI_run u insn⟩
  | pushfd => exact ⟨_, popfdI_run u insn⟩

end SaveKind

/-- An area that a run saves in `before` and takes back in `taken`, which leads to `after`. -/
structure SaveArea where
  kind : SaveKind
  before : Machine
  taken : Machine
  after : Machine

def SaveArea.Restored (a : SaveArea) : Prop := a.kind.Restores a.before a.taken a.after

/-- `ESP` and the `n` bytes above it stay, and everything else may change. -/
structure SameStack (n : ℕ) (s t : Machine) : Prop where
  esp : t.reg .esp = s.reg .esp
  stack : ∀ i < n, t.stack i = s.stack i

theorem SameStack.trans {n : ℕ} {s t u : Machine} (h : SameStack n s t) (g : SameStack n t u) :
    SameStack n s u :=
  ⟨g.esp.trans h.esp, fun i hi => (g.stack i hi).trans (h.stack i hi)⟩

/-- `Bracketed n d areas s t` is a run from `s` to `t` inside open areas of `n` bytes, which uses
`d` bytes below them. Its areas nest and follow one another, and what happens around the pushes and
pops keeps `ESP` and the areas that are open. -/
inductive Bracketed : ℕ → ℕ → List SaveArea → Machine → Machine → Prop
  | nil {n : ℕ} {s t : Machine} (same : SameStack n s t) : Bracketed n 0 [] s t
  | area {n d e : ℕ} {inside after : List SaveArea} {s u v w x t : Machine} {k : SaveKind}
      {push pop : CsInsn} (before : SameStack n s u)
      (pushes : (k.push push).run u = .ok (some 0, v)) (body : Bracketed (k.bytes + n) d inside v w)
      (pops : (k.pop pop).run w = .ok (some 0, x)) (rest : Bracketed n e after x t) :
      Bracketed n (max (k.bytes + d) e) (⟨k, u, w, x⟩ :: (inside ++ after)) s t

section Runs

variable {n d : ℕ} {areas : List SaveArea} {s t u v w x : Machine}

/-- A pair around a run that keeps the area and those above it restores the one and keeps the
others. -/
theorem SaveKind.restores {k : SaveKind} {push pop : CsInsn} (hn : k.bytes + n ≤ 2 ^ 32)
    (pushes : (k.push push).run u = .ok (some 0, v)) (hbody : SameStack (k.bytes + n) v w)
    (pops : (k.pop pop).run w = .ok (some 0, x)) : k.Restores u w x ∧ SameStack n u x := by
  obtain ⟨v', hpush, hesp, hsaved, hhigh⟩ := k.push_spec push u
  rw [pushes] at hpush
  cases hpush
  have hsaved' : k.Saved u w.stack := hsaved.congr fun i hi => hbody.stack i (by omega)
  have hback : w.reg .esp + BitVec.ofNat 32 k.bytes = u.reg .esp := by
    rw [hbody.esp, hesp]
    exact BitVec.sub_add_cancel ..
  obtain ⟨x', hpop, hrestores, hstack⟩ := k.pop_spec pop hsaved' hback
  rw [pops] at hpop
  cases hpop
  refine ⟨hrestores, hrestores.1, fun i hi => ?_⟩
  calc x.stack i = w.stack (k.bytes + i) := hstack i
    _ = v.stack (k.bytes + i) := hbody.stack _ (by omega)
    _ = u.stack i := hhigh i (by omega)

theorem Bracketed.restored (h : Bracketed n d areas s t) (hd : d + n ≤ 2 ^ 32) :
    (∀ a ∈ areas, a.Restored) ∧ SameStack n s t := by
  induction h with
  | nil same => exact ⟨by simp, same⟩
  | @area n d e inside after s u v w x t k push pop before pushes _ pops _ ihbody ihrest =>
    obtain ⟨hin, hbody⟩ := ihbody (by omega)
    obtain ⟨hafter, hrest⟩ := ihrest (by omega)
    obtain ⟨hrestores, hsame⟩ := SaveKind.restores (by omega) pushes hbody pops
    refine ⟨?_, before.trans (hsame.trans hrest)⟩
    simp only [List.forall_mem_cons, List.forall_mem_append]
    exact ⟨hrestores, hin, hafter⟩

end Runs

/-- The pushes and pops always end, and a run whose areas do not come around to their own beginning
restores every one of them, and `ESP`. A single pair never does, wherever `ESP` is. -/
theorem saveAreas_restored (k : SaveKind) (insn : CsInsn) (u : Machine) {d : ℕ}
    {areas : List SaveArea} {s t : Machine} (h : Bracketed 0 d areas s t) (hd : d ≤ 2 ^ 32) :
    (∃ v, (k.push insn).run u = .ok (some 0, v)) ∧ (∃ v, (k.pop insn).run u = .ok (some 0, v)) ∧
      (∀ a ∈ areas, a.Restored) ∧ t.reg .esp = s.reg .esp := by
  obtain ⟨v, hpush, -⟩ := k.push_spec insn u
  obtain ⟨hrestored, hsame⟩ := h.restored hd
  exact ⟨⟨v, hpush⟩, k.pop_run insn u, hrestored, hsame.esp⟩

/-- A pair with another one in it, around changes of the other registers. -/
theorem exists_bracketed (k k' : SaveKind) (insn : CsInsn) (s : Machine) {f g : Machine → Machine}
    (hf : ∀ v, SameStack k.bytes v (f v)) (hg : ∀ v, SameStack (k'.bytes + k.bytes) v (g v)) :
    ∃ v w x t, Bracketed 0 (k.bytes + k'.bytes) [⟨k, s, x, t⟩, ⟨k', f v, g w, x⟩] s t := by
  obtain ⟨v, hpush, -⟩ := k.push_spec insn s
  obtain ⟨w, hpush', -⟩ := k'.push_spec insn (f v)
  obtain ⟨x, hpop'⟩ := k'.pop_run insn (g w)
  obtain ⟨t, hpop⟩ := k.pop_run insn x
  have hinner := Bracketed.area (hf v) hpush' (.nil (hg w)) hpop' (.nil ⟨rfl, fun _ _ => rfl⟩)
  have hrun := Bracketed.area (n := 0) ⟨rfl, fun _ _ => rfl⟩ hpush hinner hpop
    (.nil ⟨rfl, fun _ _ => rfl⟩)
  rw [Nat.add_zero, Nat.max_zero, Nat.max_zero] at hrun
  exact ⟨v, w, x, t, hrun⟩

/-- Some registers and flags. -/
def saving : Machine :=
  { (Machine.blank.setReg .eax 1).setReg .ebx 2 with eflags := 0x202 }

/-- `PUSHFD` and `POPFD` between `PUSHAD` and `POPAD`. -/
theorem saveAreas_restored_nested : ∃ v w x t : Machine,
    Bracketed 0 36 [⟨.pushad, saving, x, t⟩,
      ⟨.pushfd, v.setReg .eax 7, { w.setReg .ebx 8 with eflags := 0 }, x⟩] saving t ∧
    t.reg .eax = 1 ∧ t.reg .ebx = 2 ∧ low 16 x.eflags = low 16 v.eflags := by
  obtain ⟨v, w, x, t, h⟩ := @exists_bracketed .pushad .pushfd (.bare "pushad" 1 []) saving
    (·.setReg .eax 7) (fun w => { w.setReg .ebx 8 with eflags := 0 })
    (fun _ => ⟨rfl, fun _ _ => rfl⟩) fun _ => ⟨rfl, fun _ _ => rfl⟩
  obtain ⟨-, -, hrestored, -⟩ :=
    saveAreas_restored .pushad (.bare "pushad" 1 []) saving h (by decide)
  have hregs := (hrestored _ List.mem_cons_self).2
  exact ⟨v, w, x, t, h, hregs .eax (by decide), hregs .ebx (by decide),
    (hrestored _ (List.mem_cons_of_mem _ List.mem_cons_self)).2⟩

end I386Vm
