import I386Vm.Loader
import I386Vm.Proofs.Stack

/-!
# What the loader pushes

Where nothing wraps, each step of `load_stack` puts bytes right below those already there, so that
`s.push l`, the state with `l` pushed, goes to another such state. The two loops over the strings
are one lemma (`pushStrings_run`), as are the two over the pointers (`pushPointers_run`).
-/

namespace I386Vm

open Bytes Prog

namespace Loader

variable {s : Loader} {l x : List (BitVec 8)}

def push (s : Loader) (l : List (BitVec 8)) : Loader := { s with machine := s.machine.pushBytes l }

theorem esp_push (s : Loader) (l : List (BitVec 8)) :
    (s.push l).esp = s.esp - BitVec.ofNat 32 l.length :=
  s.machine.reg_setReg .esp _

theorem toNat_esp_push (h : l.length ≤ s.esp.toNat) :
    (s.push l).esp.toNat = s.esp.toNat - l.length := by
  have hlt := s.esp.isLt
  rw [esp_push, BitVec.toNat_sub, BitVec.toNat_ofNat]
  omega

theorem mem_push (h : l.length ≤ s.esp.toNat) :
    (s.push l).machine.mem = putBytes s.machine.mem (s.esp.toNat - l.length) l := by
  have haddr := toNat_esp_push h
  rw [esp_push] at haddr
  rw [← haddr]
  rfl

theorem push_push (h : (x ++ l).length ≤ s.esp.toNat) : (s.push l).push x = s.push (x ++ l) := by
  have hlt := s.esp.isLt
  rw [List.length_append] at h
  have hesp : (s.push l).esp - BitVec.ofNat 32 x.length =
      s.esp - BitVec.ofNat 32 (x ++ l).length := by
    rw [esp_push, List.length_append, BitVec.ofNat_add]
    bv_omega
  have hmem : ((s.push l).push x).machine.mem = (s.push (x ++ l)).machine.mem := by
    have hl : l.length ≤ s.esp.toNat := by omega
    have hat : s.esp.toNat - l.length = s.esp.toNat - (x.length + l.length) + x.length := by omega
    rw [mem_push (by rw [toNat_esp_push hl]; omega), mem_push hl, toNat_esp_push hl,
      mem_push (by rw [List.length_append]; omega), List.length_append, ← putBytes_putBytes, ← hat,
      Nat.sub_sub, Nat.add_comm l.length]
  have hreg : ((s.push l).push x).machine.reg = (s.push (x ++ l)).machine.reg := by
    change Function.update (Function.update s.machine.reg .esp _) .esp
      ((s.push l).esp - BitVec.ofNat 32 x.length) = _
    rw [Function.update_idem, hesp]
    rfl
  change { s with machine := { s.machine with
      reg := ((s.push l).push x).machine.reg, mem := ((s.push l).push x).machine.mem } } = _
  rw [hmem, hreg]
  rfl

/-- Pushing what lies below `esp` moves `esp` alone. -/
theorem push_held (h : l.length ≤ s.esp.toNat)
    (hheld : BytesAt s.machine.mem (s.esp.toNat - l.length) l) : s.push l =
      { s with machine := s.machine.setReg .esp (s.esp - BitVec.ofNat 32 l.length) } := by
  change { s with machine := { s.machine with
      reg := (s.push l).machine.reg, mem := (s.push l).machine.mem } } = _
  rw [mem_push h, putBytes_of_bytesAt hheld]
  rfl

theorem push_nil (s : Loader) : s.push [] = s := by
  have hzero : s.esp - BitVec.ofNat 32 0 = s.esp := BitVec.sub_zero _
  have hreg : s.machine.setReg .esp s.esp = s.machine := s.machine.setReg_self .esp
  have hheld := @push_held s [] (Nat.zero_le _) fun i h => absurd h (Nat.not_lt_zero i)
  rw [hheld, List.length_nil, hzero, hreg]

end Loader

section Push

variable {s : Loader} {l : List (BitVec 8)}

theorem pushString_run (p : CString) (h : (p.bytes ++ l).length ≤ s.esp.toNat) :
    (pushString p).run (s.push l) =
      .ok ((s.push (p.bytes ++ l)).esp, s.push (p.bytes ++ l)) := by
  rw [← Loader.push_push h]
  rfl

theorem pushWord_run (v : BitVec 32) (h : (leBytes 4 v ++ l).length ≤ s.esp.toNat) :
    (pushWord v).run (s.push l) = .ok ((), s.push (leBytes 4 v ++ l)) := by
  have hlen := h
  rw [List.length_append, length_leBytes] at hlen
  have hesp := @Loader.toNat_esp_push s l (by omega)
  have hlt := s.esp.isLt
  have hsub : ((s.push l).esp - 4).toNat + 4 ≤ 2 ^ 32 := by bv_omega
  rw [← Loader.push_push h]
  unfold Loader.push Machine.pushBytes Machine.memcpy
  rw [length_leBytes, putBytes_leBytes]
  have hwrite := Machine.write32_eq ((s.push l).machine.setReg .esp ((s.push l).esp - 4))
    ((s.push l).esp - 4) v hsub
  exact congrArg (fun u => Except.ok ((), { s.push l with machine := u })) hwrite

theorem pushWord_words (v : BitVec 32) (ws : List (BitVec 32))
    (h : 4 * (ws.length + 1) + l.length ≤ s.esp.toNat) :
    (pushWord v).run (s.push (ws.flatMap (leBytes 4) ++ l)) =
      .ok ((), s.push ((v :: ws).flatMap (leBytes 4) ++ l)) := by
  have hroom : (leBytes 4 v ++ (ws.flatMap (leBytes 4) ++ l)).length ≤ s.esp.toNat := by
    rw [List.length_append, List.length_append, length_leBytes, length_flatMap_leBytes]
    omega
  rw [pushWord_run v hroom, List.flatMap_cons, List.append_assoc]

theorem and_not_three (x : BitVec 32) : x &&& ~~~3 = x - BitVec.ofNat 32 (x.toNat % 4) := by
  have hmod : x &&& 3 = BitVec.ofNat 32 (x.toNat % 4) := by
    apply BitVec.eq_of_toNat_eq
    rw [BitVec.toNat_and, BitVec.toNat_ofNat, Nat.mod_eq_of_lt (by omega)]
    exact Nat.and_two_pow_sub_one_eq_mod x.toNat 2
  have hdisjoint : (x &&& ~~~3) &&& (x &&& 3) = 0 := by
    apply BitVec.eq_of_getLsbD_eq
    intro i hi
    simp only [BitVec.getLsbD_and, BitVec.getLsbD_not, hi, decide_true, Bool.true_and]
    cases (3 : BitVec 32).getLsbD i <;> simp
  have hor : (x &&& ~~~3) ||| (x &&& 3) = x := by
    apply BitVec.eq_of_getLsbD_eq
    intro i hi
    simp only [BitVec.getLsbD_or, BitVec.getLsbD_and, BitVec.getLsbD_not, hi, decide_true,
      Bool.true_and]
    cases (3 : BitVec 32).getLsbD i <;> simp
  rw [← BitVec.add_eq_or_of_and_eq_zero _ _ hdisjoint, hmod] at hor
  exact BitVec.eq_sub_iff_add_eq.2 hor

/-- The padding is bytes that were there before. -/
theorem alignEsp_run (s : Loader) (h : l.length ≤ s.esp.toNat) : ∃ pad,
    pad.length = (s.esp.toNat - l.length) % 4 ∧
      alignEsp.run (s.push l) = .ok ((), s.push (pad ++ l)) := by
  generalize hu : s.push l = u
  have hle : u.esp.toNat % 4 ≤ u.esp.toNat := Nat.mod_le _ _
  obtain ⟨pad, hlen, hheld⟩ := exists_bytesAt u.machine.mem (u.esp.toNat - u.esp.toNat % 4)
    (u.esp.toNat % 4)
  have hpush : alignEsp.run u = .ok ((), u.push pad) := by
    rw [Loader.push_held (by omega) (by rwa [hlen]), hlen, ← and_not_three]
    rfl
  rw [← hu, Loader.toNat_esp_push h] at hle hlen
  refine ⟨pad, hlen, ?_⟩
  rw [hpush, ← hu, Loader.push_push]
  rw [List.length_append]
  omega

/-- The random words and the platform, as they lie above the padding. -/
def auxBytes (host : LoaderHost) : List (BitVec 8) :=
  leBytes 4 (host.random 1) ++ (leBytes 4 (host.random 0) ++ platform.bytes)

theorem length_auxBytes (host : LoaderHost) : (auxBytes host).length = 12 := by
  unfold auxBytes
  rw [List.length_append, List.length_append, length_leBytes, length_leBytes]
  rfl

/-- `s` with the addresses of these once they are pushed on `l`. -/
def Loader.withAux (s : Loader) (host : LoaderHost) (l : List (BitVec 8)) : Loader :=
  { s with
    platformAddr := (s.push (platform.bytes ++ l)).esp
    rr := (s.push (auxBytes host ++ l)).esp }

/-- Everything between the strings and `read_auxv`, whatever follows it. -/
theorem pushAux_run (host : LoaderHost) (h : 15 + l.length ≤ s.esp.toNat) :
    ∃ pad, pad.length = (s.esp.toNat - (12 + l.length)) % 4 ∧ ∀ k : Unit → Load Unit,
      (do let esp ← pushString platform
          setPlatformAddr esp
          pushWord (host.random 0)
          pushWord (host.random 1)
          let s ← get
          setRr s.esp
          alignEsp >>= k : Load Unit).run (s.push l) =
        (k ()).run ((s.withAux host l).push (pad ++ (auxBytes host ++ l))) := by
  have hlen : (auxBytes host ++ l).length = 12 + l.length := by
    rw [List.length_append, length_auxBytes]
  have hassoc : auxBytes host ++ l =
      leBytes 4 (host.random 1) ++ (leBytes 4 (host.random 0) ++ (platform.bytes ++ l)) := by
    simp [auxBytes]
  have hlen' := hlen
  rw [hassoc, List.length_append, List.length_append, List.length_append, length_leBytes,
    length_leBytes] at hlen'
  let s₁ : Loader := { s with platformAddr := (s.push (platform.bytes ++ l)).esp }
  obtain ⟨pad, hpad, halign⟩ := @alignEsp_run (auxBytes host ++ l) (s.withAux host l)
    (by rw [hlen]; exact le_trans (by omega) h)
  have hplatform := @pushString_run s l platform (by rw [List.length_append]; omega)
  have hset₁ : (setPlatformAddr (s.push (platform.bytes ++ l)).esp).run
    (s.push (platform.bytes ++ l)) = .ok ((), s₁.push (platform.bytes ++ l)) := rfl
  have hrandom₀ := @pushWord_run s₁ (platform.bytes ++ l) (host.random 0) (by
    rw [List.length_append, List.length_append, length_leBytes]
    exact le_trans (by omega) h)
  have hrandom₁ := @pushWord_run s₁ _ (host.random 1) (by
    rw [← hassoc, hlen]
    exact le_trans (by omega) h)
  have hset₂ : (setRr (s₁.push (auxBytes host ++ l)).esp).run (s₁.push (auxBytes host ++ l)) =
    .ok ((), (s.withAux host l).push (auxBytes host ++ l)) := rfl
  rw [hlen] at hpad
  refine ⟨pad, hpad, fun k => ?_⟩
  rw [run_bind_ok hplatform, run_bind_ok hset₁, run_bind_ok hrandom₀, run_bind_ok hrandom₁,
    ← hassoc, run_bind_ok run_get_ok, run_bind_ok hset₂, run_bind_ok halign]

end Push

section Loops

variable {s : Loader} {l : List (BitVec 8)} {strs : List CString} {emu : ℕ → BitVec 32} {lo : ℕ}

theorem stringAt_run {i : ℕ} (h : i < strs.length) (u : Loader) :
    (stringAt strs i).run u = .ok (strs[i], u) := by
  unfold stringAt
  rw [List.getElem?_eq_getElem h]
  rfl

/-- What either loop does with its string. -/
theorem pushEnv_run {i : ℕ} (h : i < strs.length) (u : Loader) :
    (pushEnv strs i emu).run u = .ok (Function.update emu i (u.push strs[i].bytes).esp,
      u.push strs[i].bytes) := by
  unfold pushEnv
  rw [run_bind_ok (stringAt_run h u)]
  rfl

/-- The test for `argv[1]` is never true where the loop runs. -/
theorem pushArg_run {i : ℕ} (h2 : 2 ≤ i) (h : i < strs.length) (u : Loader) :
    (pushArg strs i emu).run u = .ok (Function.update emu i (u.push strs[i].bytes).esp,
      u.push strs[i].bytes) := by
  have hpush (p : CString) : (pushString p).run u = .ok ((u.push p.bytes).esp, u.push p.bytes) :=
    rfl
  unfold pushArg
  rw [run_bind_ok (stringAt_run h u), run_bind_ok (hpush _), if_neg (by omega)]
  rfl

/-- Where a loop over the strings is before the iteration below `i`: the strings from `i` on lie one
above the other, with their addresses in the array. -/
structure StringsFrom (s : Loader) (l : List (BitVec 8)) (strs : List CString)
    (emu : ℕ → BitVec 32) (i : ℕ) (emu' : ℕ → BitVec 32) (t : Loader) : Prop where
  le : i ≤ strs.length
  state : t = s.push ((strs.drop i).flatMap CString.bytes ++ l)
  above : ∀ j, i ≤ j → j < strs.length →
    emu' j = (s.push ((strs.drop j).flatMap CString.bytes ++ l)).esp
  below : ∀ j < i, emu' j = emu j

theorem length_drop_flatMap_le {i j : ℕ} (h : i ≤ j) (strs : List CString) :
    ((strs.drop j).flatMap CString.bytes).length ≤
      ((strs.drop i).flatMap CString.bytes).length := by
  have hdrop : strs.drop j = (strs.drop i).drop (j - i) := by
    rw [List.drop_drop, Nat.add_sub_cancel' h]
  conv_rhs => rw [← List.take_append_drop (j - i) (strs.drop i)]
  rw [List.flatMap_append, List.length_append, ← hdrop]
  exact Nat.le_add_left ..

theorem StringsFrom.next {i : ℕ} {emu' : ℕ → BitVec 32} {t : Loader}
    (h : StringsFrom s l strs emu (i + 1) emu' t) (hi : i < strs.length)
    (hroom : ((strs.drop i).flatMap CString.bytes ++ l).length ≤ s.esp.toNat) :
    StringsFrom s l strs emu i (Function.update emu' i (t.push strs[i].bytes).esp)
      (t.push strs[i].bytes) := by
  have hdrop : (strs.drop i).flatMap CString.bytes ++ l = strs[i].bytes ++
      ((strs.drop (i + 1)).flatMap CString.bytes ++ l) := by
    rw [List.drop_eq_getElem_cons hi, List.flatMap_cons, List.append_assoc]
  have hstate : t.push strs[i].bytes = s.push ((strs.drop i).flatMap CString.bytes ++ l) := by
    rw [h.state, hdrop]
    rw [hdrop] at hroom
    exact Loader.push_push hroom
  refine ⟨hi.le, hstate, fun j hj hjlen => ?_, fun j hj => ?_⟩
  · by_cases hij : j = i
    · rw [hij, Function.update_self, hstate]
    · rw [Function.update_of_ne hij]
      exact h.above j (by omega) hjlen
  · rw [Function.update_of_ne (by omega)]
    exact h.below j (by omega)

/-- A loop that pushes the strings from the last one down to `lo`. -/
theorem pushStrings_run {body : ℕ → (ℕ → BitVec 32) → Load (ℕ → BitVec 32)}
    (hbody : ∀ i (h : i < strs.length) emu u, lo ≤ i → (body i emu).run u =
      .ok (Function.update emu i (u.push strs[i].bytes).esp, u.push strs[i].bytes))
    (hlo : lo ≤ strs.length)
    (h : ((strs.drop lo).flatMap CString.bytes ++ l).length ≤ s.esp.toNat) :
    ∃ emu' t, (countdown lo body strs.length emu).run (s.push l) = .ok (emu', t) ∧
      StringsFrom s l strs emu lo emu' t := by
  have hstep : ∀ i emu' t, lo ≤ i → StringsFrom s l strs emu (i + 1) emu' t →
      ∃ b u, (body i emu').run t = .ok (b, u) ∧ StringsFrom s l strs emu i b u := by
    intro i emu' t hi ht
    have hlen := length_drop_flatMap_le hi strs
    rw [List.length_append] at h
    exact ⟨_, _, hbody i ht.le emu' t hi, ht.next ht.le (by rw [List.length_append]; omega)⟩
  refine countdown_spec hstep strs.length emu (s.push l) hlo ⟨le_refl _, ?_, ?_, fun _ _ => rfl⟩
  · rw [List.drop_length]
    rfl
  · intro j h1 h2
    omega

theorem pushEnvp_run (h : (strs.flatMap CString.bytes ++ l).length ≤ s.esp.toNat) :
    ∃ emu' t, (pushEnvp strs emu).run (s.push l) = .ok (emu', t) ∧
      StringsFrom s l strs emu 0 emu' t :=
  @pushStrings_run s l strs emu 0 (pushEnv strs) (fun _ hi _ u _ => pushEnv_run hi u)
    (Nat.zero_le _) h

theorem pushArgv_run (hlen : 2 ≤ strs.length)
    (h : ((strs.drop 2).flatMap CString.bytes ++ l).length ≤ s.esp.toNat) :
    ∃ emu' t, (pushArgv strs emu).run (s.push l) = .ok (emu', t) ∧
      StringsFrom s l strs emu 2 emu' t :=
  @pushStrings_run s l strs emu 2 (pushArg strs) (fun _ hi _ u h2 => pushArg_run h2 hi u) hlen h

/-- Before the iteration below `i` the words of the array from `i` up to `n` are pushed. -/
structure PointersFrom (s : Loader) (l : List (BitVec 8)) (ws : List (BitVec 32))
    (emu : ℕ → BitVec 32) (n i : ℕ) (t : Loader) : Prop where
  le : i ≤ n
  state : t = s.push (((List.range' i (n - i)).map emu ++ ws).flatMap (leBytes 4) ++ l)

/-- The words of an array from `lo` up to `n`. -/
theorem pushPointers_run {n : ℕ} {ws : List (BitVec 32)} (hlo : lo ≤ n)
    (h : 4 * (n - lo + ws.length) + l.length ≤ s.esp.toNat) :
    (pushPointers lo n emu).run (s.push (ws.flatMap (leBytes 4) ++ l)) =
      .ok ((), s.push (((List.range' lo (n - lo)).map emu ++ ws).flatMap (leBytes 4) ++ l)) := by
  have hstep : ∀ i (_ : Unit) t, lo ≤ i → PointersFrom s l ws emu n (i + 1) t →
      ∃ (b : Unit) (u : Loader), (pushWord (emu i)).run t = .ok (b, u) ∧
        PointersFrom s l ws emu n i u := by
    rintro i - t hi ⟨hin, rfl⟩
    have hcons : List.range' i (n - i) = i :: List.range' (i + 1) (n - (i + 1)) := by
      rw [show n - i = n - (i + 1) + 1 by omega, List.range'_succ]
    refine ⟨(), _, pushWord_words (emu i) _ ?_, by omega, ?_⟩
    · rw [List.length_append, List.length_map, List.length_range']
      omega
    · rw [hcons]
      rfl
  obtain ⟨a, t, hrun, -, rfl⟩ := @countdown_spec Loader Fault Unit lo _
    (fun i _ t => PointersFrom s l ws emu n i t) hstep n ()
    (s.push (ws.flatMap (leBytes 4) ++ l)) hlo ⟨le_refl n, by rw [Nat.sub_self]; rfl⟩
  exact hrun

/-- The words of an auxiliary vector. -/
def auxWords (aux : List (BitVec 32 × BitVec 32)) : List (BitVec 32) :=
  aux.flatMap fun e => [e.1, e.2]

/-- The entries that are pushed, in the order of the host's. -/
def auxPairs (s : Loader) : List Elf64Auxv → List (BitVec 32 × BitVec 32)
  | [] => []
  | entry :: rest =>
    if entry.aType = 0 then []
    else if entry.aType = 32 ∨ entry.aType = 33 then auxPairs s rest
    else (entry.aType.setWidth 32, s.getters entry.aType entry.aVal) :: auxPairs s rest

theorem length_auxPairs : ∀ auxv : List Elf64Auxv, (auxPairs s auxv).length ≤ auxv.length
  | [] => le_refl 0
  | entry :: rest => by
    have ih := length_auxPairs rest
    unfold auxPairs
    split
    · exact Nat.zero_le _
    · split
      · exact Nat.le_succ_of_le ih
      · exact Nat.succ_le_succ ih

/-- The entries that are pushed. -/
def auxSeen : List Elf64Auxv → List Elf64Auxv
  | [] => []
  | entry :: rest =>
    if entry.aType = 0 then []
    else if entry.aType = 32 ∨ entry.aType = 33 then auxSeen rest
    else entry :: auxSeen rest

theorem length_auxPairs_auxSeen : ∀ auxv : List Elf64Auxv,
    (auxPairs s (auxSeen auxv)).length = (auxSeen auxv).length
  | [] => rfl
  | entry :: rest => by
    have ih := length_auxPairs_auxSeen rest
    unfold auxSeen
    split_ifs with h0 hskip
    · rfl
    · exact ih
    · unfold auxPairs
      rw [if_neg h0, if_neg hskip, List.length_cons, List.length_cons, ih]

/-- The other entries make no difference. -/
theorem readAuxvEntries_auxSeen : ∀ auxv : List Elf64Auxv,
    readAuxvEntries (auxSeen auxv) = readAuxvEntries auxv
  | [] => rfl
  | entry :: rest => by
    have ih := readAuxvEntries_auxSeen rest
    rw [auxSeen, readAuxvEntries.eq_2]
    split_ifs with h0 hskip htable
    · rfl
    · exact ih
    · rw [readAuxvEntries, if_neg h0, if_neg hskip, if_pos htable]
    · rw [readAuxvEntries, if_neg h0, if_neg hskip, if_neg htable, ih]

/-- The table has the type of every entry that a run gets past. -/
theorem types_of_readAuxvEntries : ∀ {auxv : List Elf64Auxv} {u t : Loader},
    (readAuxvEntries auxv).run u = .ok ((), t) → ∀ e ∈ auxSeen auxv, e.aType.toNat < 53
  | [], _, _, _ => fun _ he => absurd he List.not_mem_nil
  | entry :: rest, u, t, hrun => by
    unfold readAuxvEntries at hrun
    unfold auxSeen
    split_ifs at hrun ⊢ with h0 hskip htable
    · exact fun _ he => absurd he List.not_mem_nil
    · exact types_of_readAuxvEntries hrun
    · cases hrun
    · obtain ⟨_, _, -, hrun⟩ := run_bind_inv hrun
      obtain ⟨_, _, -, hrun⟩ := run_bind_inv hrun
      obtain ⟨_, _, -, hrun⟩ := run_bind_inv hrun
      rintro e (_ | ⟨_, he⟩)
      · exact Nat.lt_of_not_le htable
      · exact types_of_readAuxvEntries hrun e he

theorem auxWords_reverse_cons (e : BitVec 32 × BitVec 32) (aux : List (BitVec 32 × BitVec 32)) :
    auxWords (e :: aux).reverse = auxWords aux.reverse ++ [e.1, e.2] := by
  unfold auxWords
  rw [List.reverse_cons, List.flatMap_append]
  rfl

theorem length_auxWords (aux : List (BitVec 32 × BitVec 32)) :
    (auxWords aux).length = 2 * aux.length := by
  simp [auxWords, List.length_flatMap, List.map_const', Nat.mul_comm]

theorem readAuxvEntries_run : ∀ {auxv : List Elf64Auxv} {ws : List (BitVec 32)},
    (∀ e ∈ auxv, e.aType.toNat < 53) →
      4 * (2 * (auxPairs s auxv).length + ws.length) + l.length ≤ s.esp.toNat →
      (readAuxvEntries auxv).run (s.push (ws.flatMap (leBytes 4) ++ l)) =
        .ok ((), s.push ((auxWords (auxPairs s auxv).reverse ++ ws).flatMap (leBytes 4) ++ l))
  | [], ws, _, _ => rfl
  | entry :: rest, ws, htypes, h => by
    have htail : ∀ e ∈ rest, e.aType.toNat < 53 := fun e he => htypes e (List.mem_cons_of_mem _ he)
    have htype : ¬ 53 ≤ entry.aType.toNat := Nat.not_le.2 (htypes entry List.mem_cons_self)
    unfold readAuxvEntries
    unfold auxPairs at h ⊢
    by_cases h0 : entry.aType = 0
    · rw [if_pos h0, if_pos h0]
      rfl
    rw [if_neg h0] at h ⊢
    rw [if_neg h0]
    by_cases hskip : entry.aType = 32 ∨ entry.aType = 33
    · rw [if_pos hskip] at h ⊢
      rw [if_pos hskip]
      exact readAuxvEntries_run htail h
    · rw [if_neg hskip, List.length_cons] at h
      have hgetters : (s.push (ws.flatMap (leBytes 4) ++ l)).getters = s.getters := rfl
      rw [if_neg hskip, if_neg hskip, if_neg htype, run_bind_ok run_get_ok, hgetters,
        run_bind_ok (pushWord_words _ _ (by omega)),
        run_bind_ok (pushWord_words _ _ (by rw [List.length_cons]; omega)),
        readAuxvEntries_run htail (by rw [List.length_cons, List.length_cons]; omega),
        auxWords_reverse_cons, List.append_assoc]
      rfl

theorem readAuxv_run {auxv : List Elf64Auxv} (htypes : ∀ e ∈ auxv, e.aType.toNat < 53)
    (h : 4 * (2 * (auxPairs s auxv).length + 2) + l.length ≤ s.esp.toNat) :
    (readAuxv auxv).run (s.push l) = .ok ((), s.push (
      (auxWords (auxPairs s auxv).reverse ++ [0, 0]).flatMap (leBytes 4) ++ l)) := by
  have hone : (pushWord 0).run (s.push l) = .ok ((), s.push ([0].flatMap (leBytes 4) ++ l)) :=
    pushWord_words 0 [] (by rw [List.length_nil]; omega)
  have htwo := @pushWord_words s l 0 [0] (by rw [List.length_singleton]; omega)
  unfold readAuxv
  rw [run_bind_ok hone, run_bind_ok htwo]
  exact readAuxvEntries_run htypes h

/-- Everything after the alignment. -/
theorem pushVectors_run {auxv : List Elf64Auxv} {n k : ℕ} {argvEmu envpEmu : ℕ → BitVec 32}
    {argc : BitVec 32} (hn : 1 ≤ n) (htypes : ∀ e ∈ auxv, e.aType.toNat < 53)
    (h : 4 * (n + k + 2 * auxv.length + 4) + l.length ≤ s.esp.toNat) :
    (do readAuxv auxv
        pushWord 0
        pushPointers 0 k envpEmu
        pushWord 0
        pushPointers 1 n argvEmu
        pushWord (argc - 1) : Load Unit).run (s.push l) =
      .ok ((), s.push (((argc - 1) :: (List.range' 1 (n - 1)).map argvEmu ++
        0 :: (List.range' 0 k).map envpEmu ++ [0] ++ auxWords (auxPairs s auxv).reverse ++
          [0, 0]).flatMap (leBytes 4) ++ l)) := by
  have haux := @length_auxPairs s auxv
  have hwords := length_auxWords (auxPairs s auxv).reverse
  rw [List.length_reverse] at hwords
  have hone := @readAuxv_run s l auxv htypes (by omega)
  generalize auxWords (auxPairs s auxv).reverse = aux at hone hwords ⊢
  have htwo := @pushWord_words s l 0 (aux ++ [0, 0]) (by
    simp only [List.length_append, List.length_cons, List.length_nil]
    omega)
  have hthree := @pushPointers_run s l envpEmu 0 k (0 :: (aux ++ [0, 0])) (Nat.zero_le k) (by
    simp only [List.length_append, List.length_cons, List.length_nil]
    omega)
  have hfour := @pushWord_words s l 0 ((List.range' 0 k).map envpEmu ++ 0 :: (aux ++ [0, 0])) (by
    simp only [List.length_append, List.length_cons, List.length_nil, List.length_map,
      List.length_range']
    omega)
  have hfive := @pushPointers_run s l argvEmu 1 n
    (0 :: ((List.range' 0 k).map envpEmu ++ 0 :: (aux ++ [0, 0]))) hn (by
      simp only [List.length_append, List.length_cons, List.length_nil, List.length_map,
        List.length_range']
      omega)
  rw [Nat.sub_zero] at hthree
  rw [run_bind_ok hone, run_bind_ok htwo, run_bind_ok hthree, run_bind_ok hfour, run_bind_ok hfive,
    pushWord_words]
  · simp
  · simp only [List.length_append, List.length_cons, List.length_nil, List.length_map,
      List.length_range']
    omega

end Loops

end I386Vm
