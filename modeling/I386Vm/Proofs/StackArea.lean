import I386Vm.Lib.Graded
import I386Vm.Proofs.ProcessStack

/-!
# What `load_stack` leaves alone

Whatever the strings and however many there are, a run that ends has written only the `stackSize`
bytes below `esp`, at addresses that wrap at `2^32`, and has not moved `eip`. From an aligned `esp`
with room below it they are `stackUsed` bytes (`loadStack_pushes`): the entries of the auxiliary
vector that are not pushed do not count, and the padding goes up to the next word.
-/

namespace I386Vm

open Bytes Prog

/-- `esp` has moved down by at most `n`, and the bytes that it has not passed are the same. -/
def Loader.Lowers (n : ℕ) (s t : Loader) : Prop :=
  ∃ m ≤ n, t.esp = s.esp - BitVec.ofNat 32 m ∧ t.machine.eip = s.machine.eip ∧
    ∀ a < 2 ^ 32, m ≤ (s.esp - 1 - BitVec.ofNat 32 a).toNat →
      t.machine.mem a = s.machine.mem a

instance : Graded Loader.Lowers where
  refl s := ⟨0, le_refl 0, (BitVec.sub_zero _).symm, rfl, fun _ _ _ => rfl⟩
  mono := by
    rintro n k s t hnk ⟨m, hm, h⟩
    exact ⟨m, hm.trans hnk, h⟩
  trans := by
    rintro n k s t u ⟨m, hm, hesp, heip, hmem⟩ ⟨m', hm', hesp', heip', hmem'⟩
    refine ⟨m + m', by omega, ?_, heip'.trans heip, fun a ha hle => ?_⟩
    · rw [hesp', hesp, BitVec.ofNat_add, BitVec.sub_sub]
    · have hlt := (s.esp - 1 - BitVec.ofNat 32 a).isLt
      have hsub : t.esp - 1 - BitVec.ofNat 32 a = s.esp - 1 - BitVec.ofNat 32 a
          - BitVec.ofNat 32 m := by
        rw [hesp]
        bv_omega
      have hnat : (t.esp - 1 - BitVec.ofNat 32 a).toNat =
          (s.esp - 1 - BitVec.ofNat 32 a).toNat - m := by
        rw [hsub, BitVec.toNat_sub, BitVec.toNat_ofNat]
        omega
      rw [hmem' a ha (by omega), hmem a ha (by omega)]

namespace Loader

/-- A step that moves neither `esp` nor `eip` nor memory. -/
theorem lowers_zero {s t : Loader} (hesp : t.esp = s.esp) (heip : t.machine.eip = s.machine.eip)
    (hmem : t.machine.mem = s.machine.mem) : Lowers 0 s t :=
  ⟨0, le_refl 0, by rw [hesp, BitVec.sub_zero], heip, fun a _ _ => by rw [hmem]⟩

theorem lowers_push (s : Loader) (p : List (BitVec 8)) : Lowers p.length s (s.push p) := by
  refine ⟨p.length, le_refl _, esp_push s p, rfl, fun a ha hle => ?_⟩
  have hmem : (s.push p).machine.mem =
      putBytes s.machine.mem (s.esp - BitVec.ofNat 32 p.length).toNat p := rfl
  have hlt := (s.esp - 1 - BitVec.ofNat 32 a).isLt
  rw [hmem]
  refine putBytes_of_not_mem fun hin => ?_
  have hp := BitVec.toNat_ofNat p.length 32
  rw [Nat.mod_eq_of_lt (by omega)] at hp
  bv_omega

end Loader

open Loader

theorem Loader.lowers_word (s : Loader) (x : BitVec 32) :
    Lowers 4 s { s with machine := s.machine.push32 x } := by
  have hesp := s.machine.reg_push32_esp x
  refine ⟨4, le_refl 4, hesp, rfl, fun a ha hle => ?_⟩
  refine Machine.write32_mem_of_ne _ _ x fun j hj heq => ?_
  change 4 ≤ (s.machine.reg .esp - 1 - BitVec.ofNat 32 a).toNat at hle
  have hofNat : BitVec.ofNat 32 a = s.machine.reg .esp - 4 + BitVec.ofNat 32 j := by
    apply BitVec.eq_of_toNat_eq
    rw [heq, BitVec.toNat_ofNat, BitVec.toNat_add, BitVec.toNat_ofNat]
    omega
  have hj' := BitVec.toNat_ofNat j 32
  rw [hofNat] at hle
  bv_omega

theorem Loader.lowers_align (s : Loader) :
    Lowers 3 s { s with machine := s.machine.setReg .esp (s.esp &&& ~~~0x3) } := by
  refine ⟨s.esp.toNat % 4, by omega, ?_, rfl, fun _ _ _ => rfl⟩
  rw [← and_not_three]
  exact s.machine.reg_setReg .esp _

section Parts

variable {strs : List CString} {emu : ℕ → BitVec 32}

theorem spends_pushString (p : CString) : Spends Lowers p.bytes.length (pushString p) :=
  Spends.bind (k := 0) (Spends.modify fun s => lowers_push s p.bytes)
    fun _ => Spends.bind Spends.get fun _ => Spends.pure _

theorem spends_pushWord (x : BitVec 32) : Spends Lowers 4 (pushWord x) :=
  Spends.modify fun s => lowers_word s x

theorem spends_alignEsp : Spends Lowers 3 alignEsp :=
  Spends.modify lowers_align

theorem spends_setPlatformAddr (x : BitVec 32) : Spends Lowers 0 (setPlatformAddr x) :=
  Spends.modify fun _ => lowers_zero rfl rfl rfl

theorem spends_setExecfn (x : BitVec 32) : Spends Lowers 0 (setExecfn x) :=
  Spends.modify fun _ => lowers_zero rfl rfl rfl

theorem spends_setRr (x : BitVec 32) : Spends Lowers 0 (setRr x) :=
  Spends.modify fun _ => lowers_zero rfl rfl rfl

theorem spends_readAuxvEntries : ∀ auxv : List Elf64Auxv,
    Spends Lowers (8 * auxv.length) (readAuxvEntries auxv)
  | [] => Spends.pure ()
  | entry :: rest => by
    have ih := spends_readAuxvEntries rest
    unfold readAuxvEntries
    rw [List.length_cons]
    split_ifs
    · exact (Spends.pure ()).mono (Nat.zero_le _)
    · exact ih.mono (by omega)
    · exact Spends.throw _
    · exact (Spends.get.bind fun s => (spends_pushWord _).bind fun _ =>
        (spends_pushWord _).bind fun _ => ih).mono (by omega)

theorem spends_readAuxv (auxv : List Elf64Auxv) :
    Spends Lowers (8 * (auxv.length + 1)) (readAuxv auxv) :=
  ((spends_pushWord 0).bind fun _ => (spends_pushWord 0).bind fun _ =>
    spends_readAuxvEntries auxv).mono (by omega)

/-- The bytes of string `i`, none past the last one. -/
def stringSize (strs : List CString) (i : ℕ) : ℕ := (strs[i]?.map fun p => p.bytes.length).getD 0

/-- A program that takes string `i` and goes on, with what it has still to do. -/
theorem spends_stringAt {n i : ℕ} {f : CString → Load α}
    (h : ∀ p, strs[i]? = some p → Spends Lowers n (f p)) :
    Spends Lowers n (stringAt strs i >>= f) := by
  intro s b t ht
  obtain ⟨p, u, hp, hf⟩ := run_bind_inv ht
  unfold stringAt at hp
  split at hp
  · rename_i q hq
    cases hp
    exact h _ hq s b t hf
  · cases hp

theorem spends_pushEnv (i : ℕ) (emu : ℕ → BitVec 32) :
    Spends Lowers (stringSize strs i) (pushEnv strs i emu) := by
  refine spends_stringAt fun p hp => ?_
  have hsize : stringSize strs i = p.bytes.length := by rw [stringSize, hp]; rfl
  rw [hsize]
  exact (spends_pushString p).bind fun _ => Spends.pure _

theorem spends_pushArg (i : ℕ) (emu : ℕ → BitVec 32) :
    Spends Lowers (stringSize strs i) (pushArg strs i emu) := by
  refine spends_stringAt fun p hp => ?_
  have hsize : stringSize strs i = p.bytes.length := by rw [stringSize, hp]; rfl
  have hexecfn (x : BitVec 32) : Spends Lowers 0 (if i = 1 then setExecfn x else return ()) := by
    split
    · exact spends_setExecfn x
    · exact Spends.pure ()
  rw [hsize]
  exact (spends_pushString p).bind fun x => (hexecfn x).bind fun _ => Spends.pure _

/-- The bytes of the strings from `lo` up to `i`. -/
theorem length_take_succ {lo i : ℕ} (h : lo ≤ i) :
    stringSize strs i + (((strs.take i).drop lo).flatMap CString.bytes).length ≤
      (((strs.take (i + 1)).drop lo).flatMap CString.bytes).length := by
  unfold stringSize
  rw [List.take_add_one]
  rcases Nat.lt_or_ge i strs.length with hi | hi
  · rw [List.getElem?_eq_getElem hi, List.drop_append_of_le_length (by
      rw [List.length_take]; omega), List.flatMap_append, List.length_append]
    simp
    omega
  · rw [List.getElem?_eq_none hi]
    simp

/-- A loop over the strings from the last one down to `lo`. -/
theorem spends_strings {body : ℕ → (ℕ → BitVec 32) → Load (ℕ → BitVec 32)} (lo : ℕ)
    (h : ∀ i emu, Spends Lowers (stringSize strs i) (body i emu)) (emu : ℕ → BitVec 32) :
    Spends Lowers ((strs.drop lo).flatMap CString.bytes).length
      (countdown lo body strs.length emu) := by
  have hloop := @Spends.countdown Loader Fault _ Lowers _ lo body (stringSize strs)
    (fun i => (((strs.take i).drop lo).flatMap CString.bytes).length) (fun i emu _ => h i emu)
    (fun i hi => length_take_succ hi) strs.length emu
  rwa [List.take_length] at hloop

theorem spends_pushPointers (lo n : ℕ) (emu : ℕ → BitVec 32) :
    Spends Lowers (4 * (n - lo)) (pushPointers lo n emu) :=
  @Spends.countdown Loader Fault _ Lowers _ lo (fun i _ => pushWord (emu i)) (fun _ => 4)
    (fun i => 4 * (i - lo)) (fun i _ _ => spends_pushWord (emu i)) (fun i _ => by omega) n ()

end Parts

/-- A run of `load_stack` lowers `esp` by no more than the size of what it pushes. -/
theorem spends_loadStack (host : LoaderHost) (argvEmu envpEmu : ℕ → BitVec 32)
    (argc : BitVec 32) {argv : List CString} (h1 : 1 ≤ argv.length) (envp : List CString) :
    Spends Lowers (stackSize host argv envp) (loadStack host argvEmu envpEmu argc argv envp) := by
  have hplatform : platform.bytes.length = 4 := rfl
  have henvp := @spends_strings envp _ 0 spends_pushEnv envpEmu
  have hargv := @spends_strings argv _ 2 spends_pushArg argvEmu
  refine Spends.mono (henvp.bind fun e => hargv.bind fun a => (spends_pushString platform).bind
    fun p => (spends_setPlatformAddr p).bind fun _ => (spends_pushWord _).bind fun _ =>
    (spends_pushWord _).bind fun _ => Spends.get.bind fun s => (spends_setRr _).bind fun _ =>
    spends_alignEsp.bind fun _ => (spends_readAuxv host.auxv).bind fun _ =>
    (spends_pushWord 0).bind fun _ => (spends_pushPointers 0 envp.length e).bind fun _ =>
    (spends_pushWord 0).bind fun _ => (spends_pushPointers 1 argv.length a).bind fun _ =>
    spends_pushWord _) ?_
  unfold stackSize
  rw [hplatform, List.drop_zero, ← Nat.add_assoc, Nat.add_assoc _ (4 * _) 3]
  exact Nat.add_le_add_left (by omega) _

section Used

variable {host : LoaderHost} {argv envp : List CString} {s t : Loader}

def LoaderHost.seen (host : LoaderHost) : LoaderHost := { host with auxv := auxSeen host.auxv }

theorem loadStack_seen (argvEmu envpEmu : ℕ → BitVec 32) (argc : BitVec 32) :
    loadStack host.seen argvEmu envpEmu argc argv envp =
      loadStack host argvEmu envpEmu argc argv envp := by
  unfold loadStack readAuxv LoaderHost.seen
  rw [readAuxvEntries_auxSeen]

theorem types_of_loadStack {argvEmu envpEmu : ℕ → BitVec 32} {argc : BitVec 32}
    (h : (loadStack host argvEmu envpEmu argc argv envp).run s = .ok ((), t)) :
    ∀ e ∈ auxSeen host.auxv, e.aType.toNat < 53 := by
  unfold loadStack at h
  obtain ⟨_, _, -, h⟩ := run_bind_inv h
  obtain ⟨_, _, -, h⟩ := run_bind_inv h
  obtain ⟨_, _, -, h⟩ := run_bind_inv h
  obtain ⟨_, _, -, h⟩ := run_bind_inv h
  obtain ⟨_, _, -, h⟩ := run_bind_inv h
  obtain ⟨_, _, -, h⟩ := run_bind_inv h
  obtain ⟨_, _, -, h⟩ := run_bind_inv h
  obtain ⟨_, _, -, h⟩ := run_bind_inv h
  obtain ⟨_, _, -, h⟩ := run_bind_inv h
  obtain ⟨_, _, hauxv, -⟩ := run_bind_inv h
  unfold readAuxv at hauxv
  obtain ⟨_, _, -, hauxv⟩ := run_bind_inv hauxv
  obtain ⟨_, _, -, hauxv⟩ := run_bind_inv hauxv
  exact types_of_readAuxvEntries hauxv

/-- The strings, the platform and the random words with their padding, and the words. -/
def stackUsed (host : LoaderHost) (argv envp : List CString) : ℕ :=
  4 * (((envp.flatMap CString.bytes).length + ((argv.drop 2).flatMap CString.bytes).length + 15) / 4
    + argv.length + envp.length + 2 * (auxSeen host.auxv).length + 4)

theorem loadStack_pushes (h2 : 2 ≤ argv.length) (haligned : s.esp.toNat % 4 = 0)
    (hroom : stackUsed host argv envp < s.esp.toNat)
    (htypes : ∀ e ∈ auxSeen host.auxv, e.aType.toNat < 53) :
    ∃ s' : Loader, s'.machine = s.machine ∧ ∀ argvEmu envpEmu argc, ∃ l,
      l.length = stackUsed host argv envp ∧
        (loadStack host argvEmu envpEmu argc argv envp).run s = .ok ((), s'.push l) := by
  have hfits : Fits host.seen argv envp s := by
    refine ⟨?_, htypes⟩
    unfold stackSize LoaderHost.seen
    unfold stackUsed at hroom
    dsimp only
    omega
  obtain ⟨s', mid, hmachine, -, hmid, hrun⟩ := loadStack_run h2 hfits
  refine ⟨s', hmachine, fun argvEmu envpEmu argc => ⟨_, ?_,
    (congrArg (fun m => m.run s) (loadStack_seen argvEmu envpEmu argc).symm).trans
      (hrun argvEmu envpEmu argc)⟩⟩
  have hargs := congrArg List.length (pointers_map_snd
    (s.esp.toNat - (envp.flatMap CString.bytes).length) (argv.drop 2))
  have henvs := congrArg List.length (pointers_map_snd s.esp.toNat envp)
  have haux : (auxPairs s' host.seen.auxv).length = (auxSeen host.auxv).length :=
    length_auxPairs_auxSeen host.auxv
  rw [List.length_map] at hargs henvs
  rw [List.length_drop] at hargs
  unfold stackUsed at hroom ⊢
  simp only [List.length_append, List.length_cons, List.length_nil, List.length_map,
    List.length_reverse, length_flatMap_leBytes, length_auxWords, haux, hargs, henvs, hmid]
  omega

end Used

/-- One of the `n` bytes below `STACK_BOTTOM`. -/
def InStack (n a : ℕ) : Prop := (stackBottom - 1 - BitVec.ofNat 32 a).toNat < n

instance (n a : ℕ) : Decidable (InStack n a) := inferInstanceAs (Decidable (_ < _))

/-- A stack that does not wrap. -/
theorem inStack_iff {n a : ℕ} (hn : n ≤ stackBottom.toNat) (ha : a < 2 ^ 32) :
    InStack n a ↔ stackBottom.toNat - n ≤ a ∧ a < stackBottom.toNat := by
  have hb : stackBottom = 0xFFF00000 := rfl
  have hofNat := BitVec.toNat_ofNat a 32
  rw [Nat.mod_eq_of_lt ha] at hofNat
  unfold InStack
  rw [hb] at hn ⊢
  constructor
  · intro h
    bv_omega
  · intro h
    bv_omega

end I386Vm
