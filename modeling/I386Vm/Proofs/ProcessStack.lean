import I386Vm.Proofs.Pushes

/-!
# The stack a program starts with

A run of `load_stack` pushes one list of bytes (`loadStack_run`): the words, and above them the
strings they point to (`loadStack_layout`). Two things are missing from it. The loop over `argv`
ends before it gets to `argv_emu[1]`, whose word is pushed all the same, and `execfn` is set
nowhere.
-/

namespace I386Vm

open Bytes Prog

/-- `argc`, and the two vectors of pointers, each with a zero. -/
def pointerWords (argv envp : List (BitVec 32)) : List (BitVec 32) :=
  BitVec.ofNat 32 argv.length :: argv ++ 0 :: envp ++ [0]

/-- The auxiliary vector and its end lie above them. -/
def stackWords (argv envp : List (BitVec 32)) (aux : List (BitVec 32 × BitVec 32)) :
    List (BitVec 32) :=
  pointerWords argv envp ++ auxWords aux ++ [0, 0]

/-- The words from `a` on. -/
def Machine.Words (t : Machine) (a : BitVec 32) (ws : List (BitVec 32)) : Prop :=
  ∀ k (h : k < ws.length), t.read32 (a + BitVec.ofNat 32 (4 * k)) = ws[k]

/-- The words are at `ESP`, and the copies elsewhere. -/
structure Layout (argv envp : List (BitVec 32)) (aux : List (BitVec 32 × BitVec 32))
    (copies : List (BitVec 32 × CString)) (t : Machine) : Prop where
  words : t.Words (t.reg .esp) (stackWords argv envp aux)
  copied : ∀ c ∈ copies, BytesAt t.mem c.1.toNat c.2.bytes
  apart : copies.Pairwise fun c d => c.1.toNat + c.2.bytes.length ≤ d.1.toNat ∨
    d.1.toNat + d.2.bytes.length ≤ c.1.toNat
  clear : ∀ c ∈ copies, c.1.toNat + c.2.bytes.length ≤ (t.reg .esp).toNat ∨
    (t.reg .esp).toNat + 4 * (pointerWords argv envp).length ≤ c.1.toNat

/-- The pointers are those to the copies, and `AT_EXECFN` is that to the path of the program. -/
structure ProcessStack (argv envp : List CString) (args envs : List (BitVec 32 × CString))
    (aux : List (BitVec 32 × BitVec 32)) (t : Machine) : Prop where
  layout : Layout (args.map Prod.fst) (envs.map Prod.fst) aux (args ++ envs) t
  tail : args.map Prod.snd <:+ argv
  all : envs.map Prod.snd = envp
  nonzero : ∀ c ∈ args ++ envs, c.1 ≠ 0
  types : ∀ e ∈ aux, e.1 ≠ 0
  execfn : ∀ e ∈ aux, e.1 = 31 → ∃ p, argv[2]? = some p ∧ BytesAt t.mem e.2.toNat p.bytes

/-- Whatever the arrays hold at first, the stack comes out with the same words. -/
def InitialStack (host : LoaderHost) (argv envp : List CString) (s : Loader) : Prop :=
  ∃ args envs aux, ∀ argvEmu envpEmu, ∃ t,
    (loadStack host argvEmu envpEmu (BitVec.ofNat 32 argv.length) argv envp).run s = .ok ((), t) ∧
      ProcessStack argv envp args envs aux t.machine

/-- Strings one above the other below `top`, with the pointers to them. -/
def pointers (top : ℕ) (strs : List CString) : List (BitVec 32 × CString) :=
  (placed CString.bytes top strs).map fun c => (BitVec.ofNat 32 c.1, c.2)

section Pointers

variable {s : Loader} {l : List (BitVec 8)} {strs : List CString} {emu : ℕ → BitVec 32} {lo top : ℕ}

theorem pointers_map_snd (top : ℕ) (strs : List CString) :
    (pointers top strs).map Prod.snd = strs := by
  unfold pointers
  rw [List.map_map]
  exact placed_map_snd CString.bytes strs

theorem mem_pointers (htop : top < 2 ^ 32) (h : (strs.flatMap CString.bytes).length ≤ top)
    {c : BitVec 32 × CString} (hc : c ∈ pointers top strs) :
    (c.1.toNat, c.2) ∈ placed CString.bytes top strs ∧
      top - (strs.flatMap CString.bytes).length ≤ c.1.toNat ∧
      c.1.toNat + c.2.bytes.length ≤ top := by
  obtain ⟨d, hd, rfl⟩ := List.mem_map.1 hc
  have hbounds := bounds_of_mem_placed h hd
  have hnat : (BitVec.ofNat 32 d.1).toNat = d.1 := by
    rw [BitVec.toNat_ofNat]
    exact Nat.mod_eq_of_lt (by omega)
  change ((BitVec.ofNat 32 d.1).toNat, d.2) ∈ _ ∧ _ ≤ (BitVec.ofNat 32 d.1).toNat ∧
    (BitVec.ofNat 32 d.1).toNat + _ ≤ _
  rw [hnat]
  exact ⟨hd, hbounds⟩

theorem pointers_pairwise (htop : top < 2 ^ 32) (h : (strs.flatMap CString.bytes).length ≤ top) :
    (pointers top strs).Pairwise fun c d => c.1.toNat + c.2.bytes.length ≤ d.1.toNat := by
  have hnat : ∀ c ∈ placed CString.bytes top strs, (BitVec.ofNat 32 c.1).toNat = c.1 := by
    intro c hc
    have hbounds := bounds_of_mem_placed h hc
    rw [BitVec.toNat_ofNat]
    exact Nat.mod_eq_of_lt (by omega)
  refine List.pairwise_map.2 ((placed_pairwise h).imp_of_mem fun {c d} hc hd hcd => ?_)
  rw [hnat c hc, hnat d hd]
  exact hcd

/-- What the loop over the strings leaves in the array. -/
theorem map_emu_eq (h : ((strs.drop lo).flatMap CString.bytes ++ l).length ≤ s.esp.toNat)
    (hemu : ∀ j, lo ≤ j → j < strs.length →
      emu j = (s.push ((strs.drop j).flatMap CString.bytes ++ l)).esp) :
    (List.range' lo (strs.length - lo)).map emu =
      (pointers (s.esp.toNat - l.length) (strs.drop lo)).map Prod.fst := by
  generalize hk : strs.length - lo = k
  induction k generalizing lo with
  | zero =>
    rw [List.drop_of_length_le (by omega)]
    rfl
  | succ k ih =>
    have hcons : strs.drop lo = strs[lo] :: strs.drop (lo + 1) :=
      List.drop_eq_getElem_cons (by omega)
    have htail : ((strs.drop (lo + 1)).flatMap CString.bytes ++ l).length ≤ s.esp.toNat := by
      rw [hcons, List.flatMap_cons, List.append_assoc, List.length_append] at h
      omega
    have hhead : emu lo = BitVec.ofNat 32 (s.esp.toNat - l.length -
        ((strs.drop lo).flatMap CString.bytes).length) := by
      apply BitVec.eq_of_toNat_eq
      have hlt := s.esp.isLt
      rw [hemu lo (le_refl lo) (by omega), Loader.toNat_esp_push h, List.length_append,
        BitVec.toNat_ofNat]
      omega
    rw [List.range'_succ, List.map_cons, hhead, ih htail (fun j h1 h2 => hemu j (by omega) h2)
      (by omega), hcons]
    rfl

end Pointers

/-- The bytes of everything that is pushed, and at most three of padding. -/
def stackSize (host : LoaderHost) (argv envp : List CString) : ℕ :=
  (envp.flatMap CString.bytes).length + ((argv.drop 2).flatMap CString.bytes).length +
    4 * (argv.length + envp.length + 2 * host.auxv.length + 7) + 3

/-- There is room below `esp`, and the table of getters has the types of the host. -/
structure Fits (host : LoaderHost) (argv envp : List CString) (s : Loader) : Prop where
  room : stackSize host argv envp ≤ s.esp.toNat
  types : ∀ e ∈ host.auxv, e.aType.toNat < 53

section Run

variable {host : LoaderHost} {argv envp : List CString} {s : Loader}

/-- The run pushes the words, and the padding and the strings above them. -/
theorem loadStack_run (h2 : 2 ≤ argv.length) (h : Fits host argv envp s) :
    ∃ (s' : Loader) (mid : List (BitVec 8)), s'.machine = s.machine ∧ s'.execfn = s.execfn ∧
      mid.length = 12 + (s.esp.toNat - (12 + (((argv.drop 2).flatMap CString.bytes).length +
        (envp.flatMap CString.bytes).length))) % 4 ∧ ∀ argvEmu envpEmu argc,
      (loadStack host argvEmu envpEmu argc argv envp).run s = .ok ((), s'.push (
        ((argc - 1) :: (argvEmu 1 :: (pointers (s.esp.toNat - (envp.flatMap CString.bytes).length)
            (argv.drop 2)).map Prod.fst) ++ 0 :: (pointers s.esp.toNat envp).map Prod.fst ++ [0] ++
          auxWords (auxPairs s' host.auxv).reverse ++ [0, 0]).flatMap (leBytes 4) ++
        (mid ++ ((argv.drop 2).flatMap CString.bytes ++ envp.flatMap CString.bytes)))) := by
  have hroom := h.room
  unfold stackSize at hroom
  generalize hE : envp.flatMap CString.bytes = env at hroom ⊢
  generalize hA : (argv.drop 2).flatMap CString.bytes = arg at hroom ⊢
  obtain ⟨pad, hpad, haux⟩ := @pushAux_run s (arg ++ env) host (by
    rw [List.length_append]
    omega)
  have hlen : (pad ++ (auxBytes host ++ (arg ++ env))).length ≤ 15 + (arg.length + env.length) := by
    rw [List.length_append, List.length_append, List.length_append, length_auxBytes]
    omega
  refine ⟨s.withAux host (arg ++ env), pad ++ auxBytes host, rfl, rfl, ?_,
    fun argvEmu envpEmu argc => ?_⟩
  · rw [List.length_append, length_auxBytes, hpad, List.length_append, Nat.add_comm]
  obtain ⟨envpEmu', u, henv, hu⟩ := @pushEnvp_run s [] envp envpEmu (by
    rw [List.append_nil, hE]
    omega)
  obtain ⟨argvEmu', v, harg, hv⟩ := @pushArgv_run s env argv argvEmu h2 (by
    rw [hA, List.length_append]
    omega)
  have hargs : (List.range' 1 (argv.length - 1)).map argvEmu' = argvEmu 1 ::
      (pointers (s.esp.toNat - env.length) (argv.drop 2)).map Prod.fst := by
    rw [show argv.length - 1 = argv.length - 2 + 1 by omega, List.range'_succ, List.map_cons,
      hv.below 1 (by omega), map_emu_eq (by rw [hA, List.length_append]; omega) hv.above]
  have henvs : (List.range' 0 envp.length).map envpEmu' =
      (pointers s.esp.toNat envp).map Prod.fst :=
    @map_emu_eq s [] envp envpEmu' 0 (by
      rw [List.drop_zero, List.append_nil, hE]
      omega) hu.above
  have hvectors := @pushVectors_run (s.withAux host (arg ++ env))
    (pad ++ (auxBytes host ++ (arg ++ env))) host.auxv argv.length envp.length argvEmu' envpEmu'
    argc (by omega) h.types (le_trans (by omega) hroom)
  rw [Loader.push_nil, hu.state, List.append_nil, List.drop_zero, hE] at henv
  rw [hv.state, hA] at harg
  unfold loadStack
  rw [run_bind_ok henv, run_bind_ok harg, haux, hvectors, hargs, henvs]
  simp

end Run

section Placement

variable {host : LoaderHost} {argv envp : List CString} {s : Loader}

theorem words_of_bytesAt {t : Machine} {a : BitVec 32} {ws : List (BitVec 32)}
    (h : BytesAt t.mem a.toNat (ws.flatMap (leBytes 4)))
    (hroom : a.toNat + 4 * ws.length ≤ 2 ^ 32) : t.Words a ws := by
  intro k hk
  have haddr : (a + BitVec.ofNat 32 (4 * k)).toNat = a.toNat + 4 * k := by
    rw [BitVec.toNat_add, BitVec.toNat_ofNat]
    omega
  rw [Machine.read32_eq _ _ (by omega), haddr]
  exact readLE_of_bytesAt_flatMap rfl h k hk

/-- Both lists of strings, one above the other below `top`, with the pointers to them. -/
def copies (top : ℕ) (args envs : List CString) : List (BitVec 32 × CString) :=
  pointers (top - (envs.flatMap CString.bytes).length) args ++ pointers top envs

theorem le_of_mem_copies {top : ℕ} {args envs : List CString} (htop : top < 2 ^ 32)
    (hlen : (args.flatMap CString.bytes).length + (envs.flatMap CString.bytes).length ≤ top)
    {c : BitVec 32 × CString} (hc : c ∈ copies top args envs) :
    top - ((args.flatMap CString.bytes).length + (envs.flatMap CString.bytes).length) ≤
      c.1.toNat := by
  rcases List.mem_append.1 hc with hc | hc
  · have hge := (mem_pointers (by omega) (by omega) hc).2.1
    omega
  · have hge := (mem_pointers htop (by omega) hc).2.1
    omega

theorem copies_pairwise {top : ℕ} {args envs : List CString} (htop : top < 2 ^ 32)
    (hlen : (args.flatMap CString.bytes).length + (envs.flatMap CString.bytes).length ≤ top) :
    (copies top args envs).Pairwise fun c d => c.1.toNat + c.2.bytes.length ≤ d.1.toNat := by
  refine List.pairwise_append.2 ⟨pointers_pairwise (by omega) (by omega),
    pointers_pairwise htop (by omega), fun c hc d hd => ?_⟩
  have hc' := (mem_pointers (by omega) (by omega) hc).2.2
  have hd' := (mem_pointers htop (by omega) hd).2.1
  omega

theorem bytesAt_of_mem_copies {m : ℕ → BitVec 8} {top : ℕ} {args envs : List CString}
    (htop : top < 2 ^ 32)
    (hlen : (args.flatMap CString.bytes).length + (envs.flatMap CString.bytes).length ≤ top)
    (h : BytesAt m (top - ((args.flatMap CString.bytes).length +
      (envs.flatMap CString.bytes).length))
      (args.flatMap CString.bytes ++ envs.flatMap CString.bytes))
    {c : BitVec 32 × CString} (hc : c ∈ copies top args envs) : BytesAt m c.1.toNat c.2.bytes := by
  obtain ⟨hlow, hhigh⟩ := bytesAt_append.1 h
  have hmid : top - ((args.flatMap CString.bytes).length + (envs.flatMap CString.bytes).length) +
      (args.flatMap CString.bytes).length = top - (envs.flatMap CString.bytes).length := by
    omega
  rcases List.mem_append.1 hc with hc | hc
  · rw [Nat.add_comm, ← Nat.sub_sub] at hlow
    exact bytesAt_of_mem_placed (by omega) hlow (mem_pointers (by omega) (by omega) hc).1
  · rw [hmid] at hhigh
    exact bytesAt_of_mem_placed (by omega) hhigh (mem_pointers htop (by omega) hc).1

theorem length_stackWords (argv envp : List (BitVec 32)) (aux : List (BitVec 32 × BitVec 32)) :
    (stackWords argv envp aux).length = argv.length + envp.length + 2 * aux.length + 5 := by
  unfold stackWords pointerWords
  simp only [List.length_append, List.length_cons, List.length_nil, length_auxWords]
  omega

/-- The words, and above them the strings they point to, pushed as one list. -/
theorem layout_push {u : Loader} {ptrs eptrs : List (BitVec 32)}
    {aux : List (BitVec 32 × BitVec 32)} {args envs : List CString} {mid : List (BitVec 8)}
    (h : 4 * (stackWords ptrs eptrs aux).length + (mid.length +
      ((args.flatMap CString.bytes).length + (envs.flatMap CString.bytes).length)) ≤ u.esp.toNat) :
    Layout ptrs eptrs aux (copies u.esp.toNat args envs)
      (u.push ((stackWords ptrs eptrs aux).flatMap (leBytes 4) ++
        (mid ++ (args.flatMap CString.bytes ++ envs.flatMap CString.bytes)))).machine := by
  have hlt := u.esp.isLt
  generalize himage : (stackWords ptrs eptrs aux).flatMap (leBytes 4) ++
    (mid ++ (args.flatMap CString.bytes ++ envs.flatMap CString.bytes)) = image
  have hlen : image.length = 4 * (stackWords ptrs eptrs aux).length + (mid.length +
      ((args.flatMap CString.bytes).length + (envs.flatMap CString.bytes).length)) := by
    rw [← himage, List.length_append, List.length_append, List.length_append,
      length_flatMap_leBytes]
  have hesp : ((u.push image).machine.reg .esp).toNat = u.esp.toNat - image.length :=
    Loader.toNat_esp_push (by omega)
  have hholds : BytesAt (u.push image).machine.mem (u.esp.toNat - image.length) image := by
    rw [Loader.mem_push (by omega)]
    exact bytesAt_putBytes _ _ _
  rw [hlen] at hholds
  rw [← himage, bytesAt_append, bytesAt_append, length_flatMap_leBytes] at hholds
  obtain ⟨hwords, -, hstrings⟩ := hholds
  have hpointers : (pointerWords ptrs eptrs).length ≤ (stackWords ptrs eptrs aux).length := by
    unfold stackWords
    rw [List.length_append, List.length_append]
    omega
  constructor
  · rw [himage, ← hlen, ← hesp] at hwords
    exact words_of_bytesAt hwords (by omega)
  · intro c hc
    refine bytesAt_of_mem_copies hlt (by omega) ?_ hc
    rw [himage] at hstrings
    convert hstrings using 1
    omega
  · exact (copies_pairwise hlt (by omega)).imp Or.inl
  · intro c hc
    have hge := le_of_mem_copies hlt (by omega) hc
    right
    omega

theorem mem_auxPairs {e : BitVec 32 × BitVec 32} : ∀ {auxv : List Elf64Auxv},
    (∀ e ∈ auxv, e.aType.toNat < 53) → e ∈ auxPairs s auxv → e.1 ≠ 0 ∧ (e.1 = 31 → e.2 = s.execfn)
  | entry :: rest, htypes, he => by
    have ih := @mem_auxPairs e rest fun x hx => htypes x (List.mem_cons_of_mem _ hx)
    have htype := htypes entry List.mem_cons_self
    unfold auxPairs at he
    split at he
    · cases he
    · split at he
      · exact ih he
      · rename_i h0 _
        rcases List.mem_cons.1 he with rfl | he
        · refine ⟨fun hzero => h0 (by bv_omega), fun h31 => ?_⟩
          have htype31 : entry.aType = 31 := by bv_omega
          change s.getters entry.aType entry.aVal = _
          rw [htype31]
          rfl
        · exact ih he

/-- Everything is as it should be but the first of the pointers in `argv`, which is what the array
held, and `AT_EXECFN`, which is what the variable held. -/
theorem loadStack_layout (h3 : 3 ≤ argv.length) (h : Fits host argv envp s) :
    ∃ args envs aux, args.map Prod.snd = argv.drop 2 ∧ envs.map Prod.snd = envp ∧
      (∀ c ∈ args ++ envs, c.1 ≠ 0) ∧ (∀ e ∈ aux, e.1 ≠ 0 ∧ (e.1 = 31 → e.2 = s.execfn)) ∧
      ∀ argvEmu envpEmu, ∃ t, (loadStack host argvEmu envpEmu (BitVec.ofNat 32 argv.length) argv
          envp).run s = .ok ((), t) ∧
        Layout (argvEmu 1 :: args.map Prod.fst) (envs.map Prod.fst) aux (args ++ envs)
          t.machine := by
  obtain ⟨s', mid, hmachine, hexecfn, hmid, hrun⟩ := loadStack_run (by omega) h
  have hroom := h.room
  have haux := @length_auxPairs s' host.auxv
  have hlt := s.esp.isLt
  have hesp : s'.esp = s.esp := congrArg (fun t => t.reg .esp) hmachine
  unfold stackSize at hroom
  have hstrings : ((argv.drop 2).flatMap CString.bytes).length +
      (envp.flatMap CString.bytes).length ≤ s.esp.toNat := by omega
  have hargsnd := pointers_map_snd (s.esp.toNat - (envp.flatMap CString.bytes).length) (argv.drop 2)
  have henvsnd := pointers_map_snd s.esp.toNat envp
  have hargslen := congrArg List.length hargsnd
  have henvslen := congrArg List.length henvsnd
  rw [List.length_map, List.length_drop] at hargslen
  rw [List.length_map] at henvslen
  refine ⟨_, _, (auxPairs s' host.auxv).reverse, hargsnd, henvsnd, fun c hc hzero => ?_,
    fun e he => ?_, fun argvEmu envpEmu => ⟨_, hrun argvEmu envpEmu _, ?_⟩⟩
  · have hge := le_of_mem_copies hlt hstrings hc
    have hnat : c.1.toNat = 0 := congrArg BitVec.toNat hzero
    omega
  · rw [← hexecfn]
    exact mem_auxPairs h.types (List.mem_reverse.1 he)
  · have hargc : BitVec.ofNat 32 argv.length - 1 = BitVec.ofNat 32 (argvEmu 1 ::
        (pointers (s.esp.toNat - (envp.flatMap CString.bytes).length) (argv.drop 2)).map
          Prod.fst).length := by
      rw [List.length_cons, List.length_map, hargslen]
      bv_omega
    rw [hargc, ← hesp]
    refine layout_push ?_
    rw [length_stackWords, List.length_cons, List.length_map, List.length_map, List.length_reverse,
      hesp, hargslen, henvslen]
    omega

end Placement

section Never

variable {host : LoaderHost} {argvEmu envpEmu : ℕ → BitVec 32} {argc : BitVec 32}
  {argv envp : List CString} {s t : Loader}

/-- The loop over the strings of `argv` leaves what the array held for `argv[1]`. -/
theorem pushArgv_one (h2 : 2 ≤ argv.length) {emu : ℕ → BitVec 32}
    (h : (pushArgv argv argvEmu).run s = .ok (emu, t)) : emu 1 = argvEmu 1 := by
  have hstep : ∀ i (emu : ℕ → BitVec 32) (u : Loader), 2 ≤ i →
      i + 1 ≤ argv.length ∧ emu 1 = argvEmu 1 →
      ∃ b v, (pushArg argv i emu).run u = .ok (b, v) ∧ i ≤ argv.length ∧ b 1 = argvEmu 1 := by
    rintro i emu u hi ⟨hlen, hone⟩
    exact ⟨_, _, pushArg_run hi (by omega) u, by omega,
      (Function.update_of_ne (by omega) ..).trans hone⟩
  obtain ⟨emu', t', hrun, -, hone⟩ := @countdown_spec Loader Fault _ 2 _
    (fun i emu _ => i ≤ argv.length ∧ emu 1 = argvEmu 1) hstep argv.length argvEmu s h2
    ⟨le_refl _, rfl⟩
  have hsame := h.symm.trans hrun
  cases hsame
  exact hone

/-- The last word but one that is pushed is that of `argv_emu[1]`. -/
theorem pushPointers_ends {n : ℕ} (hn : 1 < n) {emu : ℕ → BitVec 32} {x : BitVec 32} :
    ∀ s b t, (pushPointers 1 n emu >>= fun _ => pushWord x).run s = .ok (b, t) →
      t.machine.read32 (t.esp + 4) = emu 1 := by
  intro s b t hrun
  have hstep : ∀ i (_ : Unit) (u : Loader), 1 ≤ i →
      (i + 1 < n → u.machine.read32 u.esp = emu (i + 1)) →
      ∃ (b : Unit) (v : Loader), (pushWord (emu i)).run u = .ok (b, v) ∧
        (i < n → v.machine.read32 v.esp = emu i) :=
    fun i _ u _ _ => ⟨(), _, rfl, fun _ => u.machine.read32_push32 (emu i)⟩
  obtain ⟨a, u, hu, htop⟩ := @countdown_spec Loader Fault _ 1 _
    (fun i _ u => i < n → u.machine.read32 u.esp = emu i) hstep n () s hn.le
    fun h => absurd h (lt_irrefl n)
  have hpointers : (pushPointers 1 n emu).run s = .ok (a, u) := hu
  rw [run_bind_ok hpointers] at hrun
  cases hrun
  exact (u.machine.read32_push32_add x).trans (htop hn)

/-- Whatever else happens, the first of the pointers in `argv` is what the array held. -/
theorem loadStack_ends (h2 : 2 ≤ argv.length)
    (h : (loadStack host argvEmu envpEmu argc argv envp).run s = .ok ((), t)) :
    t.machine.read32 (t.esp + 4) = argvEmu 1 := by
  unfold loadStack at h
  obtain ⟨_, u, -, h⟩ := run_bind_inv h
  obtain ⟨emu, v, hargv, h⟩ := run_bind_inv h
  rw [← pushArgv_one h2 hargv]
  exact run_bind_ends (fun _ => run_bind_ends fun _ => run_bind_ends fun _ => run_bind_ends fun _ =>
    run_bind_ends fun _ => run_bind_ends fun _ => run_bind_ends fun _ => run_bind_ends fun _ =>
    run_bind_ends fun _ => run_bind_ends fun _ => run_bind_ends fun _ =>
    pushPointers_ends h2) v () t h

theorem loadStack_argc (h : (loadStack host argvEmu envpEmu argc argv envp).run s = .ok ((), t)) :
    t.machine.read32 t.esp = argc - 1 := by
  have hlast : ∀ s b t, (pushWord (argc - 1)).run s = .ok (b, t) →
      t.machine.read32 t.esp = argc - 1 := by
    rintro s b t hrun
    cases hrun
    exact s.machine.read32_push32 (argc - 1)
  unfold loadStack at h
  exact run_bind_ends (fun _ => run_bind_ends fun _ => run_bind_ends fun _ => run_bind_ends fun _ =>
    run_bind_ends fun _ => run_bind_ends fun _ => run_bind_ends fun _ => run_bind_ends fun _ =>
    run_bind_ends fun _ => run_bind_ends fun _ => run_bind_ends fun _ => run_bind_ends fun _ =>
    run_bind_ends fun _ => run_bind_ends fun _ => hlast) s () t h

/-- On no input: no word can be the one that is pushed for `argv[1]`, whatever the array held. -/
theorem not_initialStack (h3 : 3 ≤ argv.length) : ¬ InitialStack host argv envp s := by
  rintro ⟨args, envs, aux, hall⟩
  have hlen : 1 < (stackWords (args.map Prod.fst) (envs.map Prod.fst) aux).length := by
    rw [length_stackWords]
    omega
  have hword (x : BitVec 32) :
      (stackWords (args.map Prod.fst) (envs.map Prod.fst) aux)[1] = x := by
    obtain ⟨t, hrun, hstack⟩ := hall (fun _ => x) (fun _ => 0)
    exact (hstack.layout.words 1 hlen).symm.trans (loadStack_ends (by omega) hrun)
  have hzero := hword 0
  rw [hword 1] at hzero
  exact absurd hzero (by decide)

end Never

/-- `i386 -ne a` with no environment. -/
def shortArgv : List CString :=
  [⟨[0x69, 0x33, 0x38, 0x36], by decide⟩, ⟨[0x2D, 0x6E, 0x65], by decide⟩, ⟨[0x61], by decide⟩]

/-- A host with an `AT_EXECFN`. -/
def shortHost : LoaderHost := ⟨[⟨31, 0x7FFF1000⟩, ⟨0, 0⟩], fun _ => 0⟩

def startLoader : Loader := ⟨Machine.blank.setReg .esp stackBottom, 0, 0, 0, 0, 0, 0⟩

theorem not_initialStack_short : ¬ InitialStack shortHost shortArgv [] startLoader :=
  not_initialStack (by decide)

/-- With a zero in the array the two pointers that are counted begin with a zero. -/
theorem not_initialStack_zero : ¬ ∀ (host : LoaderHost) (argv envp : List CString) (s : Loader),
    3 ≤ argv.length → Fits host argv envp s → s.esp = stackBottom →
      InitialStack host argv envp s := by
  intro hall
  obtain ⟨args, envs, aux, hstack⟩ := hall shortHost shortArgv [] startLoader (by decide)
    ⟨by decide, by decide⟩ rfl
  obtain ⟨t, hrun, hstack⟩ := hstack (fun _ => 0) (fun _ => 0)
  have hcount := hstack.layout.words 0 (by rw [length_stackWords]; omega)
  have hfirst := hstack.layout.words 1 (by rw [length_stackWords]; omega)
  rcases args with _ | ⟨c, args⟩
  · have hargc := loadStack_argc hrun
    have hzero : t.esp + BitVec.ofNat 32 (4 * 0) = t.esp := BitVec.add_zero _
    change t.machine.read32 (t.esp + BitVec.ofNat 32 (4 * 0)) = 0 at hcount
    rw [hzero, hargc] at hcount
    exact absurd hcount (by decide)
  · have hc := loadStack_ends (by decide) hrun
    exact hstack.nonzero c (List.mem_append_left _ List.mem_cons_self) (hfirst.symm.trans hc)

end I386Vm
