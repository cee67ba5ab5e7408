import I386Vm.Proofs.ElfImage
import I386Vm.Proofs.LinuxCalls
import I386Vm.Sections

/-!
# From the file to the process

`blind_elf_main` puts the segments of the file in memory that is zero but for the descriptor table,
builds the stack and starts at the entry. From there it follows every process of supported and
faithful instructions and served calls that begins with this image and stays above the first 64 KiB:
the bound that it takes for the end of the program is the number of executable sections, which no
instruction reaches from there (`blindElf_follows`). `blind_raw_main` does the same with a file at
0, up to its size (`blindRaw_follows`).
-/

namespace I386Vm

open Bytes Prog

/-! ## The number of executable sections -/

namespace SectionHost

variable (host : SectionHost) (file : List (BitVec 8)) (table : Elf32Table)

theorem length_sheader_le (n : ℕ) : (host.sectionsTo file table n).sheader.length ≤ n := by
  induction n with
  | zero => exact le_rfl
  | succ n ih =>
    unfold sectionsTo Sections.add
    split_ifs
    · rw [List.length_append, List.length_singleton]
      exact Nat.succ_le_succ ih
    all_goals exact Nat.le_succ_of_le ih

theorem count_lt : (host.sections file).count.toNat < 2 ^ 16 := by
  have hle := host.length_sheader_le file (host.readTable file) (host.readTable file).eShnum.toNat
  have hnum := (host.readTable file).eShnum.isLt
  unfold Sections.count sections
  rw [BitVec.toNat_ofNat, Nat.mod_eq_of_lt (by omega)]
  omega

end SectionHost

/-! ## The image -/

/-- The byte at `a` belongs to what the file has of segment `i`. -/
def InData (file : List (BitVec 8)) (i a : ℕ) : Prop :=
  (filePhdr file i).pVaddr.toNat ≤ a ∧
    a < (filePhdr file i).pVaddr.toNat + (filePhdr file i).pFilesz.toNat

/-- The process starts at the entry, with the data of the segments, and with zeros but for them, for
`n` bytes of stack and for the descriptor table. -/
structure ProcessImage (file : List (BitVec 8)) (n : ℕ) (c : Cpu) : Prop where
  entry : c.eip = (fileEhdr file).eEntry
  data : ∀ i, IsLoad file i → ∀ k < (filePhdr file i).pFilesz.toNat,
    file[(filePhdr file i).pOffset.toNat + k]? =
      some (c.mem (BitVec.ofNat 32 ((filePhdr file i).pVaddr.toNat + k)))
  zeros : ∀ a : BitVec 32, a.toNat < memSize → ¬ InStack n a.toNat → ¬ InGdt a.toNat →
    (∀ i, IsLoad file i → ¬ InData file i a.toNat) → c.mem a = 0

section Image

variable {file : List (BitVec 8)} {stack : ℕ → Prop} {m : ℕ → BitVec 8}

/-- What is not data stays. -/
theorem fileMem_of_not_data (helf : IsElf32 file) (hseg : SegmentsApart file stack) {a : ℕ}
    (h : ∀ i, IsLoad file i → ¬ InData file i a) : fileMem file m a = m a := by
  by_cases hin : ∃ i, IsLoad file i ∧ InSegment file i a
  · obtain ⟨i, hi, ha⟩ := hin
    obtain ⟨k, rfl⟩ := Nat.exists_eq_add_of_le ha.1
    refine fileMem_tail helf hseg hi ?_ ha
    by_contra hk
    exact h i hi ⟨ha.1, by omega⟩
  · exact fileMem_of_outside helf hseg fun i hi ha => hin ⟨i, hi, ha⟩

theorem processImage_of_mem {t : Machine} {n : ℕ} (helf : IsElf32 file)
    (hseg : SegmentsApart file (InStack n)) (hzero : ∀ a < memSize, ¬ InGdt a → m a = 0)
    (heip : t.eip = (fileEhdr file).eEntry)
    (hmem : ∀ a < memSize, ¬ InStack n a → t.mem a = fileMem file m a) :
    ProcessImage file n t.abs where
  entry := heip
  data i hi k hk := by
    have hsize := helf.sizes i hi
    have hin : InSegment file i ((filePhdr file i).pVaddr.toNat + k) :=
      ⟨Nat.le_add_right _ _, by omega⟩
    have hlt : (filePhdr file i).pVaddr.toNat + k < memSize :=
      lt_of_lt_of_le hin.2 (hseg.inside i hi)
    have hnat : (BitVec.ofNat 32 ((filePhdr file i).pVaddr.toNat + k)).toNat =
        (filePhdr file i).pVaddr.toNat + k := by
      rw [BitVec.toNat_ofNat, Nat.mod_eq_of_lt (by unfold memSize at hlt; omega)]
    change _ = some (t.mem _)
    rw [hnat, hmem _ hlt (hseg.stack i hi _ hin)]
    exact fileMem_data helf hseg hi hk
  zeros a ha hstack hgdt hno :=
    (hmem _ ha hstack).trans ((fileMem_of_not_data helf hseg hno).trans (hzero _ ha hgdt))

end Image

/-! ## `blind_elf_main` -/

/-- The program file can be read, its program headers lie one right behind the other, and its image,
the strings and the vectors have room. -/
structure Loadable (host : SectionHost) (file : List (BitVec 8)) (argv envp : List CString) :
    Prop where
  log : host.log = true
  opens : host.elfFile = some file
  elf : IsElf32 file
  packed : Packed file
  apart : SegmentsApart file (InStack (stackSize host.toLoaderHost argv envp))
  argc : 3 ≤ argv.length
  room : stackSize host.toLoaderHost argv envp ≤ stackBottom.toNat
  types : ∀ e ∈ host.auxv, e.aType.toNat < 53

theorem onMachine_run {α : Type} {x : Exec α} {s : Loader} {a : α} {m : Machine}
    (h : x.run s.machine = .ok (a, m)) :
    (onMachine x).run s = .ok (a, { s with machine := m }) := by
  change onMachine x s = _
  unfold onMachine
  rw [h]

section Start

variable {host : SectionHost} {file : List (BitVec 8)} {argv envp : List CString}

/-- The loop is reached with the image of the file, and with the stack as `loadStack_layout` has
it. -/
theorem blindElfStart_run (h : Loadable host file argv envp) (s : Loader) :
    ∃ t args envs aux, (blindElfStart host (BitVec.ofNat 32 argv.length) argv envp).run s =
        .ok (some (host.sections file).count, t) ∧
      ProcessImage file (stackSize host.toLoaderHost argv envp) t.machine.abs ∧
      args.map Prod.snd = argv.drop 2 ∧ envs.map Prod.snd = envp ∧
      Layout (host.argvEmu 1 :: args.map Prod.fst) (envs.map Prod.fst) aux (args ++ envs)
        t.machine := by
  obtain ⟨m, hinit, hesp, hzero⟩ := initializeMachine_run s.machine
  have hvalid : (host.readEhdr file).Valid := by
    rw [readEhdr_eq h.elf]
    exact h.elf.valid
  let u : Loader := { s with machine := m }
  have hu : u.esp = stackBottom := hesp
  have hesp' : (u.withImage host.toElfHost file).esp = stackBottom :=
    (withImage_esp u _ _).trans hu
  obtain ⟨args, envs, aux, hargs, henvs, -, -, hrun⟩ := loadStack_layout h.argc
    (⟨by rw [hesp']; exact h.room, h.types⟩ :
      Fits host.toLoaderHost argv envp (u.withImage host.toElfHost file))
  obtain ⟨t, hstack, hlayout⟩ := hrun host.argvEmu host.envpEmu
  have hread : (readElfFile host.toElfHost (BitVec.ofNat 32 argv.length) argv envp).run u =
      .ok (0, t) := (readElfFile_run h.log h.opens hvalid).trans (run_bind_ok hstack)
  have hargv : 1 ≤ argv.length := le_trans (by decide) h.argc
  obtain ⟨heip, hmem⟩ := readElfFile_mem h.opens h.elf hargv hu hread
  rw [imageMem_eq h.elf h.packed] at hmem
  refine ⟨t, args, envs, aux, ?_, processImage_of_mem h.elf h.apart hzero heip hmem, hargs, henvs,
    hlayout⟩
  unfold blindElfStart
  rw [run_bind_ok (onMachine_run hinit), if_neg (by decide), run_bind_ok hread,
    if_neg (not_not.2 rfl), h.opens]
  rfl

end Start

/-! ## Processes above the first 64 KiB -/

/-- A step of a process above the first 64 KiB, where `limit` is the end of memory. -/
def UserStep {σ : Type} (code : Code) (os : Os σ) (N : Calls σ) (p : Tracked × σ)
    (e : Option SysCall) (o : Option (Tracked × σ)) : Prop :=
  2 ^ 16 ≤ p.1.cpu.eip.toNat ∧ ProcessStep code os N 0 p e o

section User

variable {σ : Type} {code : Code} {os : Os σ} {N : Calls σ} {limit : BitVec 32} {x : Tracked}

theorem inside_of_above {a n : BitVec 32} (ha : 2 ^ 16 ≤ a.toNat) (hlimit : limit.toNat < 2 ^ 16)
    (h : n.toNat ≤ (0 - a).toNat) : n.toNat ≤ (limit - a).toNat := by
  bv_omega

/-- A small bound is none. -/
theorem UserStep.process {p : Tracked × σ} {e : Option SysCall} {o : Option (Tracked × σ)}
    (hlimit : limit.toNat < 2 ^ 16) (h : UserStep code os N p e o) :
    ProcessStep code os N limit p e o := by
  obtain ⟨ha, hstep⟩ := h
  have hcall {y : Tracked} (hy : 2 ^ 16 ≤ y.cpu.eip.toNat) (hc : y.AtCall 0) : y.AtCall limit :=
    ⟨hc.byte0, hc.byte1, @inside_of_above limit _ 2 hy hlimit hc.inside, hc.below⟩
  cases hstep with
  | exec ready faithful =>
    exact .exec ⟨ready.fetched, inside_of_above ha hlimit ready.inside, ready.below,
      ready.supported, ready.fits, ready.known⟩ faithful
  | call at_call followed answer goes => exact .call (hcall ha at_call) followed answer goes
  | exit at_call followed answer => exact .exit (hcall ha at_call) followed answer

end User

theorem shown_self (s : Machine) : (⟨s.abs, fun _ => True⟩ : Tracked).Shown s :=
  ⟨⟨rfl, rfl, rfl⟩, fun _ _ => rfl⟩

section Main

variable {σ : Type} {linux : Linux σ} {kernels : σ → Kernel} {next : σ → Machine → σ}
  {disasm : Disasm} {code : Code} {host : SectionHost} {file : List (BitVec 8)}
  {argv envp : List CString}

/-- `blind_elf_main` comes to its loop with the image of the file and the stack, and from there it
follows every process above the first 64 KiB that starts so: it makes the same system calls of the
kernel as the process does of Linux, with the same answers. -/
theorem blindElf_follows (hdis : Reads disasm code) (hcalls : ReadsCalls disasm)
    (hk : RunsLinux linux kernels next) (ports : Host) (h : Loadable host file argv envp)
    (s : Loader) (w : σ) : ∃ t limit args envs aux,
    (blindElfStart host (BitVec.ofNat 32 argv.length) argv envp).run s = .ok (some limit, t) ∧
      ProcessImage file (stackSize host.toLoaderHost argv envp) t.machine.abs ∧
      args.map Prod.snd = argv.drop 2 ∧ envs.map Prod.snd = envp ∧
      Layout (host.argvEmu 1 :: args.map Prod.fst) (envs.map Prod.fst) aux (args ++ envs)
        t.machine ∧
      Followed (UserStep code linux.os linux.served) (linuxWorld ports kernels next) disasm limit
        (⟨t.machine.abs, fun _ => True⟩, w) (t.machine, w) := by
  obtain ⟨t, args, envs, aux, hrun, himage, hargs, henvs, hlayout⟩ := blindElfStart_run h s
  refine ⟨t, _, args, envs, aux, hrun, himage, hargs, henvs, hlayout, fun es o htrace => ?_⟩
  exact process_followed hdis hcalls (serves_linux ports hk) (shown_self t.machine) es o
    (htrace.mono fun _ _ _ hstep => hstep.process (host.count_lt file))

end Main

section Little

variable {limit : BitVec 32} {x : Tracked} {w : ℕ} {reg : Gpr → BitVec 32}
  {mem : BitVec 32 → BitVec 8}

theorem little_pid (h : reg .eax = 20) : Linux.little.served w reg mem ∧
    Linux.little.os w reg mem = some ⟨42, mem, w + 1⟩ := by
  have hn : 20 = (reg .eax).toNat := by rw [h]; rfl
  exact ⟨.inr ⟨⟨20, .sysGetpid, []⟩, by simp [Linux.abi], hn, nofun, nofun⟩,
    Linux.os_call (c := ⟨20, .sysGetpid, []⟩) (by simp [Linux.abi]) hn⟩

theorem askPid_little (hl : Loaded askPid x.cpu.eip limit x.cpu) : ∃ es,
    Trace (fun p e o => x.cpu.eip.toNat ≤ p.1.cpu.eip.toNat ∧
      ProcessStep shortCode Linux.little.os Linux.little.served limit p e o) (x, w) es none ∧
      es.map (fun e => (e.reg .eax, e.answer)) = [(20, some 42), (1, none)] :=
  askPid_runs hl (fun _ => little_pid) fun _ h => ⟨.inl h, if_pos h⟩

end Little

/-- One segment, of `askPid`, where programs usually are. -/
def askElf : List (BitVec 8) :=
  [0x7F, 0x45, 0x4C, 0x46, 1, 1, 1, 0, 0, 0, 0, 0, 0, 0, 0, 0, 2, 0, 3, 0, 1, 0, 0, 0] ++
    leBytes 4 (0x08048000 : BitVec 32) ++
    [52, 0, 0, 0, 0, 0, 0, 0, 0, 0, 0, 0, 52, 0, 32, 0, 1, 0, 40, 0, 0, 0, 0, 0] ++
    [1, 0, 0, 0, 84, 0, 0, 0] ++ leBytes 4 (0x08048000 : BitVec 32) ++
    leBytes 4 (0x08048000 : BitVec 32) ++ [16, 0, 0, 0, 16, 0, 0, 0, 5, 0, 0, 0, 0, 16, 0, 0] ++
    askPid

/-- There are no sections. -/
def askHost : SectionHost where
  toElfHost := { smallHost 0 with elfFile := some askElf }
  shdr _ _ := 0xFF
  sym _ _ := 0xFF
  tabs := (.ofBytes fun _ => 0xFF, .ofBytes fun _ => 0xFF)
  progbits := (0, 0)

theorem isLoad_askElf {i : ℕ} (h : IsLoad askElf i) : i = 0 := by
  have hnum : (fileEhdr askElf).ePhnum.toNat = 1 := by decide
  have hi := h.1
  omega

theorem loadable_askElf : Loadable askHost askElf shortArgv [platform] where
  log := rfl
  opens := rfl
  elf :=
    { header := by decide
      valid := by decide
      table := by decide
      sizes := fun i hi => by
        rw [isLoad_askElf hi]
        decide }
  packed := by decide
  apart := by
    refine segmentsApart_one (fun _ => isLoad_askElf) (by decide) (by decide) fun a ha => ?_
    have hsize : stackSize askHost.toLoaderHost shortArgv [platform] = 69 := by decide
    have hbottom : stackBottom.toNat = 0xFFF00000 := rfl
    unfold gdtAddr at ha
    rw [hsize, inStack_iff (by omega) (by omega)]
    omega
  argc := by decide
  room := by decide
  types := by decide

theorem loaded_askElf {n : ℕ} {c : Cpu} (h : ProcessImage askElf n c) :
    Loaded askPid c.eip 0 c := by
  have hentry : c.eip = 0x08048000 := h.entry
  have hfile : ∀ k < 16, askElf[84 + k]? = askPid[k]? := by decide
  refine ⟨fun k hk => ?_, by rw [hentry]; decide, by rw [hentry]; decide⟩
  have haddr : c.eip + BitVec.ofNat 32 k = BitVec.ofNat 32 (0x08048000 + k) := by
    rw [hentry, BitVec.ofNat_add]
    rfl
  rw [← hfile k hk]
  unfold Cpu.bytesAt
  rw [haddr]
  exact (h.data 0 (by decide) k hk).symm

/-- The program asks for its number and ends, and the loop makes the same two calls. -/
theorem blindElf_follows_askPid : ∃ t limit es ds o',
    (blindElfStart askHost 3 shortArgv [platform]).run startLoader = .ok (some limit, t) ∧
      Trace (UserStep shortCode Linux.little.os Linux.little.served)
        (⟨t.machine.abs, fun _ => True⟩, 0) es none ∧
      es.map (fun e => (e.reg .eax, e.answer)) = [(20, some 42), (1, none)] ∧
      Trace (WorldStep (linuxWorld .silent (fun _ => .little) fun w _ => w + 1) shortDisasm limit)
        (t.machine, 0) ds o' ∧
      ds.filterMap Decision.sysCall = es ∧ Option.Rel InStep (none : Option (Tracked × ℕ)) o' := by
  obtain ⟨t, limit, -, -, -, hrun, himage, -, -, -, hfollowed⟩ := blindElf_follows
    shortDisasm_reads shortDisasm_readsCalls runsLinux_little .silent loadable_askElf startLoader 0
  have hentry : t.machine.abs.eip = 0x08048000 := himage.entry
  obtain ⟨es, hes, hcalls⟩ := @askPid_little 0 ⟨t.machine.abs, fun _ => True⟩ 0
    (loaded_askElf himage)
  have huser : Trace (UserStep shortCode Linux.little.os Linux.little.served)
      (⟨t.machine.abs, fun _ => True⟩, 0) es none :=
    hes.mono fun _ _ _ h => ⟨le_trans (by rw [hentry]; decide) h.1, h.2⟩
  obtain ⟨ds, o', hds, hsame, ho⟩ := hfollowed es none huser
  exact ⟨t, limit, es, ds, o', hrun, huser, hcalls, hds, hsame, ho⟩

/-! ## `blind_raw_main` -/

/-- The process starts at 0, where the file is, with zeros but for it and the descriptor table. -/
structure RawImage (file : List (BitVec 8)) (c : Cpu) : Prop where
  entry : c.eip = 0
  stack : c.reg .esp = stackBottom
  data : ∀ k (h : k < file.length), c.mem (BitVec.ofNat 32 k) = file[k]
  zeros : ∀ a : BitVec 32, a.toNat < memSize → file.length ≤ a.toNat → ¬ InGdt a.toNat →
    c.mem a = 0

section Raw

variable {file : List (BitVec 8)}

theorem blindRawStart_run (hsize : file.length ≤ memSize) (s : Loader) : ∃ t,
    (blindRawStart true (some file)).run s = .ok (some (BitVec.ofNat 32 file.length), t) ∧
      RawImage file t.machine.abs := by
  obtain ⟨m, hinit, hesp, hzero⟩ := initializeMachine_run s.machine
  refine ⟨{ s with machine := { m with mem := putBytes m.mem 0 file, eip := 0 } }, ?_, rfl, hesp,
    fun k hk => ?_, fun a ha hlen hgdt => ?_⟩
  · unfold blindRawStart
    rw [run_bind_ok (onMachine_run hinit), if_neg (by decide)]
    rfl
  · have hk' : (BitVec.ofNat 32 k).toNat = k := by
      rw [BitVec.toNat_ofNat, Nat.mod_eq_of_lt (by unfold memSize at hsize; omega)]
    change putBytes m.mem 0 file (BitVec.ofNat 32 k).toNat = _
    have hput := @putBytes_add m.mem 0 file k hk
    rw [hk', ← hput, Nat.zero_add]
  · refine Eq.trans ?_ (hzero _ ha hgdt)
    exact putBytes_of_not_mem (by omega)

/-- `blind_raw_main` comes to its loop with the file at 0, and from there it follows every process
that starts so and stays inside the file. -/
theorem blindRaw_follows {σ : Type} {linux : Linux σ} {kernels : σ → Kernel}
    {next : σ → Machine → σ} {disasm : Disasm} {code : Code} (hdis : Reads disasm code)
    (hcalls : ReadsCalls disasm) (hk : RunsLinux linux kernels next) (ports : Host)
    (hsize : file.length ≤ memSize) (s : Loader) (w : σ) : ∃ t limit,
    (blindRawStart true (some file)).run s = .ok (some limit, t) ∧
      limit.toNat = file.length ∧ RawImage file t.machine.abs ∧
      Followed (ProcessStep code linux.os linux.served limit) (linuxWorld ports kernels next)
        disasm limit (⟨t.machine.abs, fun _ => True⟩, w) (t.machine, w) := by
  obtain ⟨t, hrun, himage⟩ := blindRawStart_run hsize s
  have hlimit : (BitVec.ofNat 32 file.length).toNat = file.length := by
    rw [BitVec.toNat_ofNat, Nat.mod_eq_of_lt (by unfold memSize at hsize; omega)]
  exact ⟨t, _, hrun, hlimit, himage,
    process_followed hdis hcalls (serves_linux ports hk) (shown_self t.machine)⟩

end Raw

/-- The same program as a file of its own. -/
theorem blindRaw_follows_askPid : ∃ t limit es ds o',
    (blindRawStart true (some askPid)).run startLoader = .ok (some limit, t) ∧
      Trace (ProcessStep shortCode Linux.little.os Linux.little.served limit)
        (⟨t.machine.abs, fun _ => True⟩, 0) es none ∧
      es.map (fun e => (e.reg .eax, e.answer)) = [(20, some 42), (1, none)] ∧
      Trace (WorldStep (linuxWorld .silent (fun _ => .little) fun w _ => w + 1) shortDisasm limit)
        (t.machine, 0) ds o' ∧
      ds.filterMap Decision.sysCall = es ∧ Option.Rel InStep (none : Option (Tracked × ℕ)) o' := by
  obtain ⟨t, limit, hrun, hlimit, himage, hfollowed⟩ := blindRaw_follows shortDisasm_reads
    shortDisasm_readsCalls runsLinux_little .silent (by decide : askPid.length ≤ memSize)
    startLoader 0
  have hentry : t.machine.abs.eip = 0 := himage.entry
  have hloaded : Loaded askPid t.machine.abs.eip limit t.machine.abs := by
    rw [hentry]
    refine ⟨fun k hk => ?_, by decide, ?_⟩
    · have haddr : 0 + BitVec.ofNat 32 k = BitVec.ofNat 32 k := BitVec.zero_add _
      unfold Cpu.bytesAt
      rw [haddr, himage.data k hk, List.getElem?_eq_getElem hk]
    · have hsub : limit - 0 = limit := BitVec.sub_zero _
      rw [hsub, hlimit]
  obtain ⟨es, hes, hcalls⟩ := @askPid_little limit ⟨t.machine.abs, fun _ => True⟩ 0 hloaded
  have hsteps := hes.mono fun _ _ _ h => h.2
  obtain ⟨ds, o', hds, hsame, ho⟩ := hfollowed es none hsteps
  exact ⟨t, limit, es, ds, o', hrun, hsteps, hcalls, hds, hsame, ho⟩

end I386Vm
