import I386Vm.Proofs.ElfImage

/-!
# Files that are loaded as they should be

Two things can come between a file and its image. The loop takes the program headers
`sizeof(Elf32_Phdr)` apart, whatever `e_phentsize` says, and `load_stack` never looks at
`STACK_TOP`, so a long environment goes on below the stack area. Without these the image is what
the file says (`readElfFile_image_iff`).
-/

namespace I386Vm

open Bytes Prog

/-- The bytes from `STACK_TOP` up to `STACK_BOTTOM`. -/
def InStackArea (a : ℕ) : Prop := stackTop.toNat ≤ a ∧ a < stackBottom.toNat

theorem stackTop_add : stackTop.toNat + 0x22000 = stackBottom.toNat := rfl

/-- The memory holds the image of the file, with the rest below the stack area as `s` has it, and
`eip` is the entry. -/
structure ElfImage (file : List (BitVec 8)) (s t : Machine) : Prop where
  data : ∀ i, IsLoad file i → ∀ k < (filePhdr file i).pFilesz.toNat,
    file[(filePhdr file i).pOffset.toNat + k]? = some (t.mem ((filePhdr file i).pVaddr.toNat + k))
  zeros : ∀ i, IsLoad file i → ∀ k, (filePhdr file i).pFilesz.toNat ≤ k →
    k < (filePhdr file i).pMemsz.toNat → t.mem ((filePhdr file i).pVaddr.toNat + k) = 0
  others : ∀ a < stackTop.toNat, (∀ i, IsLoad file i → ¬ InSegment file i a) → t.mem a = s.mem a
  entry : t.eip = (fileEhdr file).eEntry

/-- Whatever the two arrays hold at first, a run that returns 0 leaves the image. -/
def LoadsImage (host : ElfHost) (file : List (BitVec 8)) (argc : BitVec 32)
    (argv envp : List CString) (s : Loader) : Prop :=
  ∀ argvEmu envpEmu t, (readElfFile { host with argvEmu := argvEmu, envpEmu := envpEmu } argc argv
    envp).run s = .ok (0, t) → ElfImage file s.machine t.machine

/-- The byte at `a` is one that the image is about. -/
def InImage (file : List (BitVec 8)) (a : ℕ) : Prop :=
  a < stackTop.toNat ∨ ∃ i, IsLoad file i ∧ InSegment file i a

/-- For every byte of the image that the stack does not cover, the last entry with data for it, or
what `m` has there, gives the same whether the entries are `sizeof(Elf32_Phdr)` apart or
`e_phentsize`. -/
def SameSegments (host : ElfHost) (file : List (BitVec 8)) (n : ℕ) (m : ℕ → BitVec 8) : Prop :=
  ∀ a, InImage file a → ¬ InStack n a →
    (lastByte (host.segments file (fileEhdr file) (fileEhdr file).ePhnum.toNat) a).getD (m a) =
      (lastByte (fileSegments file) a).getD (m a)

/-- The stack ends in its area, or one word below it where `argc - 1` is what should be there, and
the entries are found. -/
structure ImageFits (host : ElfHost) (file : List (BitVec 8)) (argc : BitVec 32)
    (argv envp : List CString) (m : ℕ → BitVec 8) : Prop where
  stack : stackUsed host.toLoaderHost argv envp ≤ 0x22000 ∨
    stackUsed host.toLoaderHost argv envp = 0x22004 ∧
      readLE (fileMem file m) (stackTop.toNat - 4) 4 = argc - 1
  headers : Packed file ∨ SameSegments host file (stackUsed host.toLoaderHost argv envp) m

section Image

variable {host : ElfHost} {file : List (BitVec 8)} {argc : BitVec 32} {argv envp : List CString}
  {s t : Loader} {m : ℕ → BitVec 8}

theorem sameSegments_iff (helf : IsElf32 file) {n : ℕ} : SameSegments host file n m ↔
    ∀ a, InImage file a → ¬ InStack n a → imageMem host file m a = fileMem file m a := by
  unfold SameSegments imageMem fileMem
  simp only [readEhdr_eq helf, putAll_eq_getD]

theorem InImage.lt {a : ℕ} (hseg : SegmentsApart file InStackArea) (h : InImage file a) :
    a < memSize := by
  rcases h with h | ⟨i, hi, ha⟩
  · exact h.trans (by decide)
  · exact lt_of_lt_of_le ha.2 (hseg.inside i hi)

theorem InImage.not_area {a : ℕ} (hseg : SegmentsApart file InStackArea) (h : InImage file a) :
    ¬ InStackArea a := by
  rcases h with h | ⟨i, hi, ha⟩
  · exact fun harea => Nat.not_lt.2 harea.1 h
  · exact hseg.stack i hi a ha

/-- The image is one memory, where the bytes that `initialize` zeroes are zero. -/
theorem elfImage_iff {s t : Machine} (helf : IsElf32 file) (hseg : SegmentsApart file InStackArea)
    (hzero : ∀ a < memSize, ¬ InGdt a → s.mem a = 0) : ElfImage file s t ↔
      t.eip = (fileEhdr file).eEntry ∧ ∀ a, InImage file a → t.mem a = fileMem file s.mem a := by
  have htail {i k : ℕ} (hi : IsLoad file i) (hk : (filePhdr file i).pFilesz.toNat ≤ k)
      (hin : InSegment file i ((filePhdr file i).pVaddr.toNat + k)) :
      fileMem file s.mem ((filePhdr file i).pVaddr.toNat + k) = 0 := by
    rw [fileMem_tail helf hseg hi hk hin]
    exact hzero _ (lt_of_lt_of_le hin.2 (hseg.inside i hi)) (hseg.gdt i hi _ hin)
  constructor
  · intro h
    refine ⟨h.entry, fun a ha => ?_⟩
    by_cases hno : ∃ i, IsLoad file i ∧ InSegment file i a
    · obtain ⟨i, hi, hin⟩ := hno
      obtain ⟨k, rfl⟩ := Nat.exists_eq_add_of_le hin.1
      rcases Nat.lt_or_ge k (filePhdr file i).pFilesz.toNat with hk | hk
      · exact Option.some.inj ((h.data i hi k hk).symm.trans (fileMem_data helf hseg hi hk))
      · rw [htail hi hk hin]
        exact h.zeros i hi k hk (Nat.lt_of_add_lt_add_left hin.2)
    · have hout : ∀ i, IsLoad file i → ¬ InSegment file i a := fun i hi hin => hno ⟨i, hi, hin⟩
      rw [fileMem_of_outside helf hseg hout]
      exact h.others a (ha.resolve_right hno) hout
  · rintro ⟨hentry, hmem⟩
    refine ⟨fun i hi k hk => ?_, fun i hi k hk hlt => ?_, fun a ha hno => ?_, hentry⟩
    · have hsize := helf.sizes i hi
      rw [hmem _ (.inr ⟨i, hi, Nat.le_add_right _ _, by omega⟩)]
      exact fileMem_data helf hseg hi hk
    · have hin : InSegment file i ((filePhdr file i).pVaddr.toNat + k) :=
        ⟨Nat.le_add_right _ _, Nat.add_lt_add_left hlt _⟩
      rw [hmem _ (.inr ⟨i, hi, hin⟩), htail hi hk hin]
    · rw [hmem a (.inl ha), fileMem_of_outside helf hseg hno]

/-- What a run that returns 0 leaves, as long as the stack does not get to 0. -/
theorem readElfFile_pushes (hfile : host.elfFile = some file) (helf : IsElf32 file)
    (hargv : 2 ≤ argv.length) (hesp : s.esp = stackBottom)
    (hroom : stackUsed host.toLoaderHost argv envp < stackBottom.toNat)
    (hrun : (readElfFile host argc argv envp).run s = .ok (0, t)) :
    t.machine.eip = (fileEhdr file).eEntry ∧
      t.esp.toNat = stackBottom.toNat - stackUsed host.toLoaderHost argv envp ∧
      ∀ a < 2 ^ 32, ¬ InStack (stackUsed host.toLoaderHost argv envp) a →
        t.machine.mem a = imageMem host file s.machine.mem a := by
  obtain ⟨hstack, heip⟩ := readElfFile_inv hfile helf hrun
  have hesp' : (s.withImage host file).esp = stackBottom := (withImage_esp s _ _).trans hesp
  obtain ⟨u, hu, hpushes⟩ := @loadStack_pushes host.toLoaderHost argv envp (s.withImage host file)
    hargv (by rw [hesp']; rfl) (by rwa [hesp']) (types_of_loadStack hstack)
  obtain ⟨l, hl, hrun'⟩ := hpushes host.argvEmu host.envpEmu argc
  rw [hstack] at hrun'
  obtain rfl : t = u.push l := by cases hrun'; rfl
  have huesp : u.esp = stackBottom := (congrArg (fun t => t.reg .esp) hu).trans hesp'
  have hle : l.length ≤ u.esp.toNat := by
    rw [huesp, hl]
    exact hroom.le
  refine ⟨?_, ?_, fun a ha hns => ?_⟩
  · rw [← heip, ← hu]
    rfl
  · rw [Loader.toNat_esp_push hle, huesp, hl]
  · rw [inStack_iff hroom.le ha] at hns
    rw [Loader.mem_push hle, huesp, hl, putBytes_of_not_mem (by omega), hu, withImage_mem]
    rfl

/-- Whether a run returns does not depend on the two arrays. -/
theorem readElfFile_returns (hlog : host.log = true) (hfile : host.elfFile = some file)
    (helf : IsElf32 file) (hargv : 2 ≤ argv.length) (hesp : s.esp = stackBottom)
    (hroom : stackUsed host.toLoaderHost argv envp < stackBottom.toNat)
    (htypes : ∀ e ∈ auxSeen host.auxv, e.aType.toNat < 53) :
    ∃ u, (readElfFile host argc argv envp).run s = .ok (0, u) := by
  have hesp' : (s.withImage host file).esp = stackBottom := (withImage_esp s _ _).trans hesp
  have hvalid : (host.readEhdr file).Valid := by
    rw [readEhdr_eq helf]
    exact helf.valid
  obtain ⟨u, -, hpushes⟩ := @loadStack_pushes host.toLoaderHost argv envp (s.withImage host file)
    hargv (by rw [hesp']; rfl) (by rwa [hesp']) htypes
  obtain ⟨l, -, hrun⟩ := hpushes host.argvEmu host.envpEmu argc
  exact ⟨_, (readElfFile_run hlog hfile hvalid).trans (run_bind_ok hrun)⟩

theorem stackUsed_mod (host : LoaderHost) (argv envp : List CString) :
    stackUsed host argv envp % 4 = 0 :=
  Nat.mul_mod_right 4 _

/-- A word below the stack area is one of the image. -/
theorem read32_of_image {u : Machine} (h : ∀ a, InImage file a → u.mem a = m a) {x : BitVec 32}
    (hx : x.toNat + 4 ≤ stackTop.toNat) : u.read32 x = readLE m x.toNat 4 := by
  have htop := stackTop.isLt
  rw [Machine.read32_eq _ _ (by omega)]
  exact readLE_congr fun k _ hk => h k (.inl (by omega))

theorem loadsImage_of_fits (hfile : host.elfFile = some file) (helf : IsElf32 file)
    (hargv : 2 ≤ argv.length) (hseg : SegmentsApart file InStackArea) (hesp : s.esp = stackBottom)
    (hzero : ∀ a < memSize, ¬ InGdt a → s.machine.mem a = 0)
    (h : ImageFits host file argc argv envp s.machine.mem) :
    LoadsImage host file argc argv envp s := by
  intro argvEmu envpEmu t hrun
  have htop := stackTop_add
  have hroom : stackUsed host.toLoaderHost argv envp < stackBottom.toNat := by
    have hbottom : stackBottom.toNat = 0xFFF00000 := rfl
    rcases h.stack with hused | ⟨hused, -⟩
    all_goals omega
  obtain ⟨heip, htesp, hmem⟩ := @readElfFile_pushes { host with argvEmu, envpEmu } file argc argv
    envp s t hfile helf hargv hesp hroom hrun
  refine (elfImage_iff helf hseg hzero).2 ⟨heip, fun a ha => ?_⟩
  have hlt : a < 2 ^ 32 := (ha.lt hseg).trans (by decide)
  by_cases hin : InStack (stackUsed host.toLoaderHost argv envp) a
  · -- only the word right below the stack area is pushed over
    have harea := ha.not_area hseg
    rw [inStack_iff hroom.le hlt] at hin
    unfold InStackArea at harea
    obtain ⟨hused, hword⟩ := h.stack.resolve_left (by omega)
    have hat : t.esp.toNat = stackTop.toNat - 4 := by
      rw [htesp]
      exact (congrArg (stackBottom.toNat - ·) hused).trans rfl
    have hargc := loadStack_argc (@readElfFile_inv s { host with argvEmu, envpEmu } file argc argv
      envp t hfile helf hrun).1
    rw [Machine.read32_eq _ _ (by omega), hat, ← hword] at hargc
    obtain ⟨k, rfl⟩ : ∃ k, a = stackTop.toNat - 4 + k := ⟨a - (stackTop.toNat - 4), by omega⟩
    have hk : k < 4 := by omega
    have hbyte := congrArg (byteOf k) hargc
    rwa [byteOf_readLE _ hk (by decide), byteOf_readLE _ hk (by decide)] at hbyte
  · refine (hmem a hlt hin).trans ?_
    rcases h.headers with hpacked | hsame
    · exact congrFun (imageMem_eq helf hpacked) a
    · exact (sameSegments_iff helf).1 hsame a ha hin

/-- What a run leaves is the image, with the two last words that are pushed. -/
theorem LoadsImage.run (hall : LoadsImage host file argc argv envp s)
    (hfile : host.elfFile = some file) (helf : IsElf32 file) (hargv : 2 ≤ argv.length)
    (hseg : SegmentsApart file InStackArea) (hesp : s.esp = stackBottom)
    (hzero : ∀ a < memSize, ¬ InGdt a → s.machine.mem a = 0)
    (hroom : stackUsed host.toLoaderHost argv envp < stackBottom.toNat)
    (hrun : ∃ t, (readElfFile host argc argv envp).run s = .ok (0, t)) (argvEmu : ℕ → BitVec 32) :
    ∃ u : Loader, u.esp.toNat = stackBottom.toNat - stackUsed host.toLoaderHost argv envp ∧
      u.machine.read32 u.esp = argc - 1 ∧ u.machine.read32 (u.esp + 4) = argvEmu 1 ∧
      ∀ a, InImage file a → u.machine.mem a = fileMem file s.machine.mem a ∧
        (¬ InStack (stackUsed host.toLoaderHost argv envp) a →
          u.machine.mem a = imageMem host file s.machine.mem a) := by
  obtain ⟨t, ht⟩ := hrun
  have htypes := types_of_loadStack (readElfFile_inv hfile helf ht).1
  have hlog : host.log = true := log_of_readElfFile ht
  obtain ⟨u, hu⟩ := @readElfFile_returns { host with argvEmu } file argc argv envp s hlog hfile
    helf hargv hesp hroom htypes
  obtain ⟨-, huesp, hmem⟩ := @readElfFile_pushes { host with argvEmu } file argc argv envp s u hfile
    helf hargv hesp hroom hu
  have hstack := (@readElfFile_inv s { host with argvEmu } file argc argv envp u hfile helf hu).1
  have himage := ((elfImage_iff helf hseg hzero).1 (hall argvEmu host.envpEmu u hu)).2
  refine ⟨u, huesp, loadStack_argc hstack, loadStack_ends hargv hstack, fun a ha =>
    ⟨himage a ha, hmem a ?_⟩⟩
  exact (ha.lt hseg).trans (by decide)

theorem fits_of_loadsImage (hall : LoadsImage host file argc argv envp s)
    (hfile : host.elfFile = some file) (helf : IsElf32 file) (hargv : 2 ≤ argv.length)
    (hseg : SegmentsApart file InStackArea) (hesp : s.esp = stackBottom)
    (hzero : ∀ a < memSize, ¬ InGdt a → s.machine.mem a = 0)
    (hroom : stackUsed host.toLoaderHost argv envp < stackBottom.toNat)
    (hrun : ∃ t, (readElfFile host argc argv envp).run s = .ok (0, t)) :
    ImageFits host file argc argv envp s.machine.mem := by
  have himage := hall.run hfile helf hargv hseg hesp hzero hroom hrun
  have htop := stackTop_add
  have hmod := stackUsed_mod host.toLoaderHost argv envp
  constructor
  · by_contra hno
    obtain ⟨hover, hword⟩ := not_or.1 hno
    rcases Nat.lt_or_ge 0x22004 (stackUsed host.toLoaderHost argv envp) with hlong | hshort
    · -- the word of `argv_emu[1]` is below the stack area as well
      have hconst : ∀ x : BitVec 32, x = readLE (fileMem file s.machine.mem)
          (stackBottom.toNat - stackUsed host.toLoaderHost argv envp + 4) 4 := by
        intro x
        obtain ⟨u, huesp, -, hone, hmem⟩ := himage fun _ => x
        have hadd : (u.esp + 4).toNat =
            stackBottom.toNat - stackUsed host.toLoaderHost argv envp + 4 := by
          have htoplt := stackTop.isLt
          rw [← huesp]
          bv_omega
        rw [← hadd, ← read32_of_image (fun a ha => (hmem a ha).1) (by omega)]
        exact hone.symm
      exact absurd ((hconst 0).trans (hconst 1).symm) (by decide)
    · obtain ⟨u, huesp, hargc, -, hmem⟩ := himage fun _ => 0
      have hused : stackUsed host.toLoaderHost argv envp = 0x22004 := by omega
      have hat : u.esp.toNat = stackTop.toNat - 4 := by omega
      rw [read32_of_image (fun a ha => (hmem a ha).1) (by omega), hat] at hargc
      exact hword ⟨hused, hargc⟩
  · obtain ⟨u, -, -, -, hmem⟩ := himage fun _ => 0
    exact .inr ((sameSegments_iff helf).2 fun a ha hns =>
      ((hmem a ha).2 hns).symm.trans (hmem a ha).1)

/-- The image is loaded where it fits, and nowhere else as long as the stack does not get to 0. -/
theorem readElfFile_image_iff {m₀ : Machine} (hfile : host.elfFile = some file)
    (helf : IsElf32 file) (hargv : 2 ≤ argv.length) (hseg : SegmentsApart file InStackArea)
    (hinit : initializeMachine.run m₀ = .ok (1, s.machine))
    (hrun : ∃ t, (readElfFile host argc argv envp).run s = .ok (0, t)) :
    (ImageFits host file argc argv envp s.machine.mem →
      LoadsImage host file argc argv envp s) ∧
    (stackUsed host.toLoaderHost argv envp < stackBottom.toNat →
      LoadsImage host file argc argv envp s →
      ImageFits host file argc argv envp s.machine.mem) := by
  obtain ⟨s', hs', hesp, hzero⟩ := initializeMachine_run m₀
  rw [hinit] at hs'
  obtain rfl : s.machine = s' := by cases hs'; rfl
  exact ⟨loadsImage_of_fits hfile helf hargv hseg hesp hzero, fun hroom hall =>
    fits_of_loadsImage hall hfile helf hargv hseg hesp hzero hroom hrun⟩

end Image

theorem not_inStackArea {a : ℕ} (h : a < gdtAddr) : ¬ InStackArea a := by
  have htop : gdtAddr ≤ stackTop.toNat := by decide
  exact fun harea => Nat.not_lt.2 (htop.trans harea.1) h

/-- The note and the segment at `0x1000`, loaded with an environment of two strings. -/
theorem readElfFile_image_small : ∃ s : Loader,
    LoadsImage (smallHost 0x1000) (smallElf 0x1000) 3 shortArgv [platform, platform] s ∧
      ∃ t, (readElfFile (smallHost 0x1000) 3 shortArgv [platform, platform]).run s = .ok (0, t) ∧
        ElfImage (smallElf 0x1000) s.machine t.machine := by
  obtain ⟨m, hm, hesp, -⟩ := initializeMachine_run .blank
  obtain ⟨t, ht⟩ := @readElfFile_returns (smallHost 0x1000) _ 3 shortArgv [platform, platform]
    ⟨m, 0, 0, 0, 0, 0, 0⟩ rfl rfl isElf32_smallElf (by decide) hesp (by decide) (by decide)
  have hall := (readElfFile_image_iff rfl isElf32_smallElf (by decide) (segmentsApart_one
    (fun _ => isLoad_smallElf) (by decide) (by decide) fun _ => not_inStackArea) hm ⟨t, ht⟩).1
    ⟨.inl (by decide), .inl (by decide)⟩
  exact ⟨_, hall, t, ht, hall _ _ t ht⟩

/-- `smallElf` with four more bytes in each entry of its table. -/
def wideElf : List (BitVec 8) :=
  [0x7F, 0x45, 0x4C, 0x46, 1, 1, 1, 0, 0, 0, 0, 0, 0, 0, 0, 0, 2, 0, 3, 0, 1, 0, 0, 0] ++
    [0, 16, 0, 0, 52, 0, 0, 0, 0, 0, 0, 0, 0, 0, 0, 0, 52, 0, 36, 0, 2, 0, 40, 0, 0, 0, 0, 0] ++
    [4, 0, 0, 0] ++ List.replicate 32 0 ++
    [1, 0, 0, 0, 124, 0, 0, 0, 0, 16, 0, 0, 0, 16, 0, 0, 2, 0, 0, 0, 4, 0, 0, 0, 5, 0, 0, 0] ++
    List.replicate 8 0 ++ [0xCD, 0x80]

def wideHost : ElfHost := { smallHost 0x1000 with elfFile := some wideElf }

theorem length_wideElf : wideElf.length = 126 := by simp [wideElf]

theorem isElf32_wideElf : IsElf32 wideElf where
  header := by rw [length_wideElf]; decide
  valid := by decide
  table := by rw [length_wideElf]; decide
  sizes i hi := by
    rw [isLoad_one (by decide) (by decide) hi]
    decide

/-- Where the loop looks for the second header are the zeros behind the first. -/
theorem readElfFile_not_image : ¬ ∀ (host : ElfHost) (file : List (BitVec 8)) (argc : BitVec 32)
    (argv envp : List CString) (m₀ : Machine) (s t : Loader), host.elfFile = some file →
      IsElf32 file → 3 ≤ argv.length → SegmentsApart file InStackArea →
      initializeMachine.run m₀ = .ok (1, s.machine) →
      (readElfFile host argc argv envp).run s = .ok (0, t) →
      ElfImage file s.machine t.machine := by
  intro hall
  obtain ⟨m, hm, hesp, hzero⟩ := initializeMachine_run .blank
  have hone : ∀ i, IsLoad wideElf i → i = 1 := fun _ => isLoad_one (by decide) (by decide)
  let s : Loader := ⟨m, 0, 0, 0, 0, 0, 0⟩
  have hesp' : s.esp = stackBottom := hesp
  obtain ⟨t, ht⟩ := @readElfFile_returns wideHost wideElf 3 shortArgv [] s rfl rfl isElf32_wideElf
    (by decide) hesp' (by decide) (by decide)
  have himage := hall wideHost wideElf 3 shortArgv [] .blank s t rfl isElf32_wideElf (by decide)
    (segmentsApart_one hone (by rw [length_wideElf]; decide) (by decide) fun _ => not_inStackArea)
    hm ht
  obtain ⟨-, -, hmem⟩ := readElfFile_pushes rfl isElf32_wideElf (by decide) hesp' (by decide) ht
  have hdata : wideElf[124]? = some (t.machine.mem 0x1000) :=
    himage.data 1 (by decide) 0 (by decide)
  have hsegments : wideHost.segments wideElf (wideHost.readEhdr wideElf)
      (wideHost.readEhdr wideElf).ePhnum.toNat = [] := by decide
  have hloaded : t.machine.mem 0x1000 = 0 := by
    rw [hmem 0x1000 (by decide) (by decide), imageMem, hsegments]
    exact hzero 0x1000 (by decide) fun hgdt => absurd hgdt.1 (by decide)
  rw [hloaded] at hdata
  exact absurd hdata (by decide)

end I386Vm
