import I386Vm.Elf
import I386Vm.Lib.Access
import I386Vm.Proofs.StackArea
import I386Vm.Proofs.ThreadLocal

/-!
# The image of an ELF file

The loop over the program headers puts the segments one after the other, whatever headers of other
types lie between them. What is read for a segment is what the file has there, so where the entries
of the table lie one right behind the other (`Packed`) it puts what the file says (`imageMem_eq`).
It stays inside the allocated bytes exactly when every segment that it reads does.
-/

namespace I386Vm

open Bytes Prog

/-! ## `initialize` -/

/-- The byte at `a` belongs to the descriptor table. -/
def InGdt (a : ℕ) : Prop := gdtAddr ≤ a ∧ a < gdtAddr + gdtEntries * gdtDescriptorSize

theorem initDescriptors_mem (s : Machine) : ∀ {n : ℕ}, n ≤ gdtEntries → ∃ m,
    (initDescriptors gdtAddr n).run s = .ok ((), { s with mem := m }) ∧
      ∀ a, ¬ InGdt a → m a = s.mem a
  | 0, _ => ⟨s.mem, rfl, fun _ _ => rfl⟩
  | n + 1, h => by
    obtain ⟨m, hm, hframe⟩ := @initDescriptors_mem s n (by omega)
    obtain ⟨m', hm', hother, -⟩ := initDescriptor_run { s with mem := m } gdtAddr n
    refine ⟨m', (run_bind_ok hm).trans hm', fun a ha => ?_⟩
    rw [hother a fun hin => ha ?_]
    · exact hframe a ha
    · unfold InGdt gdtEntries gdtDescriptorSize at *
      omega

/-- `initialize` zeroes the allocated bytes but for the descriptor table, and `esp` is the bottom of
the stack. -/
theorem initializeMachine_run (s : Machine) : ∃ t, initializeMachine.run s = .ok (1, t) ∧
    t.reg .esp = stackBottom ∧ ∀ a < memSize, ¬ InGdt a → t.mem a = 0 := by
  obtain ⟨m, hm, hframe⟩ := initDescriptors_mem
    { initialSegments s with mem := callocMem s.mem } (le_refl gdtEntries)
  have hgdt : initializeGdt.run { initialSegments s with mem := callocMem s.mem } = _ :=
    run_bind_ok hm
  have hesp : (initialSegments s).reg .esp = stackBottom := by
    simp [initialSegments, Machine.setReg]
  unfold initializeMachine
  rw [run_bind_ok (show (modify initialSegments : Exec Unit).run s = .ok ((), initialSegments s)
    from rfl), run_bind_ok (show (modify fun s => { s with mem := callocMem s.mem } : Exec Unit).run
    (initialSegments s) = .ok ((), { initialSegments s with mem := callocMem s.mem }) from rfl),
    run_bind_ok hgdt]
  exact ⟨_, rfl, hesp, fun a ha hgdt => (hframe a hgdt).trans (if_pos ha)⟩

/-! ## What a file says -/

/-- The header of a file, and its entries of the program header table. -/
def fileEhdr (file : List (BitVec 8)) : Elf32Ehdr := .ofBytes fun k => file.getD k 0

def filePhdr (file : List (BitVec 8)) (i : ℕ) : Elf32Phdr :=
  .ofBytes fun k => file.getD
    ((fileEhdr file).ePhoff.toNat + i * (fileEhdr file).ePhentsize.toNat + k) 0

/-- Entry `i` of the table is a segment to load. -/
def IsLoad (file : List (BitVec 8)) (i : ℕ) : Prop :=
  i < (fileEhdr file).ePhnum.toNat ∧ (filePhdr file i).Loads

instance (file : List (BitVec 8)) (i : ℕ) : Decidable (IsLoad file i) :=
  inferInstanceAs (Decidable (_ ∧ _))

/-- An ELF32 file: the header and every entry of the program header table are in it, and a segment
takes no less memory than it has bytes in the file. -/
structure IsElf32 (file : List (BitVec 8)) : Prop where
  header : ehdrSize ≤ file.length
  valid : (fileEhdr file).Valid
  table : ∀ i < (fileEhdr file).ePhnum.toNat,
    (fileEhdr file).ePhoff.toNat + i * (fileEhdr file).ePhentsize.toNat + phdrSize ≤ file.length
  sizes : ∀ i, IsLoad file i →
    (filePhdr file i).pFilesz.toNat ≤ (filePhdr file i).pMemsz.toNat

/-- The entries lie one right behind the other. -/
def Packed (file : List (BitVec 8)) : Prop :=
  (fileEhdr file).ePhnum.toNat ≤ 1 ∨ (fileEhdr file).ePhentsize.toNat = phdrSize

instance (file : List (BitVec 8)) : Decidable (Packed file) := inferInstanceAs (Decidable (_ ∨ _))

/-- The byte at `a` belongs to the memory range of entry `i`. -/
def InSegment (file : List (BitVec 8)) (i a : ℕ) : Prop :=
  (filePhdr file i).pVaddr.toNat ≤ a ∧
    a < (filePhdr file i).pVaddr.toNat + (filePhdr file i).pMemsz.toNat

/-- The segments have their data in the file, and their ranges lie in the allocated bytes, apart
from each other, from the descriptor table and from the stack. -/
structure SegmentsApart (file : List (BitVec 8)) (stack : ℕ → Prop) : Prop where
  inFile : ∀ i, IsLoad file i →
    (filePhdr file i).pOffset.toNat + (filePhdr file i).pFilesz.toNat ≤ file.length
  inside : ∀ i, IsLoad file i →
    (filePhdr file i).pVaddr.toNat + (filePhdr file i).pMemsz.toNat ≤ memSize
  apart : ∀ i j, IsLoad file i → IsLoad file j → i ≠ j → ∀ a, InSegment file i a →
    ¬ InSegment file j a
  gdt : ∀ i, IsLoad file i → ∀ a, InSegment file i a → ¬ InGdt a
  stack : ∀ i, IsLoad file i → ∀ a, InSegment file i a → ¬ stack a

/-! ## Reading the headers -/

theorem readLE_eq_of_agree {w : ℕ} {m m' : ℕ → BitVec 8} {l : ℕ} (h : ∀ k < l, m' k = m k)
    {a n : ℕ} (hn : a + n ≤ l) : (readLE m' a n : BitVec w) = readLE m a n :=
  readLE_congr fun k _ hk => h k (by omega)

theorem putBytes_fread {old : ℕ → BitVec 8} {file : List (BitVec 8)} {offset n : ℕ}
    (h : offset + n ≤ file.length) : ∀ k < n,
      putBytes old 0 (fread file offset n) k = file.getD (offset + k) 0 := by
  intro k hk
  have hlen : (fread file offset n).length = n := by
    unfold fread
    rw [List.length_take, List.length_drop]
    omega
  have hput := @putBytes_add old 0 (fread file offset n) k (by omega)
  rw [Nat.zero_add] at hput
  rw [hput]
  have hin : offset + k < file.length := by omega
  simp [fread, List.getD_eq_getElem?_getD, List.getElem?_eq_getElem hin]

section Headers

variable {host : ElfHost} {file : List (BitVec 8)} (h : IsElf32 file)
include h

theorem readEhdr_eq : host.readEhdr file = fileEhdr file := by
  have hb := @putBytes_fread host.ehdr file 0 ehdrSize (by have := h.header; omega)
  have hfile : ∀ k < ehdrSize, putBytes host.ehdr 0 (fread file 0 ehdrSize) k = file.getD k 0 := by
    intro k hk
    rw [hb k hk, Nat.zero_add]
  unfold ElfHost.readEhdr fileEhdr Elf32Ehdr.ofBytes
  rw [readLE_eq_of_agree hfile (by decide), hfile 4 (by decide),
    readLE_eq_of_agree hfile (by decide), readLE_eq_of_agree hfile (by decide),
    readLE_eq_of_agree hfile (by decide), readLE_eq_of_agree hfile (by decide)]

/-- The loop takes the entries `sizeof(Elf32_Phdr)` apart. -/
theorem readPhdr_eq (hpacked : Packed file) {i : ℕ} (hi : i < (fileEhdr file).ePhnum.toNat) :
    host.readPhdr file (fileEhdr file) i = filePhdr file i := by
  have hat : i * (fileEhdr file).ePhentsize.toNat = i * phdrSize := by
    rcases hpacked with hone | hsize
    · obtain rfl : i = 0 := by omega
      rw [Nat.zero_mul, Nat.zero_mul]
    · rw [hsize]
  have hroom := h.table i hi
  rw [hat] at hroom
  have hfile := @putBytes_fread (host.phdr i) file ((fileEhdr file).ePhoff.toNat + i * phdrSize)
    phdrSize (by omega)
  unfold ElfHost.readPhdr filePhdr Elf32Phdr.ofBytes
  rw [hat, readLE_eq_of_agree hfile (by decide), readLE_eq_of_agree hfile (by decide),
    readLE_eq_of_agree hfile (by decide), readLE_eq_of_agree hfile (by decide),
    readLE_eq_of_agree hfile (by decide)]

end Headers

/-! ## The loop over the program headers -/

namespace ElfHost

/-- What the first `n` iterations put, and where. -/
def segments (host : ElfHost) (file : List (BitVec 8)) (ehdr : Elf32Ehdr) (n : ℕ) :
    List (ℕ × List (BitVec 8)) :=
  ((List.range n).filter fun i => (host.readPhdr file ehdr i).Loads).map
    fun i => (host.readPhdr file ehdr i).segment file

theorem mem_segments {host : ElfHost} {file : List (BitVec 8)} {ehdr : Elf32Ehdr} {n : ℕ}
    {c : ℕ × List (BitVec 8)} : c ∈ host.segments file ehdr n ↔
      ∃ i < n, (host.readPhdr file ehdr i).Loads ∧
        (host.readPhdr file ehdr i).segment file = c := by
  simp [segments, and_assoc]

end ElfHost

section Loop

variable (s : Loader) (host : ElfHost) (file : List (BitVec 8)) (ehdr : Elf32Ehdr)

theorem loadSegments_mem (n : ℕ) : (s.loadSegments host file ehdr n).machine.mem =
    putAll s.machine.mem (host.segments file ehdr n) := by
  induction n with
  | zero => rfl
  | succ n ih =>
    unfold Loader.loadSegments Loader.loadSegment
    unfold ElfHost.segments at ih ⊢
    rw [List.range_succ, List.filter_append, List.map_append]
    by_cases h : (host.readPhdr file ehdr n).Loads
    · rw [if_pos h, List.filter_cons_of_pos (by simpa using h), List.filter_nil, List.map_singleton,
        putAll_concat, ← ih]
    · rw [if_neg h, List.filter_cons_of_neg (by simpa using h), List.filter_nil, List.map_nil,
        List.append_nil, ih]

theorem loadSegments_esp (n : ℕ) : (s.loadSegments host file ehdr n).esp = s.esp := by
  induction n with
  | zero => rfl
  | succ n ih =>
    unfold Loader.loadSegments Loader.loadSegment
    split
    · exact ih
    · exact ih

/-- Where `read_elf_file` is before it builds the stack. -/
def Loader.withImage (s : Loader) (host : ElfHost) (file : List (BitVec 8)) : Loader :=
  let u := ({ s with
      phNum := (host.readEhdr file).ePhnum.setWidth 32
      phSize := (host.readEhdr file).ePhentsize.setWidth 32 } : Loader).loadSegments host file
    (host.readEhdr file) (host.readEhdr file).ePhnum.toNat
  { u with machine := { u.machine with eip := (host.readEhdr file).eEntry } }

theorem withImage_mem : (s.withImage host file).machine.mem = putAll s.machine.mem
    (host.segments file (host.readEhdr file) (host.readEhdr file).ePhnum.toNat) :=
  loadSegments_mem _ host file _ _

theorem withImage_esp : (s.withImage host file).esp = s.esp :=
  loadSegments_esp _ host file _ _

variable {s host file} {argc : BitVec 32} {argv envp : List CString}

theorem readElfFile_run (hlog : host.log = true) (hfile : host.elfFile = some file)
    (hvalid : (host.readEhdr file).Valid) : (readElfFile host argc argv envp).run s =
      (do
        loadStack host.toLoaderHost host.argvEmu host.envpEmu argc argv envp
        return 0 : Load (BitVec 32)).run (s.withImage host file) := by
  unfold readElfFile
  rw [if_pos hlog, hfile]
  simp only [if_pos hvalid]
  rfl

/-- A file that is refused changes nothing. -/
theorem readElfFile_refused (h : ¬ (host.log = true ∧ ∃ file, host.elfFile = some file ∧
    (host.readEhdr file).Valid)) : (readElfFile host argc argv envp).run s = .ok (1, s) := by
  unfold readElfFile
  split
  · rename_i hlog
    split
    · rfl
    · rename_i file hfile
      rw [if_neg fun hvalid => h ⟨hlog, file, hfile, hvalid⟩]
      rfl
  · rfl

theorem log_of_readElfFile {t : Loader}
    (hrun : (readElfFile host argc argv envp).run s = .ok (0, t)) : host.log = true := by
  by_contra hlog
  rw [readElfFile_refused fun h => hlog h.1] at hrun
  cases hrun

/-- A run that returns 0 has loaded the segments before it builds the stack. -/
theorem readElfFile_inv {t : Loader} (hfile : host.elfFile = some file) (helf : IsElf32 file)
    (hrun : (readElfFile host argc argv envp).run s = .ok (0, t)) :
    (loadStack host.toLoaderHost host.argvEmu host.envpEmu argc argv envp).run
        (s.withImage host file) = .ok ((), t) ∧
      (s.withImage host file).machine.eip = (fileEhdr file).eEntry := by
  have hvalid : (host.readEhdr file).Valid := by
    rw [readEhdr_eq helf]
    exact helf.valid
  rw [readElfFile_run (log_of_readElfFile hrun) hfile hvalid] at hrun
  obtain ⟨_, u, hstack, hu⟩ := run_bind_inv hrun
  cases hu
  refine ⟨hstack, ?_⟩
  rw [← @readEhdr_eq host file helf]
  rfl

end Loop

/-! ## The image -/

section Image

variable {host : ElfHost} {file : List (BitVec 8)} {stack : ℕ → Prop} {m : ℕ → BitVec 8}

theorem length_segment {i : ℕ} (hseg : SegmentsApart file stack) (hi : IsLoad file i) :
    ((filePhdr file i).segment file).2.length = (filePhdr file i).pFilesz.toNat := by
  have hin := hseg.inFile i hi
  unfold Elf32Phdr.segment fread
  rw [List.length_take, List.length_drop]
  omega

theorem inSegment_of_covers {i a : ℕ} (helf : IsElf32 file) (hseg : SegmentsApart file stack)
    (hi : IsLoad file i) (h : Covers ((filePhdr file i).segment file) a) : InSegment file i a := by
  have hsize := helf.sizes i hi
  have hlt := h.2
  rw [length_segment hseg hi] at hlt
  exact ⟨h.1, lt_of_lt_of_le hlt (Nat.add_le_add_left hsize _)⟩

/-- What the file has for its segments, and where. -/
def fileSegments (file : List (BitVec 8)) : List (ℕ × List (BitVec 8)) :=
  ((List.range (fileEhdr file).ePhnum.toNat).filter fun i => (filePhdr file i).Loads).map
    fun i => (filePhdr file i).segment file

theorem mem_fileSegments {c : ℕ × List (BitVec 8)} :
    c ∈ fileSegments file ↔ ∃ i, IsLoad file i ∧ (filePhdr file i).segment file = c := by
  simp [fileSegments, IsLoad]

theorem fileSegments_pairwise (helf : IsElf32 file) (hseg : SegmentsApart file stack) :
    (fileSegments file).Pairwise fun c d => ∀ k, Covers c k → ¬ Covers d k := by
  refine List.pairwise_map.2 ((List.pairwise_lt_range.filter _).imp_of_mem fun hi hj hlt => ?_)
  rename_i i j
  have hload {k : ℕ} (hk : k ∈ (List.range (fileEhdr file).ePhnum.toNat).filter
      fun i => (filePhdr file i).Loads) : IsLoad file k := by
    rw [List.mem_filter, List.mem_range, decide_eq_true_iff] at hk
    exact hk
  intro k hci hcj
  exact hseg.apart i j (hload hi) (hload hj) (Nat.ne_of_lt hlt) k
    (inSegment_of_covers helf hseg (hload hi) hci) (inSegment_of_covers helf hseg (hload hj) hcj)

variable (file m) in
/-- A memory with the segments of the file put in it. -/
def fileMem : ℕ → BitVec 8 := putAll m (fileSegments file)

/-- The bytes of a segment are those of the file. -/
theorem fileMem_data (helf : IsElf32 file) (hseg : SegmentsApart file stack) {i k : ℕ}
    (hi : IsLoad file i) (hk : k < (filePhdr file i).pFilesz.toNat) :
    file[(filePhdr file i).pOffset.toNat + k]? =
      some (fileMem file m ((filePhdr file i).pVaddr.toNat + k)) := by
  have hlen := length_segment hseg hi
  have hin := hseg.inFile i hi
  have hat : fileMem file m ((filePhdr file i).pVaddr.toNat + k) =
      ((filePhdr file i).segment file).2[k] :=
    bytesAt_putAll (fileSegments_pairwise helf hseg) (mem_fileSegments.2 ⟨i, hi, rfl⟩) k (by omega)
  rw [hat, List.getElem?_eq_getElem (by omega)]
  simp [Elf32Phdr.segment, fread]

/-- The tail of a segment is not written. -/
theorem fileMem_tail (helf : IsElf32 file) (hseg : SegmentsApart file stack) {i k : ℕ}
    (hi : IsLoad file i) (hk : (filePhdr file i).pFilesz.toNat ≤ k)
    (hin : InSegment file i ((filePhdr file i).pVaddr.toNat + k)) :
    fileMem file m ((filePhdr file i).pVaddr.toNat + k) =
      m ((filePhdr file i).pVaddr.toNat + k) := by
  refine putAll_of_not_covers fun c hc hcov => ?_
  obtain ⟨j, hj, rfl⟩ := mem_fileSegments.1 hc
  by_cases hij : i = j
  · -- its own bytes end before the tail
    subst hij
    have hlt := hcov.2
    rw [length_segment hseg hi] at hlt
    change _ < (filePhdr file i).pVaddr.toNat + _ at hlt
    omega
  · exact hseg.apart i j hi hj hij _ hin (inSegment_of_covers helf hseg hj hcov)

theorem fileMem_of_outside (helf : IsElf32 file) (hseg : SegmentsApart file stack) {a : ℕ}
    (hno : ∀ i, IsLoad file i → ¬ InSegment file i a) : fileMem file m a = m a := by
  refine putAll_of_not_covers fun c hc hcov => ?_
  obtain ⟨j, hj, rfl⟩ := mem_fileSegments.1 hc
  exact hno j hj (inSegment_of_covers helf hseg hj hcov)

variable (host file m) in
/-- A memory with what the loop puts in it. -/
def imageMem : ℕ → BitVec 8 :=
  putAll m (host.segments file (host.readEhdr file) (host.readEhdr file).ePhnum.toNat)

theorem imageMem_eq (helf : IsElf32 file) (hpacked : Packed file) :
    imageMem host file m = fileMem file m := by
  have hphdr : ∀ i ∈ List.range (fileEhdr file).ePhnum.toNat,
      host.readPhdr file (fileEhdr file) i = filePhdr file i := fun i hi =>
    readPhdr_eq helf hpacked (List.mem_range.1 hi)
  have hsegments : host.segments file (fileEhdr file) (fileEhdr file).ePhnum.toNat =
      fileSegments file := by
    unfold ElfHost.segments fileSegments
    rw [List.filter_congr fun i hi => by rw [hphdr i hi]]
    refine List.map_congr_left fun i hi => ?_
    rw [hphdr i (List.mem_of_mem_filter hi)]
  unfold imageMem fileMem
  rw [readEhdr_eq helf, hsegments]

/-- A run that returns 0 puts the segments and the stack, and nothing else, in memory. -/
theorem readElfFile_mem {argc : BitVec 32} {argv envp : List CString} {s t : Loader}
    (hfile : host.elfFile = some file) (helf : IsElf32 file) (hargv : 1 ≤ argv.length)
    (hesp : s.esp = stackBottom) (hrun : (readElfFile host argc argv envp).run s = .ok (0, t)) :
    t.machine.eip = (fileEhdr file).eEntry ∧
      ∀ a < memSize, ¬ InStack (stackSize host.toLoaderHost argv envp) a →
        t.machine.mem a = imageMem host file s.machine.mem a := by
  obtain ⟨hstack, heip⟩ := readElfFile_inv hfile helf hrun
  obtain ⟨l, hl, -, heip', hmem⟩ := spends_loadStack _ _ _ _ hargv envp _ _ _ hstack
  rw [withImage_esp, hesp] at hmem
  refine ⟨heip'.trans heip, fun a ha hns => ?_⟩
  unfold imageMem
  rw [← withImage_mem]
  exact hmem a (by unfold memSize at ha; omega) (hl.trans (Nat.le_of_not_lt hns))

end Image

/-- A note and a segment of two bytes in the file and four in memory, at the given address. -/
def smallElf (vaddr : BitVec 32) : List (BitVec 8) :=
  [0x7F, 0x45, 0x4C, 0x46, 1, 1, 1, 0, 0, 0, 0, 0, 0, 0, 0, 0, 2, 0, 3, 0, 1, 0, 0, 0] ++
    leBytes 4 vaddr ++
    [52, 0, 0, 0, 0, 0, 0, 0, 0, 0, 0, 0, 52, 0, 32, 0, 2, 0, 40, 0, 0, 0, 0, 0] ++
    [4, 0, 0, 0] ++ List.replicate 28 0 ++
    [1, 0, 0, 0, 116, 0, 0, 0] ++ leBytes 4 vaddr ++ leBytes 4 vaddr ++
    [2, 0, 0, 0, 4, 0, 0, 0, 5, 0, 0, 0, 0, 16, 0, 0] ++ [0xCD, 0x80]

def smallHost (vaddr : BitVec 32) : ElfHost where
  toLoaderHost := shortHost
  log := true
  elfFile := some (smallElf vaddr)
  ehdr _ := 0xFF
  phdr _ _ := 0xFF
  argvEmu _ := 0
  envpEmu _ := 0

theorem isLoad_one {file : List (BitVec 8)} (hnum : (fileEhdr file).ePhnum.toNat = 2)
    (hnote : ¬ (filePhdr file 0).Loads) {i : ℕ} (h : IsLoad file i) : i = 1 := by
  have hi := h.1
  rw [hnum] at hi
  rcases i with _ | _ | i
  · exact absurd h.2 hnote
  · rfl
  · omega

theorem isLoad_smallElf {i : ℕ} (h : IsLoad (smallElf 0x1000) i) : i = 1 :=
  isLoad_one (by decide) (by decide) h

theorem isElf32_smallElf : IsElf32 (smallElf 0x1000) where
  header := by decide
  valid := by decide
  table := by decide
  sizes i hi := by
    rw [isLoad_smallElf hi]
    decide

/-- A file with one segment, below the descriptor table. -/
theorem segmentsApart_one {file : List (BitVec 8)} {stack : ℕ → Prop} {i : ℕ}
    (hone : ∀ j, IsLoad file j → j = i)
    (hfile : (filePhdr file i).pOffset.toNat + (filePhdr file i).pFilesz.toNat ≤ file.length)
    (hend : (filePhdr file i).pVaddr.toNat + (filePhdr file i).pMemsz.toNat ≤ gdtAddr)
    (hstack : ∀ a < gdtAddr, ¬ stack a) : SegmentsApart file stack where
  inFile j hj := by rwa [hone j hj]
  inside j hj := by
    rw [hone j hj]
    exact hend.trans (by decide)
  apart j k hj hk hjk := absurd ((hone j hj).trans (hone k hk).symm) hjk
  gdt j hj a ha := by
    rw [hone j hj] at ha
    exact fun hgdt => Nat.not_lt.2 hgdt.1 (lt_of_lt_of_le ha.2 hend)
  stack j hj a ha := by
    rw [hone j hj] at ha
    exact hstack a (lt_of_lt_of_le ha.2 hend)

/-! ## Files that write past the allocated bytes -/

section Contained

variable (host : ElfHost) (s : Loader)

/-- The loop over the program headers as what it makes of a memory. -/
def storeSegments (file : List (BitVec 8)) (m : ℕ → BitVec 8) : ℕ → BitVec 8 :=
  (({ s with machine := { s.machine with mem := m } } : Loader).loadSegments host file
    (host.readEhdr file) (host.readEhdr file).ePhnum.toNat).machine.mem

/-- The file is refused with nothing changed, or the loop stores no byte past the allocated ones. -/
def Contained (argc : BitVec 32) (argv envp : List CString) : Prop :=
  (readElfFile host argc argv envp).run s = .ok (1, s) ∨
    ∀ file, host.elfFile = some file → ∀ a, WritesAt (storeSegments host s file) a →
      a < memSize

/-- The bytes of a segment that the file has. -/
def Elf32Phdr.inFile (phdr : Elf32Phdr) (file : List (BitVec 8)) : ℕ :=
  min phdr.pFilesz.toNat (file.length - phdr.pOffset.toNat)

/-- Every segment that an accepted file has bytes for ends inside the allocated bytes. -/
def SegmentsFit : Prop :=
  ∀ file, host.log = true → host.elfFile = some file → (host.readEhdr file).Valid →
    ∀ i < (host.readEhdr file).ePhnum.toNat,
      (host.readPhdr file (host.readEhdr file) i).Loads →
      (host.readPhdr file (host.readEhdr file) i).inFile file = 0 ∨
      (host.readPhdr file (host.readEhdr file) i).pVaddr.toNat
        + (host.readPhdr file (host.readEhdr file) i).inFile file ≤ memSize

theorem length_fread (file : List (BitVec 8)) (offset n : ℕ) :
    (fread file offset n).length = min n (file.length - offset) := by
  unfold fread
  rw [List.length_take, List.length_drop]

theorem writesAt_storeSegments (file : List (BitVec 8)) (a : ℕ) :
    WritesAt (storeSegments host s file) a ↔ ∃ i < (host.readEhdr file).ePhnum.toNat,
      (host.readPhdr file (host.readEhdr file) i).Loads ∧
      (host.readPhdr file (host.readEhdr file) i).pVaddr.toNat ≤ a ∧
      a < (host.readPhdr file (host.readEhdr file) i).pVaddr.toNat
        + (host.readPhdr file (host.readEhdr file) i).inFile file := by
  have hfun : storeSegments host s file = fun m => putAll m
      (host.segments file (host.readEhdr file) (host.readEhdr file).ePhnum.toNat) := by
    funext m
    exact loadSegments_mem _ host file _ _
  rw [hfun, writesAt_putAll]
  constructor
  · rintro ⟨c, hc, hcov⟩
    obtain ⟨i, hi, hload, rfl⟩ := ElfHost.mem_segments.1 hc
    have hlt := hcov.2
    unfold Elf32Phdr.segment at hlt
    rw [length_fread] at hlt
    exact ⟨i, hi, hload, hcov.1, hlt⟩
  · rintro ⟨i, hi, hload, hle, hlt⟩
    refine ⟨_, ElfHost.mem_segments.2 ⟨i, hi, hload, rfl⟩, hle, ?_⟩
    unfold Elf32Phdr.segment
    rw [length_fread]
    exact hlt

theorem segmentsFit_of_contained {argc : BitVec 32} {argv envp : List CString}
    (h : Contained host s argc argv envp) : SegmentsFit host := by
  intro file hlog hfile hvalid i hi hload
  rcases h with hrefused | hstored
  · rw [readElfFile_run hlog hfile hvalid] at hrefused
    obtain ⟨_, u, -, hu⟩ := run_bind_inv hrefused
    cases hu
  · by_cases hzero : (host.readPhdr file (host.readEhdr file) i).inFile file = 0
    · exact .inl hzero
    · have hlast := hstored file hfile _ ((writesAt_storeSegments host s file _).2
        ⟨i, hi, hload, Nat.le_add_right _ _, Nat.add_lt_add_left (Nat.sub_one_lt hzero) _⟩)
      exact .inr (by omega)

/-- A file stays inside exactly when its segments fit. -/
theorem contained_iff (argc : BitVec 32) (argv envp : List CString) :
    Contained host s argc argv envp ↔ SegmentsFit host := by
  constructor
  · exact segmentsFit_of_contained host s
  · intro hfit
    by_cases hok : host.log = true ∧ ∃ file, host.elfFile = some file ∧ (host.readEhdr file).Valid
    · obtain ⟨hlog, file, hfile, hvalid⟩ := hok
      refine .inr fun file' hfile' a ha => ?_
      obtain rfl : file = file' := Option.some.inj (hfile.symm.trans hfile')
      obtain ⟨i, hi, hload, hle, hlt⟩ := (writesAt_storeSegments host s file a).1 ha
      rcases hfit file hlog hfile hvalid i hi hload with hzero | hend
      · rw [hzero] at hlt
        omega
      · omega
    · exact .inl (readElfFile_refused hok)

/-- The second byte of a segment at `0xFFFFFFFF` is stored at `2^32`. -/
theorem not_contained : ¬ ∀ (host : ElfHost) (s : Loader) (argc : BitVec 32)
    (argv envp : List CString), Contained host s argc argv envp := by
  intro hall
  have hfit := segmentsFit_of_contained _ _ (hall (smallHost 0xFFFFFFFF) startLoader 3 shortArgv [])
  have h1 := hfit (smallElf 0xFFFFFFFF) rfl rfl (by decide) 1 (by decide) (by decide)
  revert h1
  decide

end Contained

end I386Vm
