import I386Vm.Loader
import I386Vm.ThreadArea

/-!
# Loading an ELF file

`initialize`, and of `read_elf_file` the part that reaches guest memory, the registers and the
variables that `load_stack` shares; the section headers and the symbols that it reads for the
debugger go to arrays of their own. A header is a local of C, so a read that the file cuts short
leaves bytes in it that were there before.
-/

namespace I386Vm

open Bytes Prog

/-- `calloc(sizeof(uint8_t), UINT32_MAX)`: zero below the last byte, and past it what the host has
there. -/
def callocMem (past : ℕ → BitVec 8) : ℕ → BitVec 8 := fun i => if i < memSize then 0 else past i

def initialSegments (s : Machine) : Machine :=
  ((((((s.setReg .esp stackBottom).setReg .cs 0x23).setReg .ds 0x2b).setReg .ss 0x2b).setReg
    .es 0x2b).setReg .fs 0).setReg .gs 0

/-- `initialize` with an allocation that succeeds. -/
def initializeMachine : Exec (BitVec 32) := do
  modify initialSegments
  modify fun s => { s with mem := callocMem s.mem }
  initializeGdt
  return 1

/-- `fseek(file, offset, SEEK_SET); fread(p, 1, n, file);`: what is read, less where the file
ends. -/
def fread (file : List (BitVec 8)) (offset n : ℕ) : List (BitVec 8) := (file.drop offset).take n

/-- The fields of an `Elf32_Ehdr` that are used. -/
structure Elf32Ehdr where
  magic : BitVec 32
  eiClass : BitVec 8
  eEntry : BitVec 32
  ePhoff : BitVec 32
  ePhentsize : BitVec 16
  ePhnum : BitVec 16

/-- The fields of an `Elf32_Phdr`. -/
structure Elf32Phdr where
  pType : BitVec 32
  pOffset : BitVec 32
  pVaddr : BitVec 32
  pFilesz : BitVec 32
  pMemsz : BitVec 32

/-- `sizeof(Elf32_Ehdr)` -/
def ehdrSize : ℕ := 52

/-- `sizeof(Elf32_Phdr)` -/
def phdrSize : ℕ := 32

def Elf32Ehdr.ofBytes (m : ℕ → BitVec 8) : Elf32Ehdr where
  magic := readLE m 0 4
  eiClass := m 4
  eEntry := readLE m 24 4
  ePhoff := readLE m 28 4
  ePhentsize := readLE m 42 2
  ePhnum := readLE m 44 2

def Elf32Phdr.ofBytes (m : ℕ → BitVec 8) : Elf32Phdr where
  pType := readLE m 0 4
  pOffset := readLE m 4 4
  pVaddr := readLE m 8 4
  pFilesz := readLE m 16 4
  pMemsz := readLE m 20 4

/-- `ELFMAG`, and `ELFCLASS32` in `e_ident[EI_CLASS]`. -/
def Elf32Ehdr.Valid (ehdr : Elf32Ehdr) : Prop := ehdr.magic = 0x464C457F ∧ ehdr.eiClass = 1

instance (ehdr : Elf32Ehdr) : Decidable ehdr.Valid := inferInstanceAs (Decidable (_ ∧ _))

/-- `p_type == PT_LOAD` -/
def Elf32Phdr.Loads (phdr : Elf32Phdr) : Prop := phdr.pType = 1

instance (phdr : Elf32Phdr) : Decidable phdr.Loads := inferInstanceAs (Decidable (_ = _))

/-- What the host gives `read_elf_file`: whether the log opens, the bytes of the program file if it
opens, and what its locals hold before it sets them. -/
structure ElfHost extends LoaderHost where
  log : Bool
  elfFile : Option (List (BitVec 8))
  ehdr : ℕ → BitVec 8
  phdr : ℕ → ℕ → BitVec 8
  argvEmu : ℕ → BitVec 32
  envpEmu : ℕ → BitVec 32

namespace ElfHost

variable (host : ElfHost) (file : List (BitVec 8))

def readEhdr : Elf32Ehdr := .ofBytes (putBytes host.ehdr 0 (fread file 0 ehdrSize))

/-- `&phdr` of iteration `i`. -/
def readPhdr (ehdr : Elf32Ehdr) (i : ℕ) : Elf32Phdr :=
  .ofBytes (putBytes (host.phdr i) 0 (fread file (ehdr.ePhoff.toNat + i * phdrSize) phdrSize))

end ElfHost

/-- Where a segment is put and what is read for it. -/
def Elf32Phdr.segment (phdr : Elf32Phdr) (file : List (BitVec 8)) : ℕ × List (BitVec 8) :=
  (phdr.pVaddr.toNat, fread file phdr.pOffset.toNat phdr.pFilesz.toNat)

/-- The body of the loop over the program headers. -/
def Loader.loadSegment (s : Loader) (file : List (BitVec 8)) (ehdr : Elf32Ehdr) (i : ℕ)
    (phdr : Elf32Phdr) : Loader :=
  if phdr.Loads then
    { s with
      phAddr := if i = 0 then phdr.pVaddr + ehdr.ePhoff else s.phAddr
      machine := { s.machine with
        mem := putBytes s.machine.mem (phdr.segment file).1 (phdr.segment file).2 } }
  else s

/-- The first `n` iterations of the loop. -/
def Loader.loadSegments (s : Loader) (host : ElfHost) (file : List (BitVec 8)) (ehdr : Elf32Ehdr) :
    ℕ → Loader
  | 0 => s
  | n + 1 => (s.loadSegments host file ehdr n).loadSegment file ehdr n (host.readPhdr file ehdr n)

def setHeaderSizes (ehdr : Elf32Ehdr) : Load Unit :=
  modify fun s =>
    { s with phNum := ehdr.ePhnum.setWidth 32, phSize := ehdr.ePhentsize.setWidth 32 }

def setEntry (ehdr : Elf32Ehdr) : Load Unit :=
  modify fun s => { s with machine := { s.machine with eip := ehdr.eEntry } }

def readElfFile (host : ElfHost) (argc : BitVec 32) (argv envp : List CString) :
    Load (BitVec 32) :=
  if host.log then
    match host.elfFile with
    | none => return 1
    | some file =>
      if (host.readEhdr file).Valid then do
        setHeaderSizes (host.readEhdr file)
        modify fun s => s.loadSegments host file (host.readEhdr file)
          (host.readEhdr file).ePhnum.toNat
        setEntry (host.readEhdr file)
        loadStack host.toLoaderHost host.argvEmu host.envpEmu argc argv envp
        return 0
      else return 1
  else return 1

end I386Vm
