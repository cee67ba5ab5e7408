import I386Vm.Elf
import I386Vm.Symbols

/-!
# Section headers and the loaders of the two modes

The loop of `read_elf_file` over the section headers: the executable sections go to `sheader`, and
the last symbol table and the last string table but that of the section names to `tabs`. From these
the symbols are read. `blind_elf_main` takes the number of executable sections for the address of
the last instruction; `read_raw_file` puts the whole file at 0.
-/

namespace I386Vm

open Bytes Prog

/-- The fields of an `Elf32_Shdr` that are used. -/
structure Elf32Shdr where
  shType : BitVec 32
  shFlags : BitVec 32
  shAddr : BitVec 32
  shOffset : BitVec 32
  shSize : BitVec 32

/-- `sizeof(Elf32_Shdr)` and `sizeof(Elf32_Sym)` -/
def shdrSize : ℕ := 40

def symSize : ℕ := 16

def Elf32Shdr.ofBytes (m : ℕ → BitVec 8) : Elf32Shdr where
  shType := readLE m 4 4
  shFlags := readLE m 8 4
  shAddr := readLE m 12 4
  shOffset := readLE m 16 4
  shSize := readLE m 20 4

def Elf32Sym.ofBytes (m : ℕ → BitVec 8) : Elf32Sym where
  stName := readLE m 0 4
  stValue := readLE m 4 4
  stInfo := m 12

/-- The fields of an `Elf32_Ehdr` that are about sections. -/
structure Elf32Table where
  eShoff : BitVec 32
  eShentsize : BitVec 16
  eShnum : BitVec 16
  eShstrndx : BitVec 16

def Elf32Table.ofBytes (m : ℕ → BitVec 8) : Elf32Table where
  eShoff := readLE m 32 4
  eShentsize := readLE m 46 2
  eShnum := readLE m 48 2
  eShstrndx := readLE m 50 2

namespace Elf32Shdr

variable (shdr : Elf32Shdr)

/-- `SHT_PROGBITS` with `SHF_EXECINSTR`. -/
def Executable : Prop := shdr.shType = 1 ∧ shdr.shFlags &&& 4 ≠ 0

instance : Decidable shdr.Executable := inferInstanceAs (Decidable (_ ∧ _))

/-- `SHT_SYMTAB` -/
def HasSymbols : Prop := shdr.shType = 2

instance : Decidable shdr.HasSymbols := inferInstanceAs (Decidable (_ = _))

/-- `SHT_STRTAB` -/
def HasStrings : Prop := shdr.shType = 3

instance : Decidable shdr.HasStrings := inferInstanceAs (Decidable (_ = _))

end Elf32Shdr

/-- The `*count` pairs of `*sheader`, and `tabs`. -/
structure Sections where
  sheader : List (BitVec 32 × BitVec 32)
  symtab : Elf32Shdr
  strtab : Elf32Shdr

/-- `*count` -/
def Sections.count (t : Sections) : BitVec 32 := BitVec.ofNat 32 t.sheader.length

/-- The body of the loop over the section headers. -/
def Sections.add (t : Sections) (table : Elf32Table) (i : ℕ) (shdr : Elf32Shdr) : Sections :=
  if shdr.Executable then { t with sheader := t.sheader ++ [(shdr.shAddr, shdr.shSize)] }
  else if shdr.HasSymbols then { t with symtab := shdr }
  else if shdr.HasStrings ∧ i ≠ table.eShstrndx.toNat then { t with strtab := shdr }
  else t

/-- What `read_elf_file` is given, and what `tabs`, `progbits` and the locals of its loops hold
before they are set. -/
structure SectionHost extends ElfHost where
  shdr : ℕ → ℕ → BitVec 8
  sym : ℕ → ℕ → BitVec 8
  tabs : Elf32Shdr × Elf32Shdr
  progbits : BitVec 32 × BitVec 32

namespace SectionHost

variable (host : SectionHost) (file : List (BitVec 8))

def readTable : Elf32Table := .ofBytes (putBytes host.ehdr 0 (fread file 0 ehdrSize))

/-- `&shdr` of iteration `i`. -/
def readShdr (table : Elf32Table) (i : ℕ) : Elf32Shdr :=
  .ofBytes (putBytes (host.shdr i) 0
    (fread file (table.eShoff.toNat + i * table.eShentsize.toNat) shdrSize))

/-- The first `n` iterations of the loop. -/
def sectionsTo (table : Elf32Table) : ℕ → Sections
  | 0 => ⟨[], host.tabs.1, host.tabs.2⟩
  | n + 1 => (sectionsTo table n).add table n (host.readShdr file table n)

def sections : Sections :=
  host.sectionsTo file (host.readTable file) (host.readTable file).eShnum.toNat

/-- `progbits` and `progc` after the first `n` program headers. -/
def progbitsTo (ehdr : Elf32Ehdr) : ℕ → (BitVec 32 × BitVec 32) × Bool
  | 0 => (host.progbits, false)
  | n + 1 =>
    let phdr := host.readPhdr file ehdr n
    match progbitsTo ehdr n with
    | (p, progc) =>
      if phdr.Loads then
        if progc then ((p.1, phdr.pVaddr + phdr.pFilesz), true) else ((phdr.pVaddr, p.2), true)
      else (p, progc)

def readProgbits : BitVec 32 × BitVec 32 :=
  (host.progbitsTo file (host.readEhdr file) (host.readEhdr file).ePhnum.toNat).1

/-- `&sym` of iteration `i`. -/
def readSym (shdr : Elf32Shdr) (i : ℕ) : Elf32Sym :=
  .ofBytes (putBytes (host.sym i) 0 (fread file (shdr.shOffset.toNat + i * symSize) symSize))

/-- The entries of the symbol table, from the first one on. -/
def readSyms : List Elf32Sym :=
  (List.range (nsyms (host.sections file).symtab.shSize)).map
    (host.readSym file (host.sections file).symtab)

/-- `*ccc` and `*symbols`, which `calloc` zeroed, before they are sorted. -/
def collected : ℕ × (ℕ → BitVec 32) :=
  collect (host.readProgbits file) (host.readSyms file) 0 fun _ => 0

/-- The labels of rows with the symbols sorted. -/
def labels (garbage : Label) (rows : List (BitVec 32)) :
    Except SymFault (List (BitVec 32 × BitVec 32)) := do
  let (_, words) ← (sortSymbols (host.collected file).1).run (host.collected file).2
  I386Vm.labels (host.collected file).1 words garbage rows

end SectionHost

/-- A program on the machine. -/
def onMachine {α : Type} (x : Exec α) : Load α := fun s =>
  match x.run s.machine with
  | .ok (a, m) => .ok (a, { s with machine := m })
  | .error e => .error e

/-- `r`, where the loop is reached. -/
def blindElfStart (host : SectionHost) (argc : BitVec 32) (argv envp : List CString) :
    Load (Option (BitVec 32)) := do
  let ok ← onMachine initializeMachine
  if ok = 0 then return none
  else do
    let res ← readElfFile host.toElfHost argc argv envp
    if res ≠ 0 then return none
    else return host.elfFile.map fun file => (host.sections file).count

/-- `read_raw_file`: 0 and `*count`, or 1. -/
def readRawFile (log : Bool) (file : Option (List (BitVec 8))) :
    Load (BitVec 32 × BitVec 32) :=
  match log, file with
  | true, some file => do
    modify fun s => { s with machine := { s.machine with
      mem := putBytes s.machine.mem 0 file, eip := 0 } }
    return (0, BitVec.ofNat 32 file.length)
  | _, _ => return (1, 0)

/-- `size`, where the loop is reached. -/
def blindRawStart (log : Bool) (file : Option (List (BitVec 8))) :
    Load (Option (BitVec 32)) := do
  let ok ← onMachine initializeMachine
  if ok = 0 then return none
  else do
    let (res, size) ← readRawFile log file
    if res ≠ 0 then return none else return some size

end I386Vm
