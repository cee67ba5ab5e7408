import I386Vm.Lib.Image
import I386Vm.Transfer

/-!
# The initial stack

`load_stack` and `read_auxv` of the loader. The host gives its `argv`, its `envp`, what it reads
from `/proc/self/auxv` and what `random` returns. The arrays `argv_emu` and `envp_emu` are locals
and are not initialised.
-/

namespace I386Vm

open Bytes Prog

/-- `STACK_BOTTOM` -/
def stackBottom : BitVec 32 := 0xFFF00000

/-- `STACK_TOP` -/
def stackTop : BitVec 32 := stackBottom - 0x22000

/-- The characters of a C string, without the NUL that ends it. -/
structure CString where
  chars : List (BitVec 8)
  noNul : 0 ∉ chars

/-- The `strlen(p) + 1` bytes of a string. -/
def CString.bytes (p : CString) : List (BitVec 8) := p.chars ++ [0]

/-- `"x86"` -/
def platform : CString := ⟨[0x78, 0x38, 0x36], by decide⟩

/-- `Elf64_auxv_t` -/
structure Elf64Auxv where
  aType : BitVec 64
  aVal : BitVec 64

structure LoaderHost where
  auxv : List Elf64Auxv
  random : ℕ → BitVec 32

/-- The machine, and the variables `read_elf_file`, `load_stack` and the getters share. -/
structure Loader where
  machine : Machine
  phAddr : BitVec 32
  phSize : BitVec 32
  phNum : BitVec 32
  platformAddr : BitVec 32
  execfn : BitVec 32
  rr : BitVec 32

abbrev Load := Prog Loader Fault

def Loader.esp (s : Loader) : BitVec 32 := s.machine.reg .esp

/-- `memcpy(&mem[esp], p, len)`, at host offsets that do not wrap. -/
def Machine.memcpy (s : Machine) (dst : BitVec 32) (p : List (BitVec 8)) : Machine :=
  { s with mem := putBytes s.mem dst.toNat p }

/-- `esp -= len; memcpy(&mem[esp], p, len);` -/
def Machine.pushBytes (s : Machine) (p : List (BitVec 8)) : Machine :=
  (s.setReg .esp (s.reg .esp - BitVec.ofNat 32 p.length)).memcpy
    (s.reg .esp - BitVec.ofNat 32 p.length) p

/-- The string is pushed, and `esp` is where it is. -/
def pushString (p : CString) : Load (BitVec 32) := do
  modify fun s => { s with machine := s.machine.pushBytes p.bytes }
  let s ← get
  return s.esp

/-- `esp -= 4; write32(esp, x);` -/
def pushWord (x : BitVec 32) : Load Unit :=
  modify fun s => { s with machine := s.machine.push32 x }

def setPlatformAddr (x : BitVec 32) : Load Unit := modify fun s => { s with platformAddr := x }

def setExecfn (x : BitVec 32) : Load Unit := modify fun s => { s with execfn := x }

def setRr (x : BitVec 32) : Load Unit := modify fun s => { s with rr := x }

/-- `esp &= ~0x3` -/
def alignEsp : Load Unit :=
  modify fun s => { s with machine := s.machine.setReg .esp (s.esp &&& ~~~0x3) }

/-- `getters[a_type](a_val)`; the table has 53 entries, and all others are `get_AT_GENERIC`. -/
def Loader.getters (s : Loader) (aType aVal : BitVec 64) : BitVec 32 :=
  match aType.toNat with
  | 3 => s.phAddr
  | 4 => s.phSize
  | 5 => s.phNum
  | 7 => 0
  | 9 => s.machine.eip
  | 15 => s.platformAddr
  | 24 => s.platformAddr
  | 25 => s.rr
  | 31 => s.execfn
  | _ => aVal.setWidth 32

/-- The loop over the host's entries, up to `AT_NULL`. -/
def readAuxvEntries : List Elf64Auxv → Load Unit
  | [] => return ()
  | entry :: rest =>
    if entry.aType = 0 then return ()
    else if entry.aType = 32 ∨ entry.aType = 33 then readAuxvEntries rest
    else if 53 ≤ entry.aType.toNat then throw .table
    else do
      let s ← get
      pushWord (s.getters entry.aType entry.aVal)
      pushWord (entry.aType.setWidth 32)
      readAuxvEntries rest

def readAuxv (auxv : List Elf64Auxv) : Load Unit := do
  pushWord 0
  pushWord 0
  readAuxvEntries auxv

/-- `strs[i]`, the NULL that ends the array included. -/
def stringAt (strs : List CString) (i : ℕ) : Load CString :=
  match strs[i]? with
  | some p => return p
  | none => throw .null

/-- The body of the loop over `envp`. -/
def pushEnv (envp : List CString) (i : ℕ) (envpEmu : ℕ → BitVec 32) : Load (ℕ → BitVec 32) := do
  let p ← stringAt envp i
  let esp ← pushString p
  return Function.update envpEmu i esp

def pushEnvp (envp : List CString) : (ℕ → BitVec 32) → Load (ℕ → BitVec 32) :=
  countdown 0 (pushEnv envp) envp.length

/-- The body of the loop over `argv`. -/
def pushArg (argv : List CString) (i : ℕ) (argvEmu : ℕ → BitVec 32) : Load (ℕ → BitVec 32) := do
  let p ← stringAt argv i
  let esp ← pushString p
  (if i = 1 then setExecfn esp else return ())
  return Function.update argvEmu i esp

/-- The loop ends before `i` is 1. -/
def pushArgv (argv : List CString) : (ℕ → BitVec 32) → Load (ℕ → BitVec 32) :=
  countdown 2 (pushArg argv) argv.length

/-- The loops over `envp_emu` and `argv_emu`. -/
def pushPointers (lo n : ℕ) (emu : ℕ → BitVec 32) : Load Unit :=
  countdown lo (fun i _ => pushWord (emu i)) n ()

/-- `argvEmu` and `envpEmu` are what the two arrays hold at first. -/
def loadStack (host : LoaderHost) (argvEmu envpEmu : ℕ → BitVec 32) (argc : BitVec 32)
    (argv envp : List CString) : Load Unit := do
  let envpEmu ← pushEnvp envp envpEmu
  let argvEmu ← pushArgv argv argvEmu
  let esp ← pushString platform
  setPlatformAddr esp
  pushWord (host.random 0)
  pushWord (host.random 1)
  let s ← get
  setRr s.esp
  alignEsp
  readAuxv host.auxv
  pushWord 0
  pushPointers 0 envp.length envpEmu
  pushWord 0
  pushPointers 1 argv.length argvEmu
  pushWord (argc - 1)

end I386Vm
