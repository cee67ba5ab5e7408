import Mathlib.Data.BitVec
import Mathlib.Data.Nat.Notation

/-!
# The code view

The part of the disassembly that `interface_elf_main` and `interface_raw_main` show, one instruction
a row from `scr_c` on: the rendering loop, the search for `eip` after a command that executes, and
the keys that scroll. A read past the instructions that `cs_disasm` found is a fault.
-/

namespace I386Vm

/-- An index that is not one of a decoded instruction. -/
inductive ViewFault
  | index
  deriving DecidableEq

/-- The addresses of the instructions decoded in a section, and its size in bytes. -/
structure CodeSection where
  addrs : List (BitVec 32)
  size : ℕ
  length_le : addrs.length ≤ size

namespace CodeSection

variable (sec : CodeSection)

/-- `insns[i][k].address` -/
def insn (k : ℕ) : Except ViewFault (BitVec 32) :=
  match sec.addrs[k]? with
  | some addr => return addr
  | none => throw .index

/-- `for (; j < end; j++)`, with `n` values of `j` to go. -/
def scan (dir : BitVec 32) : ℕ → ℕ → Except ViewFault (Option ℕ)
  | 0, _ => return none
  | n + 1, j => do
    let addr ← sec.insn j
    if dir = addr then return some j else scan dir n (j + 1)

end CodeSection

/-- `scr_c?scr_c-1:scr_c` -/
def lineAbove (scrC : ℕ) : ℕ := if scrC ≠ 0 then scrC - 1 else scrC

section Elf

/-- `counts`, after `count` instructions. -/
def countsFrom : ℕ → List CodeSection → List ℕ
  | _, [] => []
  | count, sec :: rest => (count + sec.addrs.length) :: countsFrom (count + sec.addrs.length) rest

variable (secs : List CodeSection)

/-- `insns[sh][k].address` -/
def insnAt (sh k : ℕ) : Except ViewFault (BitVec 32) :=
  match secs[sh]? with
  | some sec => sec.insn k
  | none => throw .index

/-- The address that a row shows. -/
def elfRow (index : ℕ) : Except ViewFault (BitVec 32) :=
  let counts := countsFrom 0 secs
  let sh := (counts.findIdx? fun c => index < c).getD 0
  let prev := if sh = 0 then 0 else counts.getD (sh - 1) 0
  insnAt secs sh (index - prev)

/-- The loop over the sections, each with its element of `counts`. -/
def searchFrom (last : CodeSection → ℕ → ℕ → ℕ) (place : ℕ → ℕ) (dir : BitVec 32) (scrC : ℕ) :
    List (CodeSection × ℕ) → ℕ → Except ViewFault ℕ
  | [], _ => return scrC
  | (sec, c) :: rest, ini => do
    match ← sec.scan dir (last sec ini c) 0 with
    | some j => return place (j + ini)
    | none => searchFrom last place dir scrC rest c

/-- After `s`, `c` and `n`, with `end = sheader[2*i+1]`. -/
def elfFind (eip : BitVec 32) (scrC : ℕ) : Except ViewFault ℕ :=
  searchFrom (fun sec _ _ => sec.size) lineAbove eip scrC (secs.zip (countsFrom 0 secs)) 0

/-- After `f`, with `end = counts[i]-counts[i-1]`. -/
def elfLookup (dir : BitVec 32) (scrC : ℕ) : Except ViewFault ℕ :=
  searchFrom (fun _ ini c => c - ini) id dir scrC (secs.zip (countsFrom 0 secs)) 0

end Elf

section Raw

variable (sec : CodeSection)

/-- After `s`, `c` and `n`, and after `f`. -/
def rawFind (dir : BitVec 32) (scrC : ℕ) : Except ViewFault ℕ := do
  match ← sec.scan dir sec.size 0 with
  | some i => return lineAbove i
  | none => return scrC

end Raw

/-- What is decoded before the first screen: the executable sections, or the whole file. -/
inductive Listing
  | elf (secs : List CodeSection)
  | raw (sec : CodeSection)

inductive Focus
  | code | stack

/-- `scr_c` and `focus` -/
structure View where
  scrC : ℕ
  focus : Focus

/-- A key of the user; `exec` is `s`, `c` or `n`, with the `eip` it leads to. -/
inductive Key
  | exec (eip : BitVec 32)
  | down
  | up
  | left
  | right
  | f (dir : BitVec 32)
  | other

namespace Listing

variable (l : Listing)

def sections : List CodeSection :=
  match l with
  | elf secs => secs
  | raw sec => [sec]

/-- `count` -/
def count : ℕ := (l.sections.map fun sec => sec.addrs.length).sum

def row (index : ℕ) : Except ViewFault (BitVec 32) :=
  match l with
  | elf secs => elfRow secs index
  | raw sec => sec.insn index

/-- The rendering loop from `i` on, with `n` rows to go. -/
def renderFrom (scrC : ℕ) : ℕ → ℕ → Except ViewFault (List (BitVec 32))
  | 0, _ => return []
  | n + 1, i => do
    let addr ← l.row (i + scrC)
    let below ← renderFrom scrC n (i + 1)
    return addr :: below

def render (rows scrC : ℕ) : Except ViewFault (List (BitVec 32)) :=
  l.renderFrom scrC (min rows (l.count - scrC + 1)) 0

def find (eip : BitVec 32) (scrC : ℕ) : Except ViewFault ℕ :=
  match l with
  | elf secs => elfFind secs eip scrC
  | raw sec => rawFind sec eip scrC

def lookup (dir : BitVec 32) (scrC : ℕ) : Except ViewFault ℕ :=
  match l with
  | elf secs => elfLookup secs dir scrC
  | raw sec => rawFind sec dir scrC

/-- `scr_c` before the first screen. -/
def start (eip : BitVec 32) : Except ViewFault ℕ :=
  match l with
  | elf secs => elfFind secs eip 0
  | raw _ => return 0

/-- What a key makes of `scr_c` and `focus`. -/
def press (v : View) : Key → Except ViewFault View
  | .exec eip => do
    let scrC ← l.find eip v.scrC
    return { v with scrC }
  | .down =>
    match v.focus with
    | .code => return if v.scrC + 1 < l.count then { v with scrC := v.scrC + 1 } else v
    | .stack => return v
  | .up =>
    match v.focus with
    | .code => return if v.scrC > 0 then { v with scrC := v.scrC - 1 } else v
    | .stack => return v
  | .left => return { v with focus := .code }
  | .right => return { v with focus := .stack }
  | .f dir =>
    match v.focus with
    | .code => do
      let scrC ← l.lookup dir v.scrC
      return { v with scrC }
    | .stack => return v
  | .other => return v

/-- The views that the loop comes to; with nothing decoded there is none. -/
inductive Reached : View → Prop
  | start {eip : BitVec 32} {scrC : ℕ} (decoded : l.count ≠ 0) (first : l.start eip = .ok scrC) :
      Reached ⟨scrC, .code⟩
  | press {v v' : View} (before : Reached v) (key : Key) (pressed : l.press v key = .ok v') :
      Reached v'

end Listing

end I386Vm
