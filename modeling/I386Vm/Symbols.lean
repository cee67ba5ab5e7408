import I386Vm.Lib.Prog
import Mathlib.Data.BitVec
import Mathlib.Logic.Function.Basic

/-!
# Function symbols

What `read_elf_file` makes of the symbol table for the debugger: an array of words, two for each
function, its name as an index into `.strtab` and its address, sorted by address. And the labels
that the rendering loop of `interface_elf_main` takes from it, row by row.
-/

namespace I386Vm

open Prog

/-- An index that is not one of a symbol, or an `int` that overflows. -/
inductive SymFault
  | index | overflow
  deriving DecidableEq

/-- Programs on `*symbols`. -/
abbrev Sym := Prog (ℕ → BitVec 32) SymFault

/-- The fields of an `Elf32_Sym` that are used. -/
structure Elf32Sym where
  stName : BitVec 32
  stValue : BitVec 32
  stInfo : BitVec 8

/-- `tabs[0].sh_size / sizeof(Elf32_Sym)` -/
def nsyms (shSize : BitVec 32) : ℕ := shSize.toNat / 16

/-- The test for `STT_FUNC`, or `STT_NOTYPE` between the two of `progbits`. -/
def isFunction (progbits : BitVec 32 × BitVec 32) (sym : Elf32Sym) : Bool :=
  sym.stInfo &&& 0xF = 2 ∨
    (sym.stInfo &&& 0xF = 0 ∧ progbits.1 ≤ sym.stValue ∧ sym.stValue ≤ progbits.2)

/-- The loop over the symbol table, from `*ccc` on. -/
def collect (progbits : BitVec 32 × BitVec 32) :
    List Elf32Sym → ℕ → (ℕ → BitVec 32) → ℕ × (ℕ → BitVec 32)
  | [], ccc, words => (ccc, words)
  | sym :: rest, ccc, words =>
    if isFunction progbits sym then
      collect progbits rest (ccc + 1)
        (Function.update (Function.update words (ccc * 2) sym.stName) (ccc * 2 + 1) sym.stValue)
    else collect progbits rest ccc words

/-- `(*symbols)[k]`, one of the words of the `ccc` symbols. -/
def symbol (ccc k : ℕ) : Sym (BitVec 32) := do
  let words ← get
  if k < 2 * ccc then return words k else throw .index

def setSymbol (ccc k : ℕ) (x : BitVec 32) : Sym Unit :=
  if k < 2 * ccc then modify fun words => Function.update words k x else throw .index

/-- `for (; j < *ccc; j++)`, with `n` values of `j` to go. -/
def minFrom (ccc : ℕ) : ℕ → ℕ → ℕ → Sym ℕ
  | 0, _, minIdx => return minIdx
  | n + 1, j, minIdx => do
    let x ← symbol ccc (2 * j + 1)
    let y ← symbol ccc (2 * minIdx + 1)
    minFrom ccc n (j + 1) (if x < y then j else minIdx)

def exchange (ccc i minIdx : ℕ) : Sym Unit := do
  let temp ← symbol ccc (i * 2 + 1)
  let temp1 ← symbol ccc (i * 2)
  let vaddr ← symbol ccc (minIdx * 2 + 1)
  setSymbol ccc (i * 2 + 1) vaddr
  let index ← symbol ccc (minIdx * 2)
  setSymbol ccc (i * 2) index
  setSymbol ccc (minIdx * 2 + 1) temp
  setSymbol ccc (minIdx * 2) temp1

/-- `for (; i < (*ccc)-1; i++)`, with `n` values of `i` to go; the number of iterations. -/
def sortFrom (ccc : ℕ) : ℕ → ℕ → Sym ℕ
  | 0, _ => return 0
  | n + 1, i =>
    if i + 1 = 2 ^ 31 then throw .overflow
    else do
      let minIdx ← minFrom ccc (ccc - (i + 1)) (i + 1) i
      (if minIdx ≠ i then exchange ccc i minIdx else return ())
      let k ← sortFrom ccc n (i + 1)
      return k + 1

/-- The bound of the loop is unsigned. -/
def sortSymbols (ccc : ℕ) : Sym ℕ := sortFrom ccc (BitVec.ofNat 32 ccc - 1).toNat 0

section Labels

variable (ccc : ℕ) (words : ℕ → BitVec 32)

/-- `func` as an index into `strtab`, and the other locals. -/
structure Label where
  func : BitVec 32
  fbase : BitVec 32
  limit : BitVec 32
  strcount : BitVec 32

/-- `symbols[k]` -/
def symbolAt (k : ℕ) : Except SymFault (BitVec 32) :=
  if k < 2 * ccc then return words k else throw .index

/-- `for (; k < bound; k++)`, with `n` values of `k` to go. -/
def scanLabel (addr : BitVec 32) : ℕ → ℕ → Label → Except SymFault Label
  | 0, _, l => return l
  | n + 1, k, l => do
    let base ← symbolAt ccc words (2 * k + 1)
    if base ≤ addr then do
      let limit ← symbolAt ccc words (2 * (k + 1) + 1)
      if addr < limit then do
        let func ← symbolAt ccc words (2 * k)
        return ⟨func, base, limit, BitVec.ofNat 32 k⟩
      else scanLabel addr n (k + 1) l
    else scanLabel addr n (k + 1) l

/-- `strcount -1 >= 0 && addr < symbols[2*(strcount)+1] && addr >= symbols[2*(strcount-1)+1]`, of
which the first always holds. -/
def isPrevious (l : Label) (addr : BitVec 32) : Except SymFault Bool := do
  let base ← symbolAt ccc words (2 * l.strcount + 1).toNat
  if addr < base then do
    let previous ← symbolAt ccc words (2 * (l.strcount - 1) + 1).toNat
    return previous ≤ addr
  else return false

/-- `symbols[2*(strcount+1)+1] <= addr && addr < symbols[2*(strcount+2)+1]` -/
def isNext (l : Label) (addr : BitVec 32) : Except SymFault Bool := do
  let base ← symbolAt ccc words (2 * (l.strcount + 1) + 1).toNat
  if base ≤ addr then do
    let limit ← symbolAt ccc words (2 * (l.strcount + 2) + 1).toNat
    return addr < limit
  else return false

/-- The label of a row below another one. -/
def nextLabel (l : Label) (addr : BitVec 32) : Except SymFault Label :=
  if addr < l.limit then return l
  else do
    let previous ← isPrevious ccc words l addr
    if previous then do
      let fbase ← symbolAt ccc words (2 * (l.strcount - 1) + 1).toNat
      let func ← symbolAt ccc words (2 * (l.strcount - 1)).toNat
      return ⟨func, fbase, l.fbase, l.strcount - 1⟩
    else do
      let next ← isNext ccc words l addr
      if next then do
        let func ← symbolAt ccc words (2 * (l.strcount + 1)).toNat
        let limit ← symbolAt ccc words (2 * (l.strcount + 2) + 1).toNat
        return ⟨func, l.limit, limit, l.strcount + 1⟩
      else scanLabel ccc words addr (BitVec.ofNat 32 ccc - 1).toNat 0 l

/-- The name and the base of each row below one with the label. -/
def labelsBelow : Label → List (BitVec 32) → Except SymFault (List (BitVec 32 × BitVec 32))
  | _, [] => return []
  | l, addr :: rest => do
    let l' ← nextLabel ccc words l addr
    let below ← labelsBelow l' rest
    return (l'.func, l'.fbase) :: below

/-- The labels of the rows at these addresses; the locals are not initialised. -/
def labels (garbage : Label) : List (BitVec 32) → Except SymFault (List (BitVec 32 × BitVec 32))
  | [] => return []
  | addr :: rest => do
    let l ← scanLabel ccc words addr ccc 0 garbage
    let below ← labelsBelow ccc words l rest
    return (l.func, l.fbase) :: below

end Labels

end I386Vm
