import Mathlib.Data.Nat.Notation
import Mathlib.Logic.Function.Basic

/-!
# Breakpoints

The commands `b` and `d` of `interface_elf_main` and `interface_raw_main`, and the test their `c`
makes before each instruction. The array is a local of those functions and is not initialised.
-/

namespace I386Vm

/-- `MAX_BRK` -/
def maxBrk : ℕ := 25

/-- `contains`: `val` is one of the first `size` elements. -/
def contains (arr : ℕ → BitVec 32) (size : ℕ) (val : BitVec 32) : Bool :=
  (List.range size).any fun i => arr i = val

structure Debugger where
  brkpts : ℕ → BitVec 32
  brkCtr : BitVec 8

namespace Debugger

/-- `brkpts` holds what was on the C stack. -/
def start (garbage : ℕ → BitVec 32) : Debugger := ⟨garbage, 0⟩

variable (d : Debugger)

/-- `brkpts[brk_ctr] = dir; brk_ctr++; brk_ctr %= MAX_BRK` -/
def cmdB (dir : BitVec 32) : Debugger where
  brkpts := Function.update d.brkpts d.brkCtr.toNat dir
  brkCtr := (d.brkCtr + 1) % BitVec.ofNat 8 maxBrk

/-- `dir--; dir %= MAX_BRK; brkpts[dir] = 0` -/
def cmdD (dir : BitVec 32) : Debugger :=
  { d with brkpts := Function.update d.brkpts ((dir - 1) % BitVec.ofNat 32 maxBrk).toNat 0 }

/-- The test of `c`. -/
def stopsAt (eip : BitVec 32) : Bool := contains d.brkpts d.brkCtr.toNat eip

end Debugger

end I386Vm
