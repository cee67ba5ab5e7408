import Mathlib.Data.Nat.Notation

/-!
# `flags.c`: the flag bits and how they are computed

The masks of `flags.h`, and the tests of results that the arithmetic handlers turn into flags.
-/

namespace I386Vm

/-- The flags of `flags.h` that the program sets or tests by name. -/
inductive Flag
  | CF | PF | AF | ZF | SF | TF | IF | DF | OF
  deriving DecidableEq

namespace Flag

def mask : Flag → BitVec 32
  | CF => 0b0000000000000001
  | PF => 0b0000000000000100
  | AF => 0b0000000000010000
  | ZF => 0b0000000001000000
  | SF => 0b0000000010000000
  | TF => 0b0000000100000000
  | IF => 0b0000001000000000
  | DF => 0b0000010000000000
  | OF => 0b0000100000000000

def bit : Flag → ℕ
  | CF => 0
  | PF => 2
  | AF => 4
  | ZF => 6
  | SF => 7
  | TF => 8
  | IF => 9
  | DF => 10
  | OF => 11

end Flag

/-- The bits `flags.h` says are constant: bit 1 is 1, bits 3, 5 and 15 are 0. -/
def reservedMask : BitVec 32 := 0b1000000000101010

def eflagsInit : BitVec 32 := 0x202

def zero (v : BitVec 32) : Bool := v = 0

/-- `v >> (base-1) ? 1 : 0`: some bit of `v` from the sign bit of a `base`-bit value on is set. -/
def sign (v : BitVec 32) (base : BitVec 8) : Bool := v >>> (base.toNat - 1) ≠ 0

def overflow (op1 op2 res : BitVec 32) (base : BitVec 8) : Bool :=
  (((op1 ^^^ res) &&& (op2 ^^^ res)) >>> (base.toNat - 1)) &&& 1 ≠ 0

def parity (vv : BitVec 32) : Bool :=
  ((List.range 8).filter fun i => (vv.setWidth 8).getLsbD i).length % 2 = 0

def adjust (op1 op2 res : BitVec 32) : Bool := (op1 ^^^ op2 ^^^ res) &&& 0x10 ≠ 0

end I386Vm
