import I386Vm.System

/-!
# The descriptor table and `set_thread_area`

`init_gdt` fills the table that `initialize` puts at `GDT_ADDR`, and the system call rewrites a
descriptor from a `user_desc32` in guest memory. In C the fields of a `GDT_Descriptor` are at the
offsets 0 `limit_low`, 2 `base_low`, 4 `base_mid`, 5 `access`, 6 `granularity`, 7 `base_high` and
8 `used`; those of a `user_desc32` at 0 `entry_number`, 4 `base_addr`, 8 `limit` and 12 the bits.
-/

namespace I386Vm

open Bytes

/-- `GDT_ADDR` -/
def gdtAddr : ℕ := 0xC0FFF000

/-- `GDT_TLS_RESERVED`: the last descriptors of the table. -/
def gdtTlsReserved : ℕ := 0x3

/-- `access` and `granularity` of the initial descriptors. -/
def initAccess (i : ℕ) : BitVec 32 × BitVec 32 :=
  match i with
  | 0 => (0x00, 0x00)
  | 1 => (0x9A, 0xCF)
  | 2 => (0x92, 0xCF)
  | 3 => (0x89, 0x0)
  | 4 => (0xFA, 0xCF)
  | 5 => (0xF2, 0xCF)
  | _ => (0x89, 0x0)

/-- One iteration of the loop of `init_gdt`; only the descriptors from 6 on set `used`. -/
def initDescriptor (table i : ℕ) : Exec Unit := do
  store .word (.mem (table + i * gdtDescriptorSize)) 0xFFFF
  store .word (.mem (table + i * gdtDescriptorSize + 2)) 0
  store .byte (.mem (table + i * gdtDescriptorSize + 4)) 0
  store .byte (.mem (table + i * gdtDescriptorSize + 7)) 0
  store .byte (.mem (table + i * gdtDescriptorSize + 5)) (initAccess i).1
  store .byte (.mem (table + i * gdtDescriptorSize + 6)) (initAccess i).2
  (if i = 0 then store .word (.mem (table + i * gdtDescriptorSize)) 0
  else if 6 ≤ i then store .byte (.mem (table + i * gdtDescriptorSize + 8)) 0
  else return ())

/-- `n` iterations. -/
def initDescriptors (table : ℕ) : ℕ → Exec Unit
  | 0 => return ()
  | n + 1 => do
    initDescriptors table n
    initDescriptor table n

def initGdt (table : ℕ) : Exec Unit := initDescriptors table gdtEntries

/-- The end of `initialize`. -/
def initializeGdt : Exec Unit := do
  initGdt gdtAddr
  setGdtr ⟨BitVec.ofNat 16 (gdtEntries * gdtDescriptorSize), BitVec.ofNat 32 gdtAddr⟩

/-- `gdt + index` -/
def Machine.gdtEntry (s : Machine) (index : BitVec 8) : ℕ :=
  s.gdtr.base.toNat + index.toNat * gdtDescriptorSize

/-- The bit fields of a `user_desc32`. -/
structure UserBits where
  bits : BitVec 32

namespace UserBits

variable (u : UserBits)

def seg32bit : Bool := u.bits.getLsbD 0

def contents : BitVec 2 := (u.bits >>> 1).setWidth 2

def readExecOnly : Bool := u.bits.getLsbD 3

def limitInPages : Bool := u.bits.getLsbD 4

def segNotPresent : Bool := u.bits.getLsbD 5

def useable : Bool := u.bits.getLsbD 6

/-- `type`: data, code, or neither. -/
def type : BitVec 32 :=
  if u.contents = 0 then (if u.readExecOnly then 0x0 else 0x2)
  else if u.contents = 2 then (if u.readExecOnly then 0x8 else 0xA)
  else 0

/-- `access` of a present segment: `(1<<7) | (3<<5) | (1<<4) | type`. -/
def access : BitVec 32 := 0x80 ||| 0x60 ||| 0x10 ||| u.type

def granularity (limit : BitVec 32) : BitVec 32 :=
  ((limit >>> 16) &&& 0x0F) ||| (if u.limitInPages then 0x80 else 0x00)
    ||| (if u.seg32bit then 0x40 else 0x00) ||| (if u.useable then 0x10 else 0x00)

end UserBits

def loadBits (u : ℕ) : Exec UserBits := do
  let bits ← load .dword (.mem (u + 12))
  return ⟨bits⟩

/-- The entry is created field by field, and the structure is read again for each. -/
def createEntry (u : ℕ) (index : BitVec 8) : Exec (BitVec 32) := do
  let s ← get
  store .byte (.mem (s.gdtEntry index + 8)) 1
  let limit ← load .dword (.mem (u + 8))
  store .word (.mem (s.gdtEntry index)) limit
  let base ← load .dword (.mem (u + 4))
  store .word (.mem (s.gdtEntry index + 2)) (base &&& 0xFFFF)
  let base ← load .dword (.mem (u + 4))
  store .byte (.mem (s.gdtEntry index + 4)) ((base >>> 16) &&& 0xFF)
  let base ← load .dword (.mem (u + 4))
  store .byte (.mem (s.gdtEntry index + 7)) ((base >>> 24) &&& 0xFF)
  let b ← loadBits u
  store .byte (.mem (s.gdtEntry index + 5)) b.access
  let b ← loadBits u
  (if b.segNotPresent then do
    let access ← load .byte (.mem (s.gdtEntry index + 5))
    store .byte (.mem (s.gdtEntry index + 5)) (access &&& ~~~0x80)
  else return ())
  let limit ← load .dword (.mem (u + 8))
  let b ← loadBits u
  store .byte (.mem (s.gdtEntry index + 6)) (b.granularity limit)
  store .dword (.mem u) (index.setWidth 32)
  return 0

/-- The reserved entries in the order the loop looks at them. -/
def tlsEntries : List (BitVec 8) :=
  (List.range gdtTlsReserved).map fun i => BitVec.ofNat 8 (gdtEntries - gdtTlsReserved + i)

/-- The first reserved entry whose `used` is zero. -/
def Machine.freeEntry (s : Machine) : Option (BitVec 8) :=
  tlsEntries.find? fun i => s.mem (s.gdtEntry i + 8) = 0

/-- Any `entry_number` but -1 is narrowed to a `uint8_t` and used. -/
def doSetThreadArea (arg1 : BitVec 32) : Exec (BitVec 32) := do
  let s ← get
  let entry ← load .dword (.mem arg1.toNat)
  if entry ≠ -1 then createEntry arg1.toNat (entry.setWidth 8)
  else match s.freeEntry with
    | some index => createEntry arg1.toNat index
    | none => return -1

end I386Vm
