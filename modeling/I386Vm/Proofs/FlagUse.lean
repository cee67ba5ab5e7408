import I386Vm.Proofs.Refinement

/-!
# What the instructions make of the flags

An instruction looks at the flags of `Instr.reads` and sets the flags of `Instr.writes`, which for
a shift depend on the count. With other flags that agree on the first it does the same to the
registers, memory and `eip`, leaves the same in the second, and the others as they are
(`exec_withFlag`).
-/

namespace I386Vm

open Bytes

namespace Instr

/-- The flags that decide what the instruction does. -/
def reads : Instr → List Flag
  | alu op _ _ _ => if op = .adc ∨ op = .sbb then [.CF] else []
  | setcc k _ => k.flags
  | jcc k _ => k.flags
  | cmc => [.CF]
  | _ => []

def writes (c : Cpu) : Instr → List Flag
  | alu op _ _ _ =>
    if op = .and ∨ op = .or ∨ op = .xor ∨ op = .test then [.CF, .PF, .ZF, .SF, .OF]
    else [.CF, .PF, .AF, .ZF, .SF, .OF]
  | neg _ _ => [.CF, .PF, .AF, .ZF, .SF, .OF]
  | shift _ _ _ count =>
    if c.count count = 0 then []
    else if c.count count = 1 then [.CF, .PF, .ZF, .SF, .OF]
    else [.CF, .PF, .ZF, .SF]
  | imul _ _ => [.CF, .OF]
  | imulImm _ _ _ => [.CF, .OF]
  | inc _ _ => [.PF, .AF, .ZF, .SF, .OF]
  | dec _ _ => [.PF, .AF, .ZF, .SF, .OF]
  | clc => [.CF]
  | stc => [.CF]
  | cmc => [.CF]
  | _ => []

/-- The flag is set by the i386 and by the handler; `neg_i` leaves `AF`. -/
def Sets (c : Cpu) (i : Instr) (f : Flag) : Prop :=
  f ∈ i.writes c ∧ match i with
    | neg _ _ => f ≠ .AF
    | _ => True

end Instr

namespace Cpu

def withFlag (c : Cpu) (fl : Flag → Bool) : Cpu := { c with flag := fl }

variable (c : Cpu) (fl : Flag → Bool) (w : Width)

@[simp] theorem withFlag_flag : c.withFlag c.flag = c := rfl

@[simp] theorem place_withFlag (l : Loc) : (c.withFlag fl).place l = c.place l := by
  cases l <;> rfl

@[simp] theorem get_withFlag (l : Loc) : (c.withFlag fl).get w l = c.get w l := by
  cases l <;> rfl

@[simp] theorem operand_withFlag (src : Src w) : (c.withFlag fl).operand src = c.operand src := by
  rcases src with (r | a) | v <;> rfl

@[simp] theorem count_withFlag (k : Count) : (c.withFlag fl).count k = c.count k := by
  cases k <;> rfl

@[simp] theorem store_withFlag (p : Place) (x : BitVec 32) :
    (c.withFlag fl).store w p x = (c.store w p x).withFlag fl := by
  cases p <;> rfl

@[simp] theorem put_withFlag (l : Loc) (x : BitVec 32) :
    (c.withFlag fl).put w l x = (c.put w l x).withFlag fl := by
  cases l <;> rfl

theorem Alike.withFlag {c d : Cpu} (h : d.Alike c) : d = c.withFlag d.flag :=
  Cpu.ext h.reg h.eip rfl h.mem

theorem alike_withFlag {d : Cpu} : d.Alike (c.withFlag fl) ↔ d.Alike c :=
  ⟨fun h => ⟨h.reg, h.eip, h.mem⟩, fun h => ⟨h.reg, h.eip, h.mem⟩⟩

end Cpu

section Exec

variable {i : Instr} {c : Cpu} {fl : Flag → Bool} (n : BitVec 32)

theorem Cond.holds_congr {k : Cond} (h : ∀ f ∈ k.flags, fl f = c.flag f) :
    k.holds fl = k.holds c.flag := by
  cases k <;> simp_all [Cond.flags, Cond.holds]

theorem Alu.carryIn_congr {op : Alu} {w : Width} {dst : Loc} {src : Src w}
    (h : ∀ f ∈ (Instr.alu op w dst src).reads, fl f = c.flag f) :
    op.carryIn (fl .CF) = op.carryIn (c.flag .CF) := by
  cases op <;> simp_all [Instr.reads, Alu.carryIn]

/-- Two sets of flags over one machine. -/
theorem Cpu.goto_withFlag {d : Cpu} {x : BitVec 32} {g g' : Flag → Bool} (h : ∀ f, g f = g' f) :
    (d.withFlag g).goto x = ((d.goto x).withFlag g') := by
  rw [show g = g' from funext h]
  rfl

theorem Instr.exec_withFlag (h : ∀ f ∈ i.reads, fl f = c.flag f) :
    i.exec n (c.withFlag fl) = (i.exec n c).withFlag fun f =>
      if f ∈ i.writes c then (i.exec n c).flag f else fl f := by
  cases i with
  | alu op w dst src =>
    have hk : op.carryIn ((c.withFlag fl).flag .CF) = op.carryIn (c.flag .CF) :=
      Alu.carryIn_congr h
    simp only [Instr.exec, Cpu.get_withFlag, Cpu.operand_withFlag, Cpu.put_withFlag, hk]
    cases op <;> exact Cpu.goto_withFlag fun f => by cases f <;> rfl
  | inc w dst =>
    simp only [Instr.exec, Cpu.get_withFlag, Cpu.put_withFlag]
    exact Cpu.goto_withFlag fun f => by cases f <;> rfl
  | dec w dst =>
    simp only [Instr.exec, Cpu.get_withFlag, Cpu.put_withFlag]
    exact Cpu.goto_withFlag fun f => by cases f <;> rfl
  | neg w dst =>
    simp only [Instr.exec, Cpu.get_withFlag, Cpu.put_withFlag]
    exact Cpu.goto_withFlag fun f => by cases f <;> rfl
  | shift op w dst count =>
    simp only [Instr.exec, Instr.writes, Cpu.shift, Cpu.count_withFlag, Cpu.get_withFlag,
      Cpu.put_withFlag]
    by_cases h0 : c.count count = 0
    · simp only [if_pos h0]
      rfl
    by_cases h1 : c.count count = 1
    · simp only [h1, one_ne_zero, if_false, if_true]
      exact Cpu.goto_withFlag fun f => by cases f <;> rfl
    · simp only [if_neg h0, if_neg h1, Shift.status]
      exact Cpu.goto_withFlag fun f => by cases f <;> rfl
  | imul dst src =>
    simp only [Instr.exec, Cpu.get_withFlag]
    exact Cpu.goto_withFlag fun f => by cases f <;> rfl
  | imulImm dst src v =>
    simp only [Instr.exec, Cpu.get_withFlag]
    exact Cpu.goto_withFlag fun f => by cases f <;> rfl
  | setcc k dst =>
    have hk : k.holds (c.withFlag fl).flag = k.holds c.flag := Cond.holds_congr h
    simp only [Instr.exec, Cpu.put_withFlag, hk]
    rfl
  | jcc k target =>
    have hk : k.holds (c.withFlag fl).flag = k.holds c.flag := Cond.holds_congr h
    simp only [Instr.exec, hk]
    rfl
  | clc => exact Cpu.goto_withFlag fun f => by cases f <;> rfl
  | stc => exact Cpu.goto_withFlag fun f => by cases f <;> rfl
  | cmc =>
    have hcf : fl .CF = c.flag .CF := h .CF List.mem_cons_self
    refine Cpu.goto_withFlag fun f => ?_
    cases f with
    | CF => exact congrArg (! ·) hcf
    | _ => rfl
  | _ =>
    simp only [Instr.exec, Cpu.get_withFlag, Cpu.operand_withFlag, Cpu.put_withFlag,
      Cpu.place_withFlag, Cpu.store_withFlag]
    rfl

/-- What is not written stays. -/
theorem Instr.exec_flag {f : Flag} (hf : f ∉ i.writes c) : (i.exec n c).flag f = c.flag f := by
  have h := congrFun (congrArg Cpu.flag (@exec_withFlag i c c.flag n fun _ _ => rfl)) f
  rw [Cpu.withFlag_flag] at h
  exact h.trans (if_neg hf)

theorem Instr.fits_withFlag : i.Fits (c.withFlag fl) ↔ i.Fits c := by
  have hsrc {w : Width} (src : Src w) : (c.withFlag fl).FitsSrc src ↔ c.FitsSrc src := by
    rcases src with (r | a) | v <;> rfl
  have hloc (w : Width) (l : Loc) : (c.withFlag fl).Fits w l ↔ c.Fits w l := by
    cases l <;> rfl
  cases i <;> simp only [Instr.Fits, hsrc, hloc]

theorem Instr.faithful_withFlag (h : ∀ f ∈ i.reads, fl f = c.flag f) :
    i.Faithful n (c.withFlag fl) ↔ i.Faithful n c := by
  have hflags {k : Cond} (hk : k = .g ∨ k = .le) (hr : ∀ f ∈ k.flags, fl f = c.flag f) :
      (fl .ZF = (fl .SF != fl .OF) ↔ c.flag .ZF = (c.flag .SF != c.flag .OF)) := by
    rcases hk with rfl | rfl <;> simp_all [Cond.flags]
  cases i with
  | setcc k dst => exact forall_congr' fun hk => hflags hk h
  | jcc k target => exact forall_congr' fun hk => or_congr (hflags (.inr hk) h) Iff.rfl
  | _ => rfl

theorem Instr.undefined_withFlag : i.undefined (c.withFlag fl) = i.undefined c := by
  cases i <;> simp only [Instr.undefined, Cpu.count_withFlag]

theorem Instr.right_withFlag (h : ∀ f ∈ i.reads, fl f = c.flag f) {f : Flag}
    (hf : i.Sets c f ∨ fl f = c.flag f) : i.Right (c.withFlag fl) f ↔ i.Right c f := by
  -- the other flags that are looked at are those that the handler, or the i386, should have set
  have hkept (g : Flag) (hg : ¬ i.Sets c g) (hfg : f = g) :
      (c.withFlag fl).flag g = c.flag g := by
    subst hfg
    exact hf.resolve_left hg
  cases i with
  | alu op w dst src =>
    have hk : op.carryIn ((c.withFlag fl).flag .CF) = op.carryIn (c.flag .CF) :=
      Alu.carryIn_congr h
    simp only [Instr.Right, Cpu.get_withFlag, Cpu.operand_withFlag, hk]
  | inc w dst =>
    simp only [Instr.Right, Cpu.get_withFlag]
    refine forall_congr' fun hcf => ?_
    rw [hkept .CF (by simp [Instr.Sets, Instr.writes]) hcf]
  | dec w dst =>
    simp only [Instr.Right, Cpu.get_withFlag]
    refine and_congr (forall_congr' fun hcf => ?_) Iff.rfl
    rw [hkept .CF (by simp [Instr.Sets, Instr.writes]) hcf]
  | neg w dst =>
    simp only [Instr.Right, Cpu.get_withFlag]
    refine and_congr Iff.rfl (forall_congr' fun haf => ?_)
    rw [hkept .AF (by simp [Instr.Sets]) haf]
  | shift op w dst count => simp only [Instr.Right, Cpu.get_withFlag, Cpu.count_withFlag]
  | imul dst src =>
    simp only [Instr.Right, Cpu.get_withFlag]
    rfl
  | imulImm dst src v => simp only [Instr.Right, Cpu.get_withFlag]
  | _ => rfl

/-- What the handler leaves against another processor, with the same flags where the instruction
looks at them. -/
theorem Refines.transfer {s t : Machine} (h : Refines i n s t) (hd : s.abs.Alike c)
    (hreads : ∀ f ∈ i.reads, s.abs.flag f = c.flag f) :
    (t.abs.Alike (i.exec n c) ↔ i.Faithful n c) ∧
      ∀ f ∉ i.undefined c, i.Sets c f ∨ s.abs.flag f = c.flag f →
        (t.testFlag f = (i.exec n c).flag f ↔ i.Right c f) := by
  obtain ⟨hdata, hflags⟩ := h
  rw [hd.withFlag, Instr.exec_withFlag n hreads] at hdata hflags
  rw [Cpu.alike_withFlag, Instr.faithful_withFlag n hreads] at hdata
  rw [Instr.undefined_withFlag] at hflags
  refine ⟨hdata, fun f hu hf => ?_⟩
  rw [← Instr.right_withFlag hreads hf, ← hflags f hu]
  refine iff_of_eq (congrArg (t.testFlag f = ·) ?_)
  change _ = if f ∈ i.writes c then (i.exec n c).flag f else s.abs.flag f
  split
  · rfl
  · rename_i hw
    rw [hf.resolve_left fun hs => hw hs.1, Instr.exec_flag n hw]

end Exec

end I386Vm
