import I386Vm.Lib.Rotations
import I386Vm.Proofs.Counts

/-!
# `ROL` and `ROR`

The handlers rotate by the count modulo the width. They assign `CF` whatever the count, from a bit
that a rotation by nothing does not have, and leave `OF` alone. On 32 bits a rotation by nothing
shifts by 32.
-/

namespace I386Vm

open Bytes Prog Rotations

namespace Machine

variable (s : Machine) (w : Width) (p : Ptr) (v : BitVec 32) (c : Bool)

/-- The state after a rotation: the result at `p`, and `CF`. -/
def rotated : Machine := (s.poke w p v).assignFlag .CF c

theorem peek_rotated [SafePtr p] (hp : p.Valid) : (s.rotated w p v c).peek w p = low w.bits v := by
  rw [← s.peek_poke w hp v]
  exact (SameData.assignFlag _ _ _).peek w p

theorem testFlag_rotated [SafePtr p] (f : Flag) :
    (s.rotated w p v c).testFlag f = if f = .CF then c else s.testFlag f := by
  unfold rotated
  rw [testFlag_assignFlag, testFlag_poke]

theorem eflags_rotated_iff [SafePtr p] :
    (s.rotated w p v c).eflags = s.eflags ↔ s.testFlag .CF = c := by
  unfold rotated
  rw [← s.eflags_poke w p v, eflags_assignFlag_iff, testFlag_poke]

end Machine

section Runs

variable {w : Width} {insn : CsInsn} {s : Machine} (hop : insn.op1.IsLoc w)
  (hc : insn.op2.IsCount)
include hop hc

/-- What the two have in common: they shift by the count and by its distance from the width. -/
theorem rotate_run {handler : Handler} {f : BitVec 32 → ℕ → ℕ → BitVec 32}
    {g : BitVec 32 → ℕ → Bool}
    (hh : handler insn = do
      advance insn
      let n ← countOf insn.op2
      let s ← get
      let count ← modulo n.toNat (insn.op1.size.toNat * 8)
      let val ← load (widthOr32 insn.op1.size) (s.opPtr insn.op1)
      let k ← shiftAmount (insn.op1.size.toNat * 8 - count)
      let j ← shiftAmount count
      store (widthOr32 insn.op1.size) (s.opPtr insn.op1) (f val j k)
      assignFlag .CF (g val k)
      return some 0) :
    (handler insn).run s = if w.bits - insn.op2.count s % w.bits < 32 then
      .ok (some 0, (s.advance insn).rotated w (s.opPtr insn.op1)
        (f (insn.op1.value w s) (insn.op2.count s % w.bits)
          (w.bits - insn.op2.count s % w.bits))
        (g (insn.op1.value w s) (w.bits - insn.op2.count s % w.bits)))
      else .error .shift := by
  have hsize : insn.op1.size.toNat * 8 = w.bits := by rw [hop.1, w.toNat_size_mul]
  have hlt : insn.op2.count s % w.bits < w.bits := Nat.mod_lt _ w.bits_pos
  have hbits := w.bits_le
  have hpos := w.bits_pos
  rw [hh, located_run hop hc (by omega), hsize, hop.1, widthOr32_size,
    hop.opPtr_congr (SameData.advance s insn)]
  generalize insn.op2.count s % w.bits = n at *
  have hsub : (insn.op1.size.toNat * 8 - n : ℤ) = ↑(w.bits - n) := by omega
  rw [← hop.1, hsub]
  split_ifs with hfit
  · rw [run_bind_ok (shiftAmount_run rfl hfit _), run_bind_ok (shiftAmount_run rfl (by omega) _),
      run_bind_ok (store_run (hop.valid s) _), run_bind_ok (assignFlag_run _ _ _)]
    rfl
  · rw [run_bind_error (shiftAmount_error (by omega) _)]

theorem rolI_run : (rolI insn).run s = if w.bits - insn.op2.count s % w.bits < 32 then
    .ok (some 0, (s.advance insn).rotated w (s.opPtr insn.op1)
      ((insn.op1.value w s <<< (insn.op2.count s % w.bits)) |||
        (insn.op1.value w s >>> (w.bits - insn.op2.count s % w.bits)))
      ((insn.op1.value w s).getLsbD (w.bits - insn.op2.count s % w.bits)))
    else .error .shift := by
  rw [rotate_run hop hc rfl, shr_and_one_ne_zero]

theorem rorI_run : (rorI insn).run s = if w.bits - insn.op2.count s % w.bits < 32 then
    .ok (some 0, (s.advance insn).rotated w (s.opPtr insn.op1)
      ((insn.op1.value w s >>> (insn.op2.count s % w.bits)) |||
        (insn.op1.value w s <<< (w.bits - insn.op2.count s % w.bits)))
      ((low w.bits (insn.op1.value w s <<< (w.bits - insn.op2.count s % w.bits))).getLsbD
        (w.bits - insn.op2.count s % w.bits)))
    else .error .shift := by
  rw [rotate_run hop hc rfl, shr_and_one_ne_zero, hop.1, widthOr32_size]

end Runs

/-- The destination holds `y`, and the flags say `cf`, and `of` of a single rotation. No flag has
changed where nothing was rotated. -/
structure Rotated (w : Width) (k : ℕ) (y : BitVec w.bits) (cf of : Bool) (p : Ptr)
    (s t : Machine) : Prop where
  value : (t.peek w p).setWidth w.bits = y
  same : k = 0 → t.eflags = s.eflags
  cf : k ≠ 0 → t.testFlag .CF = cf
  of : k = 1 → t.testFlag .OF = of

/-- `CF` is the low bit of the result, and `OF` whether the top bit is another. -/
def IsRol (w : Width) (k : ℕ) (x : BitVec 32) (p : Ptr) (s t : Machine) : Prop :=
  Rotated w k ((x.setWidth w.bits).rotateLeft (k % w.bits))
    (((x.setWidth w.bits).rotateLeft (k % w.bits)).getLsbD 0)
    (((x.setWidth w.bits).rotateLeft (k % w.bits)).getLsbD (w.bits - 1) ^^
      ((x.setWidth w.bits).rotateLeft (k % w.bits)).getLsbD 0) p s t

/-- `CF` is the top bit of the result, and `OF` whether the bit below is another. -/
def IsRor (w : Width) (k : ℕ) (x : BitVec 32) (p : Ptr) (s t : Machine) : Prop :=
  Rotated w k ((x.setWidth w.bits).rotateRight (k % w.bits))
    (((x.setWidth w.bits).rotateRight (k % w.bits)).getLsbD (w.bits - 1))
    (((x.setWidth w.bits).rotateRight (k % w.bits)).getLsbD (w.bits - 1) ^^
      ((x.setWidth w.bits).rotateRight (k % w.bits)).getLsbD (w.bits - 2)) p s t

section Laws

variable {w : Width} {k n : ℕ} {x v : BitVec 32} {p : Ptr} {s : Machine} {insn : CsInsn}

theorem rotated_iff [SafePtr p] (hp : p.Valid) {y : BitVec w.bits} {cf of c : Bool} :
    Rotated w k y cf of p s ((s.advance insn).rotated w p v c) ↔ v.setWidth w.bits = y ∧
      (if k = 0 then s.testFlag .CF = c else c = cf ∧ (k = 1 → s.testFlag .OF = of)) := by
  have heflags := (s.advance insn).eflags_rotated_iff w p v c
  have hcf := (s.advance insn).testFlag_rotated w p v c .CF
  have hof := (s.advance insn).testFlag_rotated w p v c .OF
  have hvalue := (s.advance insn).peek_rotated w p v c hp
  rw [if_pos rfl] at hcf
  rw [if_neg (by decide)] at hof
  constructor
  · rintro ⟨hv, hs, hc, ho⟩
    rw [hvalue, setWidth_low] at hv
    refine ⟨hv, ?_⟩
    split_ifs with h0
    · exact heflags.1 (hs h0)
    · exact ⟨hcf.symm.trans (hc h0), fun h1 => hof.symm.trans (ho h1)⟩
  · rintro ⟨hv, hflags⟩
    rw [← setWidth_low, ← hvalue] at hv
    split_ifs at hflags with h0
    · exact ⟨hv, fun _ => heflags.2 hflags, fun hk => absurd h0 hk, fun h1 => absurd h0 (by omega)⟩
    · exact ⟨hv, fun hk => absurd hk h0, fun _ => hcf.trans hflags.1,
        fun h1 => hof.trans (hflags.2 h1)⟩

theorem getLsbD_of_le (hx : x.toNat < 2 ^ w.bits) {i : ℕ} (hi : w.bits ≤ i) :
    x.getLsbD i = false :=
  Nat.testBit_lt_two_pow (lt_of_lt_of_le hx (Nat.pow_le_pow_right Nat.two_pos hi))

/-- The two shifts of the left rotation make one of the word. -/
theorem setWidth_rol (hx : x.toNat < 2 ^ w.bits) (hn : n < w.bits) :
    ((x <<< n) ||| (x >>> (w.bits - n))).setWidth w.bits = (x.setWidth w.bits).rotateLeft n := by
  have hbits := w.bits_le
  apply BitVec.eq_of_getLsbD_eq
  intro i hi
  rw [BitVec.getLsbD_rotateLeft, Nat.mod_eq_of_lt hn, BitVec.getLsbD_setWidth, BitVec.getLsbD_or,
    BitVec.getLsbD_shiftLeft, BitVec.getLsbD_ushiftRight, BitVec.getLsbD_setWidth,
    BitVec.getLsbD_setWidth]
  by_cases hlt : i < n
  · simp [hi, hlt, show w.bits - n + i < w.bits by omega]
  · have hhigh : x.getLsbD (w.bits - n + i) = false := getLsbD_of_le hx (by omega)
    simp [hi, hlt, hhigh, show i < 32 by omega, show i - n < w.bits by omega]

theorem setWidth_ror (hx : x.toNat < 2 ^ w.bits) (hn : n < w.bits) :
    ((x >>> n) ||| (x <<< (w.bits - n))).setWidth w.bits = (x.setWidth w.bits).rotateRight n := by
  have hbits := w.bits_le
  apply BitVec.eq_of_getLsbD_eq
  intro i hi
  rw [BitVec.getLsbD_rotateRight, Nat.mod_eq_of_lt hn, BitVec.getLsbD_setWidth, BitVec.getLsbD_or,
    BitVec.getLsbD_shiftLeft, BitVec.getLsbD_ushiftRight, BitVec.getLsbD_setWidth,
    BitVec.getLsbD_setWidth]
  by_cases hlt : i < w.bits - n
  · simp [hi, hlt, show n + i < w.bits by omega]
  · have hhigh : x.getLsbD (n + i) = false := getLsbD_of_le hx (by omega)
    simp [hi, hlt, hhigh, show i < 32 by omega, show i - (w.bits - n) < w.bits by omega]

theorem bit_rotateRight_setWidth {i : ℕ} (hi : i < w.bits) :
    ((x.setWidth w.bits).rotateRight n).getLsbD i = x.getLsbD ((i + n) % w.bits) := by
  rw [bit_rotateRight _ _ hi, BitVec.getLsbD_setWidth, decide_eq_true (Nat.mod_lt _ w.bits_pos),
    Bool.true_and]

theorem bit_rotateLeft_setWidth {i : ℕ} (hi : i < w.bits) (hn : n < w.bits) :
    ((x.setWidth w.bits).rotateLeft n).getLsbD i = x.getLsbD ((i + (w.bits - n)) % w.bits) := by
  rw [rotateLeft_eq, Nat.mod_eq_of_lt hn, bit_rotateRight_setWidth hi]

end Laws

/-- On a count of 0 there is a shift by 32 or `CF` is cleared; a count that the width divides clears
it too; and `OF` of a single rotation is the one before. -/
def RolHolds (w : Width) (k : ℕ) (x : BitVec 32) (s : Machine) : Prop :=
  if k = 0 then w ≠ .dword ∧ s.testFlag .CF = false
  else (k % w.bits = 0 → x.getLsbD 0 = false) ∧
    (k = 1 → s.testFlag .OF = (x.getLsbD (w.bits - 2) ^^ x.getLsbD (w.bits - 1)))

/-- To the right `CF` is the low bit of the operand, and the top bit of the result is another
one. -/
def RorHolds (w : Width) (k : ℕ) (x : BitVec 32) (s : Machine) : Prop :=
  if k = 0 then w ≠ .dword ∧ s.testFlag .CF = false
  else (if k % w.bits = 0 then x.getLsbD (w.bits - 1) = false
      else x.getLsbD (k % w.bits - 1) = x.getLsbD 0) ∧
    (k = 1 → s.testFlag .OF = (x.getLsbD 0 ^^ x.getLsbD (w.bits - 1)))

section Holds

variable {w : Width} {insn : CsInsn} {s : Machine} {k : ℕ} (hop : insn.op1.IsLoc w)
  (hc : insn.op2.IsCount)

/-- The amounts are those of C where it is not a rotation of 32 bits by nothing. -/
theorem amount_iff (hk : k < 32) : w.bits - k % w.bits < 32 ↔ ¬ (w = .dword ∧ k = 0) := by
  cases w with
  | byte => exact iff_of_true (lt_of_le_of_lt (Nat.sub_le _ _) (by decide)) (by simp)
  | word => exact iff_of_true (lt_of_le_of_lt (Nat.sub_le _ _) (by decide)) (by simp)
  | dword =>
    change 32 - k % 32 < 32 ↔ _
    rw [Nat.mod_eq_of_lt hk]
    simp only [true_and]
    omega

include hop hc

theorem rolI_iff : (∃ r t, (rolI insn).run s = .ok (r, t) ∧
    IsRol w (insn.op2.count s % 32) (insn.op1.value w s) (s.opPtr insn.op1) s t) ↔
    RolHolds w (insn.op2.count s % 32) (insn.op1.value w s) s := by
  have hx := CsX86Op.IsLoc.value_lt insn.op1 w s
  have hsafe := hop.safe s
  have hk : insn.op2.count s % 32 < 32 := Nat.mod_lt _ (by decide)
  have hpos := w.eight_le_bits
  rw [rolI_run hop hc, mod_bits]
  generalize insn.op2.count s % 32 = k at *
  generalize insn.op1.value w s = x at *
  have hn : k % w.bits < w.bits := Nat.mod_lt _ w.bits_pos
  unfold RolHolds IsRol
  by_cases hfit : w.bits - k % w.bits < 32
  · rw [if_pos hfit, exists_run_iff, rotated_iff (hop.valid s), and_iff_right (setWidth_rol hx hn),
      bit_rotateLeft_setWidth (by omega) hn, bit_rotateLeft_setWidth (by omega) hn]
    rw [amount_iff hk] at hfit
    split_ifs with h0
    · rw [h0, Nat.zero_mod, Nat.sub_zero, getLsbD_of_le hx (le_refl _)]
      exact (and_iff_right fun hw => hfit ⟨hw, h0⟩).symm
    · refine and_congr ?_ (imp_congr_right fun h1 => ?_)
      · by_cases hn0 : k % w.bits = 0
        · rw [hn0, Nat.sub_zero, Nat.zero_add, Nat.mod_self, getLsbD_of_le hx (le_refl _)]
          exact ⟨fun h _ => h.symm, fun h => (h rfl).symm⟩
        · rw [Nat.zero_add, Nat.mod_eq_of_lt (show w.bits - k % w.bits < w.bits by omega)]
          exact iff_of_true rfl fun h => absurd h hn0
      · have hturn : w.bits - 1 + (w.bits - 1) = w.bits - 2 + w.bits := by omega
        rw [h1, Nat.mod_eq_of_lt (show 1 < w.bits by omega), Nat.zero_add, hturn,
          Nat.add_mod_right, Nat.mod_eq_of_lt (show w.bits - 2 < w.bits by omega),
          Nat.mod_eq_of_lt (show w.bits - 1 < w.bits by omega)]
  · rw [if_neg hfit]
    rw [amount_iff hk, not_not] at hfit
    rw [if_pos hfit.2]
    exact iff_of_false (fun ⟨_, _, h, _⟩ => nomatch h) fun h => h.1 hfit.1

theorem rorI_iff : (∃ r t, (rorI insn).run s = .ok (r, t) ∧
    IsRor w (insn.op2.count s % 32) (insn.op1.value w s) (s.opPtr insn.op1) s t) ↔
    RorHolds w (insn.op2.count s % 32) (insn.op1.value w s) s := by
  have hx := CsX86Op.IsLoc.value_lt insn.op1 w s
  have hsafe := hop.safe s
  have hk : insn.op2.count s % 32 < 32 := Nat.mod_lt _ (by decide)
  have hpos := w.eight_le_bits
  rw [rorI_run hop hc, mod_bits]
  generalize insn.op2.count s % 32 = k at *
  generalize insn.op1.value w s = x at *
  have hn : k % w.bits < w.bits := Nat.mod_lt _ w.bits_pos
  unfold RorHolds IsRor
  by_cases hfit : w.bits - k % w.bits < 32
  · have hbit : (low w.bits (x <<< (w.bits - k % w.bits))).getLsbD (w.bits - k % w.bits) =
        if k % w.bits = 0 then false else x.getLsbD 0 := by
      rw [getLsbD_low, BitVec.getLsbD_shiftLeft, decide_eq_true hfit, Nat.sub_self]
      split_ifs with hn0
      · rw [hn0, decide_eq_false (by omega), Bool.false_and]
      · simp [show w.bits - k % w.bits < w.bits by omega]
    rw [if_pos hfit, exists_run_iff, rotated_iff (hop.valid s), and_iff_right (setWidth_ror hx hn),
      bit_rotateRight_setWidth (by omega), bit_rotateRight_setWidth (by omega), hbit]
    rw [amount_iff hk] at hfit
    by_cases h0 : k = 0
    · rw [if_pos h0, if_pos h0, h0, Nat.zero_mod, if_pos rfl]
      exact (and_iff_right fun hw => hfit ⟨hw, h0⟩).symm
    · rw [if_neg h0, if_neg h0]
      refine and_congr ?_ (imp_congr_right fun h1 => ?_)
      · by_cases hn0 : k % w.bits = 0
        · rw [if_pos hn0, if_pos hn0, hn0, Nat.add_zero,
            Nat.mod_eq_of_lt (show w.bits - 1 < w.bits by omega)]
          exact eq_comm
        · have hturn : w.bits - 1 + k % w.bits = k % w.bits - 1 + w.bits := by omega
          rw [if_neg hn0, if_neg hn0, hturn, Nat.add_mod_right,
            Nat.mod_eq_of_lt (show k % w.bits - 1 < w.bits by omega)]
          exact eq_comm
      · have hturn : w.bits - 1 + 1 = 0 + w.bits := by omega
        have hturn' : w.bits - 2 + 1 = w.bits - 1 := by omega
        rw [h1, Nat.mod_eq_of_lt (show 1 < w.bits by omega), hturn, Nat.add_mod_right,
          Nat.zero_mod, hturn', Nat.mod_eq_of_lt (show w.bits - 1 < w.bits by omega)]
  · rw [if_neg hfit]
    rw [amount_iff hk, not_not] at hfit
    rw [if_pos hfit.2]
    exact iff_of_false (fun ⟨_, _, h, _⟩ => nomatch h) fun h => h.1 hfit.1

end Holds

/-- After the handler has run the first instruction, the second one names the same place and the
same count. -/
def Repeats (there : Handler) (fst snd : CsInsn) (s : Machine) : Prop :=
  ∀ r t, (there fst).run s = .ok (r, t) →
    t.opPtr snd.op1 = s.opPtr fst.op1 ∧ snd.op2.count t = fst.op2.count s

/-- Both instructions return, and the operand is found again. -/
def Restores (there back : Handler) (w : Width) (fst snd : CsInsn) (s : Machine)
    (P : Machine → Prop) : Prop :=
  ∃ r t, (there fst).run s = .ok (r, t) ∧ ∃ r' u, (back snd).run t = .ok (r', u) ∧
    u.peek w (s.opPtr fst.op1) = fst.op1.value w s ∧ P u

/-- What the second of them reads is what the first has left. -/
theorem value_rotated {w : Width} {op : CsX86Op} {s : Machine} {p : Ptr} [SafePtr p]
    (hp : p.Valid) {v : BitVec 32} {c : Bool} (h : (s.rotated w p v c).opPtr op = p) :
    op.value w (s.rotated w p v c) = low w.bits v :=
  (congrArg (Machine.peek _ w) h).trans (s.peek_rotated w p v c hp)

theorem rolI_rorI_restores_iff {w : Width} {rol ror : CsInsn} {s : Machine}
    (hrol : rol.op1.IsLoc w) (hcount : rol.op2.IsCount) (hror : ror.op1.IsLoc w)
    (hcount' : ror.op2.IsCount) (hsame : Repeats rolI rol ror s) :
    Restores rolI rorI w rol ror s (fun _ => True) ↔
      ¬ (w = .dword ∧ rol.op2.count s % 32 = 0) := by
  have hx := CsX86Op.IsLoc.value_lt rol.op1 w s
  have hsafe := hrol.safe s
  have hvalid := hrol.valid s
  have hk : rol.op2.count s % 32 < 32 := Nat.mod_lt _ (by decide)
  have hn : rol.op2.count s % w.bits < w.bits := Nat.mod_lt _ w.bits_pos
  have hrun := rolI_run (s := s) hrol hcount
  unfold Restores
  rw [hrun, ← amount_iff hk, ← mod_bits]
  by_cases hfit : w.bits - rol.op2.count s % w.bits < 32
  · rw [if_pos hfit] at hrun ⊢
    obtain ⟨hptr, hagain⟩ := hsame _ _ hrun
    rw [exists_run_iff]
    refine iff_of_true ?_ hfit
    rw [rorI_run hror hcount', hagain, if_pos hfit, exists_run_iff, hptr,
      value_rotated hvalid hptr, Machine.peek_rotated _ _ _ _ _ hvalid,
      ← CsX86Op.IsLoc.low_value rol.op1 w s]
    refine ⟨congrArg (BitVec.setWidth 32) ?_, trivial⟩
    rw [setWidth_ror (toNat_low_lt _ _) hn, setWidth_low, CsX86Op.IsLoc.low_value,
      setWidth_rol hx hn, rotateRight_rotateLeft]
  · rw [if_neg hfit]
    exact iff_of_false (fun ⟨_, _, h, _⟩ => nomatch h) hfit

/-- `ROL` and `ROR` rotate by the count exactly where `RolHolds` and `RorHolds`, and undo each other
but for 32 bits by nothing. -/
theorem rolI_rorI_iff {w : Width} {insn : CsInsn} {dst cnt : CsX86Op} {s : Machine}
    (h : insn.operands = [dst, cnt]) (hdst : dst.IsLoc w) (hcnt : cnt.IsCount) :
    ((∃ r t, (rolI insn).run s = .ok (r, t) ∧
      IsRol w (cnt.count s % 32) (dst.value w s) (s.opPtr dst) s t) ↔
      RolHolds w (cnt.count s % 32) (dst.value w s) s) ∧
    ((∃ r t, (rorI insn).run s = .ok (r, t) ∧
      IsRor w (cnt.count s % 32) (dst.value w s) (s.opPtr dst) s t) ↔
      RorHolds w (cnt.count s % 32) (dst.value w s) s) ∧
    ∀ ror : CsInsn, ror.op1.IsLoc w → ror.op2.IsCount → Repeats rolI insn ror s →
      (Restores rolI rorI w insn ror s (fun _ => True) ↔
        ¬ (w = .dword ∧ cnt.count s % 32 = 0)) := by
  have h1 : insn.op1 = dst := op1_of_cons h
  have h2 : insn.op2 = cnt := op2_of_cons h
  subst h1 h2
  exact ⟨rolI_iff hdst hcnt, rorI_iff hdst hcnt,
    fun ror hror hcount hsame => rolI_rorI_restores_iff hdst hcnt hror hcount hsame⟩

/-- `ROL AL, n`, and with another handler `ROR AL, n` -/
def rolAl (n : BitVec 64) : CsInsn := .bare "rol" 3 [⟨.reg .al, 1⟩, ⟨.imm n, 1⟩]

/-- Both rotate `0x95` by 3, and undo each other. -/
theorem rolI_rorI_three :
    (∃ r t, (rolI (rolAl 3)).run (twice 0x95 0) = .ok (r, t) ∧
      IsRol .byte 3 0x95 (.var .eax) (twice 0x95 0) t) ∧
    (∃ r t, (rorI (rolAl 3)).run (twice 0x95 0) = .ok (r, t) ∧
      IsRor .byte 3 0x95 (.var .eax) (twice 0x95 0) t) ∧
    Restores rolI rorI .byte (rolAl 3) (rolAl 3) (twice 0x95 0) (fun _ => True) := by
  have hall := @rolI_rorI_iff .byte (rolAl 3) ⟨.reg .al, 1⟩ ⟨.imm 3, 1⟩ (twice 0x95 0) rfl
    (by decide) (by decide)
  have hsame : Repeats rolI (rolAl 3) (rolAl 3) (twice 0x95 0) := by
    intro r t _
    exact ⟨rfl, rfl⟩
  unfold RolHolds RorHolds at hall
  exact ⟨hall.1.2 (by decide), hall.2.1.2 (by decide),
    (hall.2.2 (rolAl 3) (by decide) (by decide) hsame).2 (by decide)⟩

/-- `ROL EAX, 0` shifts by 32. -/
theorem rolI_not_isRol : ¬ ∀ (w : Width) (insn : CsInsn) (dst cnt : CsX86Op) (s : Machine),
    insn.operands = [dst, cnt] → dst.IsLoc w → cnt.IsCount →
    ∃ r t, (rolI insn).run s = .ok (r, t) ∧
      IsRol w (cnt.count s % 32) (dst.value w s) (s.opPtr dst) s t := by
  intro hall
  obtain ⟨r, t, hrun, -⟩ := hall .dword (.bare "rol" 3 [⟨.reg .eax, 4⟩, ⟨.imm 0, 1⟩])
    ⟨.reg .eax, 4⟩ ⟨.imm 0, 1⟩ (twice 1 0) rfl (by decide) (by decide)
  exact nomatch hrun

end I386Vm
