import I386Vm.Lib.Digits
import I386Vm.Proofs.Adjust

/-!
# Decimal numbers of many bytes

`adc_i` and then `daa_i` or `aaa_i`, `sbb_i` and then `das_i` or `aas_i`, along the bytes of two
numbers of packed or unpacked decimal digits. The subtractions are right. `daa_i` tests `AL` after
the first adjustment has wrapped it, and `aaa_i` tests the lowest bit of `AL` in place of its low
digit and leaves `CF` set.
-/

namespace I386Vm

open Bytes Prog

/-- An arithmetic handler with the adjustment that follows it. -/
inductive Decimal
  | daa | das | aaa | aas

namespace Decimal

def arith : Decimal → Handler
  | daa => adcI
  | das => sbbI
  | aaa => adcI
  | aas => sbbI

def adjust : Decimal → Handler
  | daa => daaI
  | das => dasI
  | aaa => aaaI
  | aas => aasI

/-- What the two handlers make of the byte of the second number. -/
def round (d : Decimal) (b : ℕ) (x : Accu) : Accu :=
  match d with
  | daa => (x.adc b).daa
  | das => (x.sbb b).das
  | aaa => (x.adc b).aaa
  | aas => (x.sbb b).aas

def step (d : Decimal) : Limbs.Step 8 := fun c a b =>
  (BitVec.ofNat 8 (d.round b.toNat ⟨a.toNat, false, c⟩).al,
    (d.round b.toNat ⟨a.toNat, false, c⟩).cf)

theorem round_af (d : Decimal) (b a : ℕ) (af af' c : Bool) :
    d.round b ⟨a, af, c⟩ = d.round b ⟨a, af', c⟩ := by
  cases d <;> rfl

theorem al_round_lt (d : Decimal) (b : ℕ) (x : Accu) : (d.round b x).al < 256 := by
  have hadc : (x.adc b).al < 256 := Nat.mod_lt _ (by decide)
  have hsbb : (x.sbb b).al < 256 := Nat.mod_lt _ (by decide)
  cases d <;>
    simp only [round, Accu.daa, Accu.das, Accu.aaa, Accu.aas, Accu.adjustLow, Accu.adjustHigh] <;>
    split_ifs <;> simp only <;> omega

/-- The decimal digits of a byte, lowest first. -/
def digits (d : Decimal) (x : BitVec 8) : List ℕ :=
  match d with
  | daa | das => [x.toNat % 16, x.toNat / 16]
  | aaa | aas => [x.toNat]

def Valid (d : Decimal) (x : BitVec 8) : Prop := ∀ n ∈ d.digits x, n ≤ 9

instance (d : Decimal) (x : BitVec 8) : Decidable (d.Valid x) :=
  @List.decidableBAll ℕ (· ≤ 9) (fun n => Nat.decLe n 9) (d.digits x)

/-- The number of a list of bytes, lowest first. -/
def value (d : Decimal) (l : List (BitVec 8)) : ℕ := Nat.ofDigits 10 (l.flatMap d.digits)

/-- The digits in a byte. -/
def perByte : Decimal → ℕ
  | daa | das => 2
  | aaa | aas => 1

def byteValue (d : Decimal) (x : BitVec 8) : ℕ := d.value [x]

def sign : Decimal → ℤ
  | daa | aaa => 1
  | das | aas => -1

theorem valid_packed {x : BitVec 8} : daa.Valid x ↔ x.toNat % 16 ≤ 9 ∧ x.toNat / 16 ≤ 9 := by
  simp [Valid, digits]

theorem valid_unpacked {x : BitVec 8} : aaa.Valid x ↔ x.toNat ≤ 9 := by
  simp [Valid, digits]

theorem byteValue_packed (x : BitVec 8) :
    daa.byteValue x = x.toNat % 16 + 10 * (x.toNat / 16) := by
  simp [byteValue, value, digits, Nat.ofDigits_cons]

theorem byteValue_unpacked (x : BitVec 8) : aaa.byteValue x = x.toNat := by
  simp [byteValue, value, digits, Nat.ofDigits_cons]

def code (d : Decimal) : Limbs.Code 8 where
  base := 10 ^ d.perByte
  Valid := d.Valid
  digit := d.byteValue
  digit_lt x hx := by
    have hb : d.byteValue x < 10 ^ (d.digits x).length := by
      unfold byteValue value
      rw [List.flatMap_singleton]
      exact Nat.ofDigits_lt_base_pow_length (by decide) fun n hn => Nat.lt_succ_of_le (hx n hn)
    have hlen : (d.digits x).length = d.perByte := by cases d <;> rfl
    rwa [hlen] at hb
  one_lt := by cases d <;> decide

theorem number_eq_value (d : Decimal) (l : List (BitVec 8)) : d.code.number l = d.value l := by
  induction l with
  | nil => rfl
  | cons x l ih =>
    have hlen : (d.digits x).length = d.perByte := by cases d <;> rfl
    rw [Limbs.Code.number_cons, ih]
    unfold value
    rw [List.flatMap_cons, Nat.ofDigits_append, hlen]
    change Nat.ofDigits 10 ([x].flatMap d.digits) + _ = _
    rw [List.flatMap_singleton]
    rfl

/-! ## One byte

The arithmetic leaves a function of the sums of the high and of the low digits, and the adjustment
is tabulated on these.
-/

end Decimal

namespace Accu

/-- What `adc_i` leaves of high digits that sum to `h`, and low digits and carry that sum to `l`. -/
def packedSum (h l : ℕ) : Accu := ⟨(16 * h + l) % 256, 16 ≤ l, 256 ≤ 16 * h + l⟩

/-- What `sbb_i` leaves of high digits that differ by `h - 9`, and low digits by `l - 10`. -/
def packedDiff (h l : ℕ) : Accu := ⟨(16 * h + l + 102) % 256, l < 10, 16 * h + l < 154⟩

def unpackedSum (n : ℕ) : Accu := ⟨n, 16 ≤ n, false⟩

def unpackedDiff (n : ℕ) : Accu := ⟨(n + 246) % 256, n < 10, n < 10⟩

section Arith

variable {x y u v : ℕ} (hx : x ≤ 9) (hy : y ≤ 9)
include hx hy

theorem adc_packed (hu : u ≤ 9) (hv : v ≤ 9) (c : Bool) :
    adc (16 * u + v) ⟨16 * x + y, false, c⟩ = packedSum (x + u) (y + v + c.toNat) := by
  have hc := Bool.toNat_le c
  unfold adc halfCarry packedSum
  ext
  · simp only
    congr 1
    omega
  · simp only [decide_eq_decide]
    omega
  · simp only [decide_eq_decide]
    omega

theorem sbb_packed (hu : u ≤ 9) (hv : v ≤ 9) (c : Bool) :
    sbb (16 * u + v) ⟨16 * x + y, false, c⟩ = packedDiff (x + 9 - u) (y + 10 - v - c.toNat) := by
  have hc := Bool.toNat_le c
  have hcf := Bool.toNat_le (decide (16 * x + y < 16 * u + v + c.toNat))
  -- The carry out that `sbb_i` adds before it computes `AF` stays in the low digit.
  have h16 : (16 * u + v + (decide (16 * x + y < 16 * u + v + c.toNat)).toNat) / 16 = u := by omega
  unfold sbb halfCarry packedDiff
  simp only
  rw [h16]
  ext
  · simp only
    omega
  · simp only [decide_eq_decide]
    omega
  · simp only [decide_eq_decide]
    omega

theorem adc_unpacked (c : Bool) : adc y ⟨x, false, c⟩ = unpackedSum (x + y + c.toNat) := by
  have hc := Bool.toNat_le c
  unfold adc halfCarry unpackedSum
  ext
  · simp only
    omega
  · simp only [decide_eq_decide]
    omega
  · simp only [decide_eq_false_iff_not]
    omega

theorem sbb_unpacked (c : Bool) : sbb y ⟨x, false, c⟩ = unpackedDiff (x + 10 - y - c.toNat) := by
  have hc := Bool.toNat_le c
  have hcf := Bool.toNat_le (decide (x < y + c.toNat))
  have h16 : (y + (decide (x < y + c.toNat)).toNat) / 16 = 0 := by omega
  unfold sbb halfCarry unpackedDiff
  simp only
  rw [h16]
  ext
  · simp only
    omega
  · simp only [decide_eq_decide]
    omega
  · simp only [decide_eq_decide]
    omega

end Arith

theorem daa_table : ∀ h < 19, ∀ l < 20,
    (¬ (0xFA ≤ 16 * h + l ∧ 16 * h + l ≤ 0xFF) →
      (packedSum h l).daa.al % 16 ≤ 9 ∧ (packedSum h l).daa.al / 16 ≤ 9 ∧
      (packedSum h l).daa.al % 16 + 10 * ((packedSum h l).daa.al / 16)
        + 100 * (packedSum h l).daa.cf.toNat = 10 * h + l) ∧
    (0xFA ≤ 16 * h + l ∧ 16 * h + l ≤ 0xFF →
      ((packedSum h l).daa.al % 16 + 10 * ((packedSum h l).daa.al / 16)) % 100 ≠
        (10 * h + l) % 100) := by
  decide +kernel

theorem das_table : ∀ h < 19, ∀ l < 20,
    (packedDiff h l).das.al % 16 ≤ 9 ∧ (packedDiff h l).das.al / 16 ≤ 9 ∧
      (packedDiff h l).das.al % 16 + 10 * ((packedDiff h l).das.al / 16) + 100 =
        10 * h + l + 100 * (packedDiff h l).das.cf.toNat := by
  decide +kernel

theorem aaa_table : ∀ n < 20,
    ((n ≤ 9 ∧ n % 2 = 0) ∨ (9 < n ∧ n % 2 = 1) ∨ 16 ≤ n → (unpackedSum n).aaa.al ≤ 9 ∧
      (unpackedSum n).aaa.al + 10 * (unpackedSum n).aaa.cf.toNat = n) ∧
    (¬ ((n ≤ 9 ∧ n % 2 = 0) ∨ (9 < n ∧ n % 2 = 1) ∨ 16 ≤ n) →
      ¬ ((unpackedSum n).aaa.al ≤ 9 ∧ (unpackedSum n).aaa.al = n % 10)) := by
  decide +kernel

theorem aas_table : ∀ n < 20, (unpackedDiff n).aas.al ≤ 9 ∧
    (unpackedDiff n).aas.al + 10 = n + 10 * (unpackedDiff n).aas.cf.toNat := by
  decide +kernel

end Accu

namespace Decimal

/-- The sums of two bytes and a carry, as numbers, that the adjustment gets right. -/
def Adjusts (d : Decimal) (n : ℕ) : Prop :=
  match d with
  | daa => ¬ (0xFA ≤ n ∧ n ≤ 0xFF)
  | das => True
  | aaa => (n ≤ 9 ∧ n % 2 = 0) ∨ (9 < n ∧ n % 2 = 1) ∨ 16 ≤ n
  | aas => True

instance (d : Decimal) (n : ℕ) : Decidable (d.Adjusts n) :=
  match d with
  | daa => inferInstanceAs (Decidable (¬ _))
  | das => inferInstanceAs (Decidable True)
  | aaa => inferInstanceAs (Decidable (_ ∨ _))
  | aas => inferInstanceAs (Decidable True)

variable {c : Bool} {a b : BitVec 8}

theorem step_eq (d : Decimal) {x : Accu} (h : d.round b.toNat ⟨a.toNat, false, c⟩ = x) :
    (d.step c a b).1.toNat = x.al ∧ (d.step c a b).2 = x.cf := by
  rw [← h]
  exact ⟨(BitVec.toNat_ofNat ..).trans (Nat.mod_eq_of_lt (d.al_round_lt _ _)), rfl⟩

theorem step_daa (ha : daa.Valid a) (hb : daa.Valid b) (c : Bool) :
    (daa.step c a b).1.toNat = (Accu.packedSum (a.toNat / 16 + b.toNat / 16)
      (a.toNat % 16 + b.toNat % 16 + c.toNat)).daa.al ∧
    (daa.step c a b).2 = (Accu.packedSum (a.toNat / 16 + b.toNat / 16)
      (a.toNat % 16 + b.toNat % 16 + c.toNat)).daa.cf := by
  rw [valid_packed] at ha hb
  have hadc := Accu.adc_packed ha.2 ha.1 hb.2 hb.1 c
  rw [Nat.div_add_mod, Nat.div_add_mod] at hadc
  exact daa.step_eq (congrArg Accu.daa hadc)

theorem step_das (ha : daa.Valid a) (hb : daa.Valid b) (c : Bool) :
    (das.step c a b).1.toNat = (Accu.packedDiff (a.toNat / 16 + 9 - b.toNat / 16)
      (a.toNat % 16 + 10 - b.toNat % 16 - c.toNat)).das.al ∧
    (das.step c a b).2 = (Accu.packedDiff (a.toNat / 16 + 9 - b.toNat / 16)
      (a.toNat % 16 + 10 - b.toNat % 16 - c.toNat)).das.cf := by
  rw [valid_packed] at ha hb
  have hsbb := Accu.sbb_packed ha.2 ha.1 hb.2 hb.1 c
  rw [Nat.div_add_mod, Nat.div_add_mod] at hsbb
  exact das.step_eq (congrArg Accu.das hsbb)

theorem step_aaa (ha : aaa.Valid a) (hb : aaa.Valid b) (c : Bool) :
    (aaa.step c a b).1.toNat = (Accu.unpackedSum (a.toNat + b.toNat + c.toNat)).aaa.al ∧
    (aaa.step c a b).2 = (Accu.unpackedSum (a.toNat + b.toNat + c.toNat)).aaa.cf :=
  aaa.step_eq (congrArg Accu.aaa (Accu.adc_unpacked (valid_unpacked.1 ha) (valid_unpacked.1 hb) c))

theorem step_aas (ha : aaa.Valid a) (hb : aaa.Valid b) (c : Bool) :
    (aas.step c a b).1.toNat = (Accu.unpackedDiff (a.toNat + 10 - b.toNat - c.toNat)).aas.al ∧
    (aas.step c a b).2 = (Accu.unpackedDiff (a.toNat + 10 - b.toNat - c.toNat)).aas.cf :=
  aas.step_eq (congrArg Accu.aas (Accu.sbb_unpacked (valid_unpacked.1 ha) (valid_unpacked.1 hb) c))

/-- A step makes up the sum or the difference of two bytes wherever its adjustment is right. -/
theorem exact_of_adjusts (d : Decimal) (ha : d.Valid a) (hb : d.Valid b)
    (h : d.Adjusts (a.toNat + b.toNat + c.toNat)) :
    d.code.Exact d.sign c a b (d.step c a b) := by
  have hc := Bool.toNat_le c
  cases d with
  | daa =>
    obtain ⟨hr, hcf⟩ := step_daa ha hb c
    rw [valid_packed] at ha hb
    have ht := (Accu.daa_table (a.toNat / 16 + b.toNat / 16) (by omega)
      (a.toNat % 16 + b.toNat % 16 + c.toNat) (by omega)).1 fun hbad => h (by omega)
    rw [← hr, ← hcf] at ht
    refine ⟨valid_packed.2 ⟨ht.1, ht.2.1⟩, ?_⟩
    change (daa.byteValue _ : ℤ) + 1 * (100 : ℕ) * _ = daa.byteValue _ + 1 * (daa.byteValue _ + _)
    rw [byteValue_packed, byteValue_packed, byteValue_packed]
    omega
  | das =>
    obtain ⟨hr, hcf⟩ := step_das ha hb c
    change daa.Valid a at ha
    change daa.Valid b at hb
    rw [valid_packed] at ha hb
    have ht := Accu.das_table (a.toNat / 16 + 9 - b.toNat / 16) (by omega)
      (a.toNat % 16 + 10 - b.toNat % 16 - c.toNat) (by omega)
    rw [← hr, ← hcf] at ht
    refine ⟨valid_packed.2 ⟨ht.1, ht.2.1⟩, ?_⟩
    change (daa.byteValue _ : ℤ) + -1 * (100 : ℕ) * _ = daa.byteValue _ + -1 * (daa.byteValue _ + _)
    rw [byteValue_packed, byteValue_packed, byteValue_packed]
    omega
  | aaa =>
    obtain ⟨hr, hcf⟩ := step_aaa ha hb c
    rw [valid_unpacked] at ha hb
    have ht := (Accu.aaa_table (a.toNat + b.toNat + c.toNat) (by omega)).1 h
    rw [← hr, ← hcf] at ht
    refine ⟨valid_unpacked.2 ht.1, ?_⟩
    change (aaa.byteValue _ : ℤ) + 1 * (10 : ℕ) * _ = aaa.byteValue _ + 1 * (aaa.byteValue _ + _)
    rw [byteValue_unpacked, byteValue_unpacked, byteValue_unpacked]
    omega
  | aas =>
    obtain ⟨hr, hcf⟩ := step_aas ha hb c
    change aaa.Valid a at ha
    change aaa.Valid b at hb
    rw [valid_unpacked] at ha hb
    have ht := Accu.aas_table (a.toNat + 10 - b.toNat - c.toNat) (by omega)
    rw [← hr, ← hcf] at ht
    refine ⟨valid_unpacked.2 ht.1, ?_⟩
    change (aaa.byteValue _ : ℤ) + -1 * (10 : ℕ) * _ = aaa.byteValue _ + -1 * (aaa.byteValue _ + _)
    rw [byteValue_unpacked, byteValue_unpacked, byteValue_unpacked]
    omega

/-- Where the adjustment is wrong, so is the byte. -/
theorem adjusts_of_byte (d : Decimal) (ha : d.Valid a) (hb : d.Valid b)
    (hv : d.Valid (d.step c a b).1) (hm : (d.byteValue (d.step c a b).1 : ℤ) ≡
      d.byteValue a + d.sign * (d.byteValue b + c.toNat) [ZMOD d.code.base]) :
    d.Adjusts (a.toNat + b.toNat + c.toNat) := by
  have hc := Bool.toNat_le c
  cases d with
  | daa =>
    rintro hbad
    obtain ⟨hr, -⟩ := step_daa ha hb c
    rw [valid_packed] at ha hb
    have ht := (Accu.daa_table (a.toNat / 16 + b.toNat / 16) (by omega)
      (a.toNat % 16 + b.toNat % 16 + c.toNat) (by omega)).2 (by omega)
    rw [← hr] at ht
    have hmod : (daa.byteValue (daa.step c a b).1 : ℤ) % (100 : ℕ) =
      (daa.byteValue a + 1 * (daa.byteValue b + c.toNat)) % (100 : ℕ) := hm
    rw [byteValue_packed, byteValue_packed, byteValue_packed] at hmod
    omega
  | das => trivial
  | aaa =>
    by_contra hbad
    obtain ⟨hr, -⟩ := step_aaa ha hb c
    rw [valid_unpacked] at ha hb hv
    have ht := (Accu.aaa_table (a.toNat + b.toNat + c.toNat) (by omega)).2 hbad
    rw [← hr] at ht
    have hmod : (aaa.byteValue (aaa.step c a b).1 : ℤ) % (10 : ℕ) =
      (aaa.byteValue a + 1 * (aaa.byteValue b + c.toNat)) % (10 : ℕ) := hm
    rw [byteValue_unpacked, byteValue_unpacked, byteValue_unpacked] at hmod
    omega
  | aas => trivial

theorem exact_iff (d : Decimal) (ha : d.Valid a) (hb : d.Valid b) :
    d.code.Exact d.sign c a b (d.step c a b) ↔ d.Adjusts (a.toNat + b.toNat + c.toNat) := by
  refine ⟨fun h => d.adjusts_of_byte ha hb h.1 ?_, d.exact_of_adjusts ha hb⟩
  refine Int.modEq_iff_dvd.2 ⟨d.sign * (d.step c a b).2.toNat, ?_⟩
  have hbal : (d.byteValue (d.step c a b).1 : ℤ) + d.sign * d.code.base * (d.step c a b).2.toNat =
    d.byteValue a + d.sign * (d.byteValue b + c.toNat) := h.2
  linear_combination -hbal

/-- The bytes `ds` hold the digits of the sum or the difference, and `c` its carry or borrow. -/
def IsResult (d : Decimal) (l : List (BitVec 8 × BitVec 8)) (ds : List (BitVec 8)) (c : Bool) :
    Prop :=
  ds.length = l.length ∧ (∀ x ∈ ds, d.Valid x) ∧
    match d with
    | daa | aaa =>
      d.value ds = (d.value (l.map Prod.fst) + d.value (l.map Prod.snd))
        % 10 ^ (d.perByte * l.length) ∧
      (c = true ↔
        10 ^ (d.perByte * l.length) ≤ d.value (l.map Prod.fst) + d.value (l.map Prod.snd))
    | das | aas =>
      (d.value ds : ℤ) = (d.value (l.map Prod.fst) - d.value (l.map Prod.snd) : ℤ)
        % 10 ^ (d.perByte * l.length) ∧
      (c = true ↔ d.value (l.map Prod.fst) < d.value (l.map Prod.snd))

/-- The carry of the decimal digits below byte `i`. -/
def carryInto (d : Decimal) (l : List (BitVec 8 × BitVec 8)) (i : ℕ) : Bool :=
  10 ^ (d.perByte * i) ≤ d.value ((l.take i).map Prod.fst) + d.value ((l.take i).map Prod.snd)

/-- At every byte the adjustment is right on the two bytes and the carry from the digits below. -/
def SumsAdjust (d : Decimal) (l : List (BitVec 8 × BitVec 8)) : Prop :=
  ∀ i p, l[i]? = some p → d.Adjusts (p.1.toNat + p.2.toNat + (d.carryInto l i).toNat)

theorem sign_cases (d : Decimal) : d.sign = 1 ∨ d.sign = -1 := by
  cases d <;> decide

theorem eq_decide_iff {c : Bool} {p : Prop} [Decidable p] : c = decide p ↔ (c = true ↔ p) := by
  cases c <;> simp

/-- A sum as a number of as many digits and a carry, on integers. -/
theorem sum_iff (n A B M : ℕ) (c : Bool) :
    (n = (A + B) % M ∧ (c = true ↔ M ≤ A + B)) ↔
      (n : ℤ) = (A + 1 * (B + (false.toNat : ℤ))) % (M : ℕ) ∧
        c = decide (¬ (0 ≤ (A + 1 * (B + (false.toNat : ℤ)) : ℤ) ∧
          (A + 1 * (B + (false.toNat : ℤ)) : ℤ) < (M : ℕ))) := by
  have htotal : (A + 1 * (B + (false.toNat : ℤ)) : ℤ) = ((A + B : ℕ) : ℤ) := by
    push_cast
    simp
  rw [htotal, ← Int.natCast_mod, Int.natCast_inj, eq_decide_iff]
  refine and_congr_right fun _ => iff_congr Iff.rfl ?_
  omega

/-- A difference of numbers below `M`. -/
theorem diff_iff {A B M : ℕ} (hA : A < M) (n : ℕ) (c : Bool) :
    ((n : ℤ) = (A - B : ℤ) % (M : ℕ) ∧ (c = true ↔ A < B)) ↔
      (n : ℤ) = (A + -1 * (B + (false.toNat : ℤ))) % (M : ℕ) ∧
        c = decide (¬ (0 ≤ (A + -1 * (B + (false.toNat : ℤ)) : ℤ) ∧
          (A + -1 * (B + (false.toNat : ℤ)) : ℤ) < (M : ℕ))) := by
  have htotal : (A + -1 * (B + (false.toNat : ℤ)) : ℤ) = A - B := by
    simp
    ring
  rw [htotal, eq_decide_iff]
  refine and_congr_right fun _ => iff_congr Iff.rfl ?_
  omega

theorem isResult_iff_sums (d : Decimal) {l : List (BitVec 8 × BitVec 8)} {ds : List (BitVec 8)}
    {c : Bool} (hl : d.code.Valids l) (hlen : ds.length = l.length) :
    d.IsResult l ds c ↔ d.code.Sums d.sign false l ds c := by
  have hpow : d.code.base ^ l.length = 10 ^ (d.perByte * l.length) := (pow_mul ..).symm
  have hpow' : (d.code.base : ℤ) ^ l.length = ((10 ^ (d.perByte * l.length) : ℕ) : ℤ) := by
    rw [← hpow]
    push_cast
    rfl
  have hA := d.code.number_map_lt Prod.fst fun p hp => (hl p hp).1
  rw [d.number_eq_value, hpow] at hA
  rw [d.code.sums_iff d.sign_cases hl hlen]
  unfold IsResult Limbs.Code.carryOut Limbs.Code.total
  rw [and_iff_right hlen, hpow', d.number_eq_value, d.number_eq_value, d.number_eq_value]
  refine and_congr_right fun _ => ?_
  cases d with
  | daa => exact sum_iff _ _ _ _ c
  | das =>
    have h := diff_iff hA (das.value ds) c (B := das.value (l.map Prod.snd))
    push_cast at h ⊢
    exact h
  | aaa => exact sum_iff _ _ _ _ c
  | aas =>
    have h := diff_iff hA (aas.value ds) c (B := aas.value (l.map Prod.snd))
    push_cast at h ⊢
    exact h

/-- The carry of the digits below, as the chain of exact steps has it. -/
theorem carryOut_take (d : Decimal) (hd : d.sign = 1) {l : List (BitVec 8 × BitVec 8)} {i : ℕ}
    (hi : i < l.length) : d.code.carryOut d.sign false (l.take i) = d.carryInto l i := by
  have hlen : (l.take i).length = i := by rw [List.length_take, Nat.min_eq_left hi.le]
  have hpow : (d.code.base : ℤ) ^ i = ((10 ^ (d.perByte * i) : ℕ) : ℤ) := by
    have hbase : d.code.base ^ i = 10 ^ (d.perByte * i) := (pow_mul ..).symm
    rw [← hbase]
    push_cast
    rfl
  have h := (sum_iff _ (d.value ((l.take i).map Prod.fst)) (d.value ((l.take i).map Prod.snd))
    (10 ^ (d.perByte * i)) (d.carryInto l i)).1 ⟨rfl, decide_eq_true_iff⟩
  unfold Limbs.Code.carryOut Limbs.Code.total
  rw [hlen, hpow, d.number_eq_value, d.number_eq_value, hd]
  exact h.2.symm

theorem isResult_chain_iff (d : Decimal) {l : List (BitVec 8 × BitVec 8)}
    (hl : ∀ p ∈ l, d.Valid p.1 ∧ d.Valid p.2) :
    d.IsResult l (Limbs.limbs d.step false l) (Limbs.carry d.step false l) ↔ d.SumsAdjust l := by
  rw [d.isResult_iff_sums hl (Limbs.length_limbs _ _ _), d.code.sums_chain_iff d.sign_cases
    (fun c a b ha hb hv hm => d.exact_of_adjusts ha hb (d.adjusts_of_byte ha hb hv hm)) hl]
  unfold SumsAdjust
  refine forall_congr' fun i => forall_congr' fun p => forall_congr' fun hp => ?_
  obtain ⟨hi, hget⟩ := List.getElem?_eq_some_iff.1 hp
  have hvalid := hl p (hget ▸ List.getElem_mem hi)
  rw [d.exact_iff hvalid.1 hvalid.2]
  cases d with
  | daa => rw [daa.carryOut_take rfl hi]
  | das => exact Iff.rfl
  | aaa => rw [aaa.carryOut_take rfl hi]
  | aas => exact Iff.rfl

end Decimal

end I386Vm
