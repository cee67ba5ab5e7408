import I386Vm.Proofs.Emulation

/-!
# A routine on the loop

Seven instructions of two bytes, which replace the larger of `EAX` and `EBX` by the difference until
they are equal. From every machine that has the bytes at `eip` the loop comes to the end of them
with the greatest common divisor in both registers (`euclid_runs`).
-/

namespace I386Vm

open Bytes Relation

/-- ```
0:  cmp eax, ebx
2:  je  14
4:  jb  10
6:  sub eax, ebx
8:  jmp 0
10: sub ebx, eax
12: jmp 0
``` -/
def euclid : List (BitVec 8) :=
  [0x39, 0xD8, 0x74, 0x0A, 0x72, 0x04, 0x29, 0xD8, 0xEB, 0xF6, 0x29, 0xC3, 0xEB, 0xF2]

/-- At byte `k` of the routine with `a` and `b` in the registers, and the rest as it was. -/
structure Routine (org : BitVec 32) (c : Cpu) (k a b : ℕ) (x : Tracked) : Prop where
  eip : x.cpu.eip = org + BitVec.ofNat 32 k
  reg : x.cpu.reg = Function.update (Function.update c.reg .eax (BitVec.ofNat 32 a)) .ebx
    (BitVec.ofNat 32 b)
  mem : x.cpu.mem = c.mem

/-- After the comparison. -/
structure Compared (org : BitVec 32) (c : Cpu) (k a b : ℕ) (x : Tracked) : Prop
    extends Routine org c k a b x where
  zf : x.known .ZF ∧ x.cpu.flag .ZF = decide (a = b)
  cf : x.known .CF ∧ x.cpu.flag .CF = decide (a < b)

section Steps

variable {org limit : BitVec 32} {c : Cpu} {a b k : ℕ} {x : Tracked}

theorem Routine.ready (hx : Routine org c k a b x) (hl : Loaded euclid org limit c)
    (hk : k + 2 ≤ 14) {b₀ b₁ : BitVec 8} (h₀ : euclid[k]? = some b₀) (h₁ : euclid[k + 1]? = some b₁)
    {i : Instr} (hi : twoBytes b₀ b₁ (org + BitVec.ofNat 32 k) = some i) (hs : i.Supported)
    (hf : i.Fits x.cpu) (hr : ∀ f ∈ i.reads, x.known f) : x.Ready twoByteCode limit i 2 := by
  refine hl.ready hx.eip hx.mem hk ?_ hs hf hr
  have hbyte {j : ℕ} {v : BitVec 8} (hv : euclid[k + j]? = some v) : euclid.getD (k + j) 0 = v := by
    rw [List.getD_eq_getElem?_getD, hv]
    rfl
  change (twoBytes (euclid.getD (k + 0) 0) (euclid.getD (k + 1) 0) _).map _ = _
  rw [hbyte h₀, hbyte h₁, hi]
  rfl

theorem Routine.eax_eq (hx : Routine org c k a b x) :
    x.cpu.get .dword (.reg .eax) = BitVec.ofNat 32 a := by
  rw [Cpu.get_dword_reg, hx.reg, Function.update_of_ne (by decide), Function.update_self]

theorem Routine.ebx_eq (hx : Routine org c k a b x) :
    x.cpu.get .dword (.reg .ebx) = BitVec.ofNat 32 b := by
  rw [Cpu.get_dword_reg, hx.reg, Function.update_self]

/-- To another byte of the routine. -/
theorem Routine.goto (hx : Routine org c k a b x) {j : ℕ} {e : BitVec 32}
    (he : e = org + BitVec.ofNat 32 j) (known : Flag → Prop) :
    Routine org c j a b ⟨x.cpu.goto e, known⟩ :=
  ⟨he, hx.reg, hx.mem⟩

variable (hl : Loaded euclid org limit c)
include hl

theorem leads_cmp (ha : a < 2 ^ 32) (hb : b < 2 ^ 32) :
    Leads (TrackedStep twoByteCode limit) (Routine org c 0 a b) (Compared org c 2 a b) := by
  refine leads_exec fun x hx => ⟨.alu .cmp .dword (.reg .eax) (.loc (.reg .ebx)), 2,
    hx.ready hl (by decide) rfl rfl rfl trivial ⟨trivial, trivial⟩ (fun _ h => by cases h), trivial,
    ⟨?_, hx.reg, hx.mem⟩, ⟨⟨List.not_mem_nil, .inl ⟨?_, trivial⟩, ?_⟩, ?_⟩,
    ⟨List.not_mem_nil, .inl ⟨?_, trivial⟩, ?_⟩, ?_⟩
  · change x.cpu.eip + 2 = _
    rw [hx.eip]
    bv_omega
  · simp [Instr.writes]
  · simp [Instr.Right, Alu.Right]
  · change decide ((Alu.difference .dword (x.cpu.get .dword (.reg .eax))
      (x.cpu.get .dword (.reg .ebx)) 0).toNat = 0) = _
    rw [hx.eax_eq, hx.ebx_eq, difference_dword]
    refine decide_eq_decide.2 ?_
    bv_omega
  · simp [Instr.writes]
  · simp [Instr.Right, Alu.Right]
  · change decide ((x.cpu.get .dword (.reg .eax)).toNat <
      (x.cpu.get .dword (.reg .ebx)).toNat + 0) = _
    rw [hx.eax_eq, hx.ebx_eq]
    refine decide_eq_decide.2 ?_
    bv_omega

/-- A conditional jump after the comparison. -/
theorem leads_jcc (cond : Cond) {v : Bool} {j : ℕ} (hk : k + 2 ≤ 14) {b₀ b₁ : BitVec 8}
    (h₀ : euclid[k]? = some b₀) (h₁ : euclid[k + 1]? = some b₁)
    (hi : twoBytes b₀ b₁ (org + BitVec.ofNat 32 k) =
      some (.jcc cond (rel8 (org + BitVec.ofNat 32 k) b₁)))
    (he : BitVec.ofNat 32 k + 2 + b₁.signExtend 32 = BitVec.ofNat 32 j) (hle : cond ≠ .le)
    (hv : ∀ x, Compared org c k a b x → (∀ f ∈ cond.flags, x.known f) ∧
      cond.holds x.cpu.flag = v) :
    Leads (TrackedStep twoByteCode limit) (Compared org c k a b)
      (Compared org c (if v then j else k + 2) a b) := by
  refine leads_exec fun x hx => ⟨_, 2, hx.ready hl hk h₀ h₁ hi trivial trivial (hv x hx).1,
    fun h => absurd h hle, hx.goto ?_ _, ⟨⟨List.not_mem_nil, .inr hx.zf.1, trivial⟩, hx.zf.2⟩,
    ⟨List.not_mem_nil, .inr hx.cf.1, trivial⟩, hx.cf.2⟩
  rw [(hv x hx).2, hx.eip]
  cases v with
  | true =>
    change org + BitVec.ofNat 32 k + 2 + b₁.signExtend 32 = org + BitVec.ofNat 32 j
    simp only [← he, BitVec.add_assoc]
  | false =>
    change org + BitVec.ofNat 32 k + 2 = org + BitVec.ofNat 32 (k + 2)
    bv_omega

theorem leads_je : Leads (TrackedStep twoByteCode limit) (Compared org c 2 a b)
    (Compared org c (if decide (a = b) then 14 else 4) a b) :=
  leads_jcc hl .e (by decide) rfl rfl rfl (by decide) (by decide) fun x hx =>
    ⟨fun f hf => List.mem_singleton.1 hf ▸ hx.zf.1, hx.zf.2⟩

theorem leads_jb : Leads (TrackedStep twoByteCode limit) (Compared org c 4 a b)
    (Compared org c (if decide (a < b) then 10 else 6) a b) :=
  leads_jcc hl .b (by decide) rfl rfl rfl (by decide) (by decide) fun x hx =>
    ⟨fun f hf => List.mem_singleton.1 hf ▸ hx.cf.1, hx.cf.2⟩

theorem leads_jmp {j : ℕ} (hk : k + 2 ≤ 14) {b₀ b₁ : BitVec 8} (h₀ : euclid[k]? = some b₀)
    (h₁ : euclid[k + 1]? = some b₁) (hi : twoBytes b₀ b₁ (org + BitVec.ofNat 32 k) =
      some (.jmp (.imm (rel8 (org + BitVec.ofNat 32 k) b₁))))
    (he : BitVec.ofNat 32 k + 2 + b₁.signExtend 32 = BitVec.ofNat 32 j) :
    Leads (TrackedStep twoByteCode limit) (Routine org c k a b) (Routine org c j a b) := by
  refine leads_exec fun x hx => ⟨_, 2, hx.ready hl hk h₀ h₁ hi trivial trivial
    (fun _ h => by cases h), trivial, hx.goto ?_ _⟩
  refine (BitVec.setWidth_eq _).trans ?_
  simp only [rel8, ← he, BitVec.add_assoc]
  rfl

/-- `SUB` of the smaller register from the larger one. -/
theorem leads_sub_eax (hab : b ≤ a) (ha : a < 2 ^ 32) :
    Leads (TrackedStep twoByteCode limit) (Routine org c 6 a b) (Routine org c 8 (a - b) b) := by
  refine leads_exec fun x hx => ⟨.alu .sub .dword (.reg .eax) (.loc (.reg .ebx)), 2,
    hx.ready hl (by decide) rfl rfl rfl (fun h => h.elim False.elim False.elim)
    ⟨trivial, trivial⟩ (fun _ h => by cases h), trivial, ⟨?_, ?_, hx.mem⟩⟩
  · change x.cpu.eip + 2 = _
    rw [hx.eip]
    bv_omega
  · have hsub : BitVec.ofNat 32 a - BitVec.ofNat 32 b = BitVec.ofNat 32 (a - b) := by bv_omega
    refine (sub_exec_reg x.cpu .eax .ebx).trans ?_
    rw [hx.eax_eq, hx.ebx_eq, hsub, hx.reg, Function.update_comm (by decide),
      Function.update_idem]

theorem leads_sub_ebx (hab : a ≤ b) (hb : b < 2 ^ 32) :
    Leads (TrackedStep twoByteCode limit) (Routine org c 10 a b)
      (Routine org c 12 a (b - a)) := by
  refine leads_exec fun x hx => ⟨.alu .sub .dword (.reg .ebx) (.loc (.reg .eax)), 2,
    hx.ready hl (by decide) rfl rfl rfl (fun h => h.elim False.elim False.elim)
    ⟨trivial, trivial⟩ (fun _ h => by cases h), trivial, ⟨?_, ?_, hx.mem⟩⟩
  · change x.cpu.eip + 2 = _
    rw [hx.eip]
    bv_omega
  · have hsub : BitVec.ofNat 32 b - BitVec.ofNat 32 a = BitVec.ofNat 32 (b - a) := by bv_omega
    refine (sub_exec_reg x.cpu .ebx .eax).trans ?_
    rw [hx.eax_eq, hx.ebx_eq, hsub, hx.reg, Function.update_idem]

/-- Both registers positive, with the divisor `g`. -/
def Round (g : ℕ) (p : ℕ × ℕ) : Prop :=
  (0 < p.1 ∧ p.1 < 2 ^ 32) ∧ (0 < p.2 ∧ p.2 < 2 ^ 32) ∧ p.1.gcd p.2 = g

theorem leads_round {g : ℕ} {p : ℕ × ℕ} (hp : Round g p) :
    Leads (TrackedStep twoByteCode limit) (Routine org c 0 p.1 p.2) fun x =>
      Routine org c 14 g g x ∨ ∃ q : ℕ × ℕ, q.1 + q.2 < p.1 + p.2 ∧
        Round g q ∧ Routine org c 0 q.1 q.2 x := by
  obtain ⟨⟨ha, ha'⟩, ⟨hb, hb'⟩, hg⟩ := hp
  have hje := (leads_cmp hl ha' hb').trans (leads_je hl)
  rcases Nat.lt_trichotomy p.1 p.2 with hlt | heq | hgt
  · rw [if_neg (by simp [hlt.ne])] at hje
    have hjb := hje.trans (leads_jb hl)
    rw [if_pos (by simp [hlt])] at hjb
    have hsub := (hjb.mono (fun _ h => h) fun _ h => h.toRoutine).trans
      (leads_sub_ebx hl hlt.le hb')
    refine (hsub.trans (leads_jmp hl (by decide) rfl rfl rfl (j := 0) (by decide))).mono
      (fun _ h => h) fun x hx => .inr ⟨(p.1, p.2 - p.1), ?_, ⟨⟨ha, ha'⟩, ⟨?_, ?_⟩, ?_⟩, hx⟩
    · omega
    · omega
    · omega
    · rw [← hg]
      exact Nat.gcd_sub_self_right hlt.le
  · rw [if_pos (by simp [heq])] at hje
    refine hje.mono (fun _ h => h) fun x hx => .inl ?_
    rw [← heq, Nat.gcd_self] at hg
    subst hg
    have hr := hx.toRoutine
    rwa [← heq] at hr
  · rw [if_neg (by simp [hgt.ne'])] at hje
    have hjb := hje.trans (leads_jb hl)
    rw [if_neg (by simp [hgt.le])] at hjb
    have hsub := (hjb.mono (fun _ h => h) fun _ h => h.toRoutine).trans
      (leads_sub_eax hl hgt.le ha')
    refine (hsub.trans (leads_jmp hl (by decide) rfl rfl rfl (j := 0) (by decide))).mono
      (fun _ h => h) fun x hx => .inr ⟨(p.1 - p.2, p.2), ?_, ⟨⟨?_, ?_⟩, ⟨hb, hb'⟩, ?_⟩, hx⟩
    · omega
    · omega
    · omega
    · rw [← hg]
      exact Nat.gcd_sub_self_left hgt.le

theorem leads_gcd (g : ℕ) (p : ℕ × ℕ) :
    Leads (TrackedStep twoByteCode limit) (fun x => Round g p ∧ Routine org c 0 p.1 p.2 x)
      (Routine org c 14 g g) :=
  Leads.loop (fun p : ℕ × ℕ => p.1 + p.2) (fun _ => .pure (leads_round hl)) p

end Steps

/-- From any two positive numbers the loop comes to the end of the routine with their greatest
common divisor, and nothing but the two registers and the flags has changed. -/
theorem euclid_runs (host : Host) {disasm : Disasm} (hdis : Reads disasm twoByteCode) {s : Machine}
    {limit : BitVec 32} (hl : Loaded euclid s.eip limit s.abs) (ha : s.reg .eax ≠ 0)
    (hb : s.reg .ebx ≠ 0) : ∃ t, ReflTransGen (LoopTurn host disasm limit) s t ∧
      t.eip = s.eip + 14 ∧
      t.reg .eax = BitVec.ofNat 32 ((s.reg .eax).toNat.gcd (s.reg .ebx).toNat) ∧
      t.reg .ebx = t.reg .eax ∧ (∀ r : Gpr, r ≠ .eax → r ≠ .ebx → t.reg r.var = s.reg r.var) ∧
      t.abs.mem = s.abs.mem := by
  have hpos {v : BitVec 32} (hv : v ≠ 0) : 0 < v.toNat ∧ v.toNat < 2 ^ 32 :=
    ⟨Nat.pos_of_ne_zero fun h => hv (BitVec.eq_of_toNat_eq h), v.isLt⟩
  have hstart : Routine s.eip s.abs 0 (s.reg .eax).toNat (s.reg .ebx).toNat
      ⟨s.abs, fun _ => False⟩ := by
    refine ⟨(BitVec.add_zero _).symm, ?_, rfl⟩
    rw [BitVec.ofNat_toNat, BitVec.ofNat_toNat, BitVec.setWidth_eq, BitVec.setWidth_eq]
    have heax : Function.update s.abs.reg .eax (s.reg .eax) = s.abs.reg :=
      Function.update_eq_self .eax s.abs.reg
    rw [heax]
    exact (Function.update_eq_self .ebx s.abs.reg).symm
  obtain ⟨t, hst, x, hx, ht⟩ := (@simulates_loop host _ _ limit hdis).leads
    (leads_gcd hl _ ((s.reg .eax).toNat, (s.reg .ebx).toNat)) s
    ⟨_, ⟨⟨hpos ha, hpos hb, rfl⟩, hstart⟩, ⟨⟨rfl, rfl, rfl⟩, fun _ h => h.elim⟩⟩
  have hreg (r : Gpr) : t.reg r.var = x.cpu.reg r := congrFun ht.data.reg r
  have heax := hreg .eax
  have hebx := hreg .ebx
  rw [hx.reg] at heax hebx
  refine ⟨t, hst, ht.data.eip.trans hx.eip, heax, hebx.trans heax.symm, fun r h1 h2 => ?_,
    ht.data.mem.trans hx.mem⟩
  rw [hreg, hx.reg, Function.update_of_ne h2, Function.update_of_ne h1]
  rfl

/-- The routine at 0, for 12 and 18. -/
def twelveEighteen : Machine :=
  { twice 12 18 with mem := fun i => euclid[i]?.getD 0 }

theorem euclid_runs_six : ∃ t,
    ReflTransGen (LoopTurn .silent twoByteDisasm 14) twelveEighteen t ∧
      t.eip = 14 ∧ t.reg .eax = 6 ∧ t.reg .ebx = t.reg .eax ∧
      (∀ r : Gpr, r ≠ .eax → r ≠ .ebx → t.reg r.var = twelveEighteen.reg r.var) ∧
      t.abs.mem = twelveEighteen.abs.mem :=
  euclid_runs .silent twoByteDisasm_reads ⟨by decide, by decide, by decide⟩ (by decide) (by decide)

end I386Vm
