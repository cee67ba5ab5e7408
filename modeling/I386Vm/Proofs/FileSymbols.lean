import I386Vm.Proofs.ElfImage
import I386Vm.Proofs.Labels
import I386Vm.Sections

/-!
# From the symbol table to the labels

Where the file has one symbol table, what is collected, sorted and looked up are its functions, so
that the labels of the rows are right exactly where every row lies before the last function and none
goes back before the function of the row above it (`fileLabels_iff`).
-/

namespace I386Vm

open Bytes Prog Selection

def fileTable (file : List (BitVec 8)) : Elf32Table := .ofBytes fun k => file.getD k 0

def fileShdr (file : List (BitVec 8)) (i : ℕ) : Elf32Shdr :=
  .ofBytes fun k => file.getD
    ((fileTable file).eShoff.toNat + i * (fileTable file).eShentsize.toNat + k) 0

/-- Entry `k` of the symbol table at section `j`. -/
def fileSym (file : List (BitVec 8)) (j k : ℕ) : Elf32Sym :=
  .ofBytes fun b => file.getD ((fileShdr file j).shOffset.toNat + k * symSize + b) 0

def fileSyms (file : List (BitVec 8)) (j : ℕ) : List Elf32Sym :=
  (List.range (nsyms (fileShdr file j).shSize)).map (fileSym file j)

/-- The headers are in the file, and section `j`, which is in it too, is the only symbol table. -/
structure HasSymtab (file : List (BitVec 8)) (j : ℕ) : Prop where
  header : ehdrSize ≤ file.length
  entry : (fileTable file).eShentsize.toNat = shdrSize
  table : (fileTable file).eShoff.toNat + (fileTable file).eShnum.toNat * shdrSize ≤ file.length
  inside : j < (fileTable file).eShnum.toNat
  only : ∀ i < (fileTable file).eShnum.toNat, (fileShdr file i).HasSymbols ↔ i = j
  inFile : (fileShdr file j).shOffset.toNat + nsyms (fileShdr file j).shSize * symSize ≤
    file.length

section Reading

variable {host : SectionHost} {file : List (BitVec 8)} {j : ℕ} (h : HasSymtab file j)
include h

theorem readTable_eq : host.readTable file = fileTable file := by
  have hb := @putBytes_fread host.ehdr file 0 ehdrSize (by have := h.header; omega)
  have hfile : ∀ k < ehdrSize, putBytes host.ehdr 0 (fread file 0 ehdrSize) k = file.getD k 0 := by
    intro k hk
    rw [hb k hk, Nat.zero_add]
  unfold SectionHost.readTable fileTable Elf32Table.ofBytes
  rw [readLE_eq_of_agree hfile (by decide), readLE_eq_of_agree hfile (by decide),
    readLE_eq_of_agree hfile (by decide), readLE_eq_of_agree hfile (by decide)]

theorem readShdr_eq {i : ℕ} (hi : i < (fileTable file).eShnum.toNat) :
    host.readShdr file (fileTable file) i = fileShdr file i := by
  have htable := h.table
  have hroom : i * shdrSize + shdrSize ≤ (fileTable file).eShnum.toNat * shdrSize := by
    rw [← Nat.succ_mul]
    exact Nat.mul_le_mul_right _ hi
  have hfile := @putBytes_fread (host.shdr i) file ((fileTable file).eShoff.toNat + i * shdrSize)
    shdrSize (by omega)
  unfold SectionHost.readShdr fileShdr Elf32Shdr.ofBytes
  rw [h.entry, readLE_eq_of_agree hfile (by decide), readLE_eq_of_agree hfile (by decide),
    readLE_eq_of_agree hfile (by decide), readLE_eq_of_agree hfile (by decide),
    readLE_eq_of_agree hfile (by decide)]

theorem readSym_eq {k : ℕ} (hk : k < nsyms (fileShdr file j).shSize) :
    host.readSym file (fileShdr file j) k = fileSym file j k := by
  have hroom : k * symSize + symSize ≤ nsyms (fileShdr file j).shSize * symSize := by
    rw [← Nat.succ_mul]
    exact Nat.mul_le_mul_right _ hk
  have hin := h.inFile
  have hfile := @putBytes_fread (host.sym k) file
    ((fileShdr file j).shOffset.toNat + k * symSize) symSize (by omega)
  unfold SectionHost.readSym fileSym Elf32Sym.ofBytes
  rw [readLE_eq_of_agree hfile (by decide), readLE_eq_of_agree hfile (by decide),
    hfile 12 (by decide)]

/-- The loop keeps the symbol table that it has met. -/
theorem symtab_sectionsTo : ∀ n ≤ (fileTable file).eShnum.toNat,
    (host.sectionsTo file (fileTable file) n).symtab =
      if j < n then fileShdr file j else host.tabs.1
  | 0, _ => (if_neg (Nat.not_lt_zero j)).symm
  | n + 1, hn => by
    have ih := symtab_sectionsTo n (by omega)
    have honly := h.only n (by omega)
    unfold SectionHost.sectionsTo Sections.add
    rw [readShdr_eq h (by omega)]
    rcases eq_or_ne n j with rfl | hne
    · have hsymbols := honly.2 rfl
      have hexec : ¬ (fileShdr file n).Executable := by
        intro hexec
        have htype : (1 : BitVec 32) = 2 := hexec.1.symm.trans hsymbols
        exact absurd htype (by decide)
      rw [if_neg hexec, if_pos hsymbols, if_pos (Nat.lt_succ_self n)]
    · have hsame : (if j < n + 1 then fileShdr file j else host.tabs.1) =
          if j < n then fileShdr file j else host.tabs.1 := by
        simp only [show j < n + 1 ↔ j < n by omega]
      rw [hsame, ← ih, if_neg (honly.not.2 hne)]
      split_ifs <;> rfl

theorem readSyms_eq : host.readSyms file = fileSyms file j := by
  have hsymtab : (host.sections file).symtab = fileShdr file j := by
    unfold SectionHost.sections
    rw [readTable_eq h, symtab_sectionsTo h _ le_rfl, if_pos h.inside]
  unfold SectionHost.readSyms fileSyms
  rw [hsymtab]
  refine List.map_congr_left fun k hk => readSym_eq h (List.mem_range.1 hk)

end Reading

/-- The function has the greatest address that is not above `addr`. -/
def NamesIn (fs : List (BitVec 32 × BitVec 32)) (addr : BitVec 32) (f : BitVec 32 × BitVec 32) :
    Prop :=
  f ∈ fs ∧ f.2 ≤ addr ∧ ∀ g ∈ fs, g.2 ≤ addr → g.2 ≤ f.2

/-- Every row gets the name and the address of its function. -/
def ShowsFunctions (fs : List (BitVec 32 × BitVec 32)) (rows : List (BitVec 32))
    (shown : Except SymFault (List (BitVec 32 × BitVec 32))) : Prop :=
  ∃ ls, shown = .ok ls ∧ List.Forall₂ (NamesIn fs) rows ls

/-- The row at `b` does not lie before a function that is not after `a`. -/
def NotBefore (fs : List (BitVec 32 × BitVec 32)) (a b : BitVec 32) : Prop :=
  ∀ f ∈ fs, f.2 ≤ a → f.2 ≤ b

section Sorted

variable {ccc : ℕ} {words : ℕ → BitVec 32} {fs : List (BitVec 32 × BitVec 32)}
  (hperm : (pairs ccc words).Perm fs)
include hperm

theorem mem_iff_of_perm {f : BitVec 32 × BitVec 32} : f ∈ fs ↔ ∃ k < ccc, pairAt words k = f := by
  rw [← hperm.mem_iff]
  unfold pairs elems
  simp only [List.mem_map, List.mem_range]

theorem forall_mem_iff_of_perm {P : BitVec 32 × BitVec 32 → Prop} :
    (∀ f ∈ fs, P f) ↔ ∀ k < ccc, P (pairAt words k) := by
  constructor
  · exact fun h k hk => h _ ((mem_iff_of_perm hperm).2 ⟨k, hk, rfl⟩)
  · intro h f hf
    obtain ⟨k, hk, rfl⟩ := (mem_iff_of_perm hperm).1 hf
    exact h k hk

theorem names_eq : Names ccc words = NamesIn fs := by
  funext addr f
  unfold Names NamesIn
  rw [mem_iff_of_perm hperm, forall_mem_iff_of_perm hperm, eq_iff_iff]
  constructor
  · rintro ⟨k, hk, rfl, hle, hmax⟩
    exact ⟨⟨k, hk, rfl⟩, hle, hmax⟩
  · rintro ⟨⟨k, hk, rfl⟩, hle, hmax⟩
    exact ⟨k, hk, rfl, hle, hmax⟩

theorem follows_eq : Follows ccc words = NotBefore fs := by
  funext a b
  unfold NotBefore
  rw [forall_mem_iff_of_perm hperm]
  rfl

theorem labelled_iff {rows : List (BitVec 32)}
    {shown : Except SymFault (List (BitVec 32 × BitVec 32))} :
    Labelled ccc words rows shown ↔ ShowsFunctions fs rows shown := by
  unfold Labelled ShowsFunctions
  rw [names_eq hperm]

/-- The last symbol is the greatest function. -/
theorem below_last_iff (hord : Ordered ccc words) (hpos : 0 < ccc) {b : BitVec 32} :
    b.toNat < baseAt words (ccc - 1) ↔ ∃ f ∈ fs, b < f.2 := by
  constructor
  · exact fun hb => ⟨_, (mem_iff_of_perm hperm).2 ⟨ccc - 1, by omega, rfl⟩, hb⟩
  · rintro ⟨f, hf, hb⟩
    obtain ⟨k, hk, rfl⟩ := (mem_iff_of_perm hperm).1 hf
    exact lt_of_lt_of_le hb (hord.le (by omega) (by omega))

theorem first_le (hord : Ordered ccc words) {b : BitVec 32} (hb : ∃ f ∈ fs, f.2 ≤ b) :
    baseAt words 0 ≤ b.toNat := by
  obtain ⟨f, hf, hle⟩ := hb
  obtain ⟨k, hk, rfl⟩ := (mem_iff_of_perm hperm).1 hf
  exact (hord.le (Nat.zero_le k) hk).trans hle

end Sorted

/-- The labels are right exactly where there is a function, every row lies before the last one, and
none goes back before the function of the row above it. -/
theorem fileLabels_iff {host : SectionHost} {file : List (BitVec 8)} {j : ℕ}
    (h : HasSymtab file j) {rows : List (BitVec 32)} (garbage : Label)
    (hrows : ∀ b ∈ rows, ∃ f ∈ functions (host.readProgbits file) (fileSyms file j), f.2 ≤ b) :
    ShowsFunctions (functions (host.readProgbits file) (fileSyms file j)) rows
        (host.labels file garbage rows) ↔
      functions (host.readProgbits file) (fileSyms file j) ≠ [] ∧
        (∀ b ∈ rows, ∃ f ∈ functions (host.readProgbits file) (fileSyms file j), b < f.2) ∧
        rows.IsChain (NotBefore (functions (host.readProgbits file) (fileSyms file j))) := by
  obtain ⟨hlen, hpairs⟩ :=
    @collect_spec (host.readProgbits file) (host.readSyms file) 0 fun _ => 0
  have hcollected : collect (host.readProgbits file) (host.readSyms file) 0 (fun _ => 0) =
      host.collected file := rfl
  have hle : (functions (host.readProgbits file) (fileSyms file j)).length ≤
      nsyms (fileShdr file j).shSize := by
    unfold functions fileSyms
    rw [List.length_map]
    refine (List.length_filter_le _ _).trans ?_
    rw [List.length_map, List.length_range]
  have hlt := nsyms_lt (fileShdr file j).shSize
  rw [hcollected, readSyms_eq h] at hlen hpairs
  unfold SectionHost.labels
  generalize functions (host.readProgbits file) (fileSyms file j) = fs at *
  generalize host.collected file = r at *
  rw [Nat.zero_add] at hlen
  rw [← List.length_pos_iff, ← hlen]
  rcases Nat.eq_zero_or_pos r.1 with h0 | hpos
  · have hbound : (BitVec.ofNat 32 0 - 1 : BitVec 32).toNat = 2 ^ 32 - 1 := by decide
    have hsort : (sortSymbols r.1).run r.2 = .error .overflow := by
      unfold sortSymbols
      rw [h0, hbound, sortFrom_zero_run _ 0 (by decide) (by decide)]
    rw [hsort, error_bind]
    exact iff_of_false (fun ⟨_, hls, _⟩ => nomatch hls) fun hall => absurd hall.1 (by omega)
  · obtain ⟨words, hsort, hsorted, hperm⟩ := sortSymbols_run hpos (by omega) r.2
    rw [hpairs] at hperm
    have hperm' : (pairs r.1 words).Perm fs := hperm
    have hlabels := @labels_iff r.1 words rows hsorted (by omega) garbage hpos
      fun b hb => first_le hperm' hsorted (hrows b hb)
    rw [hsort, ok_bind, and_iff_right hpos, ← labelled_iff hperm', hlabels]
    simp only [below_last_iff hperm' hsorted hpos]
    refine and_congr_right fun _ => ?_
    rw [follows_eq hperm']

/-- One section, the symbols of two functions, at 4 and at 8. -/
def symbolFile : List (BitVec 8) :=
  [0x7F, 0x45, 0x4C, 0x46, 1, 1, 1, 0, 0, 0, 0, 0, 0, 0, 0, 0, 2, 0, 3, 0, 1, 0, 0, 0] ++
    List.replicate 8 0 ++ [52, 0, 0, 0] ++ List.replicate 10 0 ++ [40, 0, 1, 0, 0, 0] ++
    [0, 0, 0, 0, 2, 0, 0, 0] ++ List.replicate 8 0 ++ [92, 0, 0, 0, 32, 0, 0, 0] ++
    List.replicate 16 0 ++
    [1, 0, 0, 0, 4, 0, 0, 0, 0, 0, 0, 0, 2, 0, 0, 0, 2, 0, 0, 0, 8, 0, 0, 0, 0, 0, 0, 0, 2, 0, 0, 0]

def symbolHost : SectionHost where
  toElfHost := smallHost 0x1000
  shdr _ _ := 0xFF
  sym _ _ := 0xFF
  tabs := (.ofBytes fun _ => 0xFF, .ofBytes fun _ => 0xFF)
  progbits := (0, 0)

theorem hasSymtab_symbolFile : HasSymtab symbolFile 0 :=
  ⟨by decide +kernel, by decide +kernel, by decide +kernel, by decide +kernel, by decide +kernel,
    by decide +kernel⟩

theorem functions_symbolFile :
    functions (symbolHost.readProgbits symbolFile) (fileSyms symbolFile 0) = [(1, 4), (2, 8)] := by
  decide +kernel

/-- Two rows of the first function. -/
theorem fileLabels_two : ShowsFunctions
    (functions (symbolHost.readProgbits symbolFile) (fileSyms symbolFile 0)) [4, 5]
    (symbolHost.labels symbolFile ⟨0, 0, 0, 0⟩ [4, 5]) := by
  refine (@fileLabels_iff symbolHost _ 0 hasSymtab_symbolFile [4, 5] _ ?_).2 ?_
  · rw [functions_symbolFile]
    simp
  · rw [functions_symbolFile]
    simp [NotBefore]

end I386Vm
