import I386Vm.CodeView
import I386Vm.Proofs.Labels

/-!
# Rows and searches of the code view

The rows are numbered through all the sections. The screen ends one row past the last instruction
when there is room for it, and a search goes on to the size of a section in bytes, so that it reads
past the section's instructions where it does not end before.
-/

namespace I386Vm

open Prog

/-! ## One section -/

namespace CodeSection

variable {sec : CodeSection} {dir a : BitVec 32} {j k n : ℕ}

theorem insn_ok (h : sec.addrs[k]? = some a) : sec.insn k = .ok a := by
  unfold insn
  rw [h]
  rfl

theorem insn_error (h : sec.addrs.length ≤ k) : sec.insn k = .error .index := by
  unfold insn
  rw [List.getElem?_eq_none h]
  rfl

theorem scan_cons (h : sec.addrs[j]? = some a) : sec.scan dir (n + 1) j =
    if dir = a then .ok (some j) else sec.scan dir n (j + 1) := by
  conv_lhs => unfold scan
  rw [insn_ok h]
  rfl

/-- What a scan finds is there. -/
theorem scan_some : ∀ (n j : ℕ), sec.scan dir n j = .ok (some k) → sec.addrs[k]? = some dir
  | 0, _, h => by cases h
  | n + 1, j, h => by
    rcases hj : sec.addrs[j]? with _ | a
    · unfold scan at h
      rw [insn_error (List.getElem?_eq_none_iff.1 hj)] at h
      cases h
    · rw [scan_cons hj] at h
      split_ifs at h with heq
      · cases h
        rw [hj, heq]
      · exact scan_some n (j + 1) h

/-- A scan that comes to an instruction at the address ends there or before. -/
theorem scan_mem : ∀ (n j k : ℕ), sec.addrs[k]? = some dir → j ≤ k → k < j + n →
    ∃ i, sec.addrs[i]? = some dir ∧ sec.scan dir n j = .ok (some i)
  | 0, j, k, _, h1, h2 => absurd h1 (by omega)
  | n + 1, j, k, hk, h1, h2 => by
    have hlt : j < sec.addrs.length := h1.trans_lt (List.getElem?_eq_some_iff.1 hk).1
    have hj := List.getElem?_eq_getElem hlt
    rw [scan_cons hj]
    split_ifs with heq
    · exact ⟨j, by rw [hj, heq], rfl⟩
    · have hne : j ≠ k := by
        rintro rfl
        rw [hk] at hj
        cases hj
        exact heq rfl
      exact scan_mem n (j + 1) k hk (by omega) (by omega)

theorem scan_of_notMem (hdir : dir ∉ sec.addrs) (hj : j < sec.addrs.length) :
    sec.scan dir (n + 1) j = sec.scan dir n (j + 1) := by
  have hne : dir ≠ sec.addrs[j] := fun heq => hdir (heq ▸ List.getElem_mem hj)
  rw [scan_cons (List.getElem?_eq_getElem hj), if_neg hne]

/-- A scan of other instructions goes on to its end. -/
theorem scan_none (hdir : dir ∉ sec.addrs) :
    ∀ (n j : ℕ), j + n ≤ sec.addrs.length → sec.scan dir n j = .ok none
  | 0, _, _ => rfl
  | n + 1, j, h => by
    rw [scan_of_notMem hdir (by omega)]
    exact scan_none hdir n (j + 1) (by omega)

theorem scan_error (hdir : dir ∉ sec.addrs) :
    ∀ (n j : ℕ), j ≤ sec.addrs.length → sec.addrs.length < j + n →
      sec.scan dir n j = .error .index
  | 0, j, h1, h2 => absurd h1 (by omega)
  | n + 1, j, h1, h2 => by
    rcases Nat.eq_or_lt_of_le h1 with heq | hlt
    · unfold scan
      rw [insn_error heq.ge]
      rfl
    · rw [scan_of_notMem hdir hlt]
      exact scan_error hdir n (j + 1) hlt (by omega)

end CodeSection

/-! ## All sections -/

section Sections

variable {secs : List CodeSection} {dir : BitVec 32} {ini index : ℕ}

/-- The addresses of all rows. -/
def addrsOf (secs : List CodeSection) : List (BitVec 32) := secs.flatMap fun sec => sec.addrs

theorem addrsOf_cons (sec : CodeSection) (rest : List CodeSection) :
    addrsOf (sec :: rest) = sec.addrs ++ addrsOf rest := List.flatMap_cons

theorem countsFrom_le : ∀ (secs : List CodeSection) (ini : ℕ),
    ∀ c ∈ countsFrom ini secs, c ≤ ini + (addrsOf secs).length
  | [], _ => nofun
  | sec :: rest, ini => by
    rw [addrsOf_cons, List.length_append]
    intro c hc
    rcases List.mem_cons.1 hc with rfl | hc
    · omega
    · have := countsFrom_le rest _ c hc
      omega

/-- The section that a row is looked up in, and the number of instructions before it. -/
theorem findIdx_countsFrom : ∀ (secs : List CodeSection) (ini index : ℕ) {a : BitVec 32},
    (addrsOf secs)[index]? = some a → ∃ sh,
      (countsFrom ini secs).findIdx? (fun c => ini + index < c) = some sh ∧
      insnAt secs sh
        (ini + index - if sh = 0 then ini else (countsFrom ini secs).getD (sh - 1) 0) = .ok a
  | [], _, _, _, h => by cases h
  | sec :: rest, ini, index, a, h => by
    rw [addrsOf_cons] at h
    rcases Nat.lt_or_ge index sec.addrs.length with hlt | hge
    · rw [List.getElem?_append_left hlt] at h
      refine ⟨0, ?_, ?_⟩
      · simp [countsFrom, List.findIdx?_cons, hlt]
      · rw [if_pos rfl, Nat.add_sub_cancel_left]
        exact CodeSection.insn_ok h
    · rw [List.getElem?_append_right hge] at h
      obtain ⟨sh, hsh, hinsn⟩ := findIdx_countsFrom rest (ini + sec.addrs.length) _ h
      have hindex : ini + sec.addrs.length + (index - sec.addrs.length) = ini + index := by omega
      rw [hindex] at hsh hinsn
      refine ⟨sh + 1, ?_, ?_⟩
      · simp [countsFrom, List.findIdx?_cons, hsh, hge]
      · rw [if_neg (Nat.succ_ne_zero sh)]
        rcases sh with _ | sh
        · exact hinsn
        · exact hinsn

/-- The row after the last one is looked up in the first section. -/
theorem elfRow_error (h : (addrsOf secs).length ≤ index) : elfRow secs index = .error .index := by
  have hnone : (countsFrom 0 secs).findIdx? (fun c => index < c) = none := by
    rw [List.findIdx?_eq_none_iff]
    intro c hc
    have := countsFrom_le secs 0 c hc
    simp
    omega
  simp only [elfRow]
  rw [hnone]
  rcases secs with _ | ⟨sec, rest⟩
  · rfl
  · rw [addrsOf_cons, List.length_append] at h
    exact CodeSection.insn_error (Nat.le_of_add_right_le h)

theorem elfRow_ok {a : BitVec 32} (h : (addrsOf secs)[index]? = some a) :
    elfRow secs index = .ok a := by
  obtain ⟨sh, hsh, hinsn⟩ := findIdx_countsFrom secs 0 index h
  rw [Nat.zero_add] at hsh hinsn
  simp only [elfRow]
  rw [hsh]
  exact hinsn

/-! ## Searches -/

/-- The sections that a search goes through to their end have an instruction for each byte. -/
def OnePerByte (secs : List CodeSection) (dir : BitVec 32) : Prop :=
  ∀ sec ∈ secs.takeWhile fun sec => dir ∉ sec.addrs, sec.addrs.length = sec.size

theorem onePerByte_of_mem {sec : CodeSection} (h : dir ∈ sec.addrs) :
    OnePerByte (sec :: secs) dir := by
  unfold OnePerByte
  rw [List.takeWhile_cons_of_neg (by simpa using h)]
  exact nofun

theorem onePerByte_of_notMem {sec : CodeSection} (h : dir ∉ sec.addrs) :
    OnePerByte (sec :: secs) dir ↔ sec.addrs.length = sec.size ∧ OnePerByte secs dir := by
  unfold OnePerByte
  rw [List.takeWhile_cons_of_pos (by simpa using h), List.forall_mem_cons]

section Search

variable {place : ℕ → ℕ} {last : CodeSection → ℕ → ℕ → ℕ} {scrC scrC' : ℕ}

theorem searchFrom_ok : ∀ (secs : List CodeSection) (ini : ℕ), OnePerByte secs dir →
    ∃ r, searchFrom (fun sec _ _ => sec.size) place dir scrC (secs.zip (countsFrom ini secs)) ini =
      .ok r ∧ (dir ∈ addrsOf secs → ∃ k, (addrsOf secs)[k]? = some dir ∧ r = place (k + ini))
  | [], _, _ => ⟨scrC, rfl, nofun⟩
  | sec :: rest, ini, h => by
    rw [addrsOf_cons]
    by_cases hdir : dir ∈ sec.addrs
    · obtain ⟨k, hk⟩ := List.mem_iff_getElem?.1 hdir
      have hlt := (List.getElem?_eq_some_iff.1 hk).1.trans_le sec.length_le
      obtain ⟨i, hi, hscan⟩ := CodeSection.scan_mem sec.size 0 k hk (Nat.zero_le _) (by omega)
      refine ⟨place (i + ini), ?_, fun _ => ⟨i, ?_, rfl⟩⟩
      · simp only [countsFrom, List.zip_cons_cons, searchFrom]
        rw [hscan]
        rfl
      · rw [List.getElem?_append_left (List.getElem?_eq_some_iff.1 hi).1, hi]
    · obtain ⟨hsize, hrest⟩ := (onePerByte_of_notMem hdir).1 h
      obtain ⟨r, hr, hmem⟩ := searchFrom_ok rest (ini + sec.addrs.length) hrest
      refine ⟨r, ?_, fun hdir' => ?_⟩
      · simp only [countsFrom, List.zip_cons_cons, searchFrom]
        rw [CodeSection.scan_none hdir _ 0 (by omega)]
        exact hr
      · obtain ⟨k, hk, rfl⟩ := hmem ((List.mem_append.1 hdir').resolve_left hdir)
        refine ⟨sec.addrs.length + k, ?_, congrArg place (by omega)⟩
        rw [List.getElem?_append_right (Nat.le_add_right _ _), Nat.add_sub_cancel_left, hk]

theorem searchFrom_error : ∀ (secs : List CodeSection) (ini : ℕ), ¬ OnePerByte secs dir →
    searchFrom (fun sec _ _ => sec.size) place dir scrC (secs.zip (countsFrom ini secs)) ini =
      .error .index
  | [], _, h => absurd nofun h
  | sec :: rest, ini, h => by
    have hdir : dir ∉ sec.addrs := fun hdir => h (onePerByte_of_mem hdir)
    rw [onePerByte_of_notMem hdir, not_and] at h
    simp only [countsFrom, List.zip_cons_cons, searchFrom]
    by_cases hsize : sec.addrs.length = sec.size
    · rw [CodeSection.scan_none hdir _ 0 (by omega)]
      exact searchFrom_error rest _ (h hsize)
    · have hle := sec.length_le
      rw [CodeSection.scan_error hdir _ 0 (Nat.zero_le _) (by omega)]
      rfl

/-- A search ends at a row or leaves the view where it is. -/
theorem searchFrom_lt (hplace : ∀ k, place k ≤ k) : ∀ (secs : List CodeSection) (ini : ℕ),
    searchFrom last place dir scrC (secs.zip (countsFrom ini secs)) ini = .ok scrC' →
      scrC' = scrC ∨ scrC' < ini + (addrsOf secs).length
  | [], _, h => by
    cases h
    exact .inl rfl
  | sec :: rest, ini, h => by
    rw [addrsOf_cons, List.length_append]
    simp only [countsFrom, List.zip_cons_cons, searchFrom] at h
    rcases hscan : sec.scan dir (last sec ini (ini + sec.addrs.length)) 0 with e | o
    · rw [hscan] at h
      cases h
    · rw [hscan, ok_bind] at h
      rcases o with _ | j
      · rcases searchFrom_lt hplace rest _ h with heq | hlt
        · exact .inl heq
        · exact .inr (by omega)
      · cases h
        have hj := (List.getElem?_eq_some_iff.1 (CodeSection.scan_some _ _ hscan)).1
        have := hplace (j + ini)
        exact .inr (by omega)

end Search

end Sections

theorem lineAbove_le (k : ℕ) : lineAbove k ≤ k := by
  unfold lineAbove
  split_ifs <;> omega

/-- The raw listing is searched as an ELF one with one section. -/
theorem rawFind_eq (sec : CodeSection) (dir : BitVec 32) (scrC : ℕ) :
    rawFind sec dir scrC = elfFind [sec] dir scrC := by
  simp only [rawFind, elfFind, countsFrom, List.zip_cons_cons, searchFrom]
  rcases sec.scan dir sec.size 0 with e | _ | i <;> rfl

namespace Listing

variable {l : Listing} {scrC scrC' index i n rows : ℕ} {a dir eip : BitVec 32} {v v' : View}

/-- The addresses of all rows. -/
def addrs (l : Listing) : List (BitVec 32) := addrsOf l.sections

theorem count_eq (l : Listing) : l.count = l.addrs.length := List.length_flatMap.symm

/-! ## Rendering -/

theorem row_ok (h : l.addrs[index]? = some a) : l.row index = .ok a := by
  rcases l with secs | sec
  · exact elfRow_ok h
  · exact CodeSection.insn_ok (by simpa [addrs, addrsOf, sections] using h)

theorem row_error (h : l.count ≤ index) : l.row index = .error .index := by
  rw [count_eq] at h
  rcases l with secs | sec
  · exact elfRow_error h
  · exact CodeSection.insn_error (by simpa [addrs, addrsOf, sections] using h)

theorem renderFrom_ok : ∀ (n i : ℕ), i + scrC + n ≤ l.count →
    l.renderFrom scrC n i = .ok (shownRows l.addrs (i + scrC) n)
  | 0, _, _ => congrArg Except.ok (List.take_zero).symm
  | n + 1, i, h => by
    have hlt : i + scrC < l.addrs.length := by
      rw [← count_eq]
      omega
    have hrest := renderFrom_ok n (i + 1) (by omega)
    have hnext : i + 1 + scrC = i + scrC + 1 := by omega
    unfold renderFrom shownRows
    rw [row_ok (List.getElem?_eq_getElem hlt), hrest, List.drop_eq_getElem_cons hlt, hnext]
    rfl

theorem renderFrom_error : ∀ (n i : ℕ), i + scrC ≤ l.count → l.count < i + scrC + n →
    l.renderFrom scrC n i = .error .index
  | 0, _, h1, h2 => absurd h1 (by omega)
  | n + 1, i, h1, h2 => by
    unfold renderFrom
    rcases Nat.eq_or_lt_of_le h1 with heq | hlt
    · rw [row_error heq.ge, error_bind]
    · have hlt' := hlt
      rw [count_eq] at hlt'
      rw [row_ok (List.getElem?_eq_getElem hlt'), ok_bind,
        renderFrom_error n (i + 1) (by omega) (by omega), error_bind]

/-- A screen with a row for each instruction to come shows these. -/
theorem render_ok (h : rows + scrC ≤ l.count) :
    l.render rows scrC = .ok (shownRows l.addrs scrC rows) := by
  unfold render
  rw [min_eq_left (by omega), renderFrom_ok _ 0 (by omega), Nat.zero_add]

theorem render_error (hscr : scrC ≤ l.count) (h : l.count < rows + scrC) :
    l.render rows scrC = .error .index := by
  unfold render
  rw [min_eq_right (by omega)]
  exact renderFrom_error _ 0 (by omega) (by omega)

theorem render_iff (hscr : scrC ≤ l.count) :
    (∃ shown, l.render rows scrC = .ok shown) ↔ rows + scrC ≤ l.count := by
  constructor
  · rintro ⟨shown, h⟩
    by_contra hlt
    rw [render_error hscr (not_le.1 hlt)] at h
    cases h
  · exact fun h => ⟨_, render_ok h⟩

/-! ## Searches for `eip` -/

/-- A search stays in bounds and ends one line above `eip`, if that is one of the addresses. -/
def Finds (l : Listing) (eip : BitVec 32) (found : Except ViewFault ℕ) : Prop :=
  ∃ scrC, found = .ok scrC ∧ (eip ∈ l.addrs → ∃ k, l.addrs[k]? = some eip ∧ scrC = k - 1)

theorem find_eq (l : Listing) (eip : BitVec 32) (scrC : ℕ) :
    l.find eip scrC = elfFind l.sections eip scrC := by
  rcases l with secs | sec
  · rfl
  · exact rawFind_eq sec eip scrC

theorem find_iff : l.Finds eip (l.find eip scrC) ↔ OnePerByte l.sections eip := by
  rw [find_eq]
  constructor
  · rintro ⟨r, h, -⟩
    by_contra hbad
    unfold elfFind at h
    rw [searchFrom_error _ _ hbad] at h
    cases h
  · intro h
    obtain ⟨r, hr, hmem⟩ := @searchFrom_ok eip lineAbove scrC _ 0 h
    refine ⟨r, hr, fun heip => ?_⟩
    obtain ⟨k, hk, rfl⟩ := hmem heip
    refine ⟨k, hk, ?_⟩
    unfold lineAbove
    split_ifs <;> omega

/-! ## Keys -/

theorem search_lt {last : CodeSection → ℕ → ℕ → ℕ} {place : ℕ → ℕ} (hplace : ∀ k, place k ≤ k)
    (hscr : scrC < l.count) (h : searchFrom last place dir scrC
      (l.sections.zip (countsFrom 0 l.sections)) 0 = .ok scrC') : scrC' < l.count := by
  rcases searchFrom_lt hplace _ 0 h with rfl | hlt
  · exact hscr
  · rw [count_eq]
    exact hlt.trans_eq (Nat.zero_add _)

theorem find_lt (hscr : scrC < l.count) (h : l.find eip scrC = .ok scrC') : scrC' < l.count := by
  rw [find_eq] at h
  exact search_lt lineAbove_le hscr h

theorem lookup_lt (hscr : scrC < l.count) (h : l.lookup dir scrC = .ok scrC') :
    scrC' < l.count := by
  rcases l with secs | sec
  · exact @search_lt (elf secs) scrC scrC' dir _ _ (fun _ => le_rfl) hscr h
  · exact find_lt hscr h

theorem start_lt (hcount : l.count ≠ 0) (h : l.start eip = .ok scrC) : scrC < l.count := by
  rcases l with secs | sec
  · exact find_lt (Nat.pos_of_ne_zero hcount) h
  · cases h
    exact Nat.pos_of_ne_zero hcount

/-- Every key keeps the first row on an instruction. -/
theorem press_lt (hv : v.scrC < l.count) (key : Key) (h : l.press v key = .ok v') :
    v'.scrC < l.count := by
  rcases key with eip | _ | _ | _ | _ | dir | _
  case exec =>
    rcases hfind : l.find eip v.scrC with e | scrC
    · simp only [press, hfind, error_bind] at h
      cases h
    · simp only [press, hfind, ok_bind] at h
      cases h
      exact find_lt hv hfind
  case down =>
    rcases v with ⟨scrC, _ | _⟩
    · simp only [press] at h
      cases h
      split_ifs with hlt
      · exact hlt
      · exact hv
    · cases h
      exact hv
  case up =>
    rcases v with ⟨scrC, _ | _⟩
    · simp only [press] at h
      cases h
      split_ifs with hpos
      · exact (Nat.sub_le _ _).trans_lt hv
      · exact hv
    · cases h
      exact hv
  case f =>
    rcases v with ⟨scrC, _ | _⟩
    · rcases hlookup : l.lookup dir scrC with e | scrC'
      · simp only [press, hlookup, error_bind] at h
        cases h
      · simp only [press, hlookup, ok_bind] at h
        cases h
        exact lookup_lt hv hlookup
    · cases h
      exact hv
  all_goals
    cases h
    exact hv

theorem Reached.lt (h : l.Reached v) : v.scrC < l.count := by
  induction h with
  | start decoded first => exact start_lt decoded first
  | press _ key pressed ih => exact press_lt ih key pressed

/-- In every view that the loop comes to, the screen stays inside the disassembly iff it has not
more rows than there are instructions from the first row on, and a search iff it goes through no
section that has fewer instructions than bytes. -/
theorem reached_inBounds_iff (h : l.Reached v) (rows : ℕ) :
    ((∃ shown, l.render rows v.scrC = .ok shown) ↔ rows + v.scrC ≤ l.count) ∧
      ∀ eip, l.Finds eip (l.find eip v.scrC) ↔ OnePerByte l.sections eip :=
  ⟨render_iff h.lt.le, fun _ => find_iff⟩

/-- Three instructions of one byte, and a screen of two rows. -/
theorem reached_inBounds_three :
    (∃ shown, (raw ⟨[0, 1, 2], 3, le_rfl⟩).render 2 0 = .ok shown) ∧
      ∀ eip, (raw ⟨[0, 1, 2], 3, le_rfl⟩).Finds eip
        ((raw ⟨[0, 1, 2], 3, le_rfl⟩).find eip 0) := by
  have hstart : (raw ⟨[0, 1, 2], 3, le_rfl⟩).Reached ⟨0, .code⟩ :=
    .start (by decide) (show start _ 0 = .ok 0 from rfl)
  have h := reached_inBounds_iff hstart 2
  refine ⟨h.1.2 (by decide), fun eip => (h.2 eip).2 fun sec hsec => ?_⟩
  rw [List.mem_singleton.1 ((List.takeWhile_sublist _).mem hsec)]
  rfl

/-- An instruction of two bytes in the first section, and `eip` in the second one. -/
theorem not_reached_inBounds : ¬ ∀ (l : Listing) (v : View), l.Reached v → ∀ rows : ℕ,
    (∃ shown, l.render rows v.scrC = .ok shown) ∧
      ∀ eip, l.Finds eip (l.find eip v.scrC) := by
  intro hall
  have hstart : (elf [⟨[0], 2, Nat.le_succ 1⟩, ⟨[8], 1, le_rfl⟩]).Reached ⟨0, .code⟩ :=
    .start (by decide) (show start _ 0 = .ok 0 from rfl)
  obtain ⟨r, h, -⟩ := (hall _ _ hstart 0).2 8
  cases h

end Listing

end I386Vm
