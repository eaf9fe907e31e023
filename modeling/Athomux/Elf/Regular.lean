import Athomux.Elf.Tables
import Mathlib.Data.List.TakeWhile

/-!
# Regular files

What a linker makes: the table is behind the ELF header, the addresses and the offsets agree within
a page, and no page is shared.
-/

open Lib

namespace Athomux.Elf

variable {file : ByteMem} {p l : Phdr} {a : Nat} {ls : List Phdr}

/-- The first page behind all that is made of a header. -/
def Phdr.last (p : Phdr) : Nat :=
  ((p.vaddr + p.filesz) / pagesize + 1) * pagesize +
    (p.memsz - p.filesz + pagesize - 1) / pagesize * pagesize

/-- A header that the formulas are right for. Zeroes that go on in another page are only seen when the
sizes are in different pages, too. -/
structure Phdr.Regular (p : Phdr) : Prop where
  sizes : p.filesz ≤ p.memsz
  fits : p.vaddr + p.memsz + 2 * pagesize ≤ 2 ^ 32
  congruent : p.filesz = 0 ∨ p.vaddr % pagesize = p.offset % pagesize
  bss : p.vaddr + p.memsz ≤ ((p.vaddr + p.filesz) / pagesize + 1) * pagesize ∨
    p.filesz / pagesize ≠ p.memsz / pagesize

def loads (file : ByteMem) : List Phdr := (phdrs file).filter fun p => p.type = ptLoad

structure RegularFile (file : ByteMem) : Prop where
  phoff : (ehdr file).phoff = 52
  inside : InTransfer file
  isStatic : ∀ p ∈ phdrs file, p.type ≠ ptInterp
  few : (loads file).length ≤ 32
  regular : ∀ p ∈ loads file, p.Regular
  ascending : (loads file).Pairwise fun l p => l.last ≤ pageBase p.vaddr

/-! ## One header -/

theorem Phdr.Regular.fileEnd_eq (h : p.Regular) : p.fileEnd = p.vaddr + p.filesz := by
  have := h.sizes
  have := h.fits
  unfold Phdr.fileEnd word pagesize at *
  omega

theorem Phdr.Regular.inPages (h : p.Regular) (hle : p.vaddr ≤ a) (hlt : a < p.vaddr + p.filesz) :
    p.InPages a := by
  have := h.sizes
  have := h.fits
  have := h.congruent
  unfold Phdr.InPages pageBase word pagesize at *
  omega

theorem Phdr.Regular.lt_last (h : l.Regular) (ha : l.InPages a) : a < l.last := by
  have := h.sizes
  have := h.fits
  have := h.congruent
  unfold Phdr.InPages Phdr.last pageBase word pagesize at *
  omega

/-- All zeroes of a header are between its first page and its last one. -/
theorem Phdr.Regular.piece_bounds (h : l.Regular) {z : Nat × Nat} (hz : z ∈ l.zeroPieces) :
    pageBase l.vaddr ≤ z.1 ∧ z.1 + z.2 ≤ l.last := by
  have hend := h.fileEnd_eq
  have := h.sizes
  have := h.fits
  unfold Phdr.zeroPieces Phdr.restLength Phdr.pagesStart Phdr.pagesLength at hz
  rw [hend] at hz
  unfold Phdr.last pageBase word pagesize at *
  rcases List.mem_append.mp hz with hz | hz
  · split_ifs at hz
    · obtain rfl := List.mem_singleton.mp hz
      simp only
      omega
    · cases hz
  · split_ifs at hz
    · obtain rfl := List.mem_singleton.mp hz
      simp only
      omega
    · cases hz

/-- Its zeroes are in one piece of its own. -/
theorem Phdr.Regular.one_piece (h : p.Regular) (hle : p.vaddr + p.filesz ≤ a)
    (hlt : a < p.vaddr + p.memsz) :
    (p.zeroPieces.filter fun z => z.1 ≤ a ∧ a < z.1 + z.2).length = 1 := by
  have hend := h.fileEnd_eq
  have hfits := h.fits
  have hbss := h.bss
  have hne : p.filesz ≠ p.memsz := by omega
  unfold Phdr.zeroPieces Phdr.restLength Phdr.pagesStart Phdr.pagesLength
  rw [hend, if_pos hne]
  unfold word pagesize at *
  by_cases hpage : p.filesz / 4096 = p.memsz / 4096
  · rw [if_neg (not_not.mpr hpage), List.append_nil, List.filter_cons_of_pos]
    · rfl
    · simp only [decide_eq_true_eq]
      omega
  · rw [if_pos hpage]
    by_cases hrest : a < ((p.vaddr + p.filesz) / 4096 + 1) * 4096
    · rw [List.cons_append, List.filter_cons_of_pos, List.nil_append, List.filter_cons_of_neg]
      · rfl
      · simp only [decide_eq_true_eq]
        omega
      · simp only [decide_eq_true_eq]
        omega
    · rw [List.cons_append, List.filter_cons_of_neg, List.nil_append, List.filter_cons_of_pos]
      · rfl
      · simp only [decide_eq_true_eq]
        omega
      · simp only [decide_eq_true_eq]
        omega

/-! ## All headers -/

theorem loadsRead_eq (h : RegularFile file) : loadsRead file = loads file := by
  unfold loadsRead loads phdrs
  rw [h.phoff, List.takeWhile_eq_self_iff.mpr]
  intro p hp
  refine decide_eq_true (h.isStatic p ?_)
  unfold phdrs
  rw [h.phoff]
  exact hp

theorem RegularFile.split (h : RegularFile file) (hp : p ∈ loads file) :
    ∃ ls rs, loads file = ls ++ p :: rs ∧ (∀ l ∈ ls, l.Regular ∧ l.last ≤ pageBase p.vaddr) ∧
      (∀ r ∈ rs, r.Regular ∧ p.last ≤ pageBase r.vaddr) ∧ p.Regular := by
  obtain ⟨ls, rs, heq⟩ := List.append_of_mem hp
  have hreg := h.regular
  have hasc := h.ascending
  rw [heq] at hreg hasc
  obtain ⟨-, hright, hcross⟩ := List.pairwise_append.mp hasc
  refine ⟨ls, rs, heq, fun l hl => ⟨hreg l (List.mem_append_left _ hl), ?_⟩,
    fun r hr => ⟨hreg r ?_, (List.pairwise_cons.mp hright).1 r hr⟩, hreg p ?_⟩
  · exact hcross l hl p List.mem_cons_self
  · exact List.mem_append_right _ (List.mem_cons_of_mem _ hr)
  · exact List.mem_append_right _ List.mem_cons_self

theorem pageBase_le (x : Nat) : pageBase x ≤ x := Nat.sub_le _ _

/-- None of the pieces of other headers has the address. -/
theorem filter_pieces_nil (h : ∀ l ∈ ls, l.Regular ∧ (l.last ≤ a ∨ a < pageBase l.vaddr)) :
    (ls.flatMap Phdr.zeroPieces).filter (fun z => z.1 ≤ a ∧ a < z.1 + z.2) = [] := by
  refine List.filter_eq_nil_iff.mpr fun z hz => ?_
  obtain ⟨l, hl, hz⟩ := List.mem_flatMap.mp hz
  have hbounds := (h l hl).1.piece_bounds hz
  have := (h l hl).2
  rw [decide_eq_true_eq]
  omega

/-- The formulas are right for what a linker makes. -/
theorem regular_placed (h : RegularFile file) : Placed file := by
  have hread := loadsRead_eq h
  have hmem (p : Phdr) (hp : p ∈ phdrs file) (hl : p.type = ptLoad) : p ∈ loads file :=
    List.mem_filter.mpr ⟨hp, decide_eq_true hl⟩
  refine ⟨h.inside, ?_, ?_, fun p hp hl a hle hlt => ?_, fun p hp hl a hle hlt => ?_⟩
  · rw [hread]
    have := h.few
    unfold maxSegments
    omega
  · have htwo (l : Phdr) : l.zeroPieces.length ≤ 2 := by
      unfold Phdr.zeroPieces
      split_ifs <;> simp
    have hsum (ls : List Phdr) : (ls.flatMap Phdr.zeroPieces).length ≤ 2 * ls.length := by
      induction ls with
      | nil => exact Nat.le_refl _
      | cons l ls ih =>
        rw [List.flatMap_cons, List.length_append, List.length_cons]
        have := htwo l
        omega
    have := hsum (loads file)
    have := h.few
    unfold zeroPieces maxSegments
    rw [hread]
    omega
  · obtain ⟨ls, rs, heq, hbefore, -, hreg⟩ := h.split (hmem p hp hl)
    refine ⟨p, ?_, ?_⟩
    · rw [hread, heq, List.find?_append, List.find?_eq_none.mpr, Option.none_or,
        List.find?_cons_of_pos]
      · exact decide_eq_true (hreg.inPages hle hlt)
      · intro l hl
        rw [decide_eq_true_eq]
        intro hin
        have := (hbefore l hl).1.lt_last hin
        have := (hbefore l hl).2
        have := pageBase_le p.vaddr
        omega
    · have := hreg.congruent
      unfold pageBase pagesize at *
      omega
  · obtain ⟨ls, rs, heq, hbefore, hbehind, hreg⟩ := h.split (hmem p hp hl)
    have hlast : a < p.last := by
      have := hreg.sizes
      unfold Phdr.last pagesize
      omega
    unfold zeroPieces
    rw [hread, heq, List.flatMap_append, List.flatMap_cons, List.filter_append, List.filter_append,
      filter_pieces_nil, filter_pieces_nil, List.nil_append, List.append_nil]
    · exact hreg.one_piece hle hlt
    · exact fun r hr => ⟨(hbehind r hr).1, .inr (Nat.lt_of_lt_of_le hlast (hbehind r hr).2)⟩
    · refine fun l hl => ⟨(hbefore l hl).1, .inl ?_⟩
      have := (hbefore l hl).2
      have := pageBase_le p.vaddr
      omega

/-! ## Two files -/

/-- A file with one `PT_LOAD`, at offset 2048 and for address 6144. -/
def oneLoad (filesz memsz : List UInt8) : ByteMem := fun i =>
  ([0x7f, 0x45, 0x4c, 0x46] ++ List.replicate 24 0 ++ [52, 0, 0, 0] ++ List.replicate 10 0 ++
    [32, 0, 1, 0] ++ List.replicate 6 0 ++ [1, 0, 0, 0, 0, 8, 0, 0, 0, 24, 0, 0, 0, 0, 0, 0] ++
    filesz ++ memsz).getD i 0

/-- A second `PT_LOAD`, at offset 4096 and for address 16384, with zeroes in two more pages. -/
def twoLoads : ByteMem := fun i =>
  if i = 44 then 2
  else if i < 84 then oneLoad [0, 7, 0, 0] [0, 8, 0, 0] i
  else ([1, 0, 0, 0, 0, 16, 0, 0, 0, 64, 0, 0, 0, 0, 0, 0, 0, 1, 0, 0, 0, 32, 0, 0] : List UInt8).getD
    (i - 84) 0

theorem loads_twoLoads :
    loads twoLoads = [⟨1, 2048, 6144, 1792, 2048⟩, ⟨1, 4096, 16384, 256, 8192⟩] := by
  rfl

theorem file_decoded_regular : DecodesFile twoLoads (outputInit (fun _ => 0) twoLoads) := by
  refine (file_decoded _ _ (by decide +kernel)).mpr (regular_placed ⟨by decide +kernel,
    by decide +kernel, by decide +kernel, ?_, ?_, ?_⟩)
  · rw [loads_twoLoads]
    decide
  · rw [loads_twoLoads]
    rw [List.forall_mem_cons, List.forall_mem_singleton]
    exact ⟨⟨by decide, by decide, by decide, by decide⟩, by decide, by decide, by decide, by decide⟩
  · rw [loads_twoLoads]
    exact List.pairwise_pair.mpr (by decide)

/-- The zeroes end in the next page, but both sizes are less than a page. -/
theorem file_not_decoded :
    isElf (oneLoad [0, 7, 0, 0] [0, 9, 0, 0]) ∧ InTransfer (oneLoad [0, 7, 0, 0] [0, 9, 0, 0]) ∧
      ¬ DecodesFile (oneLoad [0, 7, 0, 0] [0, 9, 0, 0])
        (outputInit (fun _ => 0) (oneLoad [0, 7, 0, 0] [0, 9, 0, 0])) := by
  have hin : InTransfer (oneLoad [0, 7, 0, 0] [0, 9, 0, 0]) := by decide +kernel
  refine ⟨by decide +kernel, hin, fun h => ?_⟩
  have hp : (⟨1, 2048, 6144, 1792, 2304⟩ : Phdr) ∈ phdrs (oneLoad [0, 7, 0, 0] [0, 9, 0, 0]) := by
    decide +kernel
  obtain ⟨s, hs, -⟩ := (h.loads hin _ hp rfl).zeroes 8192 (by decide) (by decide)
  have hnone : (outputInit (fun _ => 0) (oneLoad [0, 7, 0, 0] [0, 9, 0, 0])).1.dataAt 8192 = [] := by
    decide +kernel
  rw [hnone] at hs
  cases hs

end Athomux.Elf
