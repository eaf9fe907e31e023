import Athomux.Elf.Spec

/-! # The segment tables of a file -/

open Lib

namespace Athomux.Elf

variable {alloc : Nat → Nat} {file : ByteMem} {h : ElfHeader} {p : Phdr} {a : Nat}

/-! ## The loop -/

/-- The headers from `offset` on. -/
def readFrom (file : ByteMem) (psize offset n : Nat) : List Phdr :=
  (((List.range n).map fun k => phdr file (52 + (offset + k * psize))).takeWhile
    fun p => p.type ≠ ptInterp).filter fun p => p.type = ptLoad

theorem range_map_succ {α : Type} (f : Nat → α) (n : Nat) :
    (List.range (n + 1)).map f = f 0 :: (List.range n).map fun k => f (k + 1) := by
  rw [List.range_succ_eq_map, List.map_cons, List.map_map]
  rfl

theorem readFrom_succ {psize offset n : Nat} : readFrom file psize offset (n + 1) =
    if (phdr file (52 + offset)).type = ptInterp then []
    else if (phdr file (52 + offset)).type = ptLoad then
      phdr file (52 + offset) :: readFrom file psize (offset + psize) n
    else readFrom file psize (offset + psize) n := by
  have hnext (k : Nat) : offset + (k + 1) * psize = offset + psize + k * psize := by
    rw [Nat.succ_mul]
    omega
  unfold readFrom
  rw [range_map_succ, Nat.zero_mul, Nat.add_zero]
  simp only [hnext]
  split_ifs with hi hl
  · rw [List.takeWhile_cons_of_neg (by simpa using hi)]
    rfl
  · rw [List.takeWhile_cons_of_pos (by simpa using hi), List.filter_cons_of_pos (by simpa using hl)]
  · rw [List.takeWhile_cons_of_pos (by simpa using hi), List.filter_cons_of_neg (by simpa using hl)]

theorem loadLoop_eq {psize offset n : Nat} : ElfHeader.loadLoop alloc file psize offset n h =
    (readFrom file psize offset n).foldl (ElfHeader.loadPhdr alloc) h := by
  induction n generalizing offset h with
  | zero => rfl
  | succ n ih =>
    rw [ElfHeader.loadLoop, readFrom_succ]
    split_ifs with hi hl
    · rfl
    · exact ih
    · exact ih

/-! ## What it leaves -/

/-- The tables are those of the headers `ls`, and all of the data is zero. -/
structure Tables (h : ElfHeader) (ls : List Phdr) : Prop where
  code : h.codeSegment = ls.map Phdr.codeSegment
  data : h.dataSegment.map (fun s => (s.start, s.length)) = ls.flatMap Phdr.zeroPieces
  zeroed : ∀ s ∈ h.dataSegment, s.type = .data0 ∧ (s.content, s.length) ∈ h.zeroed

theorem zeroSegment_zeroed {start length : Nat}
    (hz : ∀ s ∈ h.dataSegment, s.type = .data0 ∧ (s.content, s.length) ∈ h.zeroed) :
    ∀ s ∈ (h.zeroSegment alloc start length).dataSegment,
      s.type = .data0 ∧ (s.content, s.length) ∈ (h.zeroSegment alloc start length).zeroed := by
  intro s hs
  rcases List.mem_append.mp hs with hs | hs
  · exact ⟨(hz s hs).1, List.mem_append_left _ (hz s hs).2⟩
  · rw [List.mem_singleton.mp hs]
    exact ⟨rfl, List.mem_append_right _ (List.mem_singleton_self _)⟩

theorem Tables.loadPhdr {ls : List Phdr} (ht : Tables h ls) :
    Tables (h.loadPhdr alloc p) (ls ++ [p]) := by
  obtain ⟨hcode, hdata, hzeroed⟩ := ht
  have hstart (g : ElfHeader) (x y : Nat) : (g.zeroSegment alloc x y).dataSegment.map
      (fun s => (s.start, s.length)) = g.dataSegment.map (fun s => (s.start, s.length)) ++ [(x, y)] := by
    unfold ElfHeader.zeroSegment
    rw [List.map_append]
    rfl
  unfold ElfHeader.loadPhdr
  simp only
  refine ⟨?_, ?_, ?_⟩
  · rw [List.map_append, ← hcode]
    split_ifs <;> rfl
  · rw [List.flatMap_append, ← hdata, List.flatMap_singleton]
    unfold Phdr.zeroPieces
    split_ifs
    · rw [hstart, hstart, List.append_assoc]
    · rw [hstart]
      rfl
    · rw [hstart]
      rfl
    · exact (List.append_nil _).symm
  · split_ifs
    · exact zeroSegment_zeroed (zeroSegment_zeroed hzeroed)
    · exact zeroSegment_zeroed hzeroed
    · exact zeroSegment_zeroed hzeroed
    · exact hzeroed

theorem Tables.foldl {ls ls' : List Phdr} (ht : Tables h ls) :
    Tables (ls'.foldl (ElfHeader.loadPhdr alloc) h) (ls ++ ls') := by
  induction ls' generalizing h ls with
  | nil =>
    rw [List.append_nil]
    exact ht
  | cons p ls' ih =>
    rw [List.append_cons]
    exact ih ht.loadPhdr

theorem tables_outputInit (alloc : Nat → Nat) (helf : isElf file) :
    Tables (outputInit alloc file).1 (loadsRead file) := by
  have hread : loadsRead file = readFrom file (ehdr file).phentsize 0 (ehdr file).phnum := by
    unfold loadsRead readFrom
    simp only [Nat.zero_add]
  have hnil : Tables ⟨0, [], [], []⟩ [] := ⟨rfl, rfl, fun s hs => absurd hs List.not_mem_nil⟩
  have hloop : Tables ((loadsRead file).foldl (ElfHeader.loadPhdr alloc) ⟨0, [], [], []⟩)
      ([] ++ loadsRead file) := hnil.foldl
  unfold outputInit loadElf
  simp only [if_pos helf, loadLoop_eq, ← hread]
  exact ⟨hloop.code, hloop.data, hloop.zeroed⟩

/-! ## Look-ups -/

theorem fileByte_eq {ls : List Phdr} (ht : Tables h ls) :
    h.fileByte a = (ls.find? fun l => l.InPages a).map fun l =>
      pageBase l.offset + (a - pageBase l.vaddr) := by
  unfold ElfHeader.fileByte
  rw [ht.code, List.find?_map, Option.map_map]
  rfl

theorem fileByte_iff {ls : List Phdr} (ht : Tables h ls) (hle : p.vaddr ≤ a) :
    h.fileByte a = some (p.offset + (a - p.vaddr)) ↔
      ∃ l, ls.find? (fun l => l.InPages a) = some l ∧
        pageBase l.offset + p.vaddr = p.offset + pageBase l.vaddr := by
  rw [fileByte_eq ht, Option.map_eq_some_iff]
  refine exists_congr fun l => and_congr_right fun hl => ?_
  have hin : l.InPages a := by
    have := List.find?_some hl
    exact of_decide_eq_true this
  have := hin.1
  omega

theorem dataAt_iff {ls : List Phdr} (ht : Tables h ls) :
    (∃ s, h.dataAt a = [s] ∧ s.type = .data0 ∧ (s.content, s.length) ∈ h.zeroed) ↔
      ((ls.flatMap Phdr.zeroPieces).filter fun z => z.1 ≤ a ∧ a < z.1 + z.2).length = 1 := by
  have hlen : (h.dataAt a).length =
      ((ls.flatMap Phdr.zeroPieces).filter fun z => z.1 ≤ a ∧ a < z.1 + z.2).length := by
    rw [← ht.data, List.filter_map, List.length_map]
    rfl
  rw [← hlen, List.length_eq_one_iff]
  refine ⟨fun ⟨s, hs, _⟩ => ⟨s, hs⟩, fun ⟨s, hs⟩ => ⟨s, hs, ht.zeroed s ?_⟩⟩
  have hmem : s ∈ h.dataAt a := hs ▸ List.mem_singleton_self s
  exact (List.mem_filter.mp hmem).1

/-- **The tables give what is in the file** exactly if the program headers fit the page-wise
formulas. -/
theorem file_decoded (alloc : Nat → Nat) (file : ByteMem) (helf : isElf file) :
    DecodesFile file (outputInit alloc file) ↔ Placed file := by
  have ht := tables_outputInit alloc helf
  have hcode : (outputInit alloc file).1.codeSegment.length = (loadsRead file).length := by
    rw [ht.code, List.length_map]
  have hdata : (outputInit alloc file).1.dataSegment.length = (zeroPieces file).length := by
    unfold zeroPieces
    rw [← ht.data, List.length_map]
  constructor
  · intro hd
    have hin : InTransfer file := by
      by_contra hin
      cases hd.refused hin
    refine ⟨hin, hcode ▸ hd.code hin, hdata ▸ hd.data hin, fun p hp hl a hle hlt => ?_,
      fun p hp hl a hle hlt => ?_⟩
    · exact (fileByte_iff ht hle).mp ((hd.loads hin p hp hl).fromFile a hle hlt)
    · exact (dataAt_iff ht).mp ((hd.loads hin p hp hl).zeroes a hle hlt)
  · intro hp
    refine ⟨fun hin => absurd hp.inside hin, fun _ => hcode ▸ hp.code, fun _ => hdata ▸ hp.data,
      fun _ p hmem hl => ⟨fun a hle hlt => ?_, fun a hle hlt => ?_⟩⟩
    · exact (fileByte_iff ht hle).mpr (hp.fromFile p hmem hl a hle hlt)
    · exact (dataAt_iff ht).mpr (hp.zeroes p hmem hl a hle hlt)

end Athomux.Elf
