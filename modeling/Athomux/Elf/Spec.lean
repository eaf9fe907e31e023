import Athomux.Lib.ByteMem

/-!
# The decoder for static ELF binaries

`load_elf` and `load_elf_sections` of `#static_elf_decoder`, and what `#process_image` makes of the
segment tables. `file` is what is in memory from the first transfer of the file on.
-/

namespace Athomux.Elf

open Lib

/-- `DEFAULT_TRANSFER`. -/
def defaultTransfer : Nat := 4096

/-- `getpagesize()` on x86. -/
def pagesize : Nat := 4096

/-- `x & ~(pagesize - 1)`. -/
def pageBase (x : Nat) : Nat := x - x % pagesize

/-- The 32 bits of an `Elf32_Word`. -/
def word (x : Nat) : Nat := x % 2 ^ 32

def half (file : ByteMem) (pos : Nat) : Nat := ofBytes (file.load pos 2)

def long (file : ByteMem) (pos : Nat) : Nat := ofBytes (file.load pos 4)

/-! ## The file -/

/-- `Elf32_Ehdr`. -/
structure Ehdr where
  entry : Nat
  phoff : Nat
  phentsize : Nat
  phnum : Nat
  deriving DecidableEq, Repr

def ehdr (file : ByteMem) : Ehdr where
  entry := long file 24
  phoff := long file 28
  phentsize := half file 42
  phnum := half file 44

/-- `ELFMAG0` to `ELFMAG3`. -/
def isElf (file : ByteMem) : Prop := file.load 0 4 = [0x7f, 0x45, 0x4c, 0x46]

instance (file : ByteMem) : Decidable (isElf file) := inferInstanceAs (Decidable (_ = _))

/-- `Elf32_Phdr`. -/
structure Phdr where
  type : Nat
  offset : Nat
  vaddr : Nat
  filesz : Nat
  memsz : Nat
  deriving DecidableEq, Repr

def ptLoad : Nat := 1

def ptInterp : Nat := 3

/-- `sizeof(Elf32_Phdr)`. -/
def sizeofPhdr : Nat := 32

def phdr (file : ByteMem) (pos : Nat) : Phdr where
  type := long file pos
  offset := long file (pos + 4)
  vaddr := long file (pos + 8)
  filesz := long file (pos + 16)
  memsz := long file (pos + 20)

/-! ## The segment tables -/

/-- `enum segment_t`, as far as it is used here. -/
inductive SegType
  | code
  | data0
  deriving DecidableEq, Repr

/-- `struct segment`. -/
structure Segment where
  start : Nat
  length : Nat
  type : SegType
  content : Nat
  deriving DecidableEq, Repr

/-- `code_segment[64]` and `data_segment[64]`. -/
def maxSegments : Nat := 64

/-- `elf_header`. `zeroed` says what has been set to zero, by its address and length. -/
structure ElfHeader where
  entry : Nat
  codeSegment : List Segment
  dataSegment : List Segment
  zeroed : List (Nat × Nat)
  deriving DecidableEq, Repr

namespace Phdr

variable (p : Phdr)

/-- The end of the file part. -/
def fileEnd : Nat := word (p.vaddr + p.filesz)

/-- The file part with the rest of its first page. -/
def codeSegment : Segment where
  start := pageBase p.vaddr
  length := word (p.filesz + p.offset % pagesize)
  type := .code
  content := pageBase p.offset

/-- `partially filled .data?` -/
def restLength : Nat := pagesize - p.fileEnd % pagesize

/-- `.data with .bss needing another page?` -/
def pagesStart : Nat := word ((p.fileEnd / pagesize + 1) * pagesize)

def pagesLength : Nat :=
  word (word (2 ^ 32 + p.memsz - p.filesz + pagesize - 1) / pagesize * pagesize)

end Phdr

namespace ElfHeader

variable (alloc : Nat → Nat) (h : ElfHeader)

/-- A new data segment. `alloc` says where `PC_ALLOC` finds room. -/
def zeroSegment (start length : Nat) : ElfHeader :=
  let content := alloc h.zeroed.length
  { h with
    dataSegment := h.dataSegment ++ [⟨start, length, .data0, content⟩]
    zeroed := h.zeroed ++ [(content, length)] }

/-- What is done for a `PT_LOAD`. -/
def loadPhdr (p : Phdr) : ElfHeader :=
  let h := { h with codeSegment := h.codeSegment ++ [p.codeSegment] }
  let h := if p.filesz ≠ p.memsz then h.zeroSegment alloc p.fileEnd p.restLength else h
  if p.filesz / pagesize ≠ p.memsz / pagesize then
    h.zeroSegment alloc p.pagesStart p.pagesLength
  else h

/-- The loop of `load_elf_sections`. It begins behind the ELF header, at byte 52. -/
def loadLoop (file : ByteMem) (psize : Nat) : Nat → Nat → ElfHeader → ElfHeader
  | _, 0, h => h
  | offset, n + 1, h =>
    let p := phdr file (52 + offset)
    if p.type = ptInterp then h
    else if p.type = ptLoad then loadLoop file psize (offset + psize) n (h.loadPhdr alloc p)
    else loadLoop file psize (offset + psize) n h

end ElfHeader

/-- `load_elf`, after a transfer that succeeds. -/
def loadElf (alloc : Nat → Nat) (file : ByteMem) (h : ElfHeader) : ElfHeader :=
  if isElf file then
    let e := ehdr file
    let h := ElfHeader.loadLoop alloc file e.phentsize 0 e.phnum
      { h with codeSegment := [], dataSegment := [] }
    { h with entry := e.entry }
  else h

/-- `$output_init`, with the tables and `@success`. -/
def outputInit (alloc : Nat → Nat) (file : ByteMem) : ElfHeader × Bool :=
  (loadElf alloc file ⟨0, [], [], []⟩, true)

/-! ## What the tables are for -/

def Segment.Has (s : Segment) (a : Nat) : Prop := s.start ≤ a ∧ a < s.start + s.length

instance (s : Segment) (a : Nat) : Decidable (s.Has a) := inferInstanceAs (Decidable (_ ∧ _))

/-- `#process_image`: the byte of the file for an address of the image. -/
def ElfHeader.fileByte (h : ElfHeader) (a : Nat) : Option Nat :=
  (h.codeSegment.find? fun s => s.Has a).map fun s => s.content + (a - s.start)

/-- The data segments with an address. -/
def ElfHeader.dataAt (h : ElfHeader) (a : Nat) : List Segment :=
  h.dataSegment.filter fun s => s.Has a

/-- The program headers of the file. -/
def phdrs (file : ByteMem) : List Phdr :=
  (List.range (ehdr file).phnum).map fun k =>
    phdr file ((ehdr file).phoff + k * (ehdr file).phentsize)

/-- The program header table is in the first transfer. -/
def InTransfer (file : ByteMem) : Prop :=
  ∀ k < (ehdr file).phnum,
    (ehdr file).phoff + k * (ehdr file).phentsize + sizeofPhdr ≤ defaultTransfer

instance (file : ByteMem) : Decidable (InTransfer file) :=
  inferInstanceAs (Decidable (∀ k < (ehdr file).phnum, _ ≤ defaultTransfer))

/-- A `PT_LOAD` is in the tables: the bytes of the file, and zeroes behind them. -/
structure Decoded (h : ElfHeader) (p : Phdr) : Prop where
  fromFile : ∀ a, p.vaddr ≤ a → a < p.vaddr + p.filesz →
    h.fileByte a = some (p.offset + (a - p.vaddr))
  zeroes : ∀ a, p.vaddr + p.filesz ≤ a → a < p.vaddr + p.memsz →
    ∃ s, h.dataAt a = [s] ∧ s.type = .data0 ∧ (s.content, s.length) ∈ h.zeroed

/-- What is to come out for a file. -/
structure DecodesFile (file : ByteMem) (r : ElfHeader × Bool) : Prop where
  refused : ¬ InTransfer file → r.2 = false
  code : InTransfer file → r.1.codeSegment.length ≤ maxSegments
  data : InTransfer file → r.1.dataSegment.length ≤ maxSegments
  loads : InTransfer file → ∀ p ∈ phdrs file, p.type = ptLoad → Decoded r.1 p

/-! ## When it comes out so -/

/-- The `PT_LOAD`s that the loop gets to: it begins at byte 52 and ends with a `PT_INTERP`. -/
def loadsRead (file : ByteMem) : List Phdr :=
  (((List.range (ehdr file).phnum).map fun k => phdr file (52 + k * (ehdr file).phentsize)).takeWhile
    fun p => p.type ≠ ptInterp).filter fun p => p.type = ptLoad

/-- `a` is in the file part, from the beginning of its first page. -/
def Phdr.InPages (p : Phdr) (a : Nat) : Prop :=
  pageBase p.vaddr ≤ a ∧ a < pageBase p.vaddr + word (p.filesz + p.offset % pagesize)

instance (p : Phdr) (a : Nat) : Decidable (p.InPages a) := inferInstanceAs (Decidable (_ ∧ _))

/-- Where zeroes are put: in the rest of a page and in the pages behind it. The second piece is there
when the sizes, not the ends, are in different pages. -/
def Phdr.zeroPieces (p : Phdr) : List (Nat × Nat) :=
  (if p.filesz ≠ p.memsz then [(p.fileEnd, p.restLength)] else []) ++
    if p.filesz / pagesize ≠ p.memsz / pagesize then [(p.pagesStart, p.pagesLength)] else []

def zeroPieces (file : ByteMem) : List (Nat × Nat) := (loadsRead file).flatMap Phdr.zeroPieces

/-- The first header read that has a byte of the file part in its pages is as far from its place in the
file, and a byte behind the file part is in one piece. -/
structure Placed (file : ByteMem) : Prop where
  inside : InTransfer file
  code : (loadsRead file).length ≤ maxSegments
  data : (zeroPieces file).length ≤ maxSegments
  fromFile : ∀ p ∈ phdrs file, p.type = ptLoad → ∀ a, p.vaddr ≤ a → a < p.vaddr + p.filesz →
    ∃ l, (loadsRead file).find? (fun l => l.InPages a) = some l ∧
      pageBase l.offset + p.vaddr = p.offset + pageBase l.vaddr
  zeroes : ∀ p ∈ phdrs file, p.type = ptLoad → ∀ a, p.vaddr + p.filesz ≤ a →
    a < p.vaddr + p.memsz →
    ((zeroPieces file).filter fun z => z.1 ≤ a ∧ a < z.1 + z.2).length = 1

end Athomux.Elf
