import Athomux.PtrCache.Spec
import Athomux.PtrCache.Proofs
import Mathlib.Data.Nat.ModEq

/-!
# `process_image`

The address space of a process: segments for heap and stack, which are behind the pointer cache `mem`
like those of the input `data`, and segments of the input `code`.
-/

open Lib

namespace Athomux.ProcessImage

/-- `segment`, without the flags and the type. -/
structure Segment where
  start : Nat
  length : Nat
  content : Nat
  start_lt : start < addrSpace
  length_lt : length < addrSpace
  deriving DecidableEq, Repr

/-- `process_struct`. There are `num_code_segments` and `num_data_segments` in the lists. -/
structure Image where
  code : List Segment
  data : List Segment
  heap : Segment
  stack : Segment
  init : Bool
  deriving DecidableEq, Repr

/-- `buffer` is where the buffer of the brick is. -/
structure Brick where
  image : Image
  mem : PtrCache
  buffer : Nat

structure Request where
  logAddr : Nat
  logLen : Nat
  forwrite : Bool
  deriving DecidableEq, Repr

structure Answer where
  success : Bool
  physAddr : Nat
  physLen : Nat
  deriving DecidableEq, Repr

/-- What the inputs answer to a `$gettranswait` for an address and a length. -/
structure Inputs where
  mem : Nat → Nat → GetReply
  code : Nat → Nat → GetReply

/-! ## `$output_init` -/

/-- `IMAGE_START + IMAGE_SIZE - 0x8000`. -/
def stackStart : Nat := 0x8000000 + 1024 * 1024 * 256 - 0x8000

/-- `sizeof(process_struct)`. -/
def sizeofProcessStruct : Nat := 336

/-- `$output_init`, for the image at `addr` as it is stored in `mem`, with the segments that are read
from the inputs. There is no result where the code goes through a null pointer. -/
def outputInit (mem : PtrCache) (buffer addr : Nat) (stored : Image) (image : GetReply)
    (heap stack : CreateReply) (code data : List Segment) : Option Brick :=
  let (ptr, mem) := mem.pcGet .plain addr sizeofProcessStruct false image
  if ptr = 0 then none
  else if stored.init then some ⟨stored, mem, buffer⟩
  else
    (mem.pcAlloc .plain 0x200000 heap).bind fun (_, heapContent, mem) =>
      (mem.pcAlloc .plain 0x8000 stack).map fun (_, stackContent, mem) =>
        { image :=
            { code, data
              heap := ⟨0xB000000, 0x200000, heapContent, by decide, by decide⟩
              stack := ⟨stackStart, 0x8000, stackContent, by decide, by decide⟩
              init := true }
          mem, buffer }

/-! ## `_gettranswait` -/

namespace Segment

variable (seg : Segment)

/-- `end`. -/
def stop : Nat := add64 seg.start seg.length

/-- `(start <= log_addr) && (end > log_addr)`. -/
def contains (logAddr : Nat) : Bool := decide (seg.start ≤ logAddr) && decide (logAddr < seg.stop)

/-- `phys_len`. -/
def physLen (r : Request) : Nat :=
  if add64 r.logAddr r.logLen ≤ seg.stop then r.logLen else sub64 seg.stop r.logAddr

end Segment

/-- `(int)`, as it is added to a pointer. -/
def intOffset (d : Nat) : Nat :=
  if d % 2 ^ 32 < 2 ^ 31 then d % 2 ^ 32 else sub64 (d % 2 ^ 32) (2 ^ 32)

/-- `DEFAULT_TRANSFER`. -/
def defaultTransfer : Nat := 4096

namespace Brick

variable (b : Brick) (inp : Inputs)

/-- A segment behind the cache. The first `len` bytes are asked for. -/
def fromMem (seg : Segment) (len : Nat) (r : Request) : Answer × Brick :=
  let (ptr, mem) := b.mem.pcGet .plain seg.content len r.forwrite (inp.mem seg.content len)
  (⟨true, add64 ptr (intOffset (sub64 r.logAddr seg.start)), seg.physLen r⟩, { b with mem })

/-- The address of the request in the input `code`. -/
def codeAddr (seg : Segment) (r : Request) : Nat := add64 (sub64 seg.content seg.start) r.logAddr

/-- A segment of the input `code`. The length that it answers is not used. -/
def fromCode (seg : Segment) (r : Request) : Answer × Brick :=
  let reply := inp.code (codeAddr seg r) defaultTransfer
  (⟨reply.success, reply.physAddr, seg.physLen r⟩, b)

/-- `_gettranswait`. -/
def gettranswait (r : Request) : Answer × Brick :=
  if b.image.heap.contains r.logAddr then b.fromMem inp b.image.heap 0x100000 r
  else if b.image.stack.contains r.logAddr then b.fromMem inp b.image.stack 0x8000 r
  else
    match b.image.code.find? (·.contains r.logAddr) with
    | some seg => b.fromCode inp seg r
    | none =>
      match b.image.data.find? (·.contains r.logAddr) with
      | some seg => b.fromMem inp seg seg.length r
      -- no segment: the buffer of the brick
      | none => (⟨true, b.buffer, r.logLen⟩, b)

end Brick

end Athomux.ProcessImage

/-!
## Ranges inside the fetched buffers

What is returned begins at the offset of the address in its segment, and is cut off at the end of the
segment. How much of the segment has been fetched plays no part.
-/

open Lib

namespace Athomux.ProcessImage

variable {b : Brick} {inp : Inputs} {r : Request} {seg : Segment} {len : Nat}

/-! ## Segments -/

/-- Where the answer comes from. -/
inductive Source
  | mem (seg : Segment) (len : Nat)
  | code (seg : Segment)

/-- The segment that contains an address. -/
def Image.sourceOf (i : Image) (logAddr : Nat) : Option Source :=
  if i.heap.contains logAddr then some (.mem i.heap 0x100000)
  else if i.stack.contains logAddr then some (.mem i.stack 0x8000)
  else
    match i.code.find? (·.contains logAddr) with
    | some seg => some (.code seg)
    | none => (i.data.find? (·.contains logAddr)).map fun seg => .mem seg seg.length

/-- `_gettranswait`, for an address in a segment. -/
def Brick.answerFrom (b : Brick) (inp : Inputs) (r : Request) : Source → Answer × Brick
  | .mem seg len => b.fromMem inp seg len r
  | .code seg => b.fromCode inp seg r

theorem gettranswait_of_source {src : Source} (h : b.image.sourceOf r.logAddr = some src) :
    b.gettranswait inp r = b.answerFrom inp r src := by
  unfold Image.sourceOf at h
  unfold Brick.gettranswait
  split_ifs at h ⊢
  · cases h
    rfl
  · cases h
    rfl
  · cases hcode : b.image.code.find? (·.contains r.logAddr) with
    | some seg =>
      rw [hcode] at h
      cases h
      rfl
    | none =>
      rw [hcode] at h
      obtain ⟨seg, hseg, rfl⟩ := Option.map_eq_some_iff.mp h
      simp only [hseg]
      rfl

theorem Segment.contains_iff {a : Nat} : seg.contains a = true ↔ seg.start ≤ a ∧ a < seg.stop := by
  unfold Segment.contains
  rw [Bool.and_eq_true, decide_eq_true_iff, decide_eq_true_iff]

theorem sourceOf_mem {i : Image} {a : Nat} (h : i.sourceOf a = some (.mem seg len)) :
    seg.contains a = true ∧ len < addrSpace := by
  unfold Image.sourceOf at h
  split_ifs at h with hheap hstack
  · cases h
    exact ⟨hheap, by decide⟩
  · cases h
    exact ⟨hstack, by decide⟩
  · split at h
    · cases h
    · obtain ⟨seg, hseg, heq⟩ := Option.map_eq_some_iff.mp h
      cases heq
      have hcontains := List.find?_some hseg
      exact ⟨hcontains, seg.length_lt⟩

theorem sourceOf_code {i : Image} {a : Nat} (h : i.sourceOf a = some (.code seg)) :
    seg.contains a = true := by
  unfold Image.sourceOf at h
  split_ifs at h
  · cases h
  · cases h
  · split at h
    · rename_i hseg
      cases h
      have hcontains := List.find?_some hseg
      exact hcontains
    · obtain ⟨_, _, heq⟩ := Option.map_eq_some_iff.mp h
      cases heq

/-- A segment that contains an address does not go round. -/
theorem Segment.stop_eq {a : Nat} (h : seg.contains a = true) :
    seg.stop = seg.start + seg.length ∧ seg.stop < addrSpace := by
  obtain ⟨hlow, hhigh⟩ := contains_iff.mp h
  have hstart := seg.start_lt
  have hlength := seg.length_lt
  unfold stop add64 addrSpace at *
  omega

/-- The fetched length, the same for the two ways in which the length is cut off. -/
structure Covers (seg : Segment) (r : Request) (offset fetched : Nat) : Prop where
  whole : add64 r.logAddr r.logLen ≤ seg.stop → offset + r.logLen ≤ fetched
  cut : seg.stop < add64 r.logAddr r.logLen → offset + (seg.stop - r.logAddr) ≤ fetched

theorem covers_iff (hseg : seg.contains r.logAddr = true) {offset fetched : Nat} :
    Covers seg r offset fetched ↔ offset + seg.physLen r ≤ fetched := by
  obtain ⟨hlow, hhigh⟩ := Segment.contains_iff.mp hseg
  obtain ⟨-, hstop⟩ := Segment.stop_eq hseg
  unfold Segment.physLen
  split_ifs with hle
  · exact ⟨fun h => h.whole hle, fun h => ⟨fun _ => h, fun hlt => absurd hle (by omega)⟩⟩
  · rw [sub64_eq hhigh.le hstop]
    exact ⟨fun h => h.cut (by omega), fun h => ⟨fun hle' => absurd hle' hle, fun _ => h⟩⟩

/-- An offset that is an `int`, and a request that does not go round. -/
theorem covers_regular (hseg : seg.contains r.logAddr = true)
    (hoffset : r.logAddr - seg.start < 2 ^ 31) (hlen : r.logAddr + r.logLen < addrSpace)
    {fetched : Nat} :
    Covers seg r (intOffset (sub64 r.logAddr seg.start)) fetched ↔
      min (r.logAddr - seg.start + r.logLen) seg.length ≤ fetched := by
  obtain ⟨hlow, hhigh⟩ := Segment.contains_iff.mp hseg
  obtain ⟨hstop, hlt⟩ := Segment.stop_eq hseg
  have hint : intOffset (sub64 r.logAddr seg.start) = r.logAddr - seg.start := by
    rw [sub64_eq hlow (hhigh.trans hlt)]
    unfold intOffset
    split_ifs <;> omega
  rw [covers_iff hseg, hint, Segment.physLen, add64_eq hlen]
  split_ifs with hle
  · omega
  · rw [sub64_eq hhigh.le hlt]
    omega

/-! ## Buffers -/

/-- The range begins at an offset in the buffer, and ends in it. -/
def Answer.Inside (a : Answer) (buf : Buffer) : Prop :=
  ∃ o, a.physAddr ≡ buf.ptr + o [MOD addrSpace] ∧ o + a.physLen ≤ buf.len

theorem inside_iff {a : Answer} {buf : Buffer} {o : Nat} (ho : o < addrSpace)
    (haddr : a.physAddr ≡ buf.ptr + o [MOD addrSpace]) :
    a.Inside buf ↔ o + a.physLen ≤ buf.len := by
  refine ⟨fun ⟨o', haddr', hlen⟩ => ?_, fun h => ⟨o, haddr, h⟩⟩
  have hsame : o ≡ o' [MOD addrSpace] := Nat.ModEq.add_left_cancel' _ (haddr.symm.trans haddr')
  have hle : o ≤ o' := by
    rw [← Nat.mod_eq_of_lt ho, hsame]
    exact Nat.mod_le o' _
  omega

theorem intOffset_lt (d : Nat) : intOffset d < addrSpace := by
  unfold intOffset
  split_ifs
  · have : d % 2 ^ 32 < 2 ^ 32 := Nat.mod_lt _ (by decide)
    unfold addrSpace
    omega
  · exact sub64_lt _ _

/-- The buffer that has been fetched for the segment, after the request. -/
def Brick.fetched (b : Brick) (inp : Inputs) (r : Request) : Source → Option Buffer
  | .mem seg len => (b.fromMem inp seg len r).2.mem.slot (PcConfig.plain.hash seg.content)
  | .code seg =>
    let reply := inp.code (Brick.codeAddr seg r) defaultTransfer
    if reply.success then some ⟨reply.physAddr, Brick.codeAddr seg r, reply.physLen⟩ else none

/-- The length of what the cache has of the segment, before or after it is asked for `len`. -/
def Brick.heldLen (b : Brick) (seg : Segment) (len : Nat) : Nat :=
  if b.mem.misses .plain seg.content then len else (b.mem.elems (PcConfig.plain.hash seg.content)).pcLen

theorem plain_baseLen {addr : Nat} (hlen : len < addrSpace) :
    PcConfig.plain.baseLen (PcConfig.plain.baseOffset addr) len = len := by
  have hoffset : PcConfig.plain.baseOffset addr = 0 := Nat.mod_one addr
  rw [hoffset]
  change add64 (sub64 (add64 0 len) 1 / 1 * 1) 1 = len
  unfold add64 sub64 addrSpace at *
  omega

/-- What the slot holds after `PC_GET`. -/
theorem slot_fromMem (hlen : len < addrSpace) :
    (b.mem.misses .plain seg.content = true ∧
        (inp.mem seg.content len).granted len = false ∧ b.fetched inp r (.mem seg len) = none) ∨
      ((b.mem.misses .plain seg.content = true → (inp.mem seg.content len).granted len = true) ∧
        ∃ buf, b.fetched inp r (.mem seg len) = some buf ∧ buf.len = b.heldLen seg len ∧
          (b.fromMem inp seg len r).1.physAddr ≡
            buf.ptr + intOffset (sub64 r.logAddr seg.start) [MOD addrSpace]) := by
  have hslot : b.fetched inp r (.mem seg len) =
      (b.mem.fetch .plain seg.content len (inp.mem seg.content len)).slot
        (PcConfig.plain.hash seg.content) := congrFun PtrCache.slot_lookUp _
  have hptr : ∀ buf, b.fetched inp r (.mem seg len) = some buf →
      (b.fromMem inp seg len r).1.physAddr ≡
        buf.ptr + intOffset (sub64 r.logAddr seg.start) [MOD addrSpace] := fun buf hbuf => by
    have hget : (b.mem.pcGet .plain seg.content len r.forwrite (inp.mem seg.content len)).1 ≡
        buf.ptr [MOD addrSpace] := by
      have hoffset : PcConfig.plain.baseOffset seg.content = 0 := Nat.mod_one _
      unfold PtrCache.pcGet
      rw [hoffset, ← PtrCache.pcPtr_of_slot hbuf]
      exact Nat.mod_modEq _ _
    exact (Nat.mod_modEq _ _).trans (hget.add_right _)
  by_cases hmiss : b.mem.misses .plain seg.content = true
  · cases hgrant : (inp.mem seg.content len).granted len with
    | false =>
      refine Or.inl ⟨hmiss, rfl, hslot.trans (PtrCache.fetch_refused hmiss ?_)⟩
      rw [plain_baseLen hlen, hgrant]
      exact Bool.false_ne_true
    | true =>
      have hsome : b.fetched inp r (.mem seg len) = some ⟨(inp.mem seg.content len).physAddr,
          PcElem.clearBits (PcConfig.plain.baseAddr seg.content), len⟩ := by
        rw [hslot, PtrCache.fetch, if_pos hmiss, plain_baseLen hlen, PtrCache.getElem_granted hgrant,
          PtrCache.slot_setElem, Function.update_self, PcElem.buffer_orPresent]
      refine Or.inr ⟨fun _ => rfl, _, hsome, ?_, hptr _ hsome⟩
      rw [Brick.heldLen, if_pos hmiss]
  · have hpresent : (b.mem.elems (PcConfig.plain.hash seg.content)).isPresent = true := by
      have htag := not_not.mp (mt decide_eq_true hmiss)
      have hbit : PcConfig.plain.baseAddr seg.content / 2 % 2 = 1 := PcElem.present_orPresent
      rw [← htag] at hbit
      refine decide_eq_true ?_
      unfold PcElem.clearDirty at hbit
      omega
    have hsome : b.fetched inp r (.mem seg len) =
        some ⟨(b.mem.elems (PcConfig.plain.hash seg.content)).pcPtr,
          PcElem.clearBits (b.mem.elems (PcConfig.plain.hash seg.content)).pcAddr,
          (b.mem.elems (PcConfig.plain.hash seg.content)).pcLen⟩ := by
      rw [hslot, PtrCache.fetch, if_neg hmiss]
      exact PcElem.buffer_some hpresent
    refine Or.inr ⟨fun h => absurd h hmiss, _, hsome, ?_, hptr _ hsome⟩
    rw [Brick.heldLen, if_neg hmiss]

/-! ## Requests -/

/-- The range that is returned lies inside the buffer of its segment. -/
def StaysInside (b : Brick) (inp : Inputs) (r : Request) : Prop :=
  ∀ src, b.image.sourceOf r.logAddr = some src → (b.gettranswait inp r).1.success = true →
    ∃ buf, b.fetched inp r src = some buf ∧ (b.gettranswait inp r).1.Inside buf

/-- The segment can be fetched, and what is fetched of it covers the request. -/
def Source.Fits (b : Brick) (inp : Inputs) (r : Request) : Source → Prop
  | .mem seg len =>
    (b.mem.misses .plain seg.content = true → (inp.mem seg.content len).granted len = true) ∧
      Covers seg r (intOffset (sub64 r.logAddr seg.start)) (b.heldLen seg len)
  | .code seg =>
    let reply := inp.code (Brick.codeAddr seg r) defaultTransfer
    reply.success = true → Covers seg r 0 reply.physLen

theorem fromMem_inside_iff (hseg : seg.contains r.logAddr = true) (hlen : len < addrSpace) :
    (∃ buf, b.fetched inp r (.mem seg len) = some buf ∧ (b.fromMem inp seg len r).1.Inside buf) ↔
      (Source.mem seg len).Fits b inp r := by
  change _ ↔ (_ → _) ∧ Covers _ _ _ _
  rw [covers_iff hseg]
  obtain ⟨hmiss, hrefused, hnone⟩ | ⟨hgranted, buf, hbuf, hheld, haddr⟩ :=
    @slot_fromMem b inp r seg len hlen
  · rw [hnone, hrefused]
    refine ⟨?_, fun ⟨h, _⟩ => (nomatch h hmiss)⟩
    rintro ⟨buf, hbuf, -⟩
    cases hbuf
  · have hinside : (b.fromMem inp seg len r).1.Inside buf ↔ _ :=
      inside_iff (intOffset_lt _) haddr
    rw [hbuf, ← hheld]
    refine ⟨?_, fun ⟨_, h⟩ => ⟨buf, rfl, hinside.mpr h⟩⟩
    rintro ⟨_, ⟨⟩, h⟩
    exact ⟨hgranted, hinside.mp h⟩

theorem fromCode_inside_iff (hseg : seg.contains r.logAddr = true) :
    ((b.fromCode inp seg r).1.success = true →
        ∃ buf, b.fetched inp r (.code seg) = some buf ∧ (b.fromCode inp seg r).1.Inside buf) ↔
      (Source.code seg).Fits b inp r := by
  change _ ↔ ((inp.code (Brick.codeAddr seg r) defaultTransfer).success = true →
    Covers seg r 0 (inp.code (Brick.codeAddr seg r) defaultTransfer).physLen)
  refine forall_congr' fun hsuccess => ?_
  have hbuf : b.fetched inp r (.code seg) = some
      ⟨(inp.code (Brick.codeAddr seg r) defaultTransfer).physAddr, Brick.codeAddr seg r,
        (inp.code (Brick.codeAddr seg r) defaultTransfer).physLen⟩ := if_pos hsuccess
  rw [hbuf, covers_iff hseg]
  have hinside : (b.fromCode inp seg r).1.Inside
      ⟨(inp.code (Brick.codeAddr seg r) defaultTransfer).physAddr, Brick.codeAddr seg r,
        (inp.code (Brick.codeAddr seg r) defaultTransfer).physLen⟩ ↔
      0 + seg.physLen r ≤ (inp.code (Brick.codeAddr seg r) defaultTransfer).physLen :=
    inside_iff (by decide) rfl
  refine ⟨?_, fun h => ⟨_, rfl, hinside.mpr h⟩⟩
  rintro ⟨_, ⟨⟩, h⟩
  exact hinside.mp h

/-- **A returned range lies inside what has been fetched exactly when that covers the request**, up to
the end of the segment. -/
theorem stays_inside_iff (b : Brick) (inp : Inputs) (r : Request) :
    StaysInside b inp r ↔ ∀ src, b.image.sourceOf r.logAddr = some src → src.Fits b inp r := by
  refine forall₂_congr fun src hsrc => ?_
  rw [gettranswait_of_source hsrc]
  cases src with
  | mem seg len =>
    obtain ⟨hseg, hlen⟩ := sourceOf_mem hsrc
    rw [← fromMem_inside_iff hseg hlen]
    exact ⟨fun h => h rfl, fun h _ => h⟩
  | code seg => exact fromCode_inside_iff (sourceOf_code hsrc)

/-! ## An image that is opened again -/

/-- Memory that is where its address says. -/
def deviceInputs : Inputs where
  mem addr len := ⟨true, addr, len⟩
  code _ _ := ⟨false, 0, 0⟩

/-- What `memset` leaves of a segment. -/
def Segment.zero : Segment := ⟨0, 0, 0, by decide, by decide⟩

/-- The brick for the image at address 8. -/
def openImage (stored : Image) : Option Brick :=
  outputInit PtrCache.init 0x10000 8 stored ⟨true, 8, sizeofProcessStruct⟩
    ⟨true, 0x1000000, 0x200000, 0x1000000, 0x200000⟩ ⟨true, 0x2000000, 0x8000, 0x2000000, 0x8000⟩ [] []

/-- In the second half of the heap, the range is behind the megabyte that is fetched. -/
theorem heap_outside :
    ∃ first second, openImage ⟨[], [], .zero, .zero, false⟩ = some first ∧
      openImage first.image = some second ∧
      ¬StaysInside second deviceInputs ⟨0xB180000, 16, false⟩ := by
  refine ⟨_, _, rfl, rfl, fun h => ?_⟩
  obtain ⟨buf, hbuf, hinside⟩ := h _ rfl rfl
  have hfits := ((fromMem_inside_iff rfl (by decide)).mp ⟨buf, hbuf, hinside⟩).2.whole (by decide)
  exact absurd hfits (by decide)

end Athomux.ProcessImage
