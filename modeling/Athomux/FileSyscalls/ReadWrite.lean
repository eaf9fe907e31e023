import Athomux.Args
import Athomux.Lib.ByteMem
import Athomux.Lib.Run
import Athomux.StratNative.Spec

/-!
# Read and write

The two system calls of `#file_syscalls_ulinux` on one descriptor. `int` and `size_t` have 32 bits.
What the calls of the nests return is part of an event.
-/

open Lib

namespace Athomux.FileSyscalls

open StratNative (FileType)

/-- `DEFAULT_TRANSFER`. -/
def defaultTransfer : Nat := 4096

/-- What is left of a number in an `int`. -/
def toInt (x : Int) : Int := Int.bmod x (2 ^ 32)

/-- What is left of a number in a `size_t`. -/
def toSize (x : Int) : Nat := (x % 2 ^ 32).toNat

/-- An `int` as an address. -/
def toAddr (x : Int) : Nat := (x % addrSpace).toNat

/-- What a call has done: what it returns, how many bytes `memcpy` has copied, how many were fetched,
the positions, and what the user gets and should get. -/
structure Call where
  count : Nat
  result : Int
  moved : Nat
  fetched : Nat
  before : Int
  after : Int
  got : List UInt8
  wanted : List UInt8

/-- The fields of `struct filedes`, the file, and the size in its attributes. `written` and `ends` are
what the users have written, and the highest end of it. -/
structure Sys where
  type : FileType
  addr : Nat
  filepos : Int
  content : ByteMem
  size : Int
  written : ByteMem
  ends : Int
  calls : List Call

/-- What the calls return: whether the attributes can be read, and what is in `size` if not; whether
there is a buffer, its length, and the memory there; whether it is put; how `write_file_size` ends; and
what is in `res` when nothing is stored there. -/
structure Answers where
  stat : Bool
  noSize : Int
  get : Bool
  physLen : Nat
  phys : ByteMem
  put : Bool
  statRead : Bool
  statWrite : Bool
  noResult : Int

/-- The descriptor is opened. -/
def Init (s : Sys) : Prop :=
  s.filepos = 0 ∧ 0 ≤ s.size ∧ s.size < 2 ^ 31 ∧ s.written = s.content ∧ s.ends = s.size ∧ s.calls = []

/-! ## The calls -/

structure Outcome where
  result : Int
  moved : Nat
  fetched : Nat
  got : List UInt8

def Outcome.none (result : Int) : Outcome := ⟨result, 0, 0, []⟩

/-- `memcpy(buf, MAKE_PTR(phys_addr), res)`. -/
def copyOut (a : Answers) (res : Int) : Outcome :=
  ⟨res, toSize res, a.physLen, a.phys.load 0 (toSize res)⟩

/-- `athomux_syscall_read`, with `filepos` in the end. -/
def syscallRead (s : Sys) (count : Nat) (a : Answers) : Int × Outcome :=
  if s.addr = 0 then (s.filepos, .none (-1))
  else match s.type with
    | .file =>
      if a.stat ≠ true then (s.filepos, .none (-1))
      else if s.filepos ≥ s.size then (s.filepos, .none 0)
      else if a.get then
        let res := if toSize (s.filepos + count) > toSize s.size then toInt (s.size - s.filepos)
          else toInt a.physLen
        (toInt (s.filepos + res), copyOut a res)
      else (s.filepos, .none 0)
    | .char =>
      if a.get then
        let res := toInt a.physLen
        (toInt (s.filepos + res), copyOut a res)
      else (s.filepos, .none 0)
    | _ => (s.filepos, .none a.noResult)

/-- What is in the buffer behind `memcpy(ptr, buf, count)`. -/
def buffer (data : ByteMem) (count : Nat) (a : Answers) : ByteMem := fun i =>
  if i < count then data i else a.phys i

/-- `athomux_syscall_write`. -/
def syscallWrite (s : Sys) (data : ByteMem) (count : Nat) (a : Answers) : Sys × Outcome :=
  if s.addr = 0 then (s, .none a.noResult)
  else match s.type with
    | .char =>
      if a.get then (s, ⟨toInt a.physLen, a.physLen, a.physLen, []⟩) else (s, .none 0)
    | .file =>
      let filepos := toInt (s.filepos + count)
      let size := if a.stat then s.size else a.noSize
      ({ s with
          -- a buffer that is not there is written to all the same
          content := if a.get ∧ a.put then
              s.content.store (toAddr s.filepos) ((buffer data count a).load 0 a.physLen)
            else s.content
          filepos := filepos
          size := if filepos > size ∧ a.statRead ∧ a.statWrite then filepos else s.size },
        ⟨toInt count, count, if a.get then a.physLen else 0, []⟩)
    | _ => (s, .none a.noResult)

/-! ## Runs -/

inductive Event
  | read (count : Nat) (a : Answers)
  | write (count : Nat) (data : ByteMem) (a : Answers)

def Sys.read (s : Sys) (count : Nat) (a : Answers) : Sys :=
  let x := syscallRead s count a
  { s with
    filepos := x.1
    calls := ⟨count, x.2.result, x.2.moved, x.2.fetched, s.filepos, x.1, x.2.got,
      s.written.load (toAddr s.filepos) x.2.got.length⟩ :: s.calls }

def Sys.write (s : Sys) (count : Nat) (data : ByteMem) (a : Answers) : Sys :=
  let x := syscallWrite s data count a
  { x.1 with
    written := s.written.store (toAddr s.filepos) (data.load 0 x.2.result.toNat)
    ends := if x.2.result > 0 then max s.ends (s.filepos + x.2.result) else s.ends
    calls := ⟨count, x.2.result, x.2.moved, x.2.fetched, s.filepos, x.1.filepos, [], []⟩ :: s.calls }

/-- A buffer is not longer than asked for, and one that is got for reading has what is in the file. -/
def step (s : Sys) : Event → Option Sys
  | .read count a =>
    if count < 2 ^ 32 ∧ a.physLen ≤ defaultTransfer ∧
        (s.type = .file → a.phys.load 0 a.physLen = s.content.load (toAddr s.filepos) a.physLen) then
      some (s.read count a)
    else none
  | .write count data a =>
    if count < 2 ^ 32 ∧ a.physLen ≤ defaultTransfer then some (s.write count data a) else none

/-- A call returns at most what is asked for, copies so many bytes and none outside of what was fetched,
moves the position as far, and gives what was written there. -/
structure Call.Right (c : Call) : Prop where
  limit : c.result ≤ c.count
  moved : c.moved = c.result.toNat
  inside : c.moved ≤ c.fetched
  filepos : c.after = c.before + c.moved
  data : c.got = c.wanted

structure Right (s : Sys) : Prop where
  calls : ∀ c ∈ s.calls, c.Right
  size : s.size = s.ends

/-- What is delivered is not more than what is wanted, or has all that is left of the file. -/
def ReadFits (s : Sys) (count : Nat) (physLen : Nat) : Prop :=
  if s.filepos + count < 2 ^ 32 then
    if s.size < s.filepos + count then s.size - s.filepos ≤ physLen else physLen ≤ count
  else physLen ≤ s.size - s.filepos

instance (s : Sys) (count physLen : Nat) : Decidable (ReadFits s count physLen) :=
  inferInstanceAs (Decidable (ite _ _ _))

/-- What is behind the written bytes in the buffer is what is in the file there. -/
def Keeps (s : Sys) (count : Nat) (a : Answers) : Prop :=
  ∀ i, count ≤ i → i < a.physLen → s.filepos + i < s.size →
    a.phys i = s.content (s.filepos.toNat + i)

def Allowed (s : Sys) : Event → Prop
  | .read count a =>
    s.addr = 0 ∨ s.type = .file ∧
      (a.stat = false ∨ s.size ≤ s.filepos ∨ a.get = false ∨ ReadFits s count a.physLen)
  | .write count _ a =>
    s.addr ≠ 0 ∧ s.type = .file ∧ a.get = true ∧ a.put = true ∧ a.stat = true ∧
      count ≤ a.physLen ∧ s.filepos + count < 2 ^ 31 ∧ Keeps s count a ∧
      (s.size < s.filepos + count → a.statRead = true ∧ a.statWrite = true)

/-! ## The invariant -/

structure Inv (s : Sys) : Prop where
  right : Right s
  nonneg : 0 ≤ s.filepos
  le : s.filepos ≤ s.size
  small : s.size < 2 ^ 31
  content : ∀ x : Nat, (x : Int) < s.size → s.content x = s.written x

variable {s t : Sys} {count : Nat} {data : ByteMem} {a : Answers} {x : Int}

theorem toInt_eq (h : 0 ≤ x) (hlt : x < 2 ^ 31) : toInt x = x := by
  unfold toInt
  rw [Int.bmod_eq_of_le] <;> omega

theorem toSize_eq (h : 0 ≤ x) (hlt : x < 2 ^ 32) : (toSize x : Int) = x := by
  unfold toSize
  omega

theorem toAddr_eq (h : 0 ≤ x) (hlt : x < 2 ^ 32) : toAddr x = x.toNat := by
  unfold toAddr addrSpace
  omega

theorem inv_init (h : Init s) : Inv s := by
  obtain ⟨hpos, hsize, hsmall, hwritten, hends, hcalls⟩ := h
  refine ⟨⟨?_, hends.symm⟩, hpos.ge, by omega, hsmall, fun x _ => by rw [hwritten]⟩
  rw [hcalls]
  exact fun c hc => absurd hc List.not_mem_nil

/-- A call that does nothing. -/
theorem Inv.nothing (h : Inv s) {c : Call} (hc : c.Right) : Inv { s with calls := c :: s.calls } :=
  ⟨⟨List.forall_mem_cons.mpr ⟨hc, h.right.calls⟩, h.right.size⟩, h.nonneg, h.le, h.small, h.content⟩

theorem none_right {res : Int} (h : res ≤ 0) (before : Int) (wanted : ByteMem) (pos : Nat) :
    Call.Right ⟨count, res, 0, 0, before, before, [], wanted.load pos 0⟩ :=
  ⟨by change res ≤ count; omega, by change 0 = res.toNat; omega, Nat.le_refl 0, (add_zero _).symm, rfl⟩

/-! ## Reading -/

/-- `res` of a read that fits. -/
def readRes (s : Sys) (count : Nat) (a : Answers) : Int :=
  if toSize (s.filepos + count) > toSize s.size then toInt (s.size - s.filepos) else toInt a.physLen

theorem readRes_fits (h : Inv s) (hlt : s.filepos < s.size) (hcount : count < 2 ^ 32)
    (hlen : a.physLen ≤ defaultTransfer) (hfits : ReadFits s count a.physLen) :
    0 ≤ readRes s count a ∧ readRes s count a ≤ count ∧ readRes s count a ≤ a.physLen ∧
      s.filepos + readRes s count a ≤ s.size := by
  obtain ⟨-, hpos, -, hsmall, -⟩ := h
  have hsize := toSize_eq (x := s.size) (by omega) (by omega)
  unfold defaultTransfer at hlen
  have hphys : toInt a.physLen = a.physLen := toInt_eq (by omega) (by omega)
  have hrest : toInt (s.size - s.filepos) = s.size - s.filepos := toInt_eq (by omega) (by omega)
  unfold readRes
  rw [hphys, hrest]
  unfold ReadFits at hfits
  split at hfits
  · rename_i hsum
    have hsum' := toSize_eq (x := s.filepos + count) (by omega) hsum
    split at hfits <;> split <;> omega
  · -- the sum begins again at 0, and is less than the position
    have hwrap : (toSize (s.filepos + count) : Int) = s.filepos + count - 2 ^ 32 := by
      unfold toSize
      omega
    split <;> omega

theorem load_front {mem mem' : ByteMem} {p q k n : Nat} (h : mem.load p n = mem'.load q n)
    (hk : k ≤ n) : mem.load p k = mem'.load q k := by
  rw [← ByteMem.load_take mem hk, h, ByteMem.load_take mem' hk]

theorem Inv.copies (h : Inv s) {res : Int} (hnonneg : 0 ≤ res) (hcount : res ≤ count)
    (hlen : res ≤ a.physLen) (hsize : s.filepos + res ≤ s.size)
    (hphys : a.phys.load 0 a.physLen = s.content.load (toAddr s.filepos) a.physLen) :
    Inv { s with
      filepos := toInt (s.filepos + res)
      calls := ⟨count, res, toSize res, a.physLen, s.filepos, toInt (s.filepos + res),
        a.phys.load 0 (toSize res),
        s.written.load (toAddr s.filepos) (a.phys.load 0 (toSize res)).length⟩ :: s.calls } := by
  obtain ⟨hright, hpos, hle, hsmall, hcontent⟩ := h
  have hres : toSize res = res.toNat := by
    have := toSize_eq hnonneg (by omega : res < 2 ^ 32)
    omega
  have hnext : toInt (s.filepos + res) = s.filepos + res := toInt_eq (by omega) (by omega)
  have haddr := toAddr_eq hpos (by omega)
  rw [hres, hnext, ByteMem.load_length]
  refine ⟨⟨List.forall_mem_cons.mpr ⟨?_, hright.calls⟩, hright.size⟩, by change 0 ≤ s.filepos + res; omega,
    hsize, hsmall, hcontent⟩
  refine ⟨hcount, rfl, by change res.toNat ≤ a.physLen; omega, ?_, ?_⟩
  · change s.filepos + res = s.filepos + (res.toNat : Int)
    omega
  · refine (load_front hphys (by omega)).trans ?_
    rw [haddr]
    exact ByteMem.load_congr fun i hi => hcontent _ (by omega)

theorem Inv.reads_none (h : Inv s) {res : Int} (hres : res ≤ 0)
    (heq : syscallRead s count a = (s.filepos, .none res)) : Inv (s.read count a) := by
  unfold Sys.read
  rw [heq]
  exact h.nothing (none_right hres _ _ _)

theorem Inv.read (h : Inv s) (hcount : count < 2 ^ 32) (hlen : a.physLen ≤ defaultTransfer)
    (hphys : s.type = .file → a.phys.load 0 a.physLen = s.content.load (toAddr s.filepos) a.physLen)
    (hok : Allowed s (.read count a)) : Inv (s.read count a) := by
  by_cases haddr : s.addr = 0
  · exact h.reads_none (by decide) (if_pos haddr)
  · obtain ⟨htype, hcases⟩ := hok.resolve_left haddr
    by_cases hstat : a.stat = true
    · by_cases hend : s.filepos ≥ s.size
      · exact h.reads_none (Int.le_refl 0) (by simp [syscallRead, haddr, htype, hstat, hend])
      · cases hget : a.get with
        | false =>
          exact h.reads_none (Int.le_refl 0) (by simp [syscallRead, haddr, htype, hstat, hend, hget])
        | true =>
          have heq : syscallRead s count a =
              (toInt (s.filepos + readRes s count a), copyOut a (readRes s count a)) := by
            simp [syscallRead, haddr, htype, hstat, hend, hget, readRes]
          have hfits : ReadFits s count a.physLen := by simpa [hstat, hend, hget] using hcases
          obtain ⟨hnonneg, hle, hphysLen, hsize⟩ :=
            readRes_fits h (by omega) hcount hlen hfits
          unfold Sys.read
          rw [heq]
          exact h.copies hnonneg hle hphysLen hsize (hphys htype)
    · exact h.reads_none (show (-1 : Int) ≤ 0 by decide) (by simp [syscallRead, haddr, htype, hstat])

/-! ## Writing -/

theorem load_getD (mem : ByteMem) (pos : Nat) {n i : Nat} (hi : i < n) :
    (mem.load pos n).getD i 0 = mem (pos + i) := by
  have hi' : i < (mem.load pos n).length := by rwa [ByteMem.load_length]
  rw [List.getD_eq_getElem?_getD, List.getElem?_eq_getElem hi', Option.getD_some, ByteMem.load_get]

/-- The file behind a write is what was written, where it was before, and what was kept. -/
theorem write_content (h : Inv s) (hlen : count ≤ a.physLen) (hkeep : Keeps s count a) {x : Nat}
    (hx : (x : Int) < max s.size (s.filepos + count)) :
    s.content.store s.filepos.toNat ((buffer data count a).load 0 a.physLen) x =
      s.written.store s.filepos.toNat (data.load 0 count) x := by
  obtain ⟨-, hpos, hle, hsmall, hcontent⟩ := h
  unfold ByteMem.store
  rw [ByteMem.load_length, ByteMem.load_length]
  by_cases hin : s.filepos.toNat ≤ x ∧ x < s.filepos.toNat + count
  · rw [if_pos (by omega), if_pos hin, load_getD _ _ (by omega), load_getD _ _ (by omega),
      Nat.zero_add, buffer, if_pos (by omega)]
  · rw [if_neg hin]
    have hbefore := hcontent x (by omega)
    split
    · rename_i hbuf
      have hkept := hkeep (x - s.filepos.toNat) (by omega) (by omega) (by omega)
      rw [load_getD _ _ (by omega), Nat.zero_add, buffer, if_neg (by omega), hkept, ← hbefore]
      exact congrArg s.content (by omega)
    · exact hbefore

theorem Inv.write (h : Inv s) (hok : Allowed s (.write count data a)) :
    Inv (s.write count data a) := by
  obtain ⟨haddr, htype, hget, hput, hstat, hlen, hsmall, hkeep, hgrow⟩ := hok
  obtain ⟨hright, hpos, hle, hsize, -⟩ := id h
  have hnext : toInt (s.filepos + count) = s.filepos + count := toInt_eq (by omega) hsmall
  have hresult : toInt count = count := toInt_eq (by omega) (by omega)
  have hposition := toAddr_eq hpos (by omega)
  have hmax : (if s.filepos + count > s.size ∧ a.statRead = true ∧ a.statWrite = true then
      s.filepos + count else s.size) = max s.size (s.filepos + count) := by
    by_cases hlt : s.size < s.filepos + count
    · rw [if_pos ⟨hlt, hgrow hlt⟩, max_eq_right (by omega)]
    · rw [if_neg fun hgt => hlt hgt.1, max_eq_left (by omega)]
  have heq : s.write count data a =
      { s with
        content := s.content.store s.filepos.toNat ((buffer data count a).load 0 a.physLen)
        filepos := s.filepos + count
        size := max s.size (s.filepos + count)
        written := s.written.store s.filepos.toNat (data.load 0 count)
        ends := if (count : Int) > 0 then max s.ends (s.filepos + count) else s.ends
        calls := ⟨count, count, count, a.physLen, s.filepos, s.filepos + count, [], []⟩ :: s.calls } := by
    simp only [Sys.write, syscallWrite, if_neg haddr, htype, hget, hput, hstat, hnext, hresult,
      hposition, hmax, and_self, if_true, Int.toNat_natCast]
  rw [heq]
  refine ⟨⟨List.forall_mem_cons.mpr ⟨?_, hright.calls⟩, ?_⟩, ?_, ?_, ?_, ?_⟩
  · exact ⟨Int.le_refl _, (Int.toNat_natCast _).symm, hlen, rfl, rfl⟩
  · have hends := hright.size
    dsimp only
    split <;> omega
  · change 0 ≤ s.filepos + count
    omega
  · exact Int.le_max_right _ _
  · change max s.size (s.filepos + count) < 2 ^ 31
    omega
  · exact fun x hx => write_content h hlen hkeep hx

/-! ## All runs -/

theorem inv_step {e : Event} (h : Inv s) (hok : Allowed s e) (ht : step s e = some t) : Inv t := by
  cases e with
  | read count a =>
    rw [step] at ht
    split at ht
    · rename_i hvalid
      cases ht
      exact h.read hvalid.1 hvalid.2.1 hvalid.2.2 hok
    · cases ht
  | write count data a =>
    rw [step] at ht
    split at ht
    · cases ht
      exact h.write hok
    · cases ht

/-- In a run whose steps are allowed, all calls are right, and so is the size. -/
theorem calls_right (h : Reach step Init Allowed s) : Right s :=
  (h.invariant (fun _ => inv_init) fun _ _ _ => inv_step).right

/-- An open file. -/
def opened (size : Int) : Sys :=
  ⟨.file, 0x1000, 0, fun x => UInt8.ofNat x, size, fun x => UInt8.ofNat x, size, []⟩

theorem init_opened {size : Int} (h : 0 ≤ size) (hsmall : size < 2 ^ 31) : Init (opened size) :=
  ⟨rfl, h, hsmall, rfl, rfl, rfl⟩

/-- A buffer of `physLen` bytes, with the file from `pos` on. -/
def delivered (pos physLen : Nat) : Answers :=
  ⟨true, 0, true, physLen, fun i => UInt8.ofNat (pos + i), true, true, true, 0⟩

/-- A file of 5 bytes is read up to its end, and 4 bytes are written there. -/
theorem calls_right_file :
    ∃ s, run step anyEvent (opened 5) [.read 2 (delivered 0 2), .read 10 (delivered 2 4),
        .write 4 (fun _ => 7) (delivered 5 16)] = some s ∧
      s.calls.map Call.got = [[], [2, 3, 4], [0, 1]] ∧ s.size = 9 ∧ Right s := by
  refine ⟨_, rfl, by decide, by decide, calls_right ?_⟩
  have h : Reach step Init Allowed (opened 5) := .start (init_opened (by decide) (by decide))
  have hfirst := Reach.next (e := Event.read 2 (delivered 0 2)) h
    (Or.inr ⟨rfl, Or.inr (Or.inr (Or.inr (by decide)))⟩) rfl
  have hsecond := Reach.next (e := Event.read 10 (delivered 2 4)) hfirst
    (Or.inr ⟨rfl, Or.inr (Or.inr (Or.inr (by decide)))⟩) rfl
  refine Reach.next (e := Event.write 4 (fun _ => 7) (delivered 5 16)) hsecond ?_ rfl
  refine ⟨by decide, rfl, rfl, rfl, rfl, by decide, by decide, fun i hi _ hlt => ?_,
    fun _ => ⟨rfl, rfl⟩⟩
  -- the position is the end of the file
  have hend : (5 : Int) + i < 5 := hlt
  omega

theorem not_right_of_run {size : Int} (hsize : 0 ≤ size ∧ size < 2 ^ 31) {events : List Event}
    (h : (run step anyEvent (opened size) events).map
      (fun s => s.calls.all fun c => decide (c.result ≤ c.count ∧ c.moved ≤ c.fetched)) =
        some false) :
    ∃ s, run step anyEvent (opened size) events = some s ∧ Reach step Init anyEvent s ∧
      ¬ Right s := by
  obtain ⟨s, hs, hfalse⟩ := Option.map_eq_some_iff.mp h
  refine ⟨s, hs, Reach.of_run (.start (init_opened hsize.1 hsize.2)) hs, fun hright => ?_⟩
  refine absurd hfalse (Bool.not_eq_false _ ▸ List.all_eq_true.mpr fun c hc => ?_)
  exact decide_eq_true ⟨(hright.calls c hc).limit, (hright.calls c hc).inside⟩

/-- A read of 10 bytes gives 20, and 20 bytes are written to a buffer of 16. -/
theorem too_many_bytes :
    (∃ s, run step anyEvent (opened 40) [.read 10 (delivered 0 20)] = some s ∧
      Reach step Init anyEvent s ∧ ¬ Right s) ∧
    ∃ s, run step anyEvent (opened 40) [.write 20 (fun _ => 7) (delivered 0 16)] = some s ∧
      Reach step Init anyEvent s ∧ ¬ Right s :=
  ⟨not_right_of_run (by decide) (by decide), not_right_of_run (by decide) (by decide)⟩

end Athomux.FileSyscalls
