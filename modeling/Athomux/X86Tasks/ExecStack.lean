import Athomux.Lib.ByteMem
import Athomux.PtrCache.Masks
import Mathlib.Data.List.Basic
import Mathlib.Logic.Function.Basic

/-!
# The stack of a new process

`#mmu_x86` fills the stack page of a process from the top down: the strings first, and below them the
words that point to them.
-/

open Lib

namespace Athomux.ExecStack

/-- `paddr_t` of the x86. -/
abbrev Addr := BitVec 32

/-- A string of C, without the 0 behind it. -/
abbrev CStr := { s : List UInt8 // 0 ∉ s }

/-- The string in memory. -/
def CStr.bytes (s : CStr) : List UInt8 := s.val ++ [0]

/-- `PAGE_SIZE`. -/
def pageSize : Nat := 4096

/-- `IMAGE_START + IMAGE_SIZE`. -/
def stackTop : Addr := 0x8000000 + 1024 * 1024 * 256

/-- `PAGE_MASK`. -/
def pageMask : Addr := 0xfffff000

/-- Where `show_page` makes the page visible to the process. -/
def stackPage : Addr := (stackTop - 4) &&& pageMask

/-- `VIRT_MEM`. -/
def virtMem (page : Addr) : Addr := page + 0xC0000000

/-- `stack`, `ptr`, and the bytes that are stored through `ptr`, the first one first. -/
structure Stack where
  stack : Addr
  ptr : Addr
  stores : List (Addr × UInt8)

/-- The bytes go to `p` and behind it. -/
def storesAt (p : Addr) (bytes : List UInt8) : List (Addr × UInt8) :=
  bytes.mapIdx fun i b => (p + BitVec.ofNat 32 i, b)

/-- Both pointers go down by `size`, and the bytes are stored there. -/
def Stack.push (s : Stack) (size : Addr) (bytes : List UInt8) : Stack :=
  ⟨s.stack - size, s.ptr - size, s.stores ++ storesAt (s.ptr - size) bytes⟩

/-- `(strlen(s) + 4) & ~3`. -/
def slen (str : CStr) : Addr := (BitVec.ofNat 32 str.val.length + 4) &&& ~~~3

/-- `stack_put_string`. -/
def stackPutString (s : Stack) (str : CStr) : Addr × Stack :=
  let s := s.push (slen str) str.bytes
  (s.stack, s)

/-- `stack_put_long`. -/
def stackPutLong (s : Stack) (v : Addr) : Stack := s.push 4 (toBytes 4 v.toNat)

/-- The loop over the strings, which keeps their addresses in `argv`. -/
def putStrings (s : Stack) : List CStr → List Addr × Stack
  | [] => ([], s)
  | str :: strs =>
    let x := stackPutString s str
    let y := putStrings x.2 strs
    (x.1 :: y.1, y.2)

def envString : CStr := ⟨"PATH=/usr/bin".toList.map fun c => UInt8.ofNat c.toNat, by decide⟩

/-- The part of `$output_init` that fills the page, for an exec. -/
def execStack (page : Addr) (name : CStr) (args : List CStr) : Stack :=
  let argc : Addr := 1 + BitVec.ofNat 32 args.length
  let s : Stack := ⟨stackTop, virtMem page + BitVec.ofNat 32 pageSize, []⟩
  let env := stackPutString s envString
  let argv := putStrings env.2 (name :: args)
  let s := stackPutLong argv.2 0
  let s := stackPutLong s env.1
  let s := stackPutLong s 0
  let s := argv.1.reverse.foldl stackPutLong s
  stackPutLong s argc

/-! ## What the process finds -/

def applyStores (mem : Addr → UInt8) (stores : List (Addr × UInt8)) : Addr → UInt8 :=
  stores.foldl (fun m x => Function.update m x.1 x.2) mem

/-- A byte of the stack page, at an address of the process. -/
def userByte (mem : Addr → UInt8) (page u : Addr) : Option UInt8 :=
  if (u - stackPage).toNat < pageSize then some (mem (virtMem page + (u - stackPage))) else none

/-- The bytes are at `u`, all of them in the stack page. -/
def HasBytes (mem : Addr → UInt8) (page u : Addr) (bytes : List UInt8) : Prop :=
  ∀ i (h : i < bytes.length), userByte mem page (u + BitVec.ofNat 32 i) = some bytes[i]

def words (l : List Addr) : List UInt8 := l.flatMap fun v => toBytes 4 v.toNat

/-- Where an object of the page is. -/
def object (u : Addr) (bytes : List UInt8) : Region := ⟨(u - stackPage).toNat, bytes.length⟩

/-- At `esp` are `argc`, the pointers to the arguments, 0, the pointer to the environment, and 0. The
strings are where the pointers say, and no two objects overlap. -/
def InitialStack (mem : Addr → UInt8) (page esp : Addr) (strs : List CStr) : Prop :=
  ∃ (argv : List Addr) (envp : Addr),
    let table := words (BitVec.ofNat 32 strs.length :: argv ++ [0, envp, 0])
    HasBytes mem page esp table ∧ HasBytes mem page envp envString.bytes ∧
      List.Forall₂ (fun p str => HasBytes mem page p (CStr.bytes str)) argv strs ∧
      List.Pairwise Region.Apart (object esp table :: object envp envString.bytes ::
        List.zipWith (fun p str => object p (CStr.bytes str)) argv strs)

/-- The address is in the page. -/
def Inside (page a : Addr) : Prop := (a - virtMem page).toNat < pageSize

/-- What a string takes in the page. -/
def room (str : CStr) : Nat := (str.val.length + 4) / 4 * 4

/-- What is needed for all strings and words. -/
def needed (name : CStr) (args : List CStr) : Nat :=
  ((envString :: name :: args).map room).sum + 4 * (args.length + 5)

/-! ## Items -/

/-- What is pushed: how far the pointers go down, and the bytes. -/
abbrev Item := Nat × List UInt8

def total (items : List Item) : Nat := (items.map Prod.fst).sum

def pushAll (s : Stack) (items : List Item) : Stack :=
  items.foldl (fun s x => s.push (BitVec.ofNat 32 x.1) x.2) s

/-- The bytes are at `k + o`. -/
def At (mem : Addr → UInt8) (k : Addr) (o : Nat) (bytes : List UInt8) : Prop :=
  ∀ i (h : i < bytes.length), mem (k + BitVec.ofNat 32 (o + i)) = bytes[i]

/-- The items are below `k + o`, one below the other. -/
def Laid (mem : Addr → UInt8) (k : Addr) : Nat → List Item → Prop
  | _, [] => True
  | o, x :: items => At mem k (o - x.1) x.2 ∧ Laid mem k (o - x.1) items

/-- An item has room for its bytes, and less than a word more. -/
structure Item.Ok (x : Item) : Prop where
  mod : x.1 % 4 = 0
  fits : x.2.length ≤ x.1
  tight : x.1 < x.2.length + 4

variable {mem : Addr → UInt8} {k page : Addr} {s : Stack} {items items' : List Item} {o n : Nat}
  {x : Item}

theorem total_append : total (items ++ items') = total items + total items' := by
  simp [total]

theorem total_cons : total (x :: items) = x.1 + total items := by
  simp [total]

theorem pushAll_append (s : Stack) (items items' : List Item) :
    pushAll s (items ++ items') = pushAll (pushAll s items) items' := List.foldl_append

theorem ofNat_inj {x y : Nat} (hx : x < 2 ^ 32) (hy : y < 2 ^ 32)
    (h : k + BitVec.ofNat 32 x = k + BitVec.ofNat 32 y) : x = y := by
  have heq := congrArg BitVec.toNat ((BitVec.add_right_inj k).mp h)
  rwa [BitVec.toNat_ofNat, BitVec.toNat_ofNat, Nat.mod_eq_of_lt hx, Nat.mod_eq_of_lt hy] at heq

theorem sub_ofNat {x y : Nat} (h : y ≤ x) :
    k + BitVec.ofNat 32 x - BitVec.ofNat 32 y = k + BitVec.ofNat 32 (x - y) := by
  bv_omega

theorem add_ofNat {x y : Nat} :
    k + BitVec.ofNat 32 x + BitVec.ofNat 32 y = k + BitVec.ofNat 32 (x + y) := by
  bv_omega

theorem mem_storesAt {p : Addr} {bytes : List UInt8} {a : Addr × UInt8} :
    a ∈ storesAt p bytes ↔ ∃ i, ∃ h : i < bytes.length, a = (p + BitVec.ofNat 32 i, bytes[i]) := by
  unfold storesAt
  rw [List.mem_mapIdx]
  exact exists_congr fun i => exists_congr fun h => eq_comm

theorem applyStores_append (mem : Addr → UInt8) (l l' : List (Addr × UInt8)) :
    applyStores mem (l ++ l') = applyStores (applyStores mem l) l' := List.foldl_append

/-- What is not stored to stays. -/
theorem applyStores_of_ne {l : List (Addr × UInt8)} {a : Addr} (h : ∀ x ∈ l, x.1 ≠ a) :
    applyStores mem l a = mem a := by
  induction l generalizing mem with
  | nil => rfl
  | cons x l ih =>
    obtain ⟨hx, hl⟩ := List.forall_mem_cons.mp h
    have hrest : applyStores (Function.update mem x.1 x.2) l a = Function.update mem x.1 x.2 a :=
      ih hl
    exact hrest.trans (Function.update_of_ne hx.symm _ _)

theorem storesAt_cons (p : Addr) (b : UInt8) (bytes : List UInt8) :
    storesAt p (b :: bytes) = (p, b) :: storesAt (p + 1) bytes := by
  unfold storesAt
  rw [List.mapIdx_cons]
  refine congrArg₂ _ (by simp) (congrArg (fun f => bytes.mapIdx f) ?_)
  funext i b
  refine congrArg (·, b) ?_
  bv_omega

/-- Bytes that are stored are there. -/
theorem at_storesAt {bytes : List UInt8} (hlen : o + bytes.length < 2 ^ 32) :
    At (applyStores mem (storesAt (k + BitVec.ofNat 32 o) bytes)) k o bytes := by
  induction bytes generalizing mem o with
  | nil => exact fun i h => absurd h (Nat.not_lt_zero i)
  | cons b bytes ih =>
    rw [List.length_cons] at hlen
    have hnext : k + BitVec.ofNat 32 o + 1 = k + BitVec.ofNat 32 (o + 1) := by bv_omega
    have hrest : At (applyStores (Function.update mem (k + BitVec.ofNat 32 o) b)
        (storesAt (k + BitVec.ofNat 32 (o + 1)) bytes)) k (o + 1) bytes := ih (by omega)
    rw [storesAt_cons, hnext]
    intro i hi
    change applyStores (Function.update mem (k + BitVec.ofNat 32 o) b) _ _ = _
    cases i with
    | zero =>
      rw [applyStores_of_ne, Nat.add_zero, Function.update_self]
      · rfl
      · intro x hx
        obtain ⟨j, hj, rfl⟩ := mem_storesAt.mp hx
        dsimp only
        rw [add_ofNat]
        intro heq
        have := ofNat_inj (by omega) (by omega) heq
        omega
    | succ i =>
      have h := hrest i (Nat.lt_of_succ_lt_succ hi)
      rw [show o + (i + 1) = o + 1 + i by omega]
      exact h

theorem At.congr {mem' : Addr → UInt8} {bytes : List UInt8} (h : At mem k o bytes)
    (heq : ∀ i < bytes.length, mem' (k + BitVec.ofNat 32 (o + i)) = mem (k + BitVec.ofNat 32 (o + i))) :
    At mem' k o bytes := fun i hi => (heq i hi).trans (h i hi)

/-- What is pushed lies below what was there. -/
theorem pushAll_spec (top : Addr) (hptr : s.ptr = k + BitVec.ofNat 32 o)
    (hstack : s.stack = top + BitVec.ofNat 32 o) (hfits : total items ≤ o) (ho : o < 2 ^ 32)
    (hok : ∀ x ∈ items, Item.Ok x) :
    (pushAll s items).ptr = k + BitVec.ofNat 32 (o - total items) ∧
      (pushAll s items).stack = top + BitVec.ofNat 32 (o - total items) ∧
      ∃ l, (pushAll s items).stores = s.stores ++ l ∧
        (∀ a ∈ l, ∃ y, o - total items ≤ y ∧ y < o ∧ a.1 = k + BitVec.ofNat 32 y) ∧
        ∀ mem, Laid (applyStores mem l) k o items := by
  induction items generalizing s o with
  | nil =>
    refine ⟨hptr, hstack, [], (List.append_nil _).symm, ?_, fun _ => trivial⟩
    exact fun a ha => absurd ha List.not_mem_nil
  | cons x items ih =>
    obtain ⟨hx, hok⟩ := List.forall_mem_cons.mp hok
    have hle := hx.fits
    rw [total_cons] at hfits ⊢
    have hnext : (s.push (BitVec.ofNat 32 x.1) x.2).ptr = k + BitVec.ofNat 32 (o - x.1) := by
      rw [Stack.push, hptr, sub_ofNat (by omega)]
    have hnext' : (s.push (BitVec.ofNat 32 x.1) x.2).stack = top + BitVec.ofNat 32 (o - x.1) := by
      rw [Stack.push, hstack, sub_ofNat (by omega)]
    obtain ⟨hp, hs, l, hl, hin, hlaid⟩ := ih hnext hnext' (by omega) (by omega) hok
    rw [Nat.sub_sub] at hp hs hin
    refine ⟨hp, hs, storesAt (k + BitVec.ofNat 32 (o - x.1)) x.2 ++ l, ?_, ?_, fun mem => ?_⟩
    · rw [← List.append_assoc, ← hnext]
      exact hl
    · intro a ha
      rcases List.mem_append.mp ha with ha | ha
      · obtain ⟨i, hi, rfl⟩ := mem_storesAt.mp ha
        exact ⟨o - x.1 + i, by omega, by omega, add_ofNat⟩
      · obtain ⟨y, hy, hy', ha'⟩ := hin a ha
        exact ⟨y, hy, by omega, ha'⟩
    · rw [applyStores_append]
      refine ⟨(at_storesAt (by omega)).congr fun i hi => applyStores_of_ne fun a ha heq => ?_, hlaid _⟩
      obtain ⟨y, -, hy, heq'⟩ := hin a ha
      have := ofNat_inj (by omega) (by omega) (heq'.symm.trans heq)
      omega

theorem laid_append : Laid mem k o (items ++ items') ↔
    Laid mem k o items ∧ Laid mem k (o - total items) items' := by
  induction items generalizing o with
  | nil => simp [Laid, total]
  | cons x items ih =>
    rw [List.cons_append, Laid, Laid, ih, total_cons, Nat.sub_sub, and_assoc]

theorem stores_subset (items : List Item) {a : Addr × UInt8} (h : a ∈ s.stores) :
    a ∈ (pushAll s items).stores := by
  induction items generalizing s with
  | nil => exact h
  | cons x items ih => exact ih (List.mem_append_left _ h)

/-- If there is more than the page can hold, something is stored outside of it. -/
theorem outside_of_big (hptr : s.ptr = virtMem page + BitVec.ofNat 32 o) (ho : o ≤ pageSize)
    (hmod : o % 4 = 0) (hbig : o < total items) (hok : ∀ x ∈ items, Item.Ok x) :
    ∃ a ∈ (pushAll s items).stores, ¬ Inside page a.1 := by
  induction items generalizing s o with
  | nil => exact absurd hbig (Nat.not_lt_zero _)
  | cons x items ih =>
    obtain ⟨hx, hok⟩ := List.forall_mem_cons.mp hok
    rw [total_cons] at hbig
    have hxmod := hx.mod
    have htight := hx.tight
    by_cases hle : x.1 ≤ o
    · have hnext : (s.push (BitVec.ofNat 32 x.1) x.2).ptr =
          virtMem page + BitVec.ofNat 32 (o - x.1) := by
        rw [Stack.push, hptr, sub_ofNat hle]
      exact ih hnext (by omega) (by omega) (by omega) hok
    · -- the first byte is below the page, or the bytes are so many that they reach over its end
      let d := (s.ptr - BitVec.ofNat 32 x.1 - virtMem page).toNat
      have hd : d = (o + (2 ^ 32 - x.1 % 2 ^ 32)) % 2 ^ 32 := by
        have heq : s.ptr - BitVec.ofNat 32 x.1 - virtMem page =
            BitVec.ofNat 32 o - BitVec.ofNat 32 x.1 := by
          rw [hptr]
          bv_omega
        unfold pageSize at ho
        rw [show d = _ from congrArg BitVec.toNat heq, BitVec.toNat_sub, BitVec.toNat_ofNat,
          BitVec.toNat_ofNat]
        omega
      have hbyte : ∀ i (h : i < x.2.length), (d + i) % 2 ^ 32 ≥ pageSize →
          ∃ a ∈ (pushAll s (x :: items)).stores, ¬ Inside page a.1 := by
        intro i hi hge
        have hmem := mem_storesAt (a := (s.ptr - BitVec.ofNat 32 x.1 + BitVec.ofNat 32 i, x.2[i]))
          |>.mpr ⟨i, hi, rfl⟩
        refine ⟨_, stores_subset items (List.mem_append_right _ hmem), ?_⟩
        have hoff : (s.ptr - BitVec.ofNat 32 x.1 + BitVec.ofNat 32 i - virtMem page).toNat =
            (d + i) % 2 ^ 32 := by
          simp only [d]
          bv_omega
        exact fun hin => absurd (hoff ▸ hin : (d + i) % 2 ^ 32 < pageSize) (Nat.not_lt.mpr hge)
      unfold pageSize at ho hbyte
      by_cases hout : 4096 ≤ d
      · exact hbyte 0 (by omega) (by omega)
      · exact hbyte (4096 - d) (by omega) (by omega)

/-! ## What an exec pushes -/

def strItem (str : CStr) : Item := (room str, str.bytes)

def longItem (v : Addr) : Item := (4, toBytes 4 v.toNat)

/-- The addresses of strings that are pushed from `p` on. -/
def addrs (p : Addr) : List CStr → List Addr
  | [] => []
  | str :: strs => (p - BitVec.ofNat 32 (room str)) :: addrs (p - BitVec.ofNat 32 (room str)) strs

/-- The words, from the top down. -/
def longs (name : CStr) (args : List CStr) : List Addr :=
  let envp := stackTop - BitVec.ofNat 32 (room envString)
  [0, envp, 0] ++ (addrs envp (name :: args)).reverse ++ [1 + BitVec.ofNat 32 args.length]

def execItems (name : CStr) (args : List CStr) : List Item :=
  (envString :: name :: args).map strItem ++ (longs name args).map longItem

def start (page : Addr) : Stack := ⟨stackTop, virtMem page + BitVec.ofNat 32 pageSize, []⟩

variable {name : CStr} {args strs : List CStr} {bytes : List UInt8}

theorem slen_eq (str : CStr) : slen str = BitVec.ofNat 32 (room str) := by
  have hmask := PcMacro.and_not_mask (w := 32) (k := 2) (by decide)
    (BitVec.ofNat 32 str.val.length + 4)
  have hslen : slen str = (BitVec.ofNat 32 str.val.length + 4) / 4 * 4 := hmask
  apply BitVec.eq_of_toNat_eq
  rw [hslen, BitVec.toNat_mul, BitVec.toNat_udiv, BitVec.toNat_add]
  simp only [BitVec.toNat_ofNat, room, show (4 : BitVec 32).toNat = 4 from rfl]
  omega

theorem strItem_ok (str : CStr) : Item.Ok (strItem str) := by
  have hlen : str.bytes.length = str.val.length + 1 := List.length_append
  refine ⟨?_, ?_, ?_⟩ <;> simp only [strItem, room, hlen] <;> omega

theorem longItem_ok (v : Addr) : Item.Ok (longItem v) := by
  refine ⟨?_, ?_, ?_⟩ <;> simp [longItem]

theorem putStrings_eq (s : Stack) (strs : List CStr) :
    putStrings s strs = (addrs s.stack strs, pushAll s (strs.map strItem)) := by
  induction strs generalizing s with
  | nil => rfl
  | cons str strs ih =>
    rw [putStrings, ih]
    simp only [stackPutString, slen_eq]
    rfl

theorem putLongs_eq (s : Stack) (l : List Addr) :
    l.foldl stackPutLong s = pushAll s (l.map longItem) := by
  rw [pushAll, List.foldl_map]
  rfl

theorem execStack_eq (page : Addr) (name : CStr) (args : List CStr) :
    execStack page name args = pushAll (start page) (execItems name args) := by
  rw [execItems, pushAll_append, List.map_cons, ← putLongs_eq]
  simp only [longs, List.foldl_append, execStack, putStrings_eq, stackPutString, slen_eq]
  rfl

theorem length_addrs (p : Addr) (strs : List CStr) : (addrs p strs).length = strs.length := by
  induction strs generalizing p with
  | nil => rfl
  | cons str strs ih => rw [addrs, List.length_cons, List.length_cons, ih]

theorem total_longs (l : List Addr) : total (l.map longItem) = 4 * l.length := by
  induction l with
  | nil => rfl
  | cons v l ih =>
    rw [List.map_cons, total_cons, ih, List.length_cons, longItem]
    omega

theorem total_strs (strs : List CStr) : total (strs.map strItem) = (strs.map room).sum := by
  rw [total, List.map_map]
  rfl

theorem length_longs (name : CStr) (args : List CStr) :
    (longs name args).length = args.length + 5 := by
  simp [longs, length_addrs]

theorem total_execItems (name : CStr) (args : List CStr) :
    total (execItems name args) = needed name args := by
  rw [execItems, total_append, total_strs, total_longs, length_longs, needed]

theorem execItems_ok (name : CStr) (args : List CStr) : ∀ x ∈ execItems name args, Item.Ok x := by
  intro x hx
  rcases List.mem_append.mp hx with hx | hx <;> obtain ⟨y, -, rfl⟩ := List.mem_map.mp hx
  · exact strItem_ok y
  · exact longItem_ok y

/-! ## The objects of the page -/

theorem hasBytes_of_at (h : At mem (virtMem page) o bytes) (hfits : o + bytes.length ≤ pageSize) :
    HasBytes mem page (stackPage + BitVec.ofNat 32 o) bytes := by
  intro i hi
  have hoff : stackPage + BitVec.ofNat 32 o + BitVec.ofNat 32 i - stackPage =
      BitVec.ofNat 32 (o + i) := by
    rw [add_ofNat]
    bv_omega
  have hlt : (BitVec.ofNat 32 (o + i)).toNat < pageSize := by
    rw [BitVec.toNat_ofNat]
    exact Nat.lt_of_le_of_lt (Nat.mod_le _ _) (by omega)
  unfold userByte
  rw [hoff, if_pos hlt, h i hi]

theorem object_ofNat (ho : o < 2 ^ 32) (bytes : List UInt8) :
    object (stackPage + BitVec.ofNat 32 o) bytes = ⟨o, bytes.length⟩ := by
  have hoff : stackPage + BitVec.ofNat 32 o - stackPage = BitVec.ofNat 32 o := by bv_omega
  rw [object, hoff, BitVec.toNat_ofNat, Nat.mod_eq_of_lt ho]

/-- Every string is where its address says. -/
theorem strings_of_laid (hlaid : Laid mem (virtMem page) o (strs.map strItem))
    (hfits : total (strs.map strItem) ≤ o) (ho : o ≤ pageSize) :
    List.Forall₂ (fun p str => HasBytes mem page p (CStr.bytes str))
      (addrs (stackPage + BitVec.ofNat 32 o) strs) strs := by
  induction strs generalizing o with
  | nil => exact List.Forall₂.nil
  | cons str strs ih =>
    obtain ⟨hat, hlaid⟩ := hlaid
    rw [List.map_cons, total_cons] at hfits
    have hle := (strItem_ok str).fits
    have hroom : (strItem str).1 = room str := rfl
    rw [addrs, sub_ofNat (by omega)]
    refine List.Forall₂.cons (hasBytes_of_at hat ?_) (ih hlaid (by omega) (by omega))
    change _ + (strItem str).2.length ≤ _
    omega

/-- The strings are below `o`, and apart. -/
theorem strings_apart (strs : List CStr) (hfits : total (strs.map strItem) ≤ o) (ho : o < 2 ^ 32) :
    let objects := List.zipWith (fun p str => object p (CStr.bytes str))
      (addrs (stackPage + BitVec.ofNat 32 o) strs) strs
    (∀ r ∈ objects, o - total (strs.map strItem) ≤ r.start ∧ r.stop ≤ o) ∧
      objects.Pairwise Region.Apart := by
  induction strs generalizing o with
  | nil => exact ⟨fun r hr => absurd hr List.not_mem_nil, List.Pairwise.nil⟩
  | cons str strs ih =>
    have hle := (strItem_ok str).fits
    have hroom : (strItem str).1 = room str := rfl
    have hbytes : (strItem str).2.length = str.bytes.length := rfl
    simp only [List.map_cons, total_cons, addrs] at hfits ⊢
    rw [sub_ofNat (by omega)]
    obtain ⟨hin, hpair⟩ := ih (o := o - room str) (by omega) (by omega)
    rw [List.zipWith_cons_cons, object_ofNat (by omega)]
    refine ⟨fun r hr => ?_, List.pairwise_cons.mpr ⟨fun r hr => ?_, hpair⟩⟩
    · rcases List.mem_cons.mp hr with rfl | hr
      · simp only [Region.stop]
        omega
      · have := hin r hr
        omega
    · have := hin r hr
      exact Region.apart_iff.mpr (Or.inr (Or.inr (Or.inr (by simpa using this.2))))

theorem at_append {bytes' : List UInt8} (h : At mem k o bytes)
    (h' : At mem k (o + bytes.length) bytes') : At mem k o (bytes ++ bytes') := by
  intro i hi
  by_cases hlt : i < bytes.length
  · rw [List.getElem_append_left hlt]
    exact h i hlt
  · have hle := Nat.le_of_not_lt hlt
    rw [List.getElem_append_right hle, ← h' (i - bytes.length), Nat.add_assoc,
      Nat.add_sub_cancel' hle]

@[simp] theorem length_words (l : List Addr) : (words l).length = 4 * l.length := by
  induction l with
  | nil => rfl
  | cons v l ih =>
    rw [words, List.flatMap_cons, List.length_append, toBytes_length, List.length_cons]
    rw [words] at ih
    omega

/-- The words that are pushed are a table, the last one at its start. -/
theorem words_of_laid {l : List Addr} (hlaid : Laid mem k o (l.map longItem))
    (hfits : 4 * l.length ≤ o) : At mem k (o - 4 * l.length) (words l.reverse) := by
  induction l generalizing o with
  | nil => exact fun i h => absurd h (Nat.not_lt_zero i)
  | cons v l ih =>
    obtain ⟨hat, hlaid⟩ := hlaid
    rw [List.length_cons] at hfits ⊢
    have hrest := ih hlaid (by simp only [longItem]; omega)
    rw [List.reverse_cons, words, List.flatMap_append]
    have hpos : o - (longItem v).1 - 4 * l.length = o - 4 * (l.length + 1) := by
      simp only [longItem]
      omega
    rw [hpos] at hrest
    refine at_append hrest ?_
    have hend : o - 4 * (l.length + 1) + (words l.reverse).length = o - (longItem v).1 := by
      simp only [length_words, List.length_reverse, longItem]
      omega
    rw [← words, hend, List.flatMap_singleton]
    exact hat

/-! ## When everything fits in -/

theorem stackTop_eq : stackTop = stackPage + BitVec.ofNat 32 pageSize := by decide

theorem longs_reverse (name : CStr) (args : List CStr) :
    (longs name args).reverse = BitVec.ofNat 32 (name :: args).length ::
      addrs (stackTop - BitVec.ofNat 32 (room envString)) (name :: args) ++
        [0, stackTop - BitVec.ofNat 32 (room envString), 0] := by
  have hargc : 1 + BitVec.ofNat 32 args.length = BitVec.ofNat 32 (args.length + 1) := by bv_omega
  rw [longs, hargc]
  simp

theorem initialStack_of_laid
    (hlaid : Laid mem (virtMem page) pageSize (execItems name args))
    (hfits : needed name args ≤ pageSize) :
    InitialStack mem page (stackPage + BitVec.ofNat 32 (pageSize - needed name args))
      (name :: args) := by
  have htotal := total_execItems name args
  rw [execItems, total_append, total_longs] at htotal
  obtain ⟨hstrs, hlongs⟩ := laid_append.mp hlaid
  have hall := strings_of_laid hstrs (by omega) (Nat.le_refl _)
  have hapart := strings_apart (o := pageSize) (envString :: name :: args) (by omega)
    (by decide)
  have hwords := words_of_laid hlongs (by omega)
  rw [Nat.sub_sub, htotal] at hwords
  rw [← stackTop_eq] at hall hapart
  have hlength : (words (longs name args).reverse).length = 4 * (longs name args).length := by
    rw [length_words, List.length_reverse]
  have htable := hasBytes_of_at hwords (by omega)
  have hobject : object (stackPage + BitVec.ofNat 32 (pageSize - needed name args))
      (words (longs name args).reverse) = ⟨pageSize - needed name args, _⟩ :=
    object_ofNat (Nat.lt_of_le_of_lt (Nat.sub_le _ _) (by decide)) _
  obtain ⟨henv, hargs⟩ := List.forall₂_cons.mp hall
  refine ⟨addrs (stackTop - BitVec.ofNat 32 (room envString)) (name :: args),
    stackTop - BitVec.ofNat 32 (room envString), ?_⟩
  rw [← longs_reverse]
  refine ⟨htable, henv, hargs, List.pairwise_cons.mpr ⟨fun r hr => ?_, hapart.2⟩⟩
  -- the table ends where the lowest string begins
  have hin := hapart.1 r hr
  rw [hobject, Region.apart_iff]
  refine Or.inr (Or.inr (Or.inl ?_))
  simp only [Region.stop, hlength]
  omega

/-- The process finds its arguments, and nothing outside of the page is written, exactly when all of
it fits in. Nothing is refused. -/
theorem exec_stack_iff (mem : Addr → UInt8) (page : Addr) (name : CStr) (args : List CStr) :
    (InitialStack (applyStores mem (execStack page name args).stores) page
        (execStack page name args).stack (name :: args) ∧
      ∀ a ∈ (execStack page name args).stores, Inside page a.1) ↔
    needed name args ≤ pageSize := by
  have hok := execItems_ok name args
  rw [execStack_eq]
  constructor
  · intro ⟨_, hinside⟩
    by_contra hbig
    obtain ⟨a, ha, hout⟩ := outside_of_big (s := start page) rfl (Nat.le_refl _) rfl
      (by rw [total_execItems]; exact Nat.lt_of_not_le hbig) hok
    exact hout (hinside a ha)
  · intro hfits
    have htotal := total_execItems name args
    obtain ⟨-, hstack, l, hl, hin, hlaid⟩ := pushAll_spec (s := start page) stackPage rfl
      stackTop_eq (htotal ▸ hfits) (by decide) hok
    rw [htotal] at hstack
    rw [hl, hstack]
    refine ⟨initialStack_of_laid (hlaid mem) hfits, fun a ha => ?_⟩
    obtain ⟨y, -, hy, haddr⟩ := hin a ha
    have hoff : (a.1 - virtMem page).toNat = y % 2 ^ 32 := by
      rw [haddr]
      bv_omega
    unfold Inside
    unfold pageSize at hy ⊢
    omega

/-- An argument of 255 bytes. -/
def longArg : CStr :=
  ⟨List.replicate 255 97, fun h => absurd (List.eq_of_mem_replicate h) (by decide)⟩

theorem room_longArg : room longArg = 256 := by
  rw [room, longArg, List.length_replicate]

/-- With 20 of them, bytes below the page are written. -/
theorem arguments_below_page :
    ¬ ((InitialStack (applyStores (fun _ => 0) (execStack 0x300000 envString
          (List.replicate 20 longArg)).stores) 0x300000
          (execStack 0x300000 envString (List.replicate 20 longArg)).stack
          (envString :: List.replicate 20 longArg)) ∧
      ∀ a ∈ (execStack 0x300000 envString (List.replicate 20 longArg)).stores,
        Inside 0x300000 a.1) := by
  intro ⟨_, hinside⟩
  rw [execStack_eq] at hinside
  obtain ⟨a, ha, hout⟩ := outside_of_big (s := start 0x300000) rfl (Nat.le_refl _) rfl
    (by simp [total_execItems, needed, room_longArg, pageSize]; omega) (execItems_ok envString (List.replicate 20 longArg))
  exact hout (hinside a ha)

end Athomux.ExecStack
