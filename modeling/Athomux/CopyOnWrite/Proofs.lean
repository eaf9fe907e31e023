import Athomux.CopyOnWrite.Spec
import Athomux.PtrCache.Proofs

/-!
# Copies that are private

The pointer cache in front of `device_mem_ulinux` returns every address as it is. The chains of the
hash tables hold the entries of all private blocks, and no two of these share memory.
-/

namespace Athomux

open Lib

namespace CopyOnWrite

variable {inp : CowInput} {s : CopyOnWrite} {a p e len : Nat}

/-! ## The pointer cache is transparent -/

/-- Every slot has the address for a pointer. -/
def Direct (pc : PtrCache) : Prop := pc.AllSlots fun b => b.ptr = b.logAddr

theorem deviceGet_success {addr n : Nat} (h : (deviceGet addr n).success = true) :
    addr ≠ 0 ∧ deviceGet addr n = ⟨true, addr, n⟩ := by
  unfold deviceGet at *
  split at h
  · cases h
  · rename_i hne
    exact ⟨hne, if_neg hne⟩

/-- With `PC_.._WHOLE` 1 a block is one byte. -/
theorem plain_base (addr : Nat) :
    PcConfig.plain.baseAddr2 addr = addr ∧ PcConfig.plain.baseOffset addr = 0 := by
  unfold PcConfig.baseAddr2 PcConfig.baseOffset PcConfig.plain
  simp [Nat.mod_one]

theorem plain_clear (ha : a % 4 = 0) : PcElem.clearBits (PcConfig.plain.baseAddr a) = a := by
  rw [PcConfig.baseAddr, PcElem.clearBits_orPresent, (plain_base a).1, PcElem.clearBits_eq ha]

theorem Direct.fetch {pc : PtrCache} (h : Direct pc) :
    Direct (pc.fetch .plain a len (memReply a len)) := by
  unfold PtrCache.fetch
  split
  · by_cases hg : (memReply a len).granted
        (PcConfig.plain.baseLen (PcConfig.plain.baseOffset a) len) = true
    · rw [PtrCache.getElem_granted hg]
      obtain ⟨-, hr⟩ := deviceGet_success (Bool.and_eq_true_iff.mp hg).1
      refine ((h.evict _).call _).fill _ PcElem.buffer_orPresent ?_
      unfold memReply
      rw [hr]
    · rw [PtrCache.getElem_refused hg]
      split
      · exact (h.evict _).call _
      · exact h.evict _
  · exact h

theorem Direct.lookUp {pc : PtrCache} (h : Direct pc) (a len : Nat) (dirty : Bool) :
    Direct (pc.lookUp .plain a len dirty (memReply a len)) :=
  (h.fetch.setDirty _ dirty).noteMarked _ dirty

/-- The slot of an address has this address for a pointer. -/
theorem Direct.pcPtr {pc : PtrCache} (h : Direct pc) (dirty : Bool) (ha : a % 4 = 0) :
    ((pc.lookUp .plain a len dirty (memReply a len)).elems (PcConfig.plain.hash a)).pcPtr = a := by
  have hbase : PcConfig.plain.baseAddr2 a % 4 = 0 := (plain_base a).1.symm ▸ ha
  have hlook := h.lookUp a len dirty
  have hslot : (pc.lookUp .plain a len dirty (memReply a len)).slot =
      (pc.fetch .plain a len (memReply a len)).slot := PtrCache.slot_lookUp
  cases hb : (pc.fetch .plain a len (memReply a len)).slot (PcConfig.plain.hash a) with
  | some b =>
    rw [PtrCache.pcPtr_of_slot ((congrFun hslot _).trans hb), h.fetch.holds _ b hb,
      PtrCache.fetch_logAddr hbase hb, (plain_base a).1]
  | none =>
    -- A get for an address other than 0 does not fail.
    obtain ⟨-, hg⟩ := PtrCache.fetch_none hbase hb
    rw [hlook.absent _ ((congrFun hslot _).trans hb)]
    by_contra hne
    simp [memReply, plain_clear ha, deviceGet, GetReply.granted, Ne.symm hne] at hg

/-- The cache returns the address. -/
theorem memGet_eq (h : Direct s.pc) (len : Nat) (dirty : Bool) (ha : a % 4 = 0) (hlt : a < addrSpace) :
    ∃ pc, s.memGet a len dirty = (a, { s with pc := pc }) ∧ Direct pc := by
  refine ⟨_, Prod.ext ?_ rfl, h.lookUp a len dirty⟩
  change add64 ((s.pc.lookUp .plain a len dirty (memReply a len)).elems
    (PcConfig.plain.hash a)).pcPtr (PcConfig.plain.baseOffset a) = a
  rw [h.pcPtr dirty ha, (plain_base a).2]
  exact add64_eq hlt

/-- New memory has the same address for the cache and for the device. -/
theorem memAlloc_eq (h : Direct s.pc) {x : Nat × Nat × CopyOnWrite}
    (hx : s.memAlloc inp len p = some x) : s.Fresh inp p ∧ p ≠ 0 ∧
      ∃ pc, x = (p, p, { s with pc := pc, allocated := p :: s.allocated }) ∧ Direct pc := by
  unfold memAlloc at hx
  split at hx
  · cases hx
  · rename_i hfresh
    have hfresh := not_not.mp hfresh
    obtain ⟨y, hy, rfl⟩ := Option.map_eq_some_iff.mp hx
    obtain ⟨hsucc, rfl⟩ := PtrCache.pcAlloc_some hy
    have hp : p ≠ 0 := by
      rintro rfl
      cases hsucc
    have hclear := plain_clear (a := p) (by have := hfresh.1; omega)
    have hr : deviceCreate p (PcConfig.plain.baseLen 0 len) =
        ⟨true, p, PcConfig.plain.baseLen 0 len, p, PcConfig.plain.baseLen 0 len⟩ := if_neg hp
    simp only [hr, hclear]
    refine ⟨hfresh, hp, _, rfl, ?_⟩
    refine ((((h.call _).evict _).fill _ (PcElem.buffer_orDirty.trans PcElem.buffer_orPresent)
      hclear.symm).setWrite _).noteMarked _ _

/-! ## The chains -/

/-- The entries from `p` on, up to `NULL`. -/
def IsChain (next : Nat → Nat) : Nat → List Nat → Prop
  | p, [] => p = 0
  | p, e :: l => p = e ∧ e ≠ 0 ∧ e % 4 = 0 ∧ e < addrSpace ∧ IsChain next (next e) l

theorem IsChain.congr {next next' : Nat → Nat} {l : List Nat} (h : IsChain next p l)
    (heq : ∀ e ∈ l, next' e = next e) : IsChain next' p l := by
  induction l generalizing p with
  | nil => exact h
  | cons e l ih =>
    obtain ⟨hp, h0, h4, hlt, hl⟩ := h
    refine ⟨hp, h0, h4, hlt, ?_⟩
    rw [heq e (List.mem_cons_self ..)]
    exact ih hl fun e' he' => heq e' (List.mem_cons_of_mem _ he')

theorem IsChain.next_ok {next : Nat → Nat} {l : List Nat} (h : IsChain next p l) :
    p % 4 = 0 ∧ p < addrSpace := by
  cases l with
  | nil =>
    cases h
    exact ⟨rfl, by decide⟩
  | cons e l =>
    obtain ⟨rfl, -, h4, hlt, -⟩ := h
    exact ⟨h4, hlt⟩

theorem IsChain.ne_zero {next : Nat → Nat} {l : List Nat} (h : IsChain next p l) (he : e ∈ l) :
    e ≠ 0 := by
  induction l generalizing p with
  | nil => cases he
  | cons e' l ih =>
    obtain ⟨-, h0, -, -, hl⟩ := h
    rcases List.mem_cons.mp he with rfl | he
    · exact h0
    · exact ih hl he

/-- The entry is for the block at `a`. -/
def isFor (s : CopyOnWrite) (a e : Nat) : Bool := decide (s.logAddr e = a)

/-- The loop finds the first entry for `a`. -/
theorem findLoop_eq {l : List Nat} {fuel : Nat} (hd : Direct s.pc) (hc : IsChain s.next e l)
    (hlen : l.length < fuel) : ∃ pc, findLoop a fuel e s =
      ((l.find? (s.isFor a)).getD 0, { s with pc := pc }) ∧ Direct pc := by
  induction l generalizing s e fuel with
  | nil =>
    cases hc
    obtain ⟨fuel, rfl⟩ : ∃ n, fuel = n + 1 := ⟨fuel - 1, by omega⟩
    exact ⟨s.pc, rfl, hd⟩
  | cons e' l ih =>
    obtain ⟨rfl, h0, h4, hlt, hl⟩ := hc
    rw [List.length_cons] at hlen
    obtain ⟨fuel, rfl⟩ : ∃ n, fuel = n + 1 := ⟨fuel - 1, by omega⟩
    unfold findLoop
    by_cases ha : s.logAddr e = a
    · rw [if_neg fun h => h.2 ha, List.find?_cons_of_pos (p := s.isFor a) (decide_eq_true ha)]
      exact ⟨s.pc, rfl, hd⟩
    · rw [if_pos ⟨h0, ha⟩,
        List.find?_cons_of_neg (p := s.isFor a) fun h => ha (of_decide_eq_true h)]
      obtain ⟨hn4, hnlt⟩ := hl.next_ok
      obtain ⟨pc, hget, hdir⟩ := memGet_eq hd sizeofBlockHashEntry false hn4 hnlt
      simp only [hget]
      exact ih (s := { s with pc := pc }) hdir hl (by omega)

theorem getBlockAddr_eq {l : List Nat} {o : CowOut} (hd : Direct s.pc)
    (hc : IsChain s.next (s.hash o (blockHashFunc a)) l) (hlen : l.length ≤ s.allocated.length) :
    ∃ pc, s.getBlockAddr o a =
      ((l.find? (s.isFor a)).map s.blockAddr, { s with pc := pc }) ∧
        Direct pc := by
  unfold getBlockAddr
  by_cases h0 : s.hash o (blockHashFunc a) = 0
  · simp only [h0, if_true]
    cases l with
    | nil => exact ⟨s.pc, rfl, hd⟩
    | cons e l => exact absurd (hc.1.symm.trans h0) hc.2.1
  · obtain ⟨h4, hlt⟩ := hc.next_ok
    obtain ⟨pc, hget, hdir⟩ := memGet_eq hd sizeofBlockHashEntry false h4 hlt
    obtain ⟨pc', hfind, hdir'⟩ : ∃ pc', findLoop a (s.allocated.length + 1)
        (s.hash o (blockHashFunc a)) { s with pc := pc } =
          ((l.find? (s.isFor a)).getD 0, { s with pc := pc' }) ∧ Direct pc' :=
      findLoop_eq (s := { s with pc := pc }) hdir hc (Nat.lt_succ_of_le hlen)
    simp only [if_neg h0, hget, hfind]
    refine ⟨pc', ?_, hdir'⟩
    cases hl : l.find? (s.isFor a) with
    | none => exact if_neg fun h => h.1 rfl
    | some e =>
      have he : s.logAddr e = a := of_decide_eq_true (List.find?_some (p := s.isFor a) hl)
      have h0 : e ≠ 0 := hc.ne_zero (List.mem_of_find?_eq_some hl)
      exact if_pos (And.intro h0 he)

/-! ## The hash tables -/

/-- `chains` are the entries of each bucket, and `blocks` says where the private blocks are. -/
structure Tables (s : CopyOnWrite) (chains : CowOut → Nat → List Nat)
    (blocks : CowOut → Nat → Option Nat) : Prop where
  chain : ∀ o h, IsChain s.next (s.hash o h) (chains o h)
  nodup : ∀ o h, (chains o h).Nodup
  allocated : ∀ o h, ∀ e ∈ chains o h, e ∈ s.allocated
  find : ∀ o a, ((chains o (blockHashFunc a)).find? (s.isFor a)).map s.blockAddr = blocks o a

variable {chains : CowOut → Nat → List Nat} {blocks : CowOut → Nat → Option Nat} {o : CowOut}

/-- The pointer cache and the contents do not matter. -/
theorem Tables.congr (h : s.Tables chains blocks) (pc : PtrCache) (d : Nat → Block) :
    Tables { s with pc := pc, data := d } chains blocks :=
  ⟨h.chain, h.nodup, h.allocated, h.find⟩

theorem Tables.moreMemory (h : s.Tables chains blocks) (p : Nat) :
    Tables { s with allocated := p :: s.allocated } chains blocks :=
  ⟨h.chain, h.nodup, fun o b e he => List.mem_cons_of_mem _ (h.allocated o b e he), h.find⟩

theorem Tables.getBlockAddr (h : s.Tables chains blocks) (hd : Direct s.pc) (o : CowOut) (a : Nat) :
    ∃ pc, s.getBlockAddr o a = (blocks o a, { s with pc := pc }) ∧ Direct pc := by
  have hlen : (chains o (blockHashFunc a)).length ≤ s.allocated.length :=
    ((h.nodup o _).subperm (h.allocated o _)).length_le
  obtain ⟨pc, hget, hdir⟩ := getBlockAddr_eq (a := a) hd (h.chain o _) hlen
  rw [h.find] at hget
  exact ⟨pc, hget, hdir⟩

section SetAt

variable {β : Type} (f : CowOut → Nat → Option β) (b : β) {o' : CowOut} {a' : Nat}

theorem setAt_self : setAt f o a b o a = some b := by
  unfold setAt
  rw [Function.update_self, Function.update_self]

theorem setAt_of_ne (h : ¬ (o' = o ∧ a' = a)) : setAt f o a b o' a' = f o' a' := by
  unfold setAt
  by_cases ho : o' = o
  · subst ho
    rw [Function.update_self, Function.update_of_ne fun ha => h ⟨rfl, ha⟩]
  · rw [Function.update_of_ne ho]

theorem setAt_eq_some {q : β} (h : setAt f o a b o' a' = some q) :
    (o' = o ∧ a' = a ∧ q = b) ∨ f o' a' = some q := by
  by_cases hoa : o' = o ∧ a' = a
  · obtain ⟨rfl, rfl⟩ := hoa
    rw [setAt_self, Option.some.injEq] at h
    exact .inl ⟨rfl, rfl, h.symm⟩
  · rw [setAt_of_ne _ _ hoa] at h
    exact .inr h

end SetAt

/-- The entry at `p` for the block `b`, linked in at the head of its bucket. -/
def linked (s : CopyOnWrite) (o : CowOut) (a b p : Nat) : CopyOnWrite :=
  { s with
    logAddr := Function.update s.logAddr p a
    blockAddr := Function.update s.blockAddr p b
    next := Function.update s.next p (s.hash o (blockHashFunc a))
    hash := Function.update s.hash o (Function.update (s.hash o) (blockHashFunc a) p) }

theorem addBlockAddr_eq (hd : Direct s.pc) {b : Nat} {t : CopyOnWrite}
    (ht : s.addBlockAddr inp o a b p = some t) : s.Fresh inp p ∧ p ≠ 0 ∧
      ∃ pc, t = { s with pc := pc, allocated := p :: s.allocated }.linked o a b p ∧ Direct pc := by
  obtain ⟨x, hx, rfl⟩ := Option.map_eq_some_iff.mp ht
  obtain ⟨hfresh, hp, pc, rfl, hdir⟩ := memAlloc_eq hd hx
  exact ⟨hfresh, hp, pc, rfl, hdir⟩

/-- Entries other than the new one are as before. -/
theorem find_linked {l : List Nat} (hl : p ∉ l) (a' b : Nat) :
    (l.find? ((s.linked o a b p).isFor a')).map (s.linked o a b p).blockAddr =
      (l.find? (s.isFor a')).map s.blockAddr := by
  have hlog : ∀ e ∈ l, (s.linked o a b p).isFor a' e = s.isFor a' e := by
    intro e he
    have hne : e ≠ p := fun h => hl (h ▸ he)
    simp only [isFor, linked, Function.update_of_ne hne]
  have hfind : l.find? ((s.linked o a b p).isFor a') = l.find? (s.isFor a') := by
    induction l with
    | nil => rfl
    | cons e l ih =>
      rw [List.find?_cons, List.find?_cons, hlog e (List.mem_cons_self ..),
        ih (fun h => hl (List.mem_cons_of_mem _ h))
          fun e' he' => hlog e' (List.mem_cons_of_mem _ he')]
  rw [hfind]
  refine Option.map_congr fun e he => ?_
  have hne : e ≠ p := fun h => hl (h ▸ List.mem_of_find?_eq_some he)
  exact Function.update_of_ne hne _ _

theorem Tables.linked (h : s.Tables chains blocks) (hin : p ∈ s.allocated)
    (hnot : ∀ o h, p ∉ chains o h) (h0 : p ≠ 0) (h4 : p % 4 = 0) (hlt : p < addrSpace) (b : Nat) :
    ∃ chains', (s.linked o a b p).Tables chains' (setAt blocks o a b) := by
  have hold : ∀ o' h', IsChain (s.linked o a b p).next (s.hash o' h') (chains o' h') := by
    intro o' h'
    refine (h.chain o' h').congr fun e he => ?_
    have hne : e ≠ p := fun heq => hnot o' h' (heq ▸ he)
    exact Function.update_of_ne hne _ _
  have hbucket : ∀ o' h', (o' = o ∧ h' = blockHashFunc a ∧
      (s.linked o a b p).hash o' h' = p ∧
        Function.update chains o (Function.update (chains o) (blockHashFunc a)
          (p :: chains o (blockHashFunc a))) o' h' = p :: chains o' h') ∨
      (¬ (o' = o ∧ h' = blockHashFunc a) ∧ (s.linked o a b p).hash o' h' = s.hash o' h' ∧
        Function.update chains o (Function.update (chains o) (blockHashFunc a)
          (p :: chains o (blockHashFunc a))) o' h' = chains o' h') := by
    intro o' h'
    unfold CopyOnWrite.linked
    by_cases ho : o' = o
    · subst ho
      by_cases hh : h' = blockHashFunc a
      · subst hh
        exact .inl ⟨rfl, rfl, by simp, by simp⟩
      · exact .inr ⟨fun hc => hh hc.2, by simp [hh], by simp [hh]⟩
    · exact .inr ⟨fun hc => ho hc.1, by simp [ho], by simp [ho]⟩
  refine ⟨Function.update chains o (Function.update (chains o) (blockHashFunc a)
    (p :: chains o (blockHashFunc a))), ?_, ?_, ?_, ?_⟩
  · intro o' h'
    rcases hbucket o' h' with ⟨rfl, rfl, hh, hc⟩ | ⟨-, hh, hc⟩
    · rw [hh, hc]
      refine ⟨rfl, h0, h4, hlt, ?_⟩
      have hnext : (s.linked o' a b p).next p = s.hash o' (blockHashFunc a) :=
        Function.update_self ..
      rw [hnext]
      exact hold _ _
    · rw [hh, hc]
      exact hold _ _
  · intro o' h'
    rcases hbucket o' h' with ⟨-, -, -, hc⟩ | ⟨-, -, hc⟩
    · rw [hc]
      exact List.nodup_cons.mpr ⟨hnot _ _, h.nodup _ _⟩
    · rw [hc]
      exact h.nodup _ _
  · intro o' h' e he
    rcases hbucket o' h' with ⟨-, -, -, hc⟩ | ⟨-, -, hc⟩
    · rw [hc] at he
      rcases List.mem_cons.mp he with rfl | he
      · exact hin
      · exact h.allocated _ _ e he
    · rw [hc] at he
      exact h.allocated _ _ e he
  · intro o' a'
    rcases hbucket o' (blockHashFunc a') with ⟨rfl, -, -, hc⟩ | ⟨hne, -, hc⟩
    · rw [hc]
      by_cases ha : a' = a
      · subst ha
        have hfor : (s.linked o' a' b p).isFor a' p = true :=
          decide_eq_true (Function.update_self ..)
        rw [List.find?_cons_of_pos hfor, setAt_self]
        exact congrArg some (Function.update_self ..)
      · have hfor : ¬ (s.linked o' a b p).isFor a' p = true := by
          intro hf
          have heq : Function.update s.logAddr p a p = a' := of_decide_eq_true hf
          rw [Function.update_self] at heq
          exact ha heq.symm
        rw [List.find?_cons_of_neg hfor, find_linked (hnot _ _), h.find,
          setAt_of_ne _ _ fun h => ha h.2]
    · rw [hc, find_linked (hnot _ _), h.find, setAt_of_ne]
      rintro ⟨rfl, rfl⟩
      exact hne ⟨rfl, rfl⟩

end CopyOnWrite

end Athomux
