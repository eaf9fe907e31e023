import Athomux.Lib.Footprint
import Athomux.Nest.Window

/-!
# Two outputs at one input

`map_split_static` puts its two outputs one behind the other into the address space of `:<in`.
-/

namespace Athomux.MapSplit

/-- `nest_base` and `nest_size` of the outputs. -/
def window (splitAddr : BitVec 64) : Fin 2 → Window
  | 0 => ⟨0, splitAddr⟩
  | 1 => ⟨splitAddr, -splitAddr⟩

/-- Outside the reduced address space. -/
def Refused (w : Window) (a : OutputArgs) : Prop :=
  w.size ≤ a.logAddr ∨ w.size ≤ a.logAddr + a.logLen ∨ a.logAddr + a.logLen < a.logAddr

instance (w : Window) (a : OutputArgs) : Decidable (Refused w a) :=
  inferInstanceAs (Decidable (_ ∨ _ ∨ _))

def shift (w : Window) (a : OutputArgs) : OutputArgs := { a with logAddr := a.logAddr + w.base }

def unshift (w : Window) (a : OutputArgs) : OutputArgs := { a with logAddr := a.logAddr - w.base }

section

variable {m : Type → Type} [Monad m] (w : Window) (nest : Ops m)

/-- `$op`. -/
def op : Ops m := fun o a =>
  if Refused w a then pure a
  else do
    let a ← nest o (shift w a)
    pure (unshift w a)

/-- Has `gadr` or `padr` in its name. -/
def namesAddr : OutputOp → Bool
  | .gadr | .padr | .gadrcreate | .gadrcreateget | .gadrgettranswait | .putpadr | .deletepadr
  | .putdeletepadr | .gadrtranswaitdeletepadr | .gadrcreatetranswaitpadr => true
  | _ => false

/-- What the brick has itself: `$op` is for whatever has neither in its name. -/
def own : Ops m
  | .gadr, a | .padr, a => pure a
  | o, a => op w nest o a

/-- An output, with the defaults for the rest. -/
def out : Ops m
  | .gadrcreate, a => missingGadrcreate (own w nest) a
  | .gadrcreateget, a => missingGadrcreateget (own w nest) a
  | .gadrgettranswait, a => missingGadrgettranswait (own w nest) a
  | .putpadr, a => missingPutpadr (own w nest) a
  | .deletepadr, a => missingDeletepadr (own w nest) a
  | .putdeletepadr, a => missingPutdeletepadr (own w nest) a
  | .gadrtranswaitdeletepadr, a => missingGadrtranswaitdeletepadr (own w nest) a
  | .gadrcreatetranswaitpadr, a => missingGadrcreatetranswaitpadr (own w nest) a
  | o, a => own w nest o a

end

/-- A run serves both outputs. -/
def serve {Val : Type} (splitAddr : BitVec 64) (nest : Ops (StateM (BitVec 64 → Val)))
    (r : Fin 2 × OutputOp × OutputArgs) : StateM (BitVec 64 → Val) OutputArgs :=
  out (window splitAddr r.1) nest r.2.1 r.2.2

/-! ## What the check leaves out -/

/-- The addresses that `$op` forwards as they are. -/
def Confined (w : Window) (o : OutputOp) (a : OutputArgs) : Prop :=
  match o with
  | .lock | .unlock => w.Holds a.tryAddr a.tryLen.toNat
  | .move => w.Room (a.logAddr + a.offset) a.targetLen
  | .instconn | .deinstconn | .disconnect | .getconn | .findconn => w.Holds a.conn1 1
  | .connect => w.Holds a.conn1 1 ∧ w.Holds a.conn2 1
  | _ => True

/-- The condition on a request. -/
def Spares (w : Window) (o : OutputOp) (a : OutputArgs) : Prop := Refused w a ∨ Confined w o a

end Athomux.MapSplit

/-! ## The two outputs do not notice each other -/

open Lib

namespace Athomux.MapSplit

variable {splitAddr : BitVec 64} {i : Fin 2} {w : Window} {o : OutputOp} {a : OutputArgs}

/-! ## The windows -/

theorem window_le (splitAddr : BitVec 64) (i : Fin 2) :
    (window splitAddr i).base.toNat + (window splitAddr i).size.toNat ≤ addrSpace := by
  have hlt := splitAddr.isLt
  have hzero : (0 : BitVec 64).toNat = 0 := rfl
  unfold addrSpace
  match i with
  | 0 =>
    change (0 : BitVec 64).toNat + splitAddr.toNat ≤ 2 ^ 64
    omega
  | 1 =>
    change splitAddr.toNat + (-splitAddr).toNat ≤ 2 ^ 64
    rw [BitVec.toNat_neg]
    omega

theorem window_disjoint (splitAddr : BitVec 64) (i j : Fin 2) (h : i ≠ j) :
    ∀ x ∈ (window splitAddr i).addrs, x ∉ (window splitAddr j).addrs := by
  have key (x : BitVec 64) (h0 : x ∈ (window splitAddr 0).addrs) : x ∉ (window splitAddr 1).addrs := by
    intro h1
    have h0' : x.toNat < (0 : BitVec 64).toNat + splitAddr.toNat := h0.2
    have h1' : splitAddr.toNat ≤ x.toNat := h1.1
    have hzero : (0 : BitVec 64).toNat = 0 := rfl
    omega
  match i, j with
  | 0, 0 | 1, 1 => exact absurd rfl h
  | 0, 1 => exact key
  | 1, 0 => exact fun x h1 h0 => key x h0 h1

/-! ## What the check is good for -/

theorem room_of_accepted (hw : w.base.toNat + w.size.toNat ≤ addrSpace) (h : ¬ Refused w a) :
    w.Room a.logAddr a.logLen.toNat ∧ w.Room a.logAddr 1 := by
  unfold Refused at h
  simp only [not_or, BitVec.le_def, BitVec.lt_def, BitVec.toNat_add] at h
  obtain ⟨h0, h1, h2⟩ := h
  have hlen := a.logLen.isLt
  have haddr := a.logAddr.isLt
  refine ⟨.inr ⟨?_, ?_⟩, .inr ⟨?_, ?_⟩⟩ <;> omega

theorem span_one (x : BitVec 64) : span x 1 = {x} := by
  ext y
  constructor
  · rintro ⟨j, hj, rfl⟩
    obtain rfl : j = 0 := by omega
    simp
  · rintro rfl
    exact ⟨0, by omega, by simp⟩

theorem singleton_subset {x : BitVec 64} : {x} ⊆ w.addrs ↔ w.Holds x 1 := by
  rw [← span_one, Window.span_subset]

theorem touched_subset (hw : w.base.toNat + w.size.toNat ≤ addrSpace) (h : ¬ Refused w a)
    (ho : namesAddr o = false) : touched o (shift w a) ⊆ w.addrs ↔ Confined w o a := by
  obtain ⟨hlog, hfirst⟩ := room_of_accepted hw h
  have hspan : span (a.logAddr + w.base) a.logLen.toNat ⊆ w.addrs :=
    Window.span_subset.mpr (Window.holds_add_base.mpr hlog)
  have hplain {P : Prop} (hP : P) : P ↔ True := iff_of_true hP trivial
  have hlock : span (a.logAddr + w.base) a.logLen.toNat ∪ span a.tryAddr a.tryLen.toNat ⊆ w.addrs ↔
      w.Holds a.tryAddr a.tryLen.toNat := by
    rw [Set.union_subset_iff, Window.span_subset (a := a.tryAddr)]
    exact and_iff_right hspan
  have hmove : span (a.logAddr + w.base) a.logLen.toNat ∪ moveTargets (shift w a) ⊆ w.addrs ↔
      w.Room (a.logAddr + a.offset) a.targetLen := by
    have haddr : (shift w a).logAddr + (shift w a).offset = a.logAddr + a.offset + w.base := by
      unfold shift
      rw [BitVec.add_assoc, BitVec.add_comm w.base, ← BitVec.add_assoc]
    rw [Set.union_subset_iff, moveTargets_eq, haddr]
    exact (and_iff_right hspan).trans (Window.span_subset.trans Window.holds_add_base)
  have hbrick : {a.logAddr + w.base} ⊆ w.addrs :=
    singleton_subset.mpr (Window.holds_add_base.mpr hfirst)
  have hconnect : {a.conn1, a.conn2} ⊆ w.addrs ↔ w.Holds a.conn1 1 ∧ w.Holds a.conn2 1 := by
    rw [Set.insert_eq, Set.union_subset_iff, singleton_subset, singleton_subset]
  cases o with
  | gadr | padr | gadrcreate | gadrcreateget | gadrgettranswait | putpadr | deletepadr
  | putdeletepadr | gadrtranswaitdeletepadr | gadrcreatetranswaitpadr => cases ho
  | outputInit => exact hplain (Set.empty_subset _)
  | lock | unlock => exact hlock
  | move => exact hmove
  | instbrick | deinstbrick => exact hplain hbrick
  | instconn | deinstconn | disconnect | getconn | findconn => exact singleton_subset
  | connect => exact hconnect
  | _ => exact hplain hspan

/-! ## What the outputs are made of -/

section Induct

variable {m : Type → Type} [Monad m] {nest : Ops m} {G : m OutputArgs → Prop}

theorem own_eq_op (ho : namesAddr o = false) : own w nest o a = op w nest o a := by
  cases o <;> first | rfl | cases ho

/-- What holds of each call that is forwarded holds of the whole operation. -/
theorem out_induct (hpure : ∀ a, G (pure a))
    (hbind : ∀ (x : m OutputArgs) (f : OutputArgs → m OutputArgs), G x → (∀ a, G (f a)) →
      G (x >>= f))
    (hcall : ∀ o a, namesAddr o = false → ¬ Refused w a → Confined w o a → G (nest o (shift w a)))
    (h : Spares w o a) : G (out w nest o a) := by
  have hop (o : OutputOp) (a : OutputArgs) (ho : namesAddr o = false) (h : Spares w o a) :
      G (op w nest o a) := by
    unfold op
    split
    · exact hpure a
    · rename_i hacc
      exact hbind _ _ (hcall o a ho hacc (h.resolve_left hacc)) fun a => hpure _
  have hown (o : OutputOp) (a : OutputArgs) (ho : namesAddr o = false) (h : Confined w o a) :
      G (own w nest o a) := by
    rw [own_eq_op ho]
    exact hop o a ho (.inr h)
  have hfail (o : OutputOp) (ho : o = .gadr ∨ o = .padr) (a : OutputArgs) : G (own w nest o a) := by
    rcases ho with rfl | rfl <;> exact hpure a
  have hif (x y : OutputArgs → m OutputArgs) (hx : ∀ a, G (x a)) (hy : ∀ a, G (y a))
      (a : OutputArgs) : G (ifSuccess x y a) := by
    refine hbind _ _ (hx a) fun a => ?_
    split
    · exact hy a
    · exact hpure a
  have htrans (rest : OutputArgs → m OutputArgs) (hrest : ∀ a, G (rest a)) (a : OutputArgs) :
      G (transferAll (own w nest) rest a) := by
    refine hbind _ _ (hown .transwait _ rfl trivial) fun a => ?_
    split
    · exact hpure a
    · exact hrest _
  have hgadr := hfail .gadr (.inl rfl)
  have hpadr := hfail .padr (.inr rfl)
  cases o with
  | gadr | padr => exact hpure a
  | gadrcreate => exact hif _ _ hgadr (fun _ => hown .create _ rfl trivial) _
  | gadrcreateget => exact hif _ _ hgadr (fun _ => hown .createget _ rfl trivial) _
  | gadrgettranswait => exact hif _ _ hgadr (fun _ => hown .gettranswait _ rfl trivial) _
  | putpadr => exact hif _ _ (fun a => hown .put a rfl trivial) (fun _ => hpadr _) _
  | deletepadr => exact hif _ _ (fun a => hown .delete a rfl trivial) (fun _ => hpadr _) _
  | putdeletepadr => exact hif _ _ (fun a => hown .putdelete a rfl trivial) (fun _ => hpadr _) _
  | gadrtranswaitdeletepadr =>
    exact hif _ _ hgadr
      (htrans _ (hif _ _ (fun a => hown .delete a rfl trivial) fun _ => hpadr _)) _
  | gadrcreatetranswaitpadr =>
    exact hif _ _ hgadr
      (fun _ => hif _ _ (fun a => hown .create a rfl trivial) (htrans _ hpadr) _) _
  | _ => exact hop _ a rfl h

end Induct

/-! ## The calls of an operation -/

section Calls

variable {σ : Type} {nest : Ops (StateM σ)} {s : σ}

theorem forwarded_eq (ho : namesAddr o = false) :
    forwarded (out w) nest o a s = if Refused w a then [] else [(o, shift w a)] := by
  have hop : forwarded (op w) nest o a s = if Refused w a then [] else [(o, shift w a)] := by
    unfold forwarded op
    split <;> rfl
  rw [← hop]
  cases o <;> first | rfl | cases ho

theorem spares_iff (hw : w.base.toNat + w.size.toNat ≤ addrSpace) :
    (∀ c ∈ forwarded (out w) nest o a s, touched c.1 c.2 ⊆ w.addrs) ↔ Spares w o a := by
  constructor
  · intro h
    refine or_iff_not_imp_left.mpr fun hacc => ?_
    cases ho : namesAddr o with
    | false =>
      rw [forwarded_eq ho, if_neg hacc] at h
      exact (touched_subset hw hacc ho).mp (h _ (List.mem_singleton_self _))
    | true => cases o <;> trivial
  · intro h
    let G (x : StateM (σ × List Call) OutputArgs) : Prop := ∀ t,
      (∀ c ∈ t.2, touched c.1 c.2 ⊆ w.addrs) → ∀ c ∈ (x t).2.2, touched c.1 c.2 ⊆ w.addrs
    have hG : G (out w (traced nest) o a) := by
      refine out_induct (fun _ _ ht => ht) (fun x f hx hf t ht => hf _ _ (hx t ht)) ?_ h
      intro o a ho hacc hc t ht c hmem
      rcases List.mem_append.mp hmem with hmem | hmem
      · exact ht c hmem
      · rcases List.mem_singleton.mp hmem with rfl
        exact (touched_subset hw hacc ho).mpr hc
    exact hG (s, []) (List.forall_mem_nil _)

end Calls

/-- What an output does stays in its window if what `:<in` does stays where it is told to work. -/
theorem staysIn_serve {Val : Type} {nest : Ops (StateM (BitVec 64 → Val))}
    (hnest : ∀ o a, StaysIn (touched o a) (nest o a)) {r : Fin 2 × OutputOp × OutputArgs}
    (h : Spares (window splitAddr r.1) r.2.1 r.2.2) :
    StaysIn (window splitAddr r.1).addrs (serve splitAddr nest r) :=
  out_induct StaysIn.pure (fun _ _ => StaysIn.bind)
    (fun o _ ho hacc hc =>
      (hnest o _).mono ((touched_subset (window_le _ _) hacc ho).mpr hc)) h

/-- **Isolation.** -/
theorem split_isolation (splitAddr : BitVec 64) (i : Fin 2) :
    (∀ (σ : Type) (nest : Ops (StateM σ)) (o : OutputOp) (a : OutputArgs) (s : σ),
      (∀ c ∈ forwarded (out (window splitAddr i)) nest o a s,
        touched c.1 c.2 ⊆ (window splitAddr i).addrs) ↔ Spares (window splitAddr i) o a) ∧
    ∀ (Val : Type) (nest : Ops (StateM (BitVec 64 → Val))),
      (∀ o a, StaysIn (touched o a) (nest o a)) →
      ∀ rs ts : List (Fin 2 × OutputOp × OutputArgs),
        (∀ r ∈ rs ++ ts, Spares (window splitAddr r.1) r.2.1 r.2.2) →
        rs.filter (fun r => r.1 = i) = ts.filter (fun r => r.1 = i) → ∀ s : BitVec 64 → Val,
          (results (serve splitAddr nest) s rs).filter (fun r => r.1 = i) =
            (results (serve splitAddr nest) s ts).filter fun r => r.1 = i := by
  refine ⟨fun σ nest o a s => spares_iff (window_le _ _), ?_⟩
  intro Val nest hnest rs ts hsp hsame s
  exact results_congr (W := fun i => (window splitAddr i).addrs) (window_disjoint splitAddr) i
    (fun r hr => staysIn_serve hnest (hsp r (List.mem_append_left _ hr)))
    (fun r hr => staysIn_serve hnest (hsp r (List.mem_append_right _ hr))) hsame fun _ _ => rfl

/-- Nothing but the addresses, as a caller puts them. -/
def request (logAddr logLen tryAddr tryLen : BitVec 64) : OutputArgs :=
  ⟨logAddr, logLen, tryAddr, tryLen, 0, 0, 0, false, false, false, .read, .normal, false, false,
    .wait, false, 0, 0⟩

/-- A store that knows `$create`, which clears, and `$get`, which asks whether the first address is
clear. -/
def clearNest : Ops (StateM (BitVec 64 → Bool)) := fun o a s =>
  match o with
  | .create => ({ a with success := true },
      fun x => s x || decide ((x - a.logAddr).toNat < a.logLen.toNat))
  | .get => ({ a with success := a.logLen != 0 && s a.logAddr }, s)
  | _ => (a, s)

theorem clearNest_staysIn (o : OutputOp) (a : OutputArgs) :
    StaysIn (touched o a) (clearNest o a) := by
  cases o with
  | create =>
    refine ⟨fun s x hx => ?_, fun _ _ _ => rfl, fun s t h x hx => ?_⟩
    · have hno : ¬ (x - a.logAddr).toNat < a.logLen.toNat := fun h => hx (mem_span.mpr h)
      change (s x || decide _) = s x
      rw [decide_eq_false hno, Bool.or_false]
    · simp [clearNest, h x hx]
  | get =>
    refine ⟨fun _ _ _ => rfl, fun s t h => ?_, fun _ _ h => h⟩
    by_cases hlen : a.logLen = 0
    · simp [clearNest, hlen]
    · have hpos : 0 < a.logLen.toNat :=
        Nat.pos_of_ne_zero fun h0 => hlen (BitVec.eq_of_toNat_eq h0)
      have hx := h a.logAddr ⟨0, hpos, by simp⟩
      simp [clearNest, hx]
  | _ => exact StaysIn.pure a

theorem split_isolation_clear : ∀ s : BitVec 64 → Bool,
    (results (serve 0x100000 clearNest) s
      [(1, .create, request 0 0x1000 0 0), (0, .get, request 0 0x10 0 0)]).filter (fun r => r.1 = 0) =
    (results (serve 0x100000 clearNest) s [(0, .get, request 0 0x10 0 0)]).filter fun r => r.1 = 0 :=
  (split_isolation 0x100000 0).2 Bool clearNest clearNest_staysIn _ _
    (by
      intro r hr
      rcases List.mem_append.mp hr with hr | hr
      · rcases List.mem_cons.mp hr with rfl | hr
        · exact .inr trivial
        · rcases List.mem_singleton.mp hr with rfl
          exact .inr trivial
      · rcases List.mem_singleton.mp hr with rfl
        exact .inr trivial)
    rfl

/-- A `$lock` of the second output asks for its try range in the first one. -/
theorem split_isolation_fails : ¬ ∀ (splitAddr : BitVec 64) (i : Fin 2) (nest : Ops (StateM Unit))
    (o : OutputOp) (a : OutputArgs), ∀ c ∈ forwarded (out (window splitAddr i)) nest o a (),
      touched c.1 c.2 ⊆ (window splitAddr i).addrs := by
  intro h
  have hc := h 0x100000 1 (fun _ a => pure a) .lock (request 0 0x1000 0 0x1000)
    (.lock, shift (window 0x100000 1) (request 0 0x1000 0 0x1000))
    (by
      rw [forwarded_eq rfl, if_neg (by decide)]
      exact List.mem_singleton_self _)
  have hmem : (0 : BitVec 64) ∈ (window 0x100000 1).addrs := hc (.inr ⟨0, by decide, rfl⟩)
  exact absurd hmem.1 (by decide)

end Athomux.MapSplit
