import Athomux.LockUlinux.Proofs

/-!
# Locks of one address

When every lock is on one address and of one type, the list says which mandate has which address,
and `$unlock` takes back what `$lock` has given.
-/

open Lib

namespace Athomux.LockUlinux

/-- The mandate has the address. -/
def Owns (l : List Lock) (m a : Nat) : Prop := ∃ e ∈ l, e.mandate = m ∧ e.Has a

/-- Entries of one mandate do not overlap. -/
def Apart (e f : Lock) : Prop := e.mandate = f.mandate → e.stop ≤ f.start ∨ f.stop ≤ e.start

/-- Entries of type `t`, none of them empty, and none beside another one of its mandate. -/
structure Cells (t : Fin 9) (l : List Lock) : Prop where
  apart : l.Pairwise Apart
  lt : ∀ e ∈ l, e.start < e.stop
  type : ∀ e ∈ l, e.type = t

variable {t : Fin 9} {l l' : List Lock} {m a : Nat} {e new : Lock}

theorem Cells.nil : Cells t [] where
  apart := List.Pairwise.nil
  lt := fun _ h => absurd h List.not_mem_nil
  type := fun _ h => absurd h List.not_mem_nil

theorem not_owns_nil : ¬ Owns [] m a := fun ⟨_, h, _⟩ => List.not_mem_nil h

theorem owns_cons : Owns (e :: l) m a ↔ (e.mandate = m ∧ e.Has a) ∨ Owns l m a := by
  simp only [Owns, List.mem_cons, exists_eq_or_imp]

/-! ## `$unlock` -/

/-- What an entry becomes when something is taken off. -/
def Part (e f : Lock) : Prop :=
  e.mandate = f.mandate ∧ e.type = f.type ∧ f.start ≤ e.start ∧ e.stop ≤ f.stop ∧ e.start < e.stop

theorem Part.refl (h : e.start < e.stop) : Part e e := ⟨rfl, rfl, le_refl _, le_refl _, h⟩

theorem Part.apart {f g : Lock} (h : Part e f) (ha : Apart f g) : Apart e g := by
  obtain ⟨hm, -, h1, h2, -⟩ := h
  intro heq
  have hor := ha (hm.symm.trans heq)
  omega

theorem Apart.symm {f : Lock} (h : Apart e f) : Apart f e := fun heq => (h heq.symm).symm

/-- The entries are parts of the ones before. -/
theorem part_of_mem_lockSub (l : List Lock) (hlt : ∀ f ∈ l, f.start < f.stop)
    (h : e ∈ lockSub new l) : ∃ f ∈ l, Part e f := by
  fun_induction lockSub new l with
  | case1 => cases h
  | case2 elem rest hover hlow lower hup ih =>
    rcases List.mem_cons.mp h with rfl | h
    · exact ⟨elem, List.mem_cons_self, rfl, rfl, hover.2.2.le, le_refl _, hup⟩
    rcases List.mem_cons.mp h with rfl | h
    · exact ⟨elem, List.mem_cons_self, rfl, rfl, le_refl _, hover.2.1.le, hlow⟩
    · exact List.exists_mem_cons_of_exists (ih (List.forall_mem_of_forall_mem_cons hlt) h)
  | case3 elem rest hover hlow lower hup ih =>
    rcases List.mem_cons.mp h with rfl | h
    · exact ⟨elem, List.mem_cons_self, rfl, rfl, le_refl _, hover.2.1.le, hlow⟩
    · exact List.exists_mem_cons_of_exists (ih (List.forall_mem_of_forall_mem_cons hlt) h)
  | case4 elem hover hlow hgone => cases h
  | case5 elem hover hlow hgone elem' rest ih =>
    have hlt' := List.forall_mem_of_forall_mem_cons hlt
    rcases List.mem_cons.mp h with rfl | h
    · exact ⟨_, List.mem_cons_of_mem _ List.mem_cons_self, .refl (hlt' _ List.mem_cons_self)⟩
    · exact List.exists_mem_cons_of_exists
        (List.exists_mem_cons_of_exists (ih (List.forall_mem_of_forall_mem_cons hlt') h))
  | case6 elem rest hover hlow hgone ih =>
    rcases List.mem_cons.mp h with rfl | h
    · exact ⟨elem, List.mem_cons_self, rfl, rfl, hover.2.2.le, le_refl _, Nat.lt_of_not_le hgone⟩
    · exact List.exists_mem_cons_of_exists (ih (List.forall_mem_of_forall_mem_cons hlt) h)
  | case7 elem rest hover ih =>
    rcases List.mem_cons.mp h with rfl | h
    · exact ⟨_, List.mem_cons_self, .refl (hlt _ List.mem_cons_self)⟩
    · exact List.exists_mem_cons_of_exists (ih (List.forall_mem_of_forall_mem_cons hlt) h)

/-- Parts of entries that are apart are apart. -/
theorem apart_lockSub (l : List Lock) (hnew : new.start ≤ new.stop) (h : l.Pairwise Apart)
    (hlt : ∀ f ∈ l, f.start < f.stop) : (lockSub new l).Pairwise Apart := by
  have hrest : ∀ {elem e : Lock} {rest : List Lock}, (∀ f ∈ rest, Apart elem f) → Part e elem →
      (∀ f ∈ rest, f.start < f.stop) → ∀ f ∈ lockSub new rest, Apart e f := by
    intro elem e rest hap hpart hlt f hf
    obtain ⟨g, hg, hpart'⟩ := part_of_mem_lockSub rest hlt hf
    exact (hpart'.apart (hpart.apart (hap g hg)).symm).symm
  fun_induction lockSub new l with
  | case1 => exact List.Pairwise.nil
  | case2 elem rest hover hlow lower hup ih =>
    obtain ⟨hap, h⟩ := List.pairwise_cons.mp h
    have hlt' := List.forall_mem_of_forall_mem_cons hlt
    have hlower : Part lower elem := ⟨rfl, rfl, le_refl _, hover.2.1.le, hlow⟩
    have hupper : Part { elem with start := new.stop } elem :=
      ⟨rfl, rfl, hover.2.2.le, le_refl _, hup⟩
    refine List.pairwise_cons.mpr ⟨fun f hf => ?_, List.pairwise_cons.mpr
      ⟨hrest hap hlower hlt', ih h hlt'⟩⟩
    rcases List.mem_cons.mp hf with rfl | hf
    · exact fun _ => .inr hnew
    · exact hrest hap hupper hlt' f hf
  | case3 elem rest hover hlow lower hup ih =>
    obtain ⟨hap, h⟩ := List.pairwise_cons.mp h
    have hlt' := List.forall_mem_of_forall_mem_cons hlt
    exact List.pairwise_cons.mpr
      ⟨hrest hap ⟨rfl, rfl, le_refl _, hover.2.1.le, hlow⟩ hlt', ih h hlt'⟩
  | case4 elem hover hlow hgone => exact List.Pairwise.nil
  | case5 elem hover hlow hgone elem' rest ih =>
    obtain ⟨-, h⟩ := List.pairwise_cons.mp h
    obtain ⟨hap, h⟩ := List.pairwise_cons.mp h
    have hlt' := List.forall_mem_of_forall_mem_cons (List.forall_mem_of_forall_mem_cons hlt)
    exact List.pairwise_cons.mpr ⟨hrest hap (.refl (hlt _ (by simp))) hlt', ih h hlt'⟩
  | case6 elem rest hover hlow hgone ih =>
    obtain ⟨hap, h⟩ := List.pairwise_cons.mp h
    have hlt' := List.forall_mem_of_forall_mem_cons hlt
    exact List.pairwise_cons.mpr
      ⟨hrest hap ⟨rfl, rfl, hover.2.2.le, le_refl _, Nat.lt_of_not_le hgone⟩ hlt', ih h hlt'⟩
  | case7 elem rest hover ih =>
    obtain ⟨hap, h⟩ := List.pairwise_cons.mp h
    have hlt' := List.forall_mem_of_forall_mem_cons hlt
    exact List.pairwise_cons.mpr ⟨hrest hap (.refl (hlt _ List.mem_cons_self)) hlt', ih h hlt'⟩

/-- The rest keeps its owners. -/
theorem owns_lockSub_of_ne (l : List Lock) (h : Owns l m a) (hne : m ≠ new.mandate ∨ ¬ new.Has a) :
    Owns (lockSub new l) m a := by
  fun_induction lockSub new l with
  | case1 => exact h
  | case2 elem rest hover hlow lower hup ih =>
    rw [owns_cons, owns_cons]
    rcases owns_cons.mp h with ⟨rfl, hhas⟩ | h
    · rcases hne with hne | hout
      · exact absurd hover.1 hne
      · by_cases hlt : a < new.start
        · exact .inr (.inl ⟨rfl, hhas.1, hlt⟩)
        · refine .inl ⟨rfl, Nat.le_of_not_lt fun hlt' => ?_, hhas.2⟩
          exact hout ⟨Nat.le_of_not_lt hlt, hlt'⟩
    · exact .inr (.inr (ih h))
  | case3 elem rest hover hlow lower hup ih =>
    rw [owns_cons]
    rcases owns_cons.mp h with ⟨rfl, hhas⟩ | h
    · rcases hne with hne | hout
      · exact absurd hover.1 hne
      · refine .inl ⟨rfl, hhas.1, Nat.lt_of_not_le fun hle => ?_⟩
        exact hout ⟨hle, hhas.2.trans_le (Nat.le_of_not_lt hup)⟩
    · exact .inr (ih h)
  | case4 elem hover hlow hgone =>
    obtain ⟨rfl, hhas⟩ | h := owns_cons.mp h
    · rcases hne with hne | hout
      · exact absurd hover.1 hne
      · exact absurd ⟨(Nat.le_of_not_lt hlow).trans hhas.1, hhas.2.trans_le hgone⟩ hout
    · exact h
  | case5 elem hover hlow hgone elem' rest ih =>
    rw [owns_cons]
    obtain ⟨rfl, hhas⟩ | h := owns_cons.mp h
    · rcases hne with hne | hout
      · exact absurd hover.1 hne
      · exact absurd ⟨(Nat.le_of_not_lt hlow).trans hhas.1, hhas.2.trans_le hgone⟩ hout
    · exact (owns_cons.mp h).imp_right ih
  | case6 elem rest hover hlow hgone ih =>
    rw [owns_cons]
    rcases owns_cons.mp h with ⟨rfl, hhas⟩ | h
    · rcases hne with hne | hout
      · exact absurd hover.1 hne
      · refine .inl ⟨rfl, Nat.le_of_not_lt fun hlt => ?_, hhas.2⟩
        exact hout ⟨(Nat.le_of_not_lt hlow).trans hhas.1, hlt⟩
    · exact .inr (ih h)
  | case7 elem rest hover ih =>
    rw [owns_cons]
    exact (owns_cons.mp h).imp_right ih

/-- A single address is given back, also when the loop passes over an entry. -/
theorem not_owns_lockSub (l : List Lock) (hcell : new.stop = new.start + 1)
    (h : l.Pairwise Apart) : ¬ Owns (lockSub new l) new.mandate new.start := by
  fun_induction lockSub new l with
  | case1 => exact not_owns_nil
  | case2 elem rest hover hlow lower hup ih =>
    rw [owns_cons, owns_cons]
    rintro (⟨-, hhas⟩ | ⟨-, hhas⟩ | hrest)
    · have hle := hhas.1
      dsimp only at hle
      omega
    · exact absurd hhas.2 (Nat.lt_irrefl _)
    · exact ih (List.pairwise_cons.mp h).2 hrest
  | case3 elem rest hover hlow lower hup ih =>
    rw [owns_cons]
    rintro (⟨-, hhas⟩ | hrest)
    · exact absurd hhas.2 (Nat.lt_irrefl _)
    · exact ih (List.pairwise_cons.mp h).2 hrest
  | case4 elem hover hlow hgone => exact not_owns_nil
  | case5 elem hover hlow hgone elem' rest ih =>
    obtain ⟨hap, h⟩ := List.pairwise_cons.mp h
    rw [owns_cons]
    rintro (⟨hm, hhas⟩ | hrest)
    · have hor := hap elem' List.mem_cons_self (hover.1.trans hm.symm)
      obtain ⟨h1, h2⟩ := hhas
      omega
    · exact ih (List.pairwise_cons.mp h).2 hrest
  | case6 elem rest hover hlow hgone ih =>
    rw [owns_cons]
    rintro (⟨-, hhas⟩ | hrest)
    · have hle := hhas.1
      dsimp only at hle
      omega
    · exact ih (List.pairwise_cons.mp h).2 hrest
  | case7 elem rest hover ih =>
    rw [owns_cons]
    rintro (⟨hm, hhas⟩ | hrest)
    · obtain ⟨h1, h2⟩ := hhas
      exact hover ⟨hm, by omega, by omega⟩
    · exact ih (List.pairwise_cons.mp h).2 hrest

/-- `$unlock` of one address takes it from its mandate, and nothing else. -/
theorem Cells.unlock (h : Cells t l) (ha : a + 1 < addrSpace) : Cells t (unlock l m a 1) ∧
    ∀ m' a', Owns (unlock l m a 1) m' a' ↔ Owns l m' a' ∧ ¬ (m' = m ∧ a' = a) := by
  unfold LockUlinux.unlock
  rw [add64_eq ha]
  refine ⟨⟨apart_lockSub l (Nat.le_succ a) h.apart h.lt, fun e he => ?_, fun e he => ?_⟩,
    fun m' a' => ⟨fun hown => ⟨?_, ?_⟩, fun hown => ?_⟩⟩
  · obtain ⟨f, -, hpart⟩ := part_of_mem_lockSub l h.lt he
    exact hpart.2.2.2.2
  · obtain ⟨f, hf, hpart⟩ := part_of_mem_lockSub l h.lt he
    exact hpart.2.1.trans (h.type f hf)
  · obtain ⟨e, he, hm, hhas⟩ := hown
    obtain ⟨f, hf, hm', -, h1, h2, -⟩ := part_of_mem_lockSub l h.lt he
    exact ⟨f, hf, hm'.symm.trans hm, h1.trans hhas.1, hhas.2.trans_le h2⟩
  · rintro ⟨rfl, rfl⟩
    exact not_owns_lockSub l rfl h.apart hown
  · refine owns_lockSub_of_ne l hown.1 ?_
    by_cases hm : m' = m
    · refine .inr fun hhas => hown.2 ⟨hm, ?_⟩
      obtain ⟨h1, h2⟩ := hhas
      dsimp only at h1 h2
      omega
    · exact .inl hm

/-! ## `$lock` -/

theorem owns_iff_holds (h : Cells t l) : Owns l m a ↔ holds l a m t := by
  constructor
  · rintro ⟨e, he, hm, hhas⟩
    exact ⟨e, he, hhas, hm, h.type e he⟩
  · rintro ⟨e, he, hhas, hm, -⟩
    exact ⟨e, he, hm, hhas⟩

theorem mem_modify {f : Lock → Lock} {i : Nat} {g : Lock} (hi : l[i]? = some e)
    (h : g ∈ l.modify i f) : g ∈ l ∨ g = f e := by
  obtain ⟨j, hj⟩ := List.mem_iff_getElem?.mp h
  by_cases hij : i = j
  · rw [← hij, List.getElem?_modify_eq, hi] at hj
    exact .inr (Option.some.inj hj).symm
  · rw [List.getElem?_modify_ne f l hij] at hj
    exact .inl (List.mem_of_getElem? hj)

theorem pairwise_modify {R : Lock → Lock → Prop} {f : Lock → Lock} {i : Nat}
    (h : l.Pairwise R) (hi : l[i]? = some e) (hR : ∀ g ∈ l, (R e g → R (f e) g) ∧
      (R g e → R g (f e))) : (l.modify i f).Pairwise R := by
  induction l generalizing i with
  | nil => cases hi
  | cons g l ih =>
    obtain ⟨hhead, h⟩ := List.pairwise_cons.mp h
    cases i with
    | zero =>
      obtain rfl : g = e := by simpa using hi
      rw [List.modify_zero_cons]
      exact List.pairwise_cons.mpr
        ⟨fun g' hg' => (hR g' (List.mem_cons_of_mem _ hg')).1 (hhead g' hg'), h⟩
    | succ i =>
      rw [List.getElem?_cons_succ] at hi
      rw [List.modify_succ_cons]
      refine List.pairwise_cons.mpr ⟨fun g' hg' => ?_,
        ih h hi fun g' hg' => hR g' (List.mem_cons_of_mem _ hg')⟩
      rcases mem_modify hi hg' with hg' | rfl
      · exact hhead g' hg'
      · exact (hR g List.mem_cons_self).2 (hhead e (List.mem_of_getElem? hi))

/-- A lock of an address that the mandate does not have yet, beside the entries it has. -/
theorem Cells.add (h : Cells t l) (hcell : new.stop = new.start + 1) (htype : new.type = t)
    (hfree : ¬ Owns l new.mandate new.start) (hlock : lockAdd l new true = .ok l') :
    Cells t l' := by
  have hout : ∀ g ∈ l, g.mandate = new.mandate → g.stop ≤ new.start ∨ new.start < g.start := by
    intro g hg hm
    by_contra hcon
    exact hfree ⟨g, hg, hm, by unfold Lock.Has; omega⟩
  unfold lockAdd at hlock
  cases hscan : scan new 0 none l with
  | error e =>
    rw [hscan] at hlock
    cases hlock
  | ok modify =>
    rw [hscan] at hlock
    obtain ⟨-, rfl | ⟨i, e, rfl, hi, hm, ht, h1, h2⟩⟩ := scan_spec hscan
    · cases hlock
      refine ⟨List.pairwise_cons.mpr ⟨fun g hg hm => ?_, h.apart⟩, fun g hg => ?_, fun g hg => ?_⟩
      · have hor := hout g hg hm.symm
        omega
      · rcases List.mem_cons.mp hg with rfl | hg
        · omega
        · exact h.lt g hg
      · rcases List.mem_cons.mp hg with rfl | hg
        · exact htype
        · exact h.type g hg
    · cases hlock
      rw [Nat.zero_add]
      have he := List.mem_of_getElem? hi
      have helt := h.lt e he
      have hstretch : (stretch new e).start = min e.start new.start ∧
          (stretch new e).stop = max e.stop new.stop ∧ (stretch new e).mandate = e.mandate ∧
            (stretch new e).type = e.type := by
        unfold stretch
        dsimp only
        refine ⟨?_, ?_, rfl, rfl⟩
        · split <;> omega
        · split <;> omega
      obtain ⟨hstart, hstop, hmand, htyp⟩ := hstretch
      have hkeep : ∀ g ∈ l, g.mandate = e.mandate → (e.stop ≤ g.start ∨ g.stop ≤ e.start) →
          (stretch new e).stop ≤ g.start ∨ g.stop ≤ (stretch new e).start := by
        intro g hg hgm hor
        have hor' := hout g hg (hgm.trans hm)
        have hglt := h.lt g hg
        omega
      refine ⟨pairwise_modify h.apart hi fun g hg => ⟨fun hap heq => ?_, fun hap heq => ?_⟩,
        fun g hg => ?_, fun g hg => ?_⟩
      · exact hkeep g hg (heq.symm.trans hmand) (hap (hmand.symm.trans heq))
      · exact (hkeep g hg (heq.trans hmand) (hap (heq.trans hmand)).symm).symm
      · rcases mem_modify hi hg with hg | rfl
        · exact h.lt g hg
        · omega
      · rcases mem_modify hi hg with hg | rfl
        · exact h.type g hg
        · exact htyp.trans (h.type e he)

/-- `$lock` of one address gives it to its mandate when nobody else has it. -/
theorem Cells.lock (h : Cells t l) (ht : conflicts t t = true) (hcell : new.stop = new.start + 1)
    (htype : new.type = t) (hfree : ¬ Owns l new.mandate new.start)
    (hlock : lockAdd l new true = .ok l') : Cells t l' ∧ (∀ m, ¬ Owns l m new.start) ∧
      ∀ m a, Owns l' m a ↔ Owns l m a ∨ (m = new.mandate ∧ a = new.start) := by
  have h' := h.add hcell htype hfree hlock
  obtain ⟨hno, hspec⟩ := lockAdd_spec hlock
  have hhas : ∀ a, new.Has a ↔ a = new.start := fun a => by unfold Lock.Has; omega
  refine ⟨h', fun m hown => ?_, fun m a => ?_⟩
  · by_cases hm : m = new.mandate
    · exact hfree (hm ▸ hown)
    · have hfalse := free_of_not_inWay hno ((hhas _).mpr rfl) hm ((owns_iff_holds h).mp hown)
      rw [htype, ht] at hfalse
      cases hfalse
  · rw [owns_iff_holds h', hspec, owns_iff_holds h, Holdings.add, hhas, htype]
    tauto

end Athomux.LockUlinux
