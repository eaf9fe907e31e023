import Athomux.LockUlinux.Cells
import Athomux.Multiplex.Spec

/-!
# Delivery

The user in the module lock has the packet that is kept, or the region of a writer. The users wait
for each other with a lock of one address each.
-/

open Lib

namespace Athomux.Multiplex

variable {α : Type} {y t : System α} {c d : Channel} {pc : Channel → Pc}

/-! ## What should hold -/

/-- The packet that a reader has got for the one or the other channel. -/
def System.kept (y : System α) : List (Packet α) :=
  if y.m.packetAvail then y.istrm.given.filter fun p => p.addr = y.m.packetStart else []

/-- What is still to be delivered on a channel. -/
def System.pending (y : System α) (c : Channel) : List α :=
  ((y.kept ++ y.istrm.avail).filter fun p => p.header.channel = c.number).map (·.payload)

/-- Every channel delivers what is sent on it, in order, and an operation that has failed does not
keep the module lock. -/
structure Delivers (y : System α) : Prop where
  packets : ∀ c, y.delivered c ++ y.pending c = y.sent c
  unlocked : ∀ c, y.pc c = .failed → ¬ LockUlinux.Owns y.anchor c.lockMand lockAddrMod

/-- A request for a packet that is kept is not longer than `2 ^ 64` with the header. -/
def FetchOk (m : Mplex) : Pc → Prop
  | .fetch a => m.packetAvail = true → 1 < add64 a.logLen headerSize
  | _ => True

/-- A writer does not put while a packet is kept. -/
def PadrOk (m : Mplex) : Pc → Prop
  | .busy a _ _ => a.reader = false → m.packetAvail = false
  | _ => True

/-- The steps that keep it: those where the stream does not fail, and a packet that is kept stays. -/
def Keeps (y : System α) : Event α → Prop
  | .go c ans => ans.ok = true ∧ FetchOk y.m (y.pc c)
  | .padr c _ ok => ok = true ∧ PadrOk y.m (y.pc c)
  | _ => True

/-! ## The locks -/

/-- The user has the module lock. -/
def Pc.inside : Pc → Bool
  | .fetch _ | .header _ _ _ | .refuse _ | .arm _ | .release _ | .reserve _ | .label _ _ _
  | .busy _ _ _ | .consumed => true
  | .idle | .failed | .enter _ | .block _ | .cleanup _ | .relock _ | .wake => false

/-- The user waits for the other one, or is about to. -/
def Pc.armed : Pc → Bool
  | .release _ | .block _ => true
  | _ => false

/-- The user has been woken. -/
def Pc.woken : Pc → Bool
  | .cleanup _ => true
  | _ => false

def lockType : Fin 9 := LockUlinux.makeType .write .read

/-- The locks that a user has. -/
structure LocksOf (anchor : List LockUlinux.Lock) (c : Channel) (p : Pc) : Prop where
  mod : LockUlinux.Owns anchor c.lockMand lockAddrMod ↔ p.inside = true
  armed : LockUlinux.Owns anchor lockMandWait1 c.lockAddrWait → p.armed = true
  woken : LockUlinux.Owns anchor lockMandWait2 c.lockAddrWait → p.woken = true

/-- What the entries of `:<ilock` are. -/
structure Locks (anchor : List LockUlinux.Lock) (pc : Channel → Pc) : Prop where
  cells : LockUlinux.Cells lockType anchor
  locks : ∀ c, LocksOf anchor c (pc c)
  alone : ∀ c, (pc c).inside = true → (pc c.other).inside = false

variable {anchor l : List LockUlinux.Lock} {p : Pc} {m a : Nat}

@[simp] theorem Channel.other_other : c.other.other = c := by cases c <;> rfl

theorem Channel.eq_or_other (c d : Channel) : d = c ∨ d = c.other := by
  cases c <;> cases d <;> simp [Channel.other]

theorem Channel.other_ne (c : Channel) : c.other ≠ c := by cases c <;> decide

theorem Channel.lockMand_inj (h : c.lockMand = d.lockMand) : c = d := by
  revert h
  cases c <;> cases d <;> decide

theorem Channel.lockAddrWait_inj (h : c.lockAddrWait = d.lockAddrWait) : c = d := by
  revert h
  cases c <;> cases d <;> decide

theorem Channel.lockAddrWait_ne (c : Channel) : c.lockAddrWait ≠ lockAddrMod := by
  cases c <;> decide

theorem Channel.lockAddrWait_lt (c : Channel) : c.lockAddrWait + 1 < addrSpace := by
  cases c <;> decide

/-- `$lock` of an address that the mandate does not have. -/
theorem lock_spec (h : LockUlinux.Cells lockType anchor) (ha : a + 1 < addrSpace)
    (hfree : ¬ LockUlinux.Owns anchor m a) (hl : lock anchor m a = some l) :
    LockUlinux.Cells lockType l ∧ (∀ m', ¬ LockUlinux.Owns anchor m' a) ∧
      ∀ m' a', LockUlinux.Owns l m' a' ↔ LockUlinux.Owns anchor m' a' ∨ (m' = m ∧ a' = a) := by
  unfold lock LockUlinux.lock LockUlinux.tryLock at hl
  rw [if_neg (show ¬ 1 = 0 by decide)] at hl
  split at hl
  · rename_i l' _ _ hgranted
    obtain rfl := Option.some.inj hl
    split at hgranted
    · split at hgranted <;> cases hgranted
    · rename_i hadd
      cases hgranted
      exact h.lock (by decide) (add64_eq ha) rfl hfree hadd
  · cases hl
  · cases hl

theorem unlock_spec (h : LockUlinux.Cells lockType anchor) (ha : a + 1 < addrSpace) :
    LockUlinux.Cells lockType (unlock anchor m a) ∧
      ∀ m' a', LockUlinux.Owns (unlock anchor m a) m' a' ↔
        LockUlinux.Owns anchor m' a' ∧ ¬ (m' = m ∧ a' = a) :=
  h.unlock ha

/-- What holds of the one that moves and of the other one holds of both. -/
theorem forall_update {P : Channel → Pc → Prop} (hc : P c p) (hother : P c.other (pc c.other))
    (d : Channel) : P d (Function.update pc c p d) := by
  rcases c.eq_or_other d with rfl | rfl
  · rw [Function.update_self]
    exact hc
  · rw [Function.update_of_ne c.other_ne]
    exact hother

/-- One of the two is outside. -/
theorem alone_update (h : p.inside = true → (pc c.other).inside = false) (d : Channel) :
    (Function.update pc c p d).inside = true → (Function.update pc c p d.other).inside = false := by
  rcases c.eq_or_other d with rfl | rfl
  · rw [Function.update_self, Function.update_of_ne d.other_ne]
    exact h
  · rw [Channel.other_other, Function.update_self, Function.update_of_ne c.other_ne]
    intro hd
    rw [Bool.eq_false_iff]
    intro hp
    rw [h hp] at hd
    cases hd

/-- A step without locks. -/
theorem Locks.goto (h : Locks anchor pc) (hin : p.inside = (pc c).inside)
    (ha : (pc c).armed = true → p.armed = true) (hw : (pc c).woken = true → p.woken = true) :
    Locks anchor (Function.update pc c p) where
  cells := h.cells
  locks := forall_update ⟨by rw [hin]; exact (h.locks c).mod, fun hown => ha ((h.locks c).armed hown),
    fun hown => hw ((h.locks c).woken hown)⟩ (h.locks _)
  alone := alone_update fun hp => h.alone c (hin ▸ hp)

theorem lockAddrMod_lt : lockAddrMod + 1 < addrSpace := by decide

/-- Other addresses do not change for the locks of a user. -/
theorem LocksOf.congr (h : LocksOf anchor c p)
    (hmod : LockUlinux.Owns l c.lockMand lockAddrMod ↔ LockUlinux.Owns anchor c.lockMand lockAddrMod)
    (hwait : ∀ m, LockUlinux.Owns l m c.lockAddrWait → LockUlinux.Owns anchor m c.lockAddrWait) :
    LocksOf l c p :=
  ⟨hmod.trans h.mod, fun hown => h.armed (hwait _ hown), fun hown => h.woken (hwait _ hown)⟩

/-- The user gets the module lock. -/
theorem Locks.enter (h : Locks anchor pc) (hout : (pc c).inside = false)
    (hl : lock anchor c.lockMand lockAddrMod = some l) (hin : p.inside = true)
    (ha : (pc c).armed = false) (hw : (pc c).woken = false) :
    Locks l (Function.update pc c p) := by
  have hfree : ¬ LockUlinux.Owns anchor c.lockMand lockAddrMod := by
    rw [(h.locks c).mod, hout]
    exact Bool.false_ne_true
  obtain ⟨hcells, hnone, howns⟩ := lock_spec h.cells lockAddrMod_lt hfree hl
  have hwait : ∀ m d, LockUlinux.Owns l m (Channel.lockAddrWait d) →
      LockUlinux.Owns anchor m (Channel.lockAddrWait d) := by
    intro m d hown
    rcases (howns _ _).mp hown with hown | heq
    · exact hown
    · exact absurd heq.2 d.lockAddrWait_ne
  refine ⟨hcells, forall_update ⟨?_, fun hown => ?_, fun hown => ?_⟩
    ((h.locks _).congr ?_ fun m => hwait m _), alone_update fun _ => ?_⟩
  · rw [howns]
    exact iff_of_true (.inr ⟨rfl, rfl⟩) hin
  · rw [(h.locks c).armed (hwait _ _ hown)] at ha
    cases ha
  · rw [(h.locks c).woken (hwait _ _ hown)] at hw
    cases hw
  · rw [howns]
    exact or_iff_left fun heq => c.other_ne (Channel.lockMand_inj heq.1)
  · rw [Bool.eq_false_iff]
    exact fun hin => hnone _ ((h.locks _).mod.mpr hin)

/-- The user gives the module lock back. -/
theorem Locks.leave (h : Locks anchor pc) (hin : p.inside = false)
    (ha : (pc c).armed = true → p.armed = true) (hw : (pc c).woken = true → p.woken = true) :
    Locks (unlock anchor c.lockMand lockAddrMod) (Function.update pc c p) := by
  obtain ⟨hcells, howns⟩ := unlock_spec (m := c.lockMand) h.cells lockAddrMod_lt
  refine ⟨hcells, forall_update ⟨?_, fun hown => ?_, fun hown => ?_⟩
    ((h.locks _).congr ?_ fun m hown => ((howns _ _).mp hown).1), alone_update fun hp => ?_⟩
  · rw [howns, hin]
    exact iff_of_false (fun hown => hown.2 ⟨rfl, rfl⟩) Bool.false_ne_true
  · exact ha ((h.locks c).armed ((howns _ _).mp hown).1)
  · exact hw ((h.locks c).woken ((howns _ _).mp hown).1)
  · rw [howns]
    exact and_iff_left fun heq => c.other_ne (Channel.lockMand_inj heq.1)
  · rw [hin] at hp
    cases hp

/-- The user gets a lock of its own address. -/
theorem Locks.wait (h : Locks anchor pc) (hin : p.inside = (pc c).inside)
    (hfree : ¬ LockUlinux.Owns anchor m c.lockAddrWait)
    (hl : lock anchor m c.lockAddrWait = some l)
    (hp : m = lockMandWait1 ∧ p.armed = true ∨ m = lockMandWait2 ∧ p.woken = true) :
    Locks l (Function.update pc c p) := by
  obtain ⟨hcells, hnone, howns⟩ := lock_spec h.cells c.lockAddrWait_lt hfree hl
  have hmod : ∀ d, LockUlinux.Owns l (Channel.lockMand d) lockAddrMod ↔
      LockUlinux.Owns anchor (Channel.lockMand d) lockAddrMod := by
    intro d
    rw [howns]
    exact or_iff_left fun heq => c.lockAddrWait_ne heq.2.symm
  have hself : ∀ m', LockUlinux.Owns l m' c.lockAddrWait → m' = m := by
    intro m' hown
    rcases (howns _ _).mp hown with hown | heq
    · exact absurd hown (hnone m')
    · exact heq.1
  refine ⟨hcells, forall_update ⟨?_, fun hown => ?_, fun hown => ?_⟩
    ((h.locks _).congr (hmod _) fun m' hown => ?_), alone_update fun hp => h.alone c (hin ▸ hp)⟩
  · rw [hmod, hin]
    exact (h.locks c).mod
  · rcases hp with hp | hp
    · exact hp.2
    · exact absurd ((hself _ hown).trans hp.1) (by decide)
  · rcases hp with hp | hp
    · exact absurd ((hself _ hown).trans hp.1) (by decide)
    · exact hp.2
  · rcases (howns _ _).mp hown with hown | heq
    · exact hown
    · exact absurd (Channel.lockAddrWait_inj heq.2) c.other_ne

/-- A lock for waiting is given back. -/
theorem Locks.unlock_wait (h : Locks anchor pc) (hin : p.inside = (pc c).inside)
    (ha : LockUlinux.Owns (unlock anchor m d.lockAddrWait) lockMandWait1 c.lockAddrWait →
      p.armed = true)
    (hw : LockUlinux.Owns (unlock anchor m d.lockAddrWait) lockMandWait2 c.lockAddrWait →
      p.woken = true) :
    Locks (unlock anchor m d.lockAddrWait) (Function.update pc c p) := by
  obtain ⟨hcells, howns⟩ := unlock_spec (m := m) h.cells d.lockAddrWait_lt
  have hmod : ∀ c, LockUlinux.Owns (unlock anchor m d.lockAddrWait) (Channel.lockMand c)
      lockAddrMod ↔ LockUlinux.Owns anchor (Channel.lockMand c) lockAddrMod := by
    intro c
    rw [howns]
    exact and_iff_left fun heq => d.lockAddrWait_ne heq.2.symm
  refine ⟨hcells, forall_update ⟨?_, ha, hw⟩ ((h.locks _).congr (hmod _)
    fun m' hown => ((howns _ _).mp hown).1), alone_update fun hp => h.alone c (hin ▸ hp)⟩
  rw [hmod, hin]
  exact (h.locks c).mod

/-! ## The packets -/

/-- What the user of a channel knows about the stream. -/
def Place (m : Mplex) (s : Istrm α) (c : Channel) : Pc → Prop
  | .fetch a => a.reader = true
  | .header a addr _ => a.reader = true ∧ m.packetAvail = true ∧ addr = m.packetStart
  | .refuse a => a.reader = true
  | .arm a => a.reader = true
  | .release a => a.reader = true
  | .block a => a.reader = true
  | .cleanup a => a.reader = true
  | .relock a => a.reader = true
  | .reserve a => a.reader = false
  | .label a addr _ => a.reader = false ∧ addr < addrSpace ∧
      ∃ r, s.reserved = [r] ∧ r.addr = addr ∧ r.mandate = a.mandate
  | .busy a logAddr _ =>
    if a.reader = true then m.packetAvail = true ∧ sub64 logAddr headerSize = m.packetStart ∧
      ∀ p ∈ s.given, p.header.channel = c.number
    else ∃ r, s.reserved = [r] ∧ r.addr = sub64 logAddr headerSize ∧ r.mandate = a.mandate ∧
      r.header = ⟨smplexIdentification, c.number⟩
  | .idle | .failed | .enter _ | .consumed | .wake => True

/-- The user is a writer with a region. -/
def Pc.writing : Pc → Bool
  | .label _ _ _ => true
  | .busy a _ _ => !a.reader
  | _ => false

/-- The packet of the stream that readers have got is the one that is kept. -/
def Kept (m : Mplex) (s : Istrm α) : Prop :=
  m.packetAvail = false ∧ s.given = [] ∨ m.packetAvail = true ∧
    ∃ p, s.given = [p] ∧ p.addr = m.packetStart ∧ p.mandate = m.packetMand

/-- A packet from a `strm_multiplex`. -/
def Valid (p : Packet α) : Prop :=
  p.addr < addrSpace ∧ p.header.identification = smplexIdentification ∧
    ∃ c : Channel, p.header.channel = c.number

structure Data (y : System α) : Prop where
  kept : Kept y.m y.istrm
  place : ∀ c, Place y.m y.istrm c (y.pc c)
  reserved : (∀ c, (y.pc c).writing = false) → y.istrm.reserved = []
  valid : ∀ p ∈ y.istrm.avail ++ y.istrm.given, Valid p
  packets : ∀ c, y.delivered c ++ y.pending c = y.sent c

structure Inv (y : System α) : Prop where
  locks : Locks y.anchor y.pc
  data : Data y

theorem Inv.delivers (h : Inv y) : Delivers y where
  packets := h.data.packets
  unlocked := by
    intro c hfailed
    rw [(h.locks.locks c).mod, hfailed]
    exact Bool.false_ne_true

/-- Who is outside knows nothing. -/
theorem Place.outside {m m' : Mplex} {s s' : Istrm α} (hout : p.inside = false)
    (h : Place m s c p) : Place m' s' c p := by
  cases p with
  | fetch | header | refuse | arm | release | reserve | label | busy | consumed => cases hout
  | idle | failed | enter | block | cleanup | relock | wake => exact h

theorem Pc.writing_of_outside (hout : p.inside = false) : p.writing = false := by
  cases p with
  | fetch | header | refuse | arm | release | reserve | label | busy | consumed => cases hout
  | idle | failed | enter | block | cleanup | relock | wake => rfl

@[simp] theorem goto_self (y : System α) (c : Channel) (p : Pc) : (y.goto c p).pc c = p :=
  Function.update_self ..

@[simp] theorem goto_other (y : System α) (c : Channel) (p : Pc) :
    (y.goto c p).pc c.other = y.pc c.other :=
  Function.update_of_ne c.other_ne ..

/-- A step that leaves the stream alone. -/
theorem Data.goto (h : Data y) (l : List LockUlinux.Lock) (hp : Place y.m y.istrm c p)
    (hw : (y.pc c).writing = false) : Data ({ y with anchor := l }.goto c p) where
  kept := h.kept
  place := forall_update (P := Place y.m y.istrm) hp (h.place _)
  reserved := by
    intro hall
    refine h.reserved fun d => ?_
    rcases c.eq_or_other d with rfl | rfl
    · exact hw
    · have hother := hall c.other
      rwa [goto_other] at hother
  valid := h.valid
  packets := h.packets

/-- When the user of `c` is inside the other one is not. -/
theorem Inv.other_outside (h : Inv y) (hin : (y.pc c).inside = true) :
    (y.pc c.other).inside = false := h.locks.alone c hin

/-- Without a region of a writer nothing is reserved. -/
theorem Inv.reserved_nil (h : Inv y) (hin : (y.pc c).inside = true)
    (hw : (y.pc c).writing = false) : y.istrm.reserved = [] := by
  refine h.data.reserved fun d => ?_
  rcases c.eq_or_other d with rfl | rfl
  · exact hw
  · exact Pc.writing_of_outside (h.other_outside hin)

/-- A step of a user that is inside, with the stream. -/
theorem Inv.inside_step (h : Inv y) (hin : (y.pc c).inside = true) {m : Mplex} {s : Istrm α}
    {sent delivered : Channel → List α}
    (hlocks : Locks y.anchor (Function.update y.pc c p)) (hkept : Kept m s) (hp : Place m s c p)
    (hw : p.writing = false → s.reserved = []) (hvalid : ∀ p ∈ s.avail ++ s.given, Valid p)
    (hpackets : ∀ c, delivered c ++
      System.pending { y with m := m, istrm := s, sent := sent, delivered := delivered } c =
        sent c) :
    Inv ({ y with m := m, istrm := s, sent := sent, delivered := delivered }.goto c p) where
  locks := hlocks
  data := by
    refine ⟨hkept, forall_update hp ((h.data.place _).outside (h.other_outside hin)), ?_, hvalid,
      hpackets⟩
    intro hall
    have hself := hall c
    rw [goto_self] at hself
    exact hw hself

/-! ## The steps of a reader -/

/-- A step of a user that is inside and stays there, without locks and without the stream. -/
theorem Inv.stay (h : Inv y) (hin : (y.pc c).inside = true) (hin' : p.inside = true)
    (hp : Place y.m y.istrm c p) (hw : (y.pc c).writing = false)
    (ha : (y.pc c).armed = false) : Inv (y.goto c p) where
  locks := by
    refine h.locks.goto (hin'.trans hin.symm) (fun harmed => ?_) fun hwoken => ?_
    · rw [ha] at harmed
      cases harmed
    · generalize y.pc c = p' at hin hwoken
      cases p' <;> simp [Pc.inside, Pc.woken] at hin hwoken
  data := h.data.goto y.anchor hp hw

theorem readHeader_kept {m : Mplex} {s : Istrm α} (h : Kept m s) (havail : m.packetAvail = true) :
    ∃ p, s.given = [p] ∧ s.readHeader m.packetStart = some p.header ∧ p.addr = m.packetStart ∧
      p.mandate = m.packetMand := by
  rcases h with ⟨hfalse, -⟩ | ⟨-, p, hgiven, haddr, hmand⟩
  · rw [havail] at hfalse
    cases hfalse
  · refine ⟨p, hgiven, ?_, haddr, hmand⟩
    unfold Istrm.readHeader
    rw [hgiven]
    simp [haddr]

/-- A packet that is kept, or the first one of the stream. -/
theorem Inv.fetch (h : Inv y) {a : GadrArgs} {ans : Answer} (hpc : y.pc c = .fetch a)
    (hkeep : Keeps y (.go c ans)) (ht : fetch y c a ans = some t) : Inv t := by
  have hin : (y.pc c).inside = true := by rw [hpc]; rfl
  have hreader : a.reader = true := by
    have hplace := h.data.place c
    rwa [hpc] at hplace
  simp only [Keeps, FetchOk, hpc] at hkeep
  obtain ⟨hok, hlen⟩ := hkeep
  unfold Multiplex.fetch at ht
  split at ht
  · rename_i havail
    have hsat : unsatisfied y.m (add64 a.logLen headerSize) a.tryLen = false := by
      have hlt := hlen havail
      unfold unsatisfied
      rw [havail]
      simp [Nat.not_le.mpr hlt]
    rw [hsat] at ht
    cases ht
    exact h.stay hin rfl ⟨hreader, havail, rfl⟩ (by rw [hpc]; rfl) (by rw [hpc]; rfl)
  · rename_i havail
    rw [hok] at ht
    obtain ⟨⟨p, s⟩, hget, rfl⟩ := Option.map_eq_some_iff.mp ht
    have hnone : y.m.packetAvail = false := by simpa using havail
    have hgiven : y.istrm.given = [] := by
      rcases h.data.kept with ⟨-, hgiven⟩ | ⟨htrue, -⟩
      · exact hgiven
      · exact absurd htrue havail
    unfold Istrm.gadrReader at hget
    split at hget
    · cases hget
    rename_i p₀ rest hlist
    cases hget
    have hvalid := h.data.valid
    rw [hlist, hgiven, List.append_nil] at hvalid
    refine h.inside_step hin (h.locks.goto (by rw [hpc]; rfl) ?_ ?_) 
      (.inr ⟨rfl, { p₀ with mandate := a.mandate }, ?_, rfl, rfl⟩) ⟨hreader, rfl, rfl⟩ (fun _ => ?_) ?_ fun d => ?_
    · rw [hpc]
      exact id
    · rw [hpc]
      exact id
    · dsimp only
      rw [hgiven]
    · exact h.reserved_nil hin (by rw [hpc]; rfl)
    · dsimp only
      intro q hq
      rw [hgiven] at hq
      rcases List.mem_append.mp hq with hq | hq
      · exact hvalid q (List.mem_cons_of_mem _ hq)
      · rw [List.mem_singleton.mp hq]
        exact hvalid p₀ List.mem_cons_self
    · rw [← h.data.packets d]
      unfold System.pending System.kept
      dsimp only
      rw [hgiven, hnone, hlist]
      by_cases hd : p₀.header.channel = d.number <;> simp [hd]

theorem Inv.dispatch (h : Inv y) {a : GadrArgs} {addr len : Nat} (hpc : y.pc c = .header a addr len) :
    Inv (dispatch y c a addr len (y.istrm.readHeader addr)) := by
  have hin : (y.pc c).inside = true := by rw [hpc]; rfl
  obtain ⟨hreader, havail, rfl⟩ : a.reader = true ∧ y.m.packetAvail = true ∧
      addr = y.m.packetStart := by
    have hplace := h.data.place c
    rwa [hpc] at hplace
  obtain ⟨p, hgiven, hread, haddr, hmand⟩ := readHeader_kept h.data.kept havail
  obtain ⟨hlt, hid, d, hd⟩ := h.data.valid p (by rw [hgiven]; simp)
  rw [hread]
  unfold Multiplex.dispatch
  have hnumber : ¬ (p.header.channel ≠ 1 ∧ p.header.channel ≠ 2) := by
    rw [hd]
    cases d <;> decide
  have hstay : ∀ p' : Pc, p'.inside = true → Place y.m y.istrm c p' → Inv (y.goto c p') :=
    fun p' hin' hp => h.stay hin hin' hp (by rw [hpc]; rfl) (by rw [hpc]; rfl)
  dsimp only
  rw [if_neg (not_not.mpr hid), if_neg hnumber]
  split
  · split
    · exact hstay _ rfl hreader
    · exact hstay _ rfl hreader
  · rename_i hchannel
    refine hstay _ rfl ?_
    have hplace : y.m.packetAvail = true ∧
        sub64 (add64 y.m.packetStart headerSize) headerSize = y.m.packetStart ∧
          ∀ p ∈ y.istrm.given, p.header.channel = c.number := by
      refine ⟨havail, ?_, fun p' hp' => ?_⟩
      · rw [haddr] at hlt
        unfold sub64 add64 headerSize addrSpace at *
        omega
      · rw [hgiven] at hp'
        rw [List.mem_singleton.mp hp']
        exact not_not.mp hchannel
    simpa [Place, hreader] using hplace

/-- The packet that is kept has been consumed. -/
theorem Inv.consume (h : Inv y) {a : GadrArgs} {logAddr logLen : Nat}
    (hpc : y.pc c = .busy a logAddr logLen) (hreader : a.reader = true) (payload : α) :
    Inv (padr y c a logAddr payload true) := by
  have hin : (y.pc c).inside = true := by rw [hpc]; rfl
  obtain ⟨havail, haddr, hchannel⟩ : y.m.packetAvail = true ∧
      sub64 logAddr headerSize = y.m.packetStart ∧
        ∀ p ∈ y.istrm.given, p.header.channel = c.number := by
    have hplace := h.data.place c
    rw [hpc] at hplace
    simpa [Place, hreader] using hplace
  obtain ⟨p, hgiven, -, hstart, hmand⟩ := readHeader_kept h.data.kept havail
  have hget : y.istrm.padrReader y.m.packetMand y.m.packetStart =
      some (p, { y.istrm with given := [] }) := by
    unfold Istrm.padrReader
    rw [hgiven]
    simp [hstart, hmand]
  have hp := hchannel p (by rw [hgiven]; simp)
  unfold padr
  rw [haddr, havail]
  simp only [Bool.not_true, Bool.false_eq_true, if_false, if_true, hreader, hget]
  refine h.inside_step hin (h.locks.goto (by rw [hpc]; rfl) ?_ ?_) (.inl ⟨rfl, rfl⟩) trivial
    (fun _ => h.reserved_nil hin (by rw [hpc]; simp [Pc.writing, hreader])) (fun q hq => ?_)
      fun d => ?_
  · rw [hpc]
    exact id
  · rw [hpc]
    exact id
  · refine h.data.valid q ?_
    dsimp only at hq
    rw [List.append_nil] at hq
    exact List.mem_append_left _ hq
  · rw [← h.data.packets d]
    unfold System.pending System.kept
    dsimp only
    rw [havail, hgiven]
    rcases c.eq_or_other d with rfl | rfl
    · rw [Function.update_self]
      simp [hstart, hp]
    · have hne : ¬ p.header.channel = c.other.number := by
        rw [hp]
        cases c <;> decide
      rw [Function.update_of_ne c.other_ne]
      simp [hstart, hne]

/-! ## The steps of a writer -/

theorem Inv.reserve (h : Inv y) {a : GadrArgs} {addr : Nat} (len : Nat) (hpc : y.pc c = .reserve a)
    (haddr : addr < addrSpace) :
    Inv ({ y with istrm := y.istrm.gadrWriter a.mandate addr len }.goto c (.label a addr len)) := by
  have hin : (y.pc c).inside = true := by rw [hpc]; rfl
  have hwriter : a.reader = false := by
    have hplace := h.data.place c
    rwa [hpc] at hplace
  have hnil := h.reserved_nil hin (by rw [hpc]; rfl)
  refine h.inside_step hin (h.locks.goto (by rw [hpc]; rfl) ?_ ?_) h.data.kept
    ⟨hwriter, haddr, ⟨addr, len, a.mandate, ⟨0, 0⟩⟩, ?_, rfl, rfl⟩ (fun hw => ?_) h.data.valid
      h.data.packets
  · rw [hpc]
    exact id
  · rw [hpc]
    exact id
  · unfold Istrm.gadrWriter
    rw [hnil]
  · cases hw

theorem Inv.label (h : Inv y) {a : GadrArgs} {addr len : Nat} (hpc : y.pc c = .label a addr len) :
    Inv ({ y with istrm := y.istrm.writeHeader addr ⟨smplexIdentification, c.number⟩ }.goto c
      (.busy a (add64 addr headerSize) (sub64 len headerSize))) := by
  have hin : (y.pc c).inside = true := by rw [hpc]; rfl
  obtain ⟨hwriter, hlt, r, hr, haddr, hmand⟩ : a.reader = false ∧ addr < addrSpace ∧
      ∃ r, y.istrm.reserved = [r] ∧ r.addr = addr ∧ r.mandate = a.mandate := by
    have hplace := h.data.place c
    rwa [hpc] at hplace
  have hplace : ∃ r, (y.istrm.writeHeader addr ⟨smplexIdentification, c.number⟩).reserved = [r] ∧
      r.addr = sub64 (add64 addr headerSize) headerSize ∧ r.mandate = a.mandate ∧
        r.header = ⟨smplexIdentification, c.number⟩ := by
    refine ⟨{ r with header := ⟨smplexIdentification, c.number⟩ }, ?_, ?_, hmand, rfl⟩
    · unfold Istrm.writeHeader
      rw [hr]
      simp [haddr]
    · rw [haddr]
      unfold sub64 add64 headerSize addrSpace at *
      omega
  refine h.inside_step hin (h.locks.goto (by rw [hpc]; rfl) ?_ ?_) h.data.kept ?_ (fun hw => ?_)
    h.data.valid h.data.packets
  · rw [hpc]
    exact id
  · rw [hpc]
    exact id
  · simpa [Place, hwriter] using hplace
  · simp [Pc.writing, hwriter] at hw

/-- A packet has been put while none is kept. -/
theorem Inv.put (h : Inv y) {a : GadrArgs} {logAddr logLen : Nat}
    (hpc : y.pc c = .busy a logAddr logLen) (hwriter : a.reader = false)
    (havail : y.m.packetAvail = false) (payload : α) :
    Inv (padr y c a logAddr payload true) := by
  have hin : (y.pc c).inside = true := by rw [hpc]; rfl
  obtain ⟨r, hr, haddr, hmand, hheader⟩ : ∃ r, y.istrm.reserved = [r] ∧
      r.addr = sub64 logAddr headerSize ∧ r.mandate = a.mandate ∧
        r.header = ⟨smplexIdentification, c.number⟩ := by
    have hplace := h.data.place c
    rw [hpc] at hplace
    simpa [Place, hwriter] using hplace
  have hput : y.istrm.padrWriter a.mandate (sub64 logAddr headerSize) payload =
      some { y.istrm with reserved := [], avail := y.istrm.avail ++ [⟨r, payload⟩] } := by
    unfold Istrm.padrWriter
    rw [hr]
    simp [haddr, hmand]
  have hlt : r.addr < addrSpace := haddr ▸ sub64_lt ..
  have hgiven : y.istrm.given = [] := by
    rcases h.data.kept with ⟨-, hgiven⟩ | ⟨htrue, -⟩
    · exact hgiven
    · rw [havail] at htrue
      cases htrue
  unfold padr
  rw [havail]
  simp only [Bool.not_true, Bool.false_eq_true, if_false, hwriter, hput]
  refine h.inside_step hin (h.locks.goto (by rw [hpc]; rfl) ?_ ?_) (.inl ⟨rfl, hgiven⟩) trivial
    (fun _ => rfl) (fun q hq => ?_) fun d => ?_
  · rw [hpc]
    exact id
  · rw [hpc]
    exact id
  · dsimp only at hq
    rw [hgiven, List.append_nil] at hq
    rcases List.mem_append.mp hq with hq | hq
    · exact h.data.valid q (List.mem_append_left _ hq)
    · rw [List.mem_singleton.mp hq]
      exact ⟨hlt, congrArg Header.identification hheader, c, congrArg Header.channel hheader⟩
  · have hold := h.data.packets d
    unfold System.pending System.kept at hold ⊢
    rw [havail] at hold
    dsimp only
    rcases c.eq_or_other d with rfl | rfl
    · rw [Function.update_self, ← hold]
      simp [hheader]
    · have hne : ¬ c.number = c.other.number := by
        cases c <;> decide
      rw [Function.update_of_ne c.other_ne, ← hold]
      simp [hheader, hne]

/-- A packet of another `strm_multiplex`. -/
theorem Inv.arrive (h : Inv y) {addr : Nat} (len : Nat) (payload : α) (haddr : addr < addrSpace) :
    Inv { y with
      istrm := { y.istrm with avail := y.istrm.avail ++
        [⟨⟨addr, len, 0, ⟨smplexIdentification, c.number⟩⟩, payload⟩] }
      sent := Function.update y.sent c (y.sent c ++ [payload]) } where
  locks := h.locks
  data := by
    refine ⟨h.data.kept, h.data.place, h.data.reserved, fun q hq => ?_, fun d => ?_⟩
    · dsimp only at hq
      rw [List.append_assoc, List.mem_append, List.mem_append, List.mem_singleton] at hq
      rcases hq with hq | rfl | hq
      · exact h.data.valid q (List.mem_append_left _ hq)
      · exact ⟨haddr, rfl, c, rfl⟩
      · exact h.data.valid q (List.mem_append_right _ hq)
    · have hold := h.data.packets d
      unfold System.pending System.kept at hold ⊢
      dsimp only at hold ⊢
      rcases c.eq_or_other d with rfl | rfl
      · rw [Function.update_self, ← hold]
        simp
      · have hne : ¬ c.number = c.other.number := by
          cases c <;> decide
        rw [Function.update_of_ne c.other_ne, ← hold]
        simp [hne]

/-! ## Every run -/

theorem Inv.go (h : Inv y) {ans : Answer} (hkeep : Keeps y (.go c ans)) (ht : go y c ans = some t) :
    Inv t := by
  have hok : ans.ok = true := hkeep.1
  have hplace := h.data.place c
  have hlocks := h.locks.locks c
  unfold Multiplex.go at ht
  cases hpc : y.pc c with
  | idle | failed | busy =>
    rw [hpc] at ht
    cases ht
  | enter a =>
    rw [hpc] at ht
    obtain ⟨l, hl, rfl⟩ := Option.map_eq_some_iff.mp ht
    refine ⟨h.locks.enter (by rw [hpc]; rfl) hl ?_ (by rw [hpc]; rfl) (by rw [hpc]; rfl),
      h.data.goto l ?_ (by rw [hpc]; rfl)⟩
    · cases a.reader <;> rfl
    · split
      · assumption
      · exact Bool.eq_false_iff.mpr (by assumption)
  | fetch a =>
    rw [hpc] at ht
    exact h.fetch hpc hkeep ht
  | header a addr len =>
    rw [hpc] at ht
    dsimp only at ht
    rw [hok, if_pos rfl] at ht
    obtain rfl := Option.some.inj ht
    exact h.dispatch hpc
  | refuse a =>
    rw [hpc] at ht
    obtain rfl := Option.some.inj ht
    exact ⟨h.locks.leave rfl (by rw [hpc]; exact id) (by rw [hpc]; exact id),
      h.data.goto _ trivial (by rw [hpc]; rfl)⟩
  | arm a =>
    rw [hpc] at ht hplace hlocks
    obtain ⟨l, hl, rfl⟩ := Option.map_eq_some_iff.mp ht
    exact ⟨h.locks.wait (by rw [hpc]; rfl)
      (fun hown => absurd (hlocks.armed hown) Bool.false_ne_true) hl (.inl ⟨rfl, rfl⟩),
      h.data.goto l hplace (by rw [hpc]; rfl)⟩
  | release a =>
    rw [hpc] at ht hplace
    obtain rfl := Option.some.inj ht
    exact ⟨h.locks.leave rfl (fun _ => rfl) (by rw [hpc]; exact id),
      h.data.goto _ hplace (by rw [hpc]; rfl)⟩
  | block a =>
    rw [hpc] at ht hplace hlocks
    obtain ⟨l, hl, rfl⟩ := Option.map_eq_some_iff.mp ht
    exact ⟨h.locks.wait (by rw [hpc]; rfl)
      (fun hown => absurd (hlocks.woken hown) Bool.false_ne_true) hl (.inr ⟨rfl, rfl⟩),
      h.data.goto l hplace (by rw [hpc]; rfl)⟩
  | cleanup a =>
    rw [hpc] at ht hplace hlocks
    obtain rfl := Option.some.inj ht
    obtain ⟨-, howns⟩ := unlock_spec (m := lockMandWait2) h.locks.cells c.lockAddrWait_lt
    refine ⟨h.locks.unlock_wait (by rw [hpc]; rfl) (fun hown => ?_) (fun hown => ?_),
      h.data.goto _ hplace (by rw [hpc]; rfl)⟩
    · exact absurd (hlocks.armed ((howns _ _).mp hown).1) Bool.false_ne_true
    · exact absurd ⟨rfl, rfl⟩ ((howns _ _).mp hown).2
  | relock a =>
    rw [hpc] at ht hplace
    obtain ⟨l, hl, rfl⟩ := Option.map_eq_some_iff.mp ht
    exact ⟨h.locks.enter (by rw [hpc]; rfl) hl rfl (by rw [hpc]; rfl) (by rw [hpc]; rfl),
      h.data.goto l hplace (by rw [hpc]; rfl)⟩
  | reserve a =>
    rw [hpc] at ht
    dsimp only at ht
    rw [hok, Bool.not_true, if_neg Bool.false_ne_true] at ht
    split at ht
    · rename_i hfresh
      obtain rfl := Option.some.inj ht
      exact h.reserve ans.len hpc hfresh.1
    · cases ht
  | label a addr len =>
    rw [hpc] at ht
    dsimp only at ht
    rw [hok, Bool.not_true, if_neg Bool.false_ne_true] at ht
    obtain rfl := Option.some.inj ht
    exact h.label hpc
  | consumed =>
    rw [hpc] at ht
    obtain rfl := Option.some.inj ht
    exact ⟨h.locks.leave rfl (by rw [hpc]; exact id) (by rw [hpc]; exact id),
      h.data.goto _ trivial (by rw [hpc]; rfl)⟩
  | wake =>
    rw [hpc] at ht hlocks
    obtain rfl := Option.some.inj ht
    obtain ⟨-, howns⟩ := unlock_spec (m := lockMandWait1) h.locks.cells c.other.lockAddrWait_lt
    refine ⟨h.locks.unlock_wait (by rw [hpc]; rfl) (fun hown => ?_) (fun hown => ?_),
      h.data.goto _ trivial (by rw [hpc]; rfl)⟩
    · exact absurd (hlocks.armed ((howns _ _).mp hown).1) Bool.false_ne_true
    · exact absurd (hlocks.woken ((howns _ _).mp hown).1) Bool.false_ne_true

theorem Inv.start : Inv (start : System α) where
  locks :=
    { cells := LockUlinux.Cells.nil
      locks := fun _ => ⟨iff_of_false LockUlinux.not_owns_nil Bool.false_ne_true,
        fun hown => absurd hown LockUlinux.not_owns_nil,
        fun hown => absurd hown LockUlinux.not_owns_nil⟩
      alone := fun _ hin => absurd hin Bool.false_ne_true }
  data :=
    { kept := .inl ⟨rfl, rfl⟩
      place := fun _ => trivial
      reserved := fun _ => rfl
      valid := fun _ hp => absurd hp List.not_mem_nil
      packets := fun _ => rfl }

theorem Inv.step (h : Inv y) {e : Event α} (hkeep : Keeps y e) (ht : step y e = some t) : Inv t := by
  cases e with
  | gadr c a =>
    simp only [Multiplex.step] at ht
    split at ht
    · rename_i hpc
      obtain rfl := Option.some.inj ht
      refine ⟨h.locks.goto ?_ ?_ ?_, h.data.goto y.anchor trivial ?_⟩ <;>
        rcases hpc with hpc | hpc <;> rw [hpc] <;> first | rfl | exact id
    · cases ht
  | go c ans => exact h.go hkeep ht
  | padr c payload ok =>
    simp only [Multiplex.step] at ht
    split at ht
    · rename_i a logAddr logLen hpc
      obtain rfl := Option.some.inj ht
      simp only [Keeps, PadrOk, hpc] at hkeep
      obtain ⟨rfl, hwriter⟩ := hkeep
      cases hreader : a.reader with
      | true => exact h.consume hpc hreader payload
      | false => exact h.put hpc hreader (hwriter hreader) payload
    · cases ht
  | arrive c addr len payload =>
    simp only [Multiplex.step] at ht
    split at ht
    · rename_i hfresh
      obtain rfl := Option.some.inj ht
      exact h.arrive len payload hfresh.1
    · cases ht

/-- **Every channel delivers the packets that are sent on it, all of them once and in order, and an
operation that has failed does not keep the module lock.** -/
theorem packets_are_delivered (h : Reach step (· = start) Keeps y) : Delivers y := by
  have hinv : Inv y := by
    refine h.invariant (I := Inv) ?_ fun _ _ _ hs hok ht => hs.step hok ht
    rintro _ rfl
    exact Inv.start
  exact hinv.delivers

instance (m : Mplex) (p : Pc) : Decidable (FetchOk m p) :=
  match p with
  | .fetch a => inferInstanceAs (Decidable (m.packetAvail = true → 1 < add64 a.logLen headerSize))
  | .idle | .failed | .enter _ | .header _ _ _ | .refuse _ | .arm _ | .release _ | .block _
  | .cleanup _ | .relock _ | .reserve _ | .label _ _ _ | .busy _ _ _ | .consumed | .wake =>
    inferInstanceAs (Decidable True)

instance (m : Mplex) (p : Pc) : Decidable (PadrOk m p) :=
  match p with
  | .busy a _ _ => inferInstanceAs (Decidable (a.reader = false → m.packetAvail = false))
  | .idle | .failed | .enter _ | .fetch _ | .header _ _ _ | .refuse _ | .arm _ | .release _
  | .block _ | .cleanup _ | .relock _ | .reserve _ | .label _ _ _ | .consumed | .wake =>
    inferInstanceAs (Decidable True)

instance (y : System α) (e : Event α) : Decidable (Keeps y e) :=
  match e with
  | .go c ans => inferInstanceAs (Decidable (ans.ok = true ∧ FetchOk y.m (y.pc c)))
  | .padr c _ ok => inferInstanceAs (Decidable (ok = true ∧ PadrOk y.m (y.pc c)))
  | .gadr _ _ | .arrive _ _ _ _ => inferInstanceAs (Decidable True)

/-- `:<istrm` succeeds. -/
def good : Answer := ⟨true, 0, 0⟩

/-- A reader that waits. -/
def reading (mandate : Nat) : GadrArgs := ⟨true, 16, 16, .wait, mandate⟩

/-- The packet of the second channel is kept by the reader of the first one. -/
def handOver : List (Event Nat) :=
  [.arrive .second 100 32 7, .arrive .first 200 32 8, .gadr .first (reading 11), .go .first good,
    .go .first good, .go .first good, .go .first good, .go .first good,
    .gadr .second (reading 22), .go .second good, .go .second good, .go .second good,
    .padr .second 0 true, .go .second good, .go .second good,
    .go .first good, .go .first good, .go .first good, .go .first good, .go .first good,
    .padr .first 0 true]

theorem packets_are_delivered_handOver : ∃ y : System Nat,
    (y.delivered .first, y.delivered .second) = ([8], [7]) ∧ Delivers y := by
  have hrun : (run step Keeps start handOver).map (fun y =>
      (y.delivered .first, y.delivered .second)) = some ([8], [7]) := by
    decide +kernel
  obtain ⟨y, hy, hlists⟩ := Option.map_eq_some_iff.mp hrun
  exact ⟨y, hlists, packets_are_delivered (reach_run hy)⟩

/-- A reader that does not wait fails at an empty stream, and keeps the module lock. -/
theorem packets_not_delivered : ¬ ∀ y : System Nat, Reach step (· = start) anyEvent y →
    Delivers y := by
  intro h
  have hrun : (run (step (α := Nat)) anyEvent start
      [.gadr .first ⟨true, 16, 16, .try, 11⟩, .go .first good, .go .first ⟨false, 0, 0⟩]).map
        (fun y => (y.pc .first, y.anchor)) = some (.failed, [⟨0, 1, 1, lockType⟩]) := by
    decide
  obtain ⟨y, hy, heq⟩ := Option.map_eq_some_iff.mp hrun
  rw [Prod.mk.injEq] at heq
  refine (h y (reach_run hy)).unlocked .first heq.1 ?_
  rw [heq.2]
  exact ⟨_, List.mem_singleton_self _, rfl, Nat.le_refl 0, Nat.one_pos⟩

end Athomux.Multiplex
