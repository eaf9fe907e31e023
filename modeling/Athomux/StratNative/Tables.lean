import Athomux.StratNative.Spec

/-!
# The tables over a run

A descriptor is marked as used exactly when its input is connected, as long as no call leaves the
tables or breaks off in the middle.
-/

open Lib

namespace Athomux.StratNative

variable {s s' : State} {p q fd : Nat} {t u : Task} {f : Filedes} {c : Option (Nat × Int)}
  {r : Reply}

/-! ## What should hold -/

/-- A descriptor is used exactly when its input is connected. -/
def Marked (s : State) : Prop :=
  ∀ p t, s.task p = some t → ∀ fd < fdMax, usedFd t fd ↔ (s.input t.posix fd).isSome

def tables (s : State) (p : Nat) : Option (Nat → Filedes) := (s.task p).map (·.fd)

def Reply.failed (r : Reply) : Prop := r.success = false ∨ r.result = -1

structure Inv (s : State) : Prop where
  fs : s.fsAddr ≠ 0
  small : ∀ p t, s.task p = some t → p < maxProcesses ∧ t.pid = p
  children : ∀ p t, s.task p = some t → ∀ c ∈ t.children, c < maxProcesses
  brick : ∀ p t, s.task p = some t → t.posix < s.next
  marked : Marked s
  kinds : ∀ p t, s.task p = some t → ∀ fd < fdMax, usedFd t fd →
    (t.fd fd).type = .file ∨ (t.fd fd).type = .char
  own : ∀ p q t u, s.task p = some t → s.task q = some u → t.posix = u.posix → p = q

/-- There is a file to connect: it is found, or created. -/
def opened (flags : Nat) (found created : Bool) : Prop :=
  found = true ∨ flags &&& oCreat ≠ 0 ∧ created = true

/-- A call that stays in the tables, and does not break off after it has changed a descriptor. -/
def FineCall (s : State) (t : Task) : Call → Prop
  | .open path flags found created connects _ =>
    path.toList.head? = some '/' → opened flags found created → freeFd t 0 ≠ none →
      connects = true → fitsName path
  | .close fd _ => fd < fdMax
  | .fork a => freeTask s ≠ none ∧
    (a.image = true → a.posix = true → a.finished = true →
      ∀ fd < fdMax, usedFd t fd → a.conns fd = true)
  | .execve built _ => built = true
  | .pipe => ∀ r, freeFd t 0 = some r → freeFd t (r + 1) = none
  | .getdents fd _ => s.getdentsIndex ≤ 1 → fd < fdMax
  | .dup oldfd connects =>
    oldfd < fdMax ∧ (usedFd t oldfd → freeFd t 0 ≠ none → connects = true)
  | .dup2 oldfd newfd disconnects connects =>
    oldfd < fdMax ∧ (usedFd t oldfd → newfd < fdMax ∧
      (oldfd ≠ newfd ∧ connects = true ∨
        usedFd t newfd ∧ disconnects = false ∧ t.fd newfd = t.fd oldfd))
  | .wait4 waitpid => waitpid = -1 ∨ 0 ≤ waitpid ∧ waitpid < maxProcesses
  | _ => True

/-- The call is one of a process. -/
def Fine (s : State) (e : Int × Call) : Prop :=
  ∃ t, s.getTask e.1 = some t ∧ FineCall s t e.2

/-! ## Slots -/

theorem freeTask_spec (h : freeTask s = some p) : p < maxProcesses ∧ s.task p = none := by
  have hmem := List.mem_of_find?_eq_some h
  have hfree := List.find?_some h
  exact ⟨List.mem_range.mp hmem, by simpa using hfree⟩

theorem usedFd_setFd (i : Nat) :
    usedFd (t.setFd fd f) i = if i = fd then decide (f.addr ≠ 0) else usedFd t i := by
  unfold usedFd Task.setFd
  split <;> simp_all

theorem setTask_task : (s.setTask p (some u)).task q = some t ↔
    q = p ∧ u = t ∨ q ≠ p ∧ s.task q = some t := by
  unfold State.setTask
  by_cases hq : q = p <;> simp [hq]

/-- A process whose descriptors and brick stay the same. -/
theorem Inv.keep (h : Inv s) (ht : s.task p = some t) (hpid : u.pid = t.pid)
    (hposix : u.posix = t.posix) (hfd : u.fd = t.fd) (hc : ∀ c ∈ u.children, c < maxProcesses) :
    Inv (s.setTask p (some u)) := by
  have hused : ∀ fd, usedFd u fd = usedFd t fd := fun fd => by rw [usedFd, usedFd, hfd]
  refine ⟨h.fs, fun q v hv => ?_, fun q v hv => ?_, fun q v hv => ?_, fun q v hv => ?_,
    fun q v hv => ?_, fun q q' v v' hv hv' heq => ?_⟩
  · obtain ⟨rfl, rfl⟩ | ⟨-, hv⟩ := setTask_task.mp hv
    · exact hpid ▸ h.small q t ht
    · exact h.small q v hv
  · obtain ⟨rfl, rfl⟩ | ⟨-, hv⟩ := setTask_task.mp hv
    · exact hc
    · exact h.children q v hv
  · obtain ⟨rfl, rfl⟩ | ⟨-, hv⟩ := setTask_task.mp hv
    · exact hposix ▸ h.brick q t ht
    · exact h.brick q v hv
  · obtain ⟨rfl, rfl⟩ | ⟨-, hv⟩ := setTask_task.mp hv
    · intro fd hlt
      rw [hused, hposix]
      exact h.marked q t ht fd hlt
    · exact h.marked q v hv
  · obtain ⟨rfl, rfl⟩ | ⟨-, hv⟩ := setTask_task.mp hv
    · intro fd hlt huse
      rw [hused] at huse
      rw [hfd]
      exact h.kinds q t ht fd hlt huse
    · exact h.kinds q v hv
  · obtain ⟨rfl, rfl⟩ | ⟨hne, hw⟩ := setTask_task.mp hv <;>
      obtain ⟨rfl, rfl⟩ | ⟨hne', hw'⟩ := setTask_task.mp hv'
    · rfl
    · exact h.own q q' t v' ht hw' (hposix ▸ heq)
    · exact h.own q q' v t hw ht (heq.trans hposix)
    · exact h.own q q' v v' hw hw' heq

/-- A slot and its input change together. -/
theorem Inv.setSlot (h : Inv s) (ht : s.task p = some t)
    (hmark : f.addr ≠ 0 ↔ c.isSome) (hkind : f.addr ≠ 0 → f.type = .file ∨ f.type = .char) :
    Inv ((s.setTask p (some (t.setFd fd f))).setInput t.posix fd c) := by
  refine ⟨h.fs, fun q v hv => ?_, fun q v hv => ?_, fun q v hv => ?_, fun q v hv => ?_,
    fun q v hv => ?_, fun q q' v v' hv hv' heq => ?_⟩
  · obtain ⟨rfl, rfl⟩ | ⟨-, hv⟩ := setTask_task.mp hv
    · exact h.small q t ht
    · exact h.small q v hv
  · obtain ⟨rfl, rfl⟩ | ⟨-, hv⟩ := setTask_task.mp hv
    · exact h.children q t ht
    · exact h.children q v hv
  · obtain ⟨rfl, rfl⟩ | ⟨-, hv⟩ := setTask_task.mp hv
    · exact h.brick q t ht
    · exact h.brick q v hv
  · intro i hi
    obtain ⟨rfl, rfl⟩ | ⟨hne, hv⟩ := setTask_task.mp hv
    · rw [usedFd_setFd]
      by_cases hif : i = fd
      · simpa [State.setInput, Task.setFd, hif] using hmark
      · simpa [State.setInput, Task.setFd, State.setTask, hif] using h.marked q t ht i hi
    · -- the input belongs to another brick
      have hbrick : v.posix ≠ t.posix := fun heq => hne (h.own q p v t hv ht heq)
      simpa [State.setInput, State.setTask, hbrick] using h.marked q v hv i hi
  · intro i hi huse
    obtain ⟨rfl, rfl⟩ | ⟨-, hv⟩ := setTask_task.mp hv
    · rw [usedFd_setFd] at huse
      by_cases hif : i = fd
      · rw [if_pos hif, decide_eq_true_eq] at huse
        simpa [Task.setFd, hif] using hkind huse
      · rw [if_neg hif] at huse
        simpa [Task.setFd, hif] using h.kinds q t ht i hi huse
    · exact h.kinds q v hv i hi huse
  · obtain ⟨rfl, rfl⟩ | ⟨hne, hw⟩ := setTask_task.mp hv <;>
      obtain ⟨rfl, rfl⟩ | ⟨hne', hw'⟩ := setTask_task.mp hv'
    · rfl
    · exact h.own q q' t v' ht hw' heq
    · exact h.own q q' v t hw ht heq
    · exact h.own q q' v v' hw hw' heq

/-! ## The calls -/

/-- What a call should do: it stays in the tables, and if it fails both are as before. -/
def Good (s : State) (o : Option (State × Reply)) : Prop :=
  ∃ s' r, o = some (s', r) ∧ Inv s' ∧ (r.failed → tables s' = tables s)

theorem Good.same (h : Inv s) (r : Reply) : Good s (some (s, r)) := ⟨s, r, rfl, h, fun _ => rfl⟩

theorem Good.ok (h : Inv s') {result : Int} (hr : 0 ≤ result) :
    Good s (some (s', ⟨true, result, .ok⟩)) := by
  refine ⟨s', _, rfl, h, fun hfail => ?_⟩
  obtain hs | hm := hfail
  · cases hs
  · simp only at hm
    omega

theorem tables_keep (ht : s.task p = some t) (hfd : u.fd = t.fd) :
    tables (s.setTask p (some u)) = tables s := by
  funext q
  unfold tables State.setTask
  by_cases hq : q = p
  · simp [hq, ht, hfd]
  · simp [hq]

theorem good_keep (h : Inv s) (ht : s.task p = some t) (hpid : u.pid = t.pid)
    (hposix : u.posix = t.posix) (hfd : u.fd = t.fd) (hc : ∀ c ∈ u.children, c < maxProcesses) :
    Good s (some (s.setTask p (some u), r)) :=
  ⟨_, _, rfl, h.keep ht hpid hposix hfd hc, fun _ => tables_keep ht hfd⟩

theorem good_open {path : String} {flags : Nat} {found created connects : Bool} {index : Int}
    (h : Inv s) (ht : s.task p = some t)
    (hfine : FineCall s t (.open path flags found created connects index)) :
    Good s (openCall s p t path flags found created connects index) := by
  unfold openCall
  split
  · exact .same h _
  · rename_i hhead
    split
    · exact .same h _
    · rename_i hcreat
      split
      · exact .same h _
      · split
        · exact .same h _
        · rename_i hthere
          unfold openFd
          cases hfree : freeFd t 0 with
          | none => exact .same h _
          | some fd =>
            by_cases hconn : connects = true
            · have hopened : opened flags found created := by
                unfold opened
                cases found <;> simp_all
              have hname : fitsName path :=
                hfine (not_not.mp hhead) hopened (by rw [hfree]; exact Option.some_ne_none fd) hconn
              simp only [hconn, Bool.not_true, Bool.false_eq_true, if_false, if_pos hname]
              refine .ok (h.setSlot ht ?_ ?_) (by omega)
              · simp [h.fs]
              · exact fun _ => .inl rfl
            · simp only [hconn, Bool.not_false, if_true]
              exact .same h _

theorem good_close {fd : Int} {disconnects : Bool} (h : Inv s) (ht : s.task p = some t)
    (hfine : FineCall s t (.close fd disconnects)) : Good s (closeCall s p t fd disconnects) := by
  have hlt : fd < (fdMax : Int) := hfine
  unfold closeCall
  split
  · exact .same h _
  · split
    · split
      · exact .same h _
      · split
        · split
          · exact .same h _
          · exact .ok (h.setSlot ht (by simp [Filedes.empty]) (by simp [Filedes.empty])) (by omega)
        · exact .same h _
    · omega

theorem good_getdents {fd : Nat} {found : Bool} (h : Inv s)
    (hfine : FineCall s t (.getdents fd found)) : Good s (getdentsCall s t fd found) := by
  unfold getdentsCall
  split
  · exact .same h _
  · rename_i hidx
    rw [if_pos (hfine (by omega))]
    split
    · exact .same h _
    · split
      · exact .same h _
      · have hnext : Inv { s with getdentsIndex := s.getdentsIndex + 1 } :=
          ⟨h.fs, h.small, h.children, h.brick, h.marked, h.kinds, h.own⟩
        exact .ok hnext Int.one_nonneg

/-- The copy of a used descriptor, with its connection. -/
theorem good_copy {connects : Bool} (h : Inv s) (ht : s.task p = some t) (haddr : f.addr ≠ 0)
    (hkind : f.type = .file ∨ f.type = .char) (hconn : connects = true) {s₀ : State} :
    Good s₀ (copyFd s p t f fd connects) := by
  simp only [copyFd, if_pos hkind, hconn, if_true]
  exact .ok (h.setSlot ht (by simp [haddr]) (fun _ => hkind)) (by omega)

theorem addr_of_used (h : usedFd t fd = true) : (t.fd fd).addr ≠ 0 := by
  simpa [usedFd] using h

theorem good_dup {oldfd : Nat} {connects : Bool} (h : Inv s) (ht : s.task p = some t)
    (hfine : FineCall s t (.dup oldfd connects)) : Good s (dupCall s p t oldfd connects) := by
  obtain ⟨hlt, hconn⟩ := hfine
  rw [dupCall, if_pos hlt]
  by_cases hused : usedFd t oldfd = true
  · simp only [hused, Bool.not_true, Bool.false_eq_true, if_false]
    cases hfree : freeFd t 0 with
    | none => exact .same h _
    | some fd =>
      exact good_copy h ht (addr_of_used hused) (h.kinds p t ht oldfd hlt hused)
        (hconn hused (by rw [hfree]; exact Option.some_ne_none fd))
  · simp only [hused, Bool.not_false, if_true]
    exact .same h _

theorem setFd_self (hsame : t.fd fd = f) : t.setFd fd f = t := by
  unfold Task.setFd
  congr 1
  funext i
  split
  · rename_i hi
    rw [hi, hsame]
  · rfl

theorem good_dup2 {oldfd newfd : Nat} {disconnects connects : Bool} (h : Inv s)
    (ht : s.task p = some t) (hfine : FineCall s t (.dup2 oldfd newfd disconnects connects)) :
    Good s (dup2Call s p t oldfd newfd disconnects connects) := by
  obtain ⟨hlt, hrest⟩ := hfine
  rw [dup2Call, if_pos hlt]
  by_cases hused : usedFd t oldfd = true
  · obtain ⟨hlt', hcase⟩ := hrest hused
    simp only [hused, Bool.not_true, Bool.false_eq_true, if_false, if_pos hlt']
    have haddr := addr_of_used hused
    have hkind := h.kinds p t ht oldfd hlt hused
    obtain ⟨hne, hconn⟩ | ⟨hnew, hdis, hsame⟩ := hcase
    · split
      · -- the slot is closed first
        have hmid : Inv ((s.setTask p (some (t.setFd newfd (clearAddr (t.fd newfd))))).setInput
            t.posix newfd none) := h.setSlot ht (by simp [clearAddr]) (by simp [clearAddr])
        have hold : (t.setFd newfd (clearAddr (t.fd newfd))).fd oldfd = t.fd oldfd := if_neg hne
        refine good_copy hmid ?_ (by rw [hold]; exact haddr) (by rw [hold]; exact hkind) hconn
        simp [State.setInput, State.setTask]
      · exact good_copy h ht haddr hkind hconn
    · simp only [hdis, Bool.and_false, Bool.false_eq_true, if_false]
      cases hconn : connects with
      | true => exact good_copy h ht haddr hkind rfl
      | false =>
        simp only [copyFd, if_pos hkind, Bool.false_eq_true, if_false, setFd_self hsame]
        exact good_keep h ht rfl rfl rfl (h.children p t ht)
  · simp only [hused, Bool.not_false, if_true]
    exact .same h _

theorem good_pipe (h : Inv s) (hfine : FineCall s t .pipe) : Good s (pipeCall s p t) := by
  unfold pipeCall
  cases hr : freeFd t 0 with
  | none => exact .same h _
  | some r =>
    simp only [hfine r hr]
    exact .same h _

theorem good_wait4 {waitpid : Int} (h : Inv s) (ht : s.task p = some t)
    (hfine : FineCall s t (.wait4 waitpid)) : Good s (wait4Call s p t waitpid) := by
  unfold wait4Call
  split
  · cases hc : t.children with
    | nil => exact .same h _
    | cons c cs =>
      have hlt := h.children p t ht
      rw [hc] at hlt
      simp only [if_pos (hlt c List.mem_cons_self)]
      split
      · exact .same h _
      · refine good_keep h ht rfl rfl rfl fun c' hc' => ?_
        rcases List.mem_cons.mp hc' with rfl | hc'
        · decide
        · exact hlt c' (List.mem_cons_of_mem _ hc')
  · rename_i hne
    rw [if_pos (hfine.resolve_left hne)]
    exact .same h _

theorem addChild_lt {c' : Nat} (hc : ∀ c ∈ t.children, c < maxProcesses) (hq : q < maxProcesses)
    (h : c' ∈ (addChild t q).children) : c' < maxProcesses := by
  unfold addChild at h
  simp only at h
  split at h
  · rcases List.mem_or_eq_of_mem_set h with h | rfl
    · exact hc c' h
    · exact hq
  · exact hc c' h

/-- All descriptors of the new process are connected to what those of the old one are. -/
theorem forkInput_isSome {conns : Nat → Bool} (hlt : fd < fdMax)
    (hkind : usedFd t fd → (t.fd fd).type = .file ∨ (t.fd fd).type = .char)
    (hconns : usedFd t fd → conns fd = true) :
    usedFd t fd ↔ (forkInput t conns fd).isSome := by
  unfold forkInput
  constructor
  · intro hused
    rw [if_pos ⟨hlt, hused, (hkind hused).symm, hconns hused⟩]
    rfl
  · intro h
    split at h
    · rename_i hc
      exact hc.2.1
    · cases h

/-- A brick that no process has yet. -/
theorem Inv.newBrick (h : Inv s) (input : Nat → Option (Nat × Int)) {n : Nat} (hn : s.next < n) :
    Inv { s with
      input := fun b i => if b = s.next then input i else s.input b i
      next := n } := by
  refine ⟨h.fs, h.small, h.children, fun p t ht => Nat.lt_trans (h.brick p t ht) hn, ?_, h.kinds,
    h.own⟩
  intro p t ht fd hlt
  have hne : t.posix ≠ s.next := Nat.ne_of_lt (h.brick p t ht)
  simpa [hne] using h.marked p t ht fd hlt

theorem Inv.newTask (h : Inv s) (hq : q < maxProcesses) (hu : u.pid = q)
    (hc : ∀ c ∈ u.children, c < maxProcesses) (hbrick : u.posix < s.next)
    (hnew : ∀ p t, s.task p = some t → t.posix ≠ u.posix)
    (hmark : ∀ fd < fdMax, usedFd u fd ↔ (s.input u.posix fd).isSome)
    (hkind : ∀ fd < fdMax, usedFd u fd → (u.fd fd).type = .file ∨ (u.fd fd).type = .char) :
    Inv (s.setTask q (some u)) := by
  refine ⟨h.fs, fun p v hv => ?_, fun p v hv => ?_, fun p v hv => ?_, fun p v hv => ?_,
    fun p v hv => ?_, fun p p' v v' hv hv' heq => ?_⟩
  · obtain ⟨rfl, rfl⟩ | ⟨-, hv⟩ := setTask_task.mp hv
    · exact ⟨hq, hu⟩
    · exact h.small p v hv
  · obtain ⟨rfl, rfl⟩ | ⟨-, hv⟩ := setTask_task.mp hv
    · exact hc
    · exact h.children p v hv
  · obtain ⟨rfl, rfl⟩ | ⟨-, hv⟩ := setTask_task.mp hv
    · exact hbrick
    · exact h.brick p v hv
  · obtain ⟨rfl, rfl⟩ | ⟨-, hv⟩ := setTask_task.mp hv
    · exact hmark
    · exact h.marked p v hv
  · obtain ⟨rfl, rfl⟩ | ⟨-, hv⟩ := setTask_task.mp hv
    · exact hkind
    · exact h.kinds p v hv
  · obtain ⟨rfl, rfl⟩ | ⟨hne, hw⟩ := setTask_task.mp hv <;>
      obtain ⟨rfl, rfl⟩ | ⟨hne', hw'⟩ := setTask_task.mp hv'
    · rfl
    · exact absurd heq.symm (hnew p' v' hw')
    · exact absurd heq (hnew p v hw)
    · exact h.own p p' v v' hw hw' heq

theorem good_fork {a : ForkAnswers} (h : Inv s) (ht : s.task p = some t)
    (hfine : FineCall s t (.fork a)) : Good s (forkCall s p t a) := by
  obtain ⟨hfree, hconns⟩ := hfine
  unfold forkCall
  cases hq : freeTask s with
  | none => exact absurd hq hfree
  | some q =>
    obtain ⟨hlt, hnone⟩ := freeTask_spec hq
    have hne : q ≠ p := fun heq => by
      rw [heq, ht] at hnone
      cases hnone
    have hparent : Inv (s.setTask p (some (addChild t q))) :=
      h.keep ht rfl rfl rfl fun c hc => addChild_lt (h.children p t ht) hlt hc
    have hsame : tables (s.setTask p (some (addChild t q))) = tables s := tables_keep ht rfl
    simp only
    split
    · exact .same h _
    · split
      · exact ⟨_, _, rfl, hparent, fun _ => hsame⟩
      · split
        · exact ⟨_, _, rfl, hparent.newBrick (forkInput t a.conns) (Nat.lt_succ_self _), fun _ => hsame⟩
        · rename_i himage hposix hfinished
          have hall := hconns (by simpa using himage) (by simpa using hposix)
            (by simpa using hfinished)
          have hbrick := hparent.newBrick (forkInput t a.conns) (Nat.lt_succ_self _)
          refine .ok (hbrick.newTask (u := { t with pid := q, posix := s.next, exitCode := 0xAAAA })
            hlt rfl (h.children p t ht) (Nat.lt_succ_self _) (fun p' v hv => ?_) (fun fd hfd => ?_)
            (h.kinds p t ht)) (Int.natCast_nonneg q)
          · exact Nat.ne_of_lt (hparent.brick p' v hv)
          · change usedFd t fd ↔ (if s.next = s.next then forkInput t a.conns fd else _).isSome
            rw [if_pos rfl]
            exact forkInput_isSome hfd (h.kinds p t ht fd hfd) (hall fd hfd)

/-! ## Runs -/

theorem getTask_spec {pid : Int} (h : s.getTask pid = some t) : s.task pid.toNat = some t := by
  unfold State.getTask at h
  split at h
  · exact h
  · cases h

theorem good_trans {e : Int × Call} (h : Inv s) (hfine : Fine s e) : Good s (trans s e) := by
  obtain ⟨pid, call⟩ := e
  obtain ⟨t, hget, hcall⟩ := hfine
  have ht := getTask_spec hget
  rw [trans, hget, Option.bind_some]
  cases call with
  | exit status killed => exact good_keep h ht rfl rfl rfl (h.children _ t ht)
  | «open» path flags found created connects index => exact good_open h ht hcall
  | close fd disconnects => exact good_close h ht hcall
  | fork answers => exact good_fork h ht hcall
  | execve built removed =>
    have hbuilt : built = true := hcall
    simp only [callOf, execveCall, hbuilt, if_true]
    exact good_keep h ht rfl rfl rfl (h.children _ t ht)
  | pipe => exact good_pipe h hcall
  | stat found =>
    simp only [callOf]
    split
    · exact .same h _
    · exact .same h _
  | getdents fd found => exact good_getdents h hcall
  | dup oldfd connects => exact good_dup h ht hcall
  | dup2 oldfd newfd disconnects connects => exact good_dup2 h ht hcall
  | wait4 waitpid => exact good_wait4 h ht hcall
  | unknown nr => exact .same h _

theorem Inv.createProcess {found built : Bool} (h : Inv s)
    (hcreate : createProcess s found built = some s') : Inv s' := by
  unfold StratNative.createProcess at hcreate
  split at hcreate
  · exact Option.some.inj hcreate ▸ h
  · cases hp : freeTask s with
    | none => simp [hp] at hcreate
    | some p =>
      rw [hp] at hcreate
      simp only at hcreate
      split at hcreate
      · exact Option.some.inj hcreate ▸ h
      · rw [← Option.some.inj hcreate]
        have hbrick := h.newBrick (fun i => if i < 3 then some (s.next + 1 + i, (0 : Int)) else none)
          (Nat.lt_add_of_pos_right (by decide : 0 < 4))
        refine hbrick.newTask (freeTask_spec hp).1 rfl ?_ ?_ (fun p' v hv => ?_)
          (fun fd hfd => ?_) (fun fd hfd hused => ?_)
        · intro c hc
          rw [List.eq_of_mem_replicate hc]
          decide
        · exact Nat.lt_add_of_pos_right (by decide)
        · exact Nat.ne_of_lt (h.brick p' v hv)
        · unfold usedFd stdFd
          by_cases hstd : fd < 3 <;> simp [hstd, Filedes.empty]
        · right
          unfold usedFd stdFd at hused
          by_cases hstd : fd < 3
          · simp [stdFd, hstd]
          · simp [hstd, Filedes.empty] at hused

theorem Inv.init (hs : Init s) : Inv s := by
  obtain ⟨fsAddr, found, built, hfs, hcreate⟩ := hs
  have hempty : Inv (State.empty fsAddr) :=
    ⟨hfs, fun _ _ h => (by cases h), fun _ _ h => (by cases h), fun _ _ h => (by cases h),
      fun _ _ h => (by cases h), fun _ _ h => (by cases h), fun _ _ _ _ h => (by cases h)⟩
  exact hempty.createProcess hcreate

/-- What one call does to the state. -/
def step (s : State) (e : Int × Call) : Option State := (trans s e).map (·.1)

theorem Inv.of_reach (h : Reach step Init Fine s) : Inv s := by
  refine h.invariant (fun _ => Inv.init) fun s e s' hinv hfine hstep => ?_
  obtain ⟨s₁, r, htrans, hs₁, -⟩ := good_trans hinv hfine
  rw [step, htrans, Option.map_some, Option.some.injEq] at hstep
  exact hstep ▸ hs₁

/-- **The tables hold through every run of fine calls.** Descriptors are used exactly when their
inputs are connected, the next fine call stays in the tables, and if it fails both are as before. -/
theorem tables_hold (h : Reach step Init Fine s) :
    Marked s ∧ ∀ e, Fine s e →
      ∃ s' r, trans s e = some (s', r) ∧ (r.failed → tables s' = tables s) := by
  have hinv := Inv.of_reach h
  refine ⟨hinv.marked, fun e hfine => ?_⟩
  obtain ⟨s', r, htrans, -, htables⟩ := good_trans hinv hfine
  exact ⟨s', r, htrans, htables⟩

/-- The file system is brick 1, and the first process has started. -/
def booted : State := (createProcess (.empty 1) true true).getD (.empty 1)

/-- A descriptor is copied, and then a file is found and cannot be connected. -/
theorem tables_hold_refused : ∃ s s' r, step booted (0, .dup 0 true) = some s ∧ Marked s ∧
    trans s (0, .open "/a" 0 true false false 0) = some (s', r) ∧ r.failed ∧ tables s' = tables s := by
  obtain ⟨t, ht⟩ : ∃ t, booted.getTask 0 = some t := Option.isSome_iff_exists.mp (by decide)
  obtain ⟨s, hs⟩ : ∃ s, step booted (0, .dup 0 true) = some s :=
    Option.isSome_iff_exists.mp (by decide)
  have hview : ((step booted (0, .dup 0 true)).map fun s => ((s.getTask 0).isSome,
      (trans s (0, .open "/a" 0 true false false 0)).map (·.2))) =
      some (true, some ⟨false, -1, .enoent⟩) := by
    decide
  rw [hs, Option.map_some, Option.some.injEq, Prod.mk.injEq] at hview
  obtain ⟨u, hu⟩ := Option.isSome_iff_exists.mp hview.1
  have hfine : Fine booted (0, .dup 0 true) := ⟨t, ht, by decide, fun _ _ => rfl⟩
  have hreach : Reach step Init Fine s := .next (.start ⟨1, true, true, by decide, rfl⟩) hfine hs
  obtain ⟨hmarked, hcall⟩ := tables_hold hreach
  obtain ⟨s', r, htrans, htables⟩ := hcall (0, .open "/a" 0 true false false 0)
    ⟨u, hu, fun _ _ _ hconnects => by cases hconnects⟩
  rw [htrans, Option.map_some, Option.some.injEq] at hview
  obtain rfl := hview.2
  exact ⟨s, s', _, hs, hmarked, htrans, .inl rfl, htables (.inl rfl)⟩

/-- The copy of a descriptor cannot be connected, after the old one has been closed. And a descriptor
number is used as it is. -/
theorem tables_break : Reach step Init anyEvent booted ∧
    trans booted (0, .close 64 true) = none ∧
    ∃ s r, trans booted (0, .dup2 0 1 true false) = some (s, r) ∧ r.failed ∧ ¬ Marked s ∧
      tables s ≠ tables booted := by
  obtain ⟨⟨s, r⟩, hs⟩ : ∃ o, trans booted (0, .dup2 0 1 true false) = some o :=
    Option.isSome_iff_exists.mp (by decide)
  have hview : (trans booted (0, .dup2 0 1 true false)).map (fun o => (o.2, (o.1.task 0).map fun t =>
      ((t.fd 1).addr, o.1.input t.posix 1))) = some (⟨false, -1, .ebadf⟩, some (3, none)) := by
    decide
  rw [hs, Option.map_some, Option.some.injEq, Prod.mk.injEq] at hview
  obtain ⟨rfl, hview⟩ := hview
  obtain ⟨t, ht, hview⟩ := Option.map_eq_some_iff.mp hview
  rw [Prod.mk.injEq] at hview
  refine ⟨.start ⟨1, true, true, by decide, rfl⟩, by decide, s, _, hs, .inl rfl, fun h => ?_,
    fun h => ?_⟩
  · have hconn := (h 0 t ht 1 (by decide)).mp (by simp [usedFd, hview.1])
    rw [hview.2] at hconn
    cases hconn
  · have hold : ((tables booted 0).map fun fds => (fds 1).addr) = some 4 := by decide
    have hnew : ((tables s 0).map fun fds => (fds 1).addr) = some 3 := by
      rw [tables, ht, Option.map_some, Option.map_some, hview.1]
    rw [h, hold] at hnew
    cases hnew

end Athomux.StratNative
