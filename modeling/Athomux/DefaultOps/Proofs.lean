import Athomux.DefaultOps.Spec

/-!
# When the default combined operations are right

Most of them are chains: one call after the other, up to the first that fails, with `success` reset in
between. What such a chain calls and reports is said once.
-/

namespace Athomux.DefaultOps

variable {r : Nat → Reply} {f g : Exec → Exec} {l l' : List Opcode}

/-! ## Chains of calls -/

/-- What is called from the `n`-th call on, up to the first that fails. -/
def called (r : Nat → Reply) : Nat → List Opcode → List (Opcode × Bool)
  | _, [] => []
  | n, op :: l => bif (r n).ok then (op, true) :: called r (n + 1) l else [(op, false)]

def allOk (r : Nat → Reply) : Nat → List Opcode → Bool
  | _, [] => true
  | n, _ :: l => (r n).ok && allOk r (n + 1) l

structure Chain (r : Nat → Reply) (f : Exec → Exec) (l : List Opcode) : Prop where
  success : ∀ s, s.args.success = false → (f s).args.success = allOk r s.log.length l
  log : ∀ s, s.args.success = false → (f s).log = s.log ++ called r s.log.length l

theorem length_log (s : Exec) : s.log.length = s.calls.length := List.length_map _

@[simp] theorem log_set (s : Exec) (p : Args → Args) : (s.set p).log = s.log := rfl

theorem log_call (op : Opcode) (s : Exec) :
    (call r op s).log = s.log ++ [(op, (r s.log.length).ok)] := by
  unfold call Exec.log
  rw [List.map_append, List.length_map]
  rfl

theorem success_call (op : Opcode) {s : Exec} (h : s.args.success = false) :
    (call r op s).args.success = (r s.log.length).ok := by
  have hreport : ∀ o : Outcome, o.report false = decide (o = .ok) := by
    intro o
    cases o <;> rfl
  rw [length_log, Reply.ok, ← hreport, ← h]
  rfl

theorem chain_call (op : Opcode) : Chain r (call r op) [op] where
  success := by
    intro s hs
    rw [success_call op hs, allOk, allOk, Bool.and_true]
  log := by
    intro s hs
    rw [log_call, called, called]
    cases (r s.log.length).ok <;> rfl

/-- Fields other than `success` do not matter. -/
theorem Chain.after (hf : Chain r f l) {p : Args → Args}
    (hp : ∀ a, (p a).success = a.success) : Chain r (fun s => f (s.set p)) l where
  success := fun s hs => hf.success (s.set p) ((hp s.args).trans hs)
  log := fun s hs => hf.log (s.set p) ((hp s.args).trans hs)

theorem Chain.enter (hf : Chain r f l) (op : Opcode) : Chain r (enter op f) l :=
  hf.after fun _ => rfl

theorem chain_elem (op : Opcode) : Chain r (elem r op) [op] := (chain_call op).enter op

theorem called_length (n : Nat) (l : List Opcode) (h : allOk r n l = true) :
    (called r n l).length = l.length := by
  induction l generalizing n with
  | nil => rfl
  | cons op l ih =>
    rw [allOk, Bool.and_eq_true] at h
    rw [called, h.1, cond_true, List.length_cons, List.length_cons, ih (n + 1) h.2]

theorem called_append (n : Nat) (l l' : List Opcode) : called r n (l ++ l') =
    called r n l ++ bif allOk r n l then called r (n + l.length) l' else [] := by
  induction l generalizing n with
  | nil => simp [called, allOk]
  | cons op l ih =>
    rw [List.cons_append, called, called, allOk, List.length_cons, ih (n + 1), Nat.add_right_comm,
      ← Nat.add_assoc]
    cases (r n).ok <;> simp

theorem allOk_append (n : Nat) (l l' : List Opcode) :
    allOk r n (l ++ l') = (allOk r n l && allOk r (n + l.length) l') := by
  induction l generalizing n with
  | nil => rw [List.nil_append, allOk, Bool.true_and, List.length_nil, Nat.add_zero]
  | cons op l ih =>
    rw [List.cons_append, allOk, allOk, List.length_cons, ih (n + 1), Nat.add_right_comm,
      Bool.and_assoc, ← Nat.add_assoc]

/-- Two chains one after the other, with `success` reset in between. -/
theorem Chain.andThen (hf : Chain r f l) {p : Args → Args} (hp : ∀ a, (p a).success = false)
    (hg : Chain r g l') : Chain r (andThen f p g) (l ++ l') where
  success := by
    intro s hs
    unfold DefaultOps.andThen
    rw [allOk_append]
    cases hall : allOk r s.log.length l with
    | false =>
      have hfail := (hf.success s hs).trans hall
      simp [hfail]
    | true =>
      have hok := (hf.success s hs).trans hall
      simp only [hok, if_true, Bool.true_and]
      rw [hg.success _ (hp _), log_set, hf.log s hs, List.length_append, called_length _ _ hall]
  log := by
    intro s hs
    unfold DefaultOps.andThen
    rw [called_append]
    cases hall : allOk r s.log.length l with
    | false =>
      have hfail := (hf.success s hs).trans hall
      simp [hfail, hf.log s hs]
    | true =>
      have hok := (hf.success s hs).trans hall
      simp only [hok, if_true, cond_true]
      rw [hg.log _ (hp _), log_set, hf.log s hs, List.length_append, called_length _ _ hall,
        List.append_assoc]

theorem chain_transwait : Chain r (transwait r) [.trans, .wait] :=
  (chain_elem .trans).andThen (fun _ => rfl) (chain_elem .wait)

theorem chain_createget : Chain r (createget r) [.create, .get] :=
  (chain_elem .create).andThen (fun _ => rfl) (chain_elem .get)

theorem chain_gadrcreate : Chain r (gadrcreate r) [.gadr, .create] :=
  ((chain_elem .gadr).andThen (fun _ => rfl) (chain_elem .create)).after fun _ => rfl

theorem chain_gadrcreateget : Chain r (gadrcreateget r) [.gadr, .create, .get] :=
  ((chain_elem .gadr).andThen (fun _ => rfl) (chain_createget.enter .createget)).after fun _ => rfl

theorem chain_putpadr : Chain r (putpadr r) [.put, .padr] :=
  ((chain_elem .put).andThen (fun _ => rfl) (chain_elem .padr)).after fun _ => rfl

theorem chain_putdelete : Chain r (putdelete r) [.put, .delete] :=
  ((chain_elem .put).andThen (fun _ => rfl) (chain_elem .delete)).after fun _ => rfl

theorem chain_deletepadr : Chain r (deletepadr r) [.delete, .padr] :=
  (chain_elem .delete).andThen (fun _ => rfl) (chain_elem .padr)

theorem chain_putdeletepadr : Chain r (putdeletepadr r) [.put, .delete, .padr] :=
  (chain_putdelete.enter .putdelete).andThen (fun _ => rfl) (chain_elem .padr)

/-! ## What a transfer leaves in the arguments -/

theorem lens_call (op : Opcode) (s : Exec) :
    (call r op s).args.physLen = (r s.log.length).physLen ∧
      (call r op s).args.logLen = (r s.log.length).logLen ∧
      (call r op s).args.version = (r s.log.length).version := by
  rw [length_log]
  exact ⟨rfl, rfl, rfl⟩

/-- A `$transwait` that succeeds ends with the reply to `$wait`. -/
theorem lens_transwait {s : Exec} (hs : s.args.success = false)
    (hok : (transwait r s).args.success = true) :
    (transwait r s).args.physLen = (r (s.log.length + 1)).physLen ∧
      (transwait r s).args.logLen = (r (s.log.length + 1)).logLen := by
  have htrans := (chain_elem (r := r) .trans).success s hs
  unfold transwait andThen at hok ⊢
  by_cases hfirst : (elem r .trans s).args.success = true
  · simp only [hfirst, if_true]
    have hlog : ((elem r .trans s).set fun a =>
        { a with success := false, action := .wait }).log.length = s.log.length + 1 := by
      rw [log_set, (chain_elem .trans).log s hs, List.length_append, called_length]
      · rfl
      · rwa [htrans] at hfirst
    rw [← hlog]
    exact ⟨(lens_call .wait _).1, (lens_call .wait _).2.1⟩
  · simp only [hfirst] at hok
    exact absurd hok (by simpa using hfirst)

/-! ## The operations that are no chains -/

/-- The undo of `$gettranswait` is behind the calls of a transfer that fails. -/
def undo (r : Nat → Reply) (n : Nat) : List (Opcode × Bool) :=
  bif allOk r n [.trans, .wait] then []
  else [(.put, (r (n + (called r n [.trans, .wait]).length)).ok)]

theorem set_success (s : Exec) (p : Args → Args) : (s.set p).args.success = (p s.args).success := rfl

theorem gettranswait_eq {s : Exec} (hs : s.args.success = false) {n : Nat} (hn : s.log.length = n) :
    (gettranswait r s).args.success =
        ((r n).ok && (!(r n).stale || allOk r (n + 1) [.trans, .wait])) ∧
      (gettranswait r s).log = s.log ++ (Opcode.get, (r n).ok) ::
        bif (r n).ok && (r n).stale then called r (n + 1) [.trans, .wait] ++ undo r (n + 1)
        else [] := by
  subst hn
  have hget := (chain_elem (r := r) .get).success s hs
  have hlog : (elem r .get s).log = s.log ++ [(.get, (r s.log.length).ok)] := log_call .get _
  have hversion : (elem r .get s).args.version = (r s.log.length).version :=
    (lens_call .get (s.set _)).2.2
  rw [allOk, allOk, Bool.and_true] at hget
  unfold gettranswait
  simp only [hget, hversion]
  cases hok : (r s.log.length).ok with
  | false => simp [hget, hlog, hok]
  | true =>
    by_cases hstale : (r s.log.length).version = .newest
    · simp [hget, hlog, hok, hstale, Reply.stale]
    · have htw := (chain_transwait (r := r)).enter .transwait
      have hstart : ((elem r .get s).set fun a =>
          { a with success := false, direction := .read }).args.success = false := rfl
      have hlen : (elem r .get s).log.length = s.log.length + 1 := by
        rw [hlog, List.length_append]
        rfl
      have hsucc := htw.success _ hstart
      have hcalls := htw.log _ hstart
      rw [log_set, hlen] at hsucc hcalls
      rw [hlog, hok] at hcalls
      simp only [hstale, ne_eq, not_false_iff, and_self, if_true, Reply.stale, decide_true,
        Bool.not_true, Bool.false_or, Bool.true_and, undo]
      rw [hsucc]
      cases hall : allOk r (s.log.length + 1) [.trans, .wait] with
      | true =>
        simp only [if_true]
        refine ⟨hsucc.trans hall, ?_⟩
        rw [hcalls]
        simp
      | false =>
        simp only [Bool.false_eq_true, if_false]
        refine ⟨rfl, ?_⟩
        rw [log_set, log_call, log_set, hcalls]
        simp [Nat.add_assoc, Nat.add_comm 1]

theorem transferAll_eq (hf : Chain r f l) {s : Exec} {n : Nat} (hn : s.log.length = n) :
    (transferAll r f s).args.success = (allOk r n [.trans, .wait] &&
        (decide ((r (n + 1)).physLen ≠ (r (n + 1)).logLen) || allOk r (n + 2) l)) ∧
      (transferAll r f s).log = s.log ++ called r n [.trans, .wait] ++
        bif allOk r n [.trans, .wait] && decide ((r (n + 1)).physLen = (r (n + 1)).logLen) then
          called r (n + 2) l else [] := by
  subst hn
  have hstart : (s.set fun a =>
      { a with success := false, direction := .read }).args.success = false := rfl
  have htw := (chain_transwait (r := r)).enter .transwait
  have hsucc := htw.success _ hstart
  have hcalls := htw.log _ hstart
  rw [log_set] at hsucc hcalls
  unfold transferAll
  cases hall : allOk r s.log.length [.trans, .wait] with
  | false =>
    have hfail := hsucc.trans hall
    simp [hfail, hcalls]
  | true =>
    have hok := hsucc.trans hall
    have hlens := lens_transwait (r := r) (s := (s.set fun a =>
      { a with success := false, direction := .read }).set fun a => { a with opCode := .transwait })
      rfl hok
    rw [log_set, log_set] at hlens
    have hlen : (enter .transwait (transwait r) (s.set fun a =>
        { a with success := false, direction := .read })).log.length = s.log.length + 2 := by
      rw [hcalls, List.length_append, called_length _ _ hall]
      rfl
    unfold enter at hok hlen hcalls ⊢
    simp only [hok, hlens, true_and, Bool.true_and]
    by_cases heq : (r (s.log.length + 1)).physLen = (r (s.log.length + 1)).logLen
    · simp only [heq, if_true, ne_eq, not_true, decide_false, Bool.false_or]
      rw [hf.success _ rfl, hf.log _ rfl, log_set, hlen, hcalls]
      exact ⟨rfl, rfl⟩
    · simp [heq, hok, hcalls]

/-! ## What each operation does, call by call -/

/-- The state that an operation begins in. -/
abbrev begin (op : Opcode) (a : Args) : Exec := ⟨{ a with success := false, opCode := op }, []⟩

theorem right_chain (h : Chain r f l) (op : Opcode) (a : Args) (l' : List Opcode) :
    Right (f (begin op a)).args.success (f (begin op a)).log l' ↔
      Right (allOk r 0 l) (called r 0 l) l' := by
  rw [h.success _ rfl, h.log _ rfl]
  rfl

theorem putwait_eq (op : Opcode) (a : Args) :
    (putwait r (begin op a)).args.success = ((r 0).ok && decide ((r 1).outcome ≠ .cleared)) ∧
      (putwait r (begin op a)).log =
        (Opcode.put, (r 0).ok) :: bif (r 0).ok then [(.wait, (r 1).ok)] else [] := by
  have hput := (chain_elem (r := r) .put).success (begin op a) rfl
  have hlog : (elem r .put (begin op a)).log = [(.put, (r 0).ok)] := log_call .put _
  rw [allOk, allOk, Bool.and_true] at hput
  have hput : (elem r .put (begin op a)).args.success = (r 0).ok := hput
  unfold putwait andThen
  simp only [hput]
  cases hok : (r 0).ok with
  | false => simp [hput, hlog, hok]
  | true =>
    have hwait : (elem r .wait ((elem r .put (begin op a)).set id)).args.success =
        (r 1).outcome.report true := by
      rw [← hok, ← hput]
      rfl
    have hreport : ∀ o : Outcome, o.report true = decide (o ≠ .cleared) := by
      intro o
      cases o <;> rfl
    simp only [if_true, Bool.true_and]
    refine ⟨hwait.trans (hreport _), ?_⟩
    have hcall : (elem r .wait ((elem r .put (begin op a)).set id)).log =
        (elem r .put (begin op a)).log ++ [(.wait, (r (elem r .put (begin op a)).log.length).ok)] :=
      log_call .wait _
    rw [hcall, hlog, hok]
    rfl

theorem transwaitput_eq (op : Opcode) (a : Args) :
    (transwaitput r (begin op a)).args.success =
        ((r (called r 0 [.trans, .wait]).length).ok && allOk r 0 [.trans, .wait]) ∧
      (transwaitput r (begin op a)).log = called r 0 [.trans, .wait] ++
        [(.put, (r (called r 0 [.trans, .wait]).length).ok)] := by
  have htw := (chain_transwait (r := r)).enter .transwait
  have hsucc := htw.success ((begin op a).set fun a => { a with direction := .write }) rfl
  have hcalls := htw.log ((begin op a).set fun a => { a with direction := .write }) rfl
  have hput := fun s hs => (chain_elem (r := r) .put).success s hs
  unfold transwaitput
  rw [log_set, set_success, hput _ rfl, log_set, hsucc, hcalls, allOk, allOk, Bool.and_true]
  refine ⟨rfl, ?_⟩
  have hlog := log_call (r := r) .put (((enter .transwait (transwait r)
    ((begin op a).set fun a => { a with direction := .write })).set fun a =>
    { a with success := false }).set fun a => { a with opCode := .put })
  rw [log_set, log_set, hcalls] at hlog
  exact hlog

/-! ## When they are right -/

theorem right_call (op : Opcode) : Right (allOk r 0 [op]) (called r 0 [op]) [op] := by
  simp only [allOk, called]
  cases (r 0).ok <;> cases op <;> decide

/-- Nothing is acquired by a chain that only releases. -/
theorem right_two {op op' : Opcode} (h : Clean [(op, true), (op', false)]) :
    Right (allOk r 0 [op, op']) (called r 0 [op, op']) [op, op'] := by
  have hfirst : Clean [(op, false)] := by
    cases op <;> decide
  simp only [allOk, called, Right]
  cases (r 0).ok <;> cases (r 1).ok <;> simp [h, hfirst]

theorem right_acquire {op op' : Opcode} (h : ¬ Clean [(op, true), (op', false)]) :
    Right (allOk r 0 [op, op']) (called r 0 [op, op']) [op, op'] ↔ ((r 0).ok → (r 1).ok) := by
  have hfirst : Clean [(op, false)] := by
    cases op <;> decide
  simp only [allOk, called, Right]
  cases (r 0).ok <;> cases (r 1).ok <;> simp [h, hfirst]

theorem right_gadrcreateget : Right (allOk r 0 [.gadr, .create, .get])
    (called r 0 [.gadr, .create, .get]) [.gadr, .create, .get] ↔
      ((r 0).ok → (r 1).ok ∧ (r 2).ok) := by
  simp only [allOk, called]
  cases (r 0).ok <;> cases (r 1).ok <;> cases (r 2).ok <;> decide

theorem right_putdeletepadr : Right (allOk r 0 [.put, .delete, .padr])
    (called r 0 [.put, .delete, .padr]) [.put, .delete, .padr] := by
  simp only [allOk, called]
  cases (r 0).ok <;> cases (r 1).ok <;> cases (r 2).ok <;> decide

theorem right_putwait (op : Opcode) (a : Args) :
    Right (putwait r (begin op a)).args.success (putwait r (begin op a)).log [.put, .wait] ↔
      ((r 0).ok → (r 1).outcome ≠ .unset) := by
  rw [(putwait_eq op a).1, (putwait_eq op a).2]
  unfold Reply.ok
  cases (r 0).outcome <;> cases (r 1).outcome <;> decide

theorem right_transwaitput (op : Opcode) (a : Args) :
    Right (transwaitput r (begin op a)).args.success (transwaitput r (begin op a)).log
      [.trans, .wait, .put] := by
  rw [(transwaitput_eq op a).1, (transwaitput_eq op a).2]
  simp only [allOk, called]
  cases h0 : (r 0).ok <;> cases h1 : (r 1).ok <;> cases h2 : (r 2).ok <;>
    simp [h1, h2] <;> decide

/-- A transfer, and the undo if it fails. -/
theorem called_undo (n : Nat) : called r n [.trans, .wait] ++ undo r n =
    bif (r n).ok then
      bif (r (n + 1)).ok then [(.trans, true), (.wait, true)]
      else [(.trans, true), (.wait, false), (.put, (r (n + 2)).ok)]
    else [(.trans, false), (.put, (r (n + 1)).ok)] := by
  simp only [undo, allOk, called]
  cases h : (r n).ok <;> cases h' : (r (n + 1)).ok <;> simp [h']

theorem right_gettranswait (op : Opcode) (a : Args) :
    Right (gettranswait r (begin op a)).args.success (gettranswait r (begin op a)).log
        (if (r 0).stale then [.get, .trans, .wait] else [.get]) ↔
      ((r 0).ok → (r 0).stale →
        ((r 1).ok = false → (r 2).ok) ∧ ((r 1).ok → (r 2).ok = false → (r 3).ok)) := by
  have heq := gettranswait_eq (r := r) (s := begin op a) rfl (n := 0) rfl
  rw [heq.1, heq.2, called_undo]
  simp only [allOk, Nat.reduceAdd, Exec.log, List.map_nil, List.nil_append]
  cases (r 0).ok <;> cases (r 0).stale <;> cases (r 1).ok <;> cases (r 2).ok <;>
    cases (r 3).ok <;> decide

theorem right_gadrgettranswait (op : Opcode) (a : Args) :
    Right (gadrgettranswait r (begin op a)).args.success (gadrgettranswait r (begin op a)).log
        (if (r 1).stale then [.gadr, .get, .trans, .wait] else [.gadr, .get]) ↔
      ((r 0).ok → (r 1).ok ∧ ((r 1).stale → (r 2).ok ∧ (r 3).ok)) := by
  have hgadr := (chain_elem (r := r) .gadr).success
    ((begin op a).set fun a => { a with reader := true }) rfl
  have hlog : (elem r .gadr ((begin op a).set fun a => { a with reader := true })).log =
      [(.gadr, (r 0).ok)] := log_call .gadr _
  have hgadr : (elem r .gadr ((begin op a).set fun a => { a with reader := true })).args.success =
      (r 0).ok := by
    rw [hgadr, allOk, allOk, Bool.and_true]
    rfl
  have heq := gettranswait_eq (r := r) (n := 1)
    (s := ((elem r .gadr ((begin op a).set fun a => { a with reader := true })).set fun a =>
      { a with success := false }).set fun a => { a with opCode := .gettranswait }) rfl
    (by rw [log_set, log_set, hlog]; rfl)
  unfold gadrgettranswait andThen enter
  simp only [hgadr]
  cases h0 : (r 0).ok with
  | false =>
    simp only [Bool.false_eq_true, if_false]
    rw [hgadr, hlog, h0]
    cases (r 1).stale <;> cases (r 1).ok <;> cases (r 2).ok <;> cases (r 3).ok <;> decide
  | true =>
    simp only [if_true]
    rw [heq.1, heq.2, log_set, log_set, hlog, h0, called_undo]
    simp only [allOk, Nat.reduceAdd]
    cases (r 1).ok <;> cases (r 1).stale <;> cases (r 2).ok <;> cases (r 3).ok <;>
      cases (r 4).ok <;> decide

/-- A chain, and a transfer with another chain behind it. -/
theorem transfer_eq (hf : Chain r f l) (hg : Chain r g l') (p : Args → Args)
    (hp : ∀ a, (p a).success = a.success) (op : Opcode) (a : Args) :
    (andThen f id (transferAll r g) ((begin op a).set p)).args.success =
        (allOk r 0 l && (allOk r l.length [.trans, .wait] &&
          (decide ((r (l.length + 1)).physLen ≠ (r (l.length + 1)).logLen) ||
            allOk r (l.length + 2) l'))) ∧
      (andThen f id (transferAll r g) ((begin op a).set p)).log =
        called r 0 l ++ bif allOk r 0 l then called r l.length [.trans, .wait] ++
          (bif allOk r l.length [.trans, .wait] &&
              decide ((r (l.length + 1)).physLen = (r (l.length + 1)).logLen) then
            called r (l.length + 2) l' else []) else [] := by
  have hstart : ((begin op a).set p).args.success = false := hp _
  have hsucc := hf.success _ hstart
  have hlog := hf.log _ hstart
  rw [log_set] at hsucc hlog
  unfold andThen
  cases hall : allOk r 0 l with
  | false =>
    have hfail : (f ((begin op a).set p)).args.success = false := hsucc.trans hall
    simp only [hfail, Bool.false_eq_true, if_false, Bool.false_and, cond_false, List.append_nil]
    exact ⟨trivial, hlog⟩
  | true =>
    have hok : (f ((begin op a).set p)).args.success = true := hsucc.trans hall
    have hlen : ((f ((begin op a).set p)).set id).log.length = l.length := by
      rw [log_set, hlog, List.length_append, ← called_length 0 l hall]
      exact Nat.zero_add _
    have heq := transferAll_eq hg hlen
    simp only [hok, if_true, Bool.true_and]
    rw [heq.1, heq.2, log_set, hlog]
    refine ⟨rfl, ?_⟩
    rw [List.append_assoc]
    rfl

theorem right_gadrtranswaitdeletepadr (op : Opcode) (a : Args) :
    Right (gadrtranswaitdeletepadr r (begin op a)).args.success
        (gadrtranswaitdeletepadr r (begin op a)).log [.gadr, .trans, .wait, .delete, .padr] ↔
      ((r 0).ok → (r 1).ok ∧ (r 2).ok ∧ (r 2).physLen = (r 2).logLen ∧ (r 3).ok ∧ (r 4).ok) := by
  have heq := transfer_eq (chain_elem (r := r) .gadr) ((chain_elem (r := r) .delete).andThen
    (p := fun a => { a with success := false }) (fun _ => rfl) (chain_elem .padr)) exclusive
    (fun _ => rfl) op a
  unfold gadrtranswaitdeletepadr
  rw [heq.1, heq.2]
  simp only [allOk, called, List.length_singleton, Nat.reduceAdd, List.cons_append, List.nil_append]
  by_cases hlens : (r 2).physLen = (r 2).logLen
  · simp only [hlens, ne_eq, not_true, decide_false, Bool.false_or, true_and]
    cases (r 0).ok <;> cases (r 1).ok <;> cases (r 2).ok <;> cases (r 3).ok <;>
      cases (r 4).ok <;> decide
  · simp only [hlens, ne_eq, not_false_iff, decide_true, decide_false, Bool.true_or, Bool.and_false,
      cond_false, and_false, false_and]
    cases (r 0).ok <;> cases (r 1).ok <;> cases (r 2).ok <;> decide

theorem right_gadrcreatetranswaitpadr (op : Opcode) (a : Args) :
    Right (gadrcreatetranswaitpadr r (begin op a)).args.success
        (gadrcreatetranswaitpadr r (begin op a)).log [.gadr, .create, .trans, .wait, .padr] ↔
      ((r 0).ok → (r 1).ok ∧ (r 2).ok ∧ (r 3).ok ∧ (r 3).physLen = (r 3).logLen ∧ (r 4).ok) := by
  have heq := transfer_eq ((chain_elem (r := r) .gadr).andThen
    (p := fun a => { a with success := false, clear := false, melt := true }) (fun _ => rfl)
    (chain_elem .create)) (chain_elem (r := r) .padr) exclusive (fun _ => rfl) op a
  unfold gadrcreatetranswaitpadr
  rw [heq.1, heq.2]
  simp only [allOk, called, List.cons_append, List.nil_append, List.length_cons, List.length_nil,
    Nat.reduceAdd]
  by_cases hlens : (r 3).physLen = (r 3).logLen
  · simp only [hlens, ne_eq, not_true, decide_false, Bool.false_or, true_and]
    cases (r 0).ok <;> cases (r 1).ok <;> cases (r 2).ok <;> cases (r 3).ok <;>
      cases (r 4).ok <;> decide
  · simp only [hlens, ne_eq, not_false_iff, decide_true, decide_false, Bool.true_or, Bool.and_false,
      cond_false, and_false, false_and]
    cases (r 0).ok <;> cases (r 1).ok <;> cases (r 2).ok <;> cases (r 3).ok <;> decide

/-- **When a default is right.** For each operation, and whatever the brick replies. -/
theorem default_right (r : Nat → Reply) (op : Opcode) (a : Args) :
    Right (exec r op a).args.success (exec r op a).log (steps r op) ↔ Supported r op := by
  unfold exec
  cases op with
  | transwait => exact iff_of_true ((right_chain chain_transwait _ _ _).mpr
      (right_two (by decide))) trivial
  | gettranswait => exact right_gettranswait _ _
  | transwaitput => exact iff_of_true (right_transwaitput _ _) trivial
  | putwait => exact right_putwait _ _
  | createget => exact (right_chain chain_createget _ _ _).trans (right_acquire (by decide))
  | gadrcreate => exact (right_chain chain_gadrcreate _ _ _).trans (right_acquire (by decide))
  | gadrcreateget => exact (right_chain chain_gadrcreateget _ _ _).trans right_gadrcreateget
  | gadrgettranswait => exact right_gadrgettranswait _ _
  | putpadr => exact iff_of_true ((right_chain chain_putpadr _ _ _).mpr
      (right_two (by decide))) trivial
  | putdelete => exact iff_of_true ((right_chain chain_putdelete _ _ _).mpr
      (right_two (by decide))) trivial
  | deletepadr => exact iff_of_true ((right_chain chain_deletepadr _ _ _).mpr
      (right_two (by decide))) trivial
  | putdeletepadr => exact iff_of_true ((right_chain chain_putdeletepadr _ _ _).mpr
      right_putdeletepadr) trivial
  | gadrtranswaitdeletepadr => exact right_gadrtranswaitdeletepadr _ _
  | gadrcreatetranswaitpadr => exact right_gadrcreatetranswaitpadr _ _
  | gadr | padr | create | delete | get | put | trans | wait =>
    exact iff_of_true ((right_chain (chain_call _) _ _ _).mpr (right_call _)) trivial

/-- `$put` succeeds, `$wait` does not, and `$putwait` reports success. The address that `$gadrcreate`
has got stays behind when `$create` fails. -/
theorem defaults_wrong : ∃ (r : Nat → Reply) (a : Args),
    (exec r .putwait a).log = [(.put, true), (.wait, false)] ∧
      (exec r .putwait a).args.success = true ∧
      (exec r .gadrcreate a).args.success = false ∧
      left .address (exec r .gadrcreate a).log = 1 ∧
      ¬ ∀ op, Right (exec r op a).args.success (exec r op a).log (steps r op) := by
  refine ⟨fun n => ⟨if n = 0 then .ok else .unset, .newest, 0, 0⟩,
    ⟨0, 0, 0, false, false, false, .read, .none, false, false, .ask, false, .undef, .put⟩,
    by decide, by decide, by decide, by decide, ?_⟩
  intro h
  exact absurd (h .putwait) (by decide)

end Athomux.DefaultOps
