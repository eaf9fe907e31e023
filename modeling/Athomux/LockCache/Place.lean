import Athomux.AthStdio.Spec
import Athomux.Lib.Ledger
import Athomux.Lib.Undo
import Athomux.Strat.Scan

/-!
# A lock cache in front of an input

`insert_cache` of `#strat_lock_cache_place`. What a command does in the strategy nest is as its text
says, and a command that fails does nothing. The commands that undo something do not fail. Two of them
have a target that is not printed as it is meant, and the nest reads their text.
-/

open Lib

namespace Athomux.CachePlace

/-- `addr_t`. -/
abbrev Addr := Nat

abbrev Text := List Char

/-- `struct conn_target_rec`. -/
structure ConnTarget where
  brickAddr : Addr
  name : String
  deriving DecidableEq

/-- `struct conn_rec`. -/
structure ConnRec where
  name : String
  isInput : Bool
  target : Option ConnTarget

/-- A brick of the nest. It has the parameter of its initialization while it is initialized. -/
structure Brick where
  name : String
  input : String → Option ConnTarget
  param : Option String

/-! ## Commands -/

inductive Cmd
  /-- `brick:=name { connect ..:=.. }` -/
  | create (name : String) (conn : String) (target : ConnTarget)
  /-- `brick/=name` -/
  | destroy
  /-- `connect name:=target` -/
  | connect (name : String) (target : ConnTarget)
  /-- `connect name:=` with a text for the target -/
  | connectText (name : String) (text : Text)
  /-- `connect name/=target` -/
  | disconnect (name : String) (target : ConnTarget)
  /-- `brick+=name { b_param:=.. }` -/
  | init (param : String)
  /-- `brick-=name` -/
  | shutdown

/-- What the nest reads as the target of a connection. -/
def readTarget (text : Text) : Option ConnTarget :=
  match Strat.scanConnstraddr ⟨0, 0, []⟩ text with
  | some (true, conn, _) => some ⟨conn.addr, String.ofList conn.name⟩
  | _ => none

/-- What becomes of the brick at the address of the command. -/
def Cmd.apply : Cmd → Option Brick → Option Brick
  | create name conn target, _ => some ⟨name, Function.update (fun _ => none) conn target, none⟩
  | destroy, _ => none
  | connect name target, b => b.map fun b =>
    { b with input := Function.update b.input name (some target) }
  | connectText name text, b => b.map fun b =>
    match readTarget text with
    | some target => { b with input := Function.update b.input name (some target) }
    -- There is nothing to connect to, and the rest of the line is skipped.
    | none => b
  | disconnect name target, b => b.map fun b =>
    if b.input name = some target then { b with input := Function.update b.input name none } else b
  | init param, b => b.map fun b => { b with param := some param }
  | shutdown, b => b.map fun b => { b with param := none }

/-- The bricks, what was allocated and freed, and the variable `cache_addr`. -/
structure State where
  brick : Addr → Option Brick
  log : List (Booking Addr)
  cacheAddr : Addr

namespace State

def athnestprintf (s : State) (addr : Addr) (cmd : Cmd) : State :=
  { s with brick := Function.update s.brick addr (cmd.apply (s.brick addr)) }

def gadrcreate (s : State) (addr : Addr) : State := { s with log := s.log ++ [.take addr] }

def deletepadr (s : State) (addr : Addr) : State := { s with log := s.log ++ [.give addr] }

end State

/-! ## The function -/

/-- What can fail, in the order of the code. -/
inductive Step
  | allocSelector | createSelector | allocCache | createCache | disconnect | connectCache
  | connectInput | initSelector | initCache
  deriving DecidableEq

/-- A call with the answers of the nest. `cacheAddr` is what is in the variable of the caller, and
`left` what an allocation that fails leaves in it. `$trans` looks at the connection before the call. -/
structure Call where
  brick : Addr → Option Brick
  memConn : ConnTarget
  brickAddr : Addr
  conn : ConnRec
  target : ConnTarget
  cacheAddr : Addr
  fails : Step → Bool
  selector : Addr
  cache : Addr
  left : Addr
  is_input : conn.isInput = true
  is_target : conn.target = some target
  /-- The record of the connection was read from the nest. -/
  connected : ∃ b, brick brickAddr = some b ∧ b.input conn.name = some target
  selector_new : brick selector = none
  cache_new : brick cache = none
  cache_ne : cache ≠ selector
  /-- The address 0 is the directory. -/
  cache_pos : 0 < cache

def Call.start (c : Call) : State := ⟨c.brick, [], c.cacheAddr⟩

/-- What `athnestprintf` makes of `0x%llX:%s`: it takes `%l` for the address, and the rest as it is. -/
def llxTarget (target : ConnTarget) : Text :=
  "0x".toList ++ ((AthStdio.hex target.brickAddr).text ++ ("lX:".toList ++ target.name.toList))

/-- The blocks of `insert_cache`. Each has the command of its `if`, and what stands at its end. -/
def blocks (c : Call) (name : String) (target : ConnTarget) : List (Lib.Block State) :=
  [⟨c.fails .allocSelector, id, fun s => s.gadrcreate c.selector,
    fun s => s.deletepadr s.cacheAddr⟩,
   ⟨c.fails .createSelector, id,
    fun s => s.athnestprintf c.selector (.create "map_select" "in" c.memConn),
    fun s => s.athnestprintf s.cacheAddr .destroy⟩,
   ⟨c.fails .allocCache, fun s => { s with cacheAddr := c.left },
    fun s => { s.gadrcreate c.cache with cacheAddr := c.cache },
    fun s => s.deletepadr c.selector⟩,
   ⟨c.fails .createCache, id,
    fun s => s.athnestprintf s.cacheAddr (.create "lock_cache" "tmp" ⟨c.selector, "out"⟩),
    fun s => s.athnestprintf c.selector .destroy⟩,
   ⟨c.fails .disconnect, id, fun s => s.athnestprintf c.brickAddr (.disconnect name target),
    fun s => s.athnestprintf c.brickAddr (.connectText name (llxTarget target))⟩,
   ⟨c.fails .connectCache, id, fun s => s.athnestprintf s.cacheAddr (.connect "in" target),
    -- the text has := once more
    fun s => s.athnestprintf s.cacheAddr (.connectText "in" (llxTarget target))⟩,
   ⟨c.fails .connectInput, id,
    fun s => s.athnestprintf c.brickAddr (.connect name ⟨s.cacheAddr, "out"⟩),
    fun s => s.athnestprintf c.brickAddr (.disconnect name ⟨s.cacheAddr, "out"⟩)⟩,
   ⟨c.fails .initSelector, id, fun s => s.athnestprintf c.selector (.init "length=10000"),
    fun s => s.athnestprintf c.selector .shutdown⟩,
   ⟨c.fails .initCache, id, fun s => s.athnestprintf s.cacheAddr (.init ""), id⟩]

/-- `insert_cache`, with the state in the end and the result. -/
def insertCache (c : Call) : State × Addr :=
  if !c.conn.isInput then (c.start, c.cacheAddr)
  else match c.conn.target with
    | none => (c.start, c.cacheAddr)
    | some target =>
      let r := Lib.Block.run (blocks c c.conn.name target) c.start
      if r.2 then (r.1, r.1.cacheAddr) else (r.1, 0)

/-! ## What the caller expects -/

/-- All is as it was, and what was allocated is free again, each address once. -/
structure Restored (c : Call) (s : State) : Prop where
  brick : s.brick = c.brick
  sound : Ledger.Sound [] s.log
  freed : Ledger.outstanding [] s.log = []

/-- The cache is between the input and what it was connected to. -/
structure Inserted (c : Call) (s : State) : Prop where
  input : ∃ b, s.brick c.brickAddr = some b ∧ b.input c.conn.name = some ⟨c.cache, "out"⟩
  cache : ∃ b, s.brick c.cache = some b ∧ b.name = "lock_cache" ∧ b.input "in" = some c.target ∧
    b.input "tmp" = some ⟨c.selector, "out"⟩ ∧ b.param.isSome
  selector : ∃ b, s.brick c.selector = some b ∧ b.name = "map_select" ∧ b.param.isSome

/-- All or nothing. -/
def Atomic (c : Call) : Prop :=
  ((insertCache c).2 = 0 → Restored c (insertCache c).1) ∧
    ((insertCache c).2 ≠ 0 → (insertCache c).2 = c.cache ∧ Inserted c (insertCache c).1)

/-- The steps behind the disconnection. -/
def lastSteps : List Step := [.connectCache, .connectInput, .initSelector, .initCache]

/-- The first step that fails is not one whose undo is at the wrong place, and not one behind the
disconnection; or what happens to be in `cache_addr` is just the address of the selector. -/
def Undoable (c : Call) : Prop :=
  if c.fails .allocSelector then True
  else if c.fails .createSelector then c.cacheAddr = c.selector
  else if c.fails .allocCache then c.left = c.selector
  else c.fails .createCache = false ∧
    (c.fails .disconnect = true ∨ ∀ step ∈ lastSteps, c.fails step = false)

/-! ## The inner blocks -/

variable {c : Call} {s s' : State} {a : Addr} {cmd cmd' : Cmd}

@[simp] theorem print_brick (s : State) (a : Addr) (cmd : Cmd) (x : Addr) :
    (s.athnestprintf a cmd).brick x = if x = a then cmd.apply (s.brick a) else s.brick x := by
  simp only [State.athnestprintf, Function.update_apply]

@[simp] theorem print_log : (s.athnestprintf a cmd).log = s.log := rfl

@[simp] theorem print_cacheAddr : (s.athnestprintf a cmd).cacheAddr = s.cacheAddr := rfl

/-- Only the brick of the cache may differ. -/
structure Same (c : Call) (s s' : State) : Prop where
  log : s.log = s'.log
  cacheAddr : s.cacheAddr = s'.cacheAddr
  brick : ∀ x, x ≠ c.cache → s.brick x = s'.brick x

theorem Same.refl : Same c s s := ⟨rfl, rfl, fun _ _ => rfl⟩

/-- A command and its undo. -/
theorem Same.undo (h : Same c s' (s.athnestprintf a cmd)) (ha : a ≠ c.cache)
    (hinv : cmd'.apply (cmd.apply (s.brick a)) = s.brick a) :
    Same c (s'.athnestprintf a cmd') s := by
  refine ⟨h.log, h.cacheAddr, fun x hx => ?_⟩
  have hat := h.brick a ha
  have hother := h.brick x hx
  simp only [print_brick, if_true] at hat hother ⊢
  by_cases hxa : x = a
  · rw [if_pos hxa, hat, hinv, hxa]
  · rw [if_neg hxa] at hother ⊢
    exact hother

/-- What is done to the brick of the cache does not count. -/
theorem Same.cache (h : Same c s' (s.athnestprintf c.cache cmd)) :
    Same c (s'.athnestprintf c.cache cmd') s := by
  refine ⟨h.log, h.cacheAddr, fun x hx => ?_⟩
  have hother := h.brick x hx
  simp only [print_brick, if_neg hx] at hother ⊢
  exact hother

/-- The state with both bricks, in front of the inner blocks. -/
def placed (c : Call) : State where
  brick x :=
    if x = c.cache then
      (Cmd.create "lock_cache" "tmp" ⟨c.selector, "out"⟩).apply none
    else if x = c.selector then (Cmd.create "map_select" "in" c.memConn).apply none
    else c.brick x
  log := [.take c.selector, .take c.cache]
  cacheAddr := c.cache

def inner (c : Call) : List (Lib.Block State) := (blocks c c.conn.name c.target).drop 4

/-- The blocks behind the disconnection, and the state in front of them. -/
def last (c : Call) : List (Lib.Block State) := (blocks c c.conn.name c.target).drop 5

def detached (c : Call) : State :=
  (placed c).athnestprintf c.brickAddr (.disconnect c.conn.name c.target)

theorem brickAddr_ne (c : Call) : c.brickAddr ≠ c.cache ∧ c.brickAddr ≠ c.selector := by
  obtain ⟨b, hb, -⟩ := c.connected
  constructor
  · intro heq
    rw [heq, c.cache_new] at hb
    exact absurd hb (by simp)
  · intro heq
    rw [heq, c.selector_new] at hb
    exact absurd hb (by simp)

theorem connect_disconnect {b : Brick} {name : String} {t : ConnTarget}
    (h : b.input name = none) :
    (Cmd.disconnect name t).apply ((Cmd.connect name t).apply (some b)) = some b := by
  have hinput : Function.update (Function.update b.input name (some t)) name none = b.input := by
    rw [Function.update_idem, ← h, Function.update_eq_self]
  simp only [Cmd.apply, Option.map_some, Function.update_self, if_true, hinput]

theorem detached_brick (c : Call) : ∃ b, c.brick c.brickAddr = some b ∧
    b.input c.conn.name = some c.target ∧ (detached c).brick c.brickAddr =
      some { b with input := Function.update b.input c.conn.name none } := by
  obtain ⟨hcache, hselector⟩ := brickAddr_ne c
  obtain ⟨b, hb, hconn⟩ := c.connected
  refine ⟨b, hb, hconn, ?_⟩
  simp [detached, placed, hcache, hselector, hb, Cmd.apply, hconn]

theorem last_undoes (c : Call) : Lib.Block.Undoes (Same c) (last c) (detached c) := by
  obtain ⟨hcache, hselector⟩ := brickAddr_ne c
  obtain ⟨b, -, -, hfree⟩ := detached_brick c
  let s₂ := (detached c).athnestprintf c.cache (.connect "in" c.target)
  let s₃ := s₂.athnestprintf c.brickAddr (.connect c.conn.name ⟨c.cache, "out"⟩)
  let s₄ := s₃.athnestprintf c.selector (.init "length=10000")
  have hfree' : s₂.brick c.brickAddr =
      some { b with input := Function.update b.input c.conn.name none } := by
    simp [s₂, hcache, hfree]
  have hselect : s₃.brick c.selector = (Cmd.create "map_select" "in" c.memConn).apply none := by
    simp [s₃, s₂, detached, hselector.symm, c.cache_ne.symm, placed]
  refine ⟨Same.refl, fun s' h => ?_, Same.refl, fun s' h => ?_,
    Same.refl, fun s' h => ?_, Same.refl, fun s' h => ?_, trivial⟩
  · have haddr : s'.cacheAddr = c.cache := h.cacheAddr
    change Same c (s'.athnestprintf s'.cacheAddr _) (detached c)
    rw [haddr]
    exact Same.cache (s := detached c) h
  · have haddr : s'.cacheAddr = c.cache := h.cacheAddr
    change Same c (s'.athnestprintf c.brickAddr (.disconnect c.conn.name ⟨s'.cacheAddr, "out"⟩)) s₂
    rw [haddr]
    refine Same.undo (s := s₂) h hcache ?_
    rw [hfree']
    exact connect_disconnect (Function.update_self _ _ _)
  · refine Same.undo (s := s₃) h c.cache_ne.symm ?_
    rw [hselect]
    rfl
  · have hlast : Same c s' (s₄.athnestprintf c.cache (.init "")) := h
    refine ⟨h.log, h.cacheAddr, fun x hx => ?_⟩
    have hx' := hlast.brick x hx
    rw [print_brick, if_neg hx] at hx'
    exact hx'

/-! ## The target that is not read -/

theorem span_all {table : Char → Bool} {front : Text} (rest : Text)
    (h : ∀ ch ∈ front, Strat.lookUp table ch = some true) :
    Strat.span table true (front ++ rest) =
      (Strat.span table true rest).map fun r => (front ++ r.1, r.2) := by
  induction front with
  | nil => simp
  | cons ch front ih =>
    obtain ⟨hch, hfront⟩ := List.forall_mem_cons.mp h
    rw [List.cons_append, Strat.span, hch, Option.bind_some, if_pos rfl, ih hfront, Option.map_map]
    rfl

theorem lookUp_hexDigit : ∀ d : Fin 16, Strat.lookUp Strat.hexTable (Nat.digitChar d) = some true := by
  decide

/-- The letters behind the number are no colon. -/
theorem readTarget_llx (target : ConnTarget) : readTarget (llxTarget target) = none := by
  have hdigits : ∀ ch ∈ "0x".toList ++ (AthStdio.hex target.brickAddr).text,
      Strat.lookUp Strat.hexTable ch = some true := by
    intro ch hch
    rcases List.mem_append.mp hch with hch | hch
    · have hprefix : ("0x".toList.all fun ch => Strat.lookUp Strat.hexTable ch = some true) = true := by
        decide
      exact of_decide_eq_true (List.all_eq_true.mp hprefix ch hch)
    · obtain ⟨d, hd, rfl⟩ := AthStdio.mem_toDigits (by decide) _ ch hch
      exact lookUp_hexDigit ⟨d, hd⟩
  have hblanks : Strat.skipBlanks (llxTarget target) = llxTarget target := rfl
  have hspan : Strat.scanTable Strat.hexTable (llxTarget target) =
      some ("0x".toList ++ (AthStdio.hex target.brickAddr).text, "lX:".toList ++ target.name.toList) := by
    unfold Strat.scanTable Strat.scanBody
    rw [hblanks, llxTarget, ← List.append_assoc, span_all _ hdigits]
    have hstop : Strat.span Strat.hexTable true ("lX:".toList ++ target.name.toList) =
        some ([], "lX:".toList ++ target.name.toList) := rfl
    rw [hstop, Option.map_some, List.append_nil]
  unfold readTarget Strat.scanConnstraddr
  simp only [hblanks, hspan, Option.bind_some]
  rfl

theorem connectText_llx (name : String) (target : ConnTarget) (b : Option Brick) :
    (Cmd.connectText name (llxTarget target)).apply b = b := by
  simp only [Cmd.apply, readTarget_llx, Option.map_id']

/-! ## All blocks -/

/-- What stands at the ends of the outer blocks. -/
def undone (c : Call) (s : State) : State :=
  let s := (s.athnestprintf c.selector .destroy).deletepadr c.selector
  let s := s.athnestprintf s.cacheAddr .destroy
  s.deletepadr s.cacheAddr

theorem insertCache_eq (c : Call) :
    insertCache c =
      let r := Lib.Block.run (blocks c c.conn.name c.target) c.start
      if r.2 then (r.1, r.1.cacheAddr) else (r.1, 0) := by
  simp only [insertCache, c.is_input, c.is_target, Bool.not_true, Bool.false_eq_true, if_false]

/-- The outer blocks. -/
def outer (c : Call) : List (Lib.Block State) := (blocks c c.conn.name c.target).take 4

theorem outer_step (c : Call) : (outer c).foldl (fun s b => b.step s) c.start = placed c := by
  simp only [outer, blocks, List.take_succ_cons, List.take_zero, List.foldl_cons, List.foldl_nil]
  unfold placed State.athnestprintf State.gadrcreate
  congr 1
  funext x
  simp only [Function.update_apply]
  rfl

theorem run_placed (h₁ : c.fails .allocSelector = false) (h₂ : c.fails .createSelector = false)
    (h₃ : c.fails .allocCache = false) (h₄ : c.fails .createCache = false) :
    Lib.Block.run (blocks c c.conn.name c.target) c.start =
      if (Lib.Block.run (inner c) (placed c)).2 then Lib.Block.run (inner c) (placed c)
      else (undone c (Lib.Block.run (inner c) (placed c)).1, false) := by
  have hfails : ∀ b ∈ outer c, b.fails = false := by simp [outer, blocks, h₁, h₂, h₃, h₄]
  have hrun : Lib.Block.run (outer c ++ inner c) c.start = _ := Lib.Block.run_append hfails
  rw [outer_step] at hrun
  exact hrun

/-- After the outer undos only the inner blocks count. -/
theorem undone_restored {s : State} (h : Same c s (placed c)) : Restored c (undone c s) := by
  have haddr : s.cacheAddr = c.cache := h.cacheAddr
  have hlog : (undone c s).log =
      [.take c.selector, .take c.cache, .give c.selector, .give c.cache] := by
    simp [undone, State.deletepadr, haddr, h.log, placed]
  refine ⟨?_, ?_, ?_⟩
  · funext x
    by_cases hcache : x = c.cache
    · simp [undone, State.deletepadr, haddr, hcache, Cmd.apply, c.cache_new]
    · by_cases hselector : x = c.selector
      · simp [undone, State.deletepadr, haddr, hselector, c.cache_ne.symm, Cmd.apply,
          c.selector_new]
      · have hx := h.brick x hcache
        simp only [placed, if_neg hcache, if_neg hselector] at hx
        simp [undone, State.deletepadr, haddr, hcache, hselector, hx]
  · rw [hlog]
    simp [Ledger.Sound, c.cache_ne]
  · rw [hlog]
    simp [Ledger.outstanding, c.cache_ne]

/-- What the inner blocks leave when they succeed. -/
theorem inner_inserted (h : (Lib.Block.run (inner c) (placed c)).2 = true) :
    (Lib.Block.run (inner c) (placed c)).1.cacheAddr = c.cache ∧
      Inserted c (Lib.Block.run (inner c) (placed c)).1 := by
  obtain ⟨hcache, hselector⟩ := brickAddr_ne c
  obtain ⟨b, hb, hconn⟩ := c.connected
  have hne := c.cache_ne
  rw [Lib.Block.run_all h]
  simp only [inner, blocks, List.drop_succ_cons, List.drop_zero, List.foldl_cons, List.foldl_nil]
  refine ⟨rfl, ⟨?_, ?_, ?_⟩⟩
  · simp [placed, Cmd.apply, hcache, hselector, hb, hconn]
  · simp [placed, Cmd.apply, hcache.symm, hne]
  · simp [placed, Cmd.apply, hselector.symm, hne.symm]

/-! ## The function as a whole -/

theorem insertCache_failure (h : (Lib.Block.run (blocks c c.conn.name c.target) c.start).2 = false) :
    insertCache c = ((Lib.Block.run (blocks c c.conn.name c.target) c.start).1, 0) := by
  rw [insertCache_eq]
  exact if_neg (by simp [h])

/-- A failure of one of the outer steps. -/
theorem atomic_of_failure {s : State}
    (h : Lib.Block.run (blocks c c.conn.name c.target) c.start = (s, false)) :
    Atomic c ↔ Restored c s := by
  have hresult := insertCache_failure (c := c) (by rw [h])
  unfold Atomic
  rw [hresult, h]
  exact ⟨fun hatomic => hatomic.1 rfl, fun hs => ⟨fun _ => hs, fun hne => absurd rfl hne⟩⟩

/-- Behind the disconnection the connection is lost. -/
theorem not_restored_last {s : State} (h : Same c s (detached c)) :
    ¬ Restored c (undone c
      (s.athnestprintf c.brickAddr (.connectText c.conn.name (llxTarget c.target)))) := by
  intro hs
  obtain ⟨hcache, hselector⟩ := brickAddr_ne c
  obtain ⟨b, hb, hconn, hfree⟩ := detached_brick c
  have haddr : s.cacheAddr = c.cache := h.cacheAddr
  have hlost := h.brick c.brickAddr hcache
  have hbrick := congrFun hs.brick c.brickAddr
  rw [hfree] at hlost
  simp only [undone, State.deletepadr, print_brick, print_cacheAddr, haddr, if_neg hcache,
    if_neg hselector, if_true, connectText_llx, hlost, hb, Option.some.injEq] at hbrick
  have hinput := congrArg (Brick.input · c.conn.name) hbrick
  simp only [Function.update_self, hconn] at hinput
  cases hinput

theorem last_fails (c : Call) :
    (∀ b ∈ last c, b.fails = false) ↔ ∀ step ∈ lastSteps, c.fails step = false := by
  simp [last, blocks, lastSteps]

/-- When the outer steps succeed, the disconnection may fail, or nothing. -/
theorem atomic_of_outer (h₁ : c.fails .allocSelector = false)
    (h₂ : c.fails .createSelector = false) (h₃ : c.fails .allocCache = false)
    (h₄ : c.fails .createCache = false) :
    Atomic c ↔ c.fails .disconnect = true ∨ ∀ step ∈ lastSteps, c.fails step = false := by
  have hrun := run_placed h₁ h₂ h₃ h₄
  rw [← last_fails, ← Lib.Block.snd_run (s := detached c)]
  cases hd : c.fails .disconnect with
  | true =>
    have hinner : Lib.Block.run (inner c) (placed c) = (placed c, false) := Lib.Block.run_fails hd
    rw [hinner, if_neg Bool.false_ne_true] at hrun
    rw [atomic_of_failure hrun]
    exact iff_of_true (undone_restored Same.refl) (Or.inl rfl)
  | false =>
    cases hr : (Lib.Block.run (last c) (detached c)).2 with
    | true =>
      have hinner : Lib.Block.run (inner c) (placed c) = Lib.Block.run (last c) (detached c) :=
        Lib.Block.run_returns hd hr
      have hsnd : (Lib.Block.run (inner c) (placed c)).2 = true := by rw [hinner, hr]
      obtain ⟨haddr, hinserted⟩ := inner_inserted hsnd
      rw [hsnd, if_pos rfl] at hrun
      have hresult : insertCache c = ((Lib.Block.run (inner c) (placed c)).1, c.cache) := by
        rw [insertCache_eq, hrun]
        simp only [hsnd, if_true, haddr]
      refine iff_of_true ?_ (Or.inr rfl)
      unfold Atomic
      rw [hresult]
      exact ⟨fun h => absurd h c.cache_pos.ne', fun _ => ⟨rfl, hinserted⟩⟩
    | false =>
      have hinner : Lib.Block.run (inner c) (placed c) = _ := Lib.Block.run_undo hd hr
      rw [hinner, if_neg Bool.false_ne_true] at hrun
      rw [atomic_of_failure hrun]
      exact iff_of_false (not_restored_last (Lib.Block.run_restores (last_undoes c) hr)) (by simp)

theorem restored_start (c : Call) : Restored c c.start := ⟨rfl, trivial, rfl⟩

/-- The selector was not created, and `cache_addr` is freed. -/
theorem restored_createSelector (c : Call) :
    Restored c ((c.start.gadrcreate c.selector).deletepadr c.cacheAddr) ↔
      c.cacheAddr = c.selector := by
  constructor
  · intro h
    exact List.mem_singleton.mp h.sound.1
  · intro h
    refine ⟨rfl, ⟨List.mem_singleton.mpr h, trivial⟩, ?_⟩
    change [c.selector].erase c.cacheAddr = []
    rw [h, List.erase_cons_head]

/-- There is no address for the cache. -/
theorem restored_allocCache (c : Call) :
    Restored c
        (({ (c.start.gadrcreate c.selector).athnestprintf c.selector
            (.create "map_select" "in" c.memConn) with cacheAddr := c.left }.athnestprintf c.left
              .destroy).deletepadr c.left) ↔
      c.left = c.selector := by
  constructor
  · intro h
    exact List.mem_singleton.mp h.sound.1
  · intro h
    rw [h]
    refine ⟨?_, ⟨List.mem_singleton.mpr rfl, trivial⟩, ?_⟩
    · funext x
      by_cases hx : x = c.selector
      · simp [State.deletepadr, Cmd.apply, hx, c.selector_new]
      · simp [State.deletepadr, State.gadrcreate, Call.start, hx]
    · exact List.erase_cons_head ..

/-- Without a cache, the selector stays behind. -/
theorem not_restored_createCache {s : State} (h : (s.brick c.selector).isSome) : ¬ Restored c s := by
  intro hs
  rw [hs.brick, c.selector_new] at h
  exact absurd h (by simp)

/-- `insert_cache` does all or nothing exactly when the step that fails, if any, is not one of those
whose undo is at the end of another block, nor one behind the disconnection, whose undo connects
nothing. -/
theorem place_atomic_iff (c : Call) : Atomic c ↔ Undoable c := by
  unfold Undoable
  cases h₁ : c.fails .allocSelector with
  | true =>
    have hrun : Lib.Block.run (blocks c c.conn.name c.target) c.start = (c.start, false) :=
      Lib.Block.run_fails h₁
    simpa [atomic_of_failure hrun] using restored_start c
  | false =>
    cases h₂ : c.fails .createSelector with
    | true =>
      have hrun : Lib.Block.run (blocks c c.conn.name c.target) c.start =
          ((c.start.gadrcreate c.selector).deletepadr c.cacheAddr, false) := by
        simp only [blocks, Lib.Block.run, h₁, h₂, Bool.false_eq_true, if_true, if_false]
        rfl
      simpa [atomic_of_failure hrun] using restored_createSelector c
    | false =>
      cases h₃ : c.fails .allocCache with
      | true =>
        have hrun : Lib.Block.run (blocks c c.conn.name c.target) c.start =
            (({ (c.start.gadrcreate c.selector).athnestprintf c.selector
              (.create "map_select" "in" c.memConn) with cacheAddr := c.left }.athnestprintf c.left
                .destroy).deletepadr c.left, false) := by
          simp only [blocks, Lib.Block.run, h₁, h₂, h₃, Bool.false_eq_true, if_true, if_false]
          rfl
        simpa [atomic_of_failure hrun] using restored_allocCache c
      | false =>
        cases h₄ : c.fails .createCache with
        | true =>
          have hsnd : (Lib.Block.run (blocks c c.conn.name c.target) c.start).2 = false := by
            simp [blocks, Lib.Block.run, h₁, h₂, h₃, h₄]
          have hleft : ((Lib.Block.run (blocks c c.conn.name c.target) c.start).1.brick
              c.selector).isSome := by
            simp [blocks, Lib.Block.run, h₁, h₂, h₃, h₄, State.deletepadr, State.gadrcreate,
              c.cache_ne.symm, Cmd.apply]
          have hrun := atomic_of_failure (c := c) (Prod.ext rfl hsnd)
          simpa [hrun] using not_restored_createCache hleft
        | false => simpa only [Bool.false_eq_true, if_false, true_and] using
            atomic_of_outer h₁ h₂ h₃ h₄

/-- The selector cannot be created, and 0x9000 happens to be in `cache_addr`. -/
def noSelector : Call where
  brick addr :=
    if addr = 0x1000 then
      some ⟨"lock_user", fun name => if name = "in" then some ⟨0x2000, "out"⟩ else none, none⟩
    else none
  memConn := ⟨0x3000, "out"⟩
  brickAddr := 0x1000
  conn := ⟨"in", true, some ⟨0x2000, "out"⟩⟩
  target := ⟨0x2000, "out"⟩
  cacheAddr := 0x9000
  fails step := step = .createSelector
  selector := 0x4000
  cache := 0x5000
  left := 0
  is_input := rfl
  is_target := rfl
  connected := ⟨_, rfl, rfl⟩
  selector_new := rfl
  cache_new := rfl
  cache_ne := by decide
  cache_pos := by decide

/-- 0x9000 is freed then, and 0x4000 is not. -/
theorem wrong_address_freed : ¬ Atomic noSelector := by
  intro h
  have hrestored := h.1 rfl
  have hlog : (insertCache noSelector).1.log = [.take 0x4000, .give 0x9000] := rfl
  have hsound := hrestored.sound
  rw [hlog] at hsound
  exact absurd hsound (by decide)

end Athomux.CachePlace
