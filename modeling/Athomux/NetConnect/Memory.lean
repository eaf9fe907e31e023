import Athomux.NetConnect.Merge
import Athomux.StratText.Memory
import Athomux.StratText.Reader
import Athomux.StratText.Walk

/-!
# The bricks with their memory

`#strategy_netconnect`, with the elements of its lists at their addresses in `:<mem`. `wild` is set
where a traversal has gone on from a freed element, or a string has been read past its end.
-/

namespace Athomux.NetConnect.Mem

open Lib StratText

/-! The sizes of `struct g_brick_t`, `struct g_conn_t` and `struct g_vpart_t`. -/

def brickSize : Nat := 304

def connSize : Nat := 304

def vpartSize : Nat := 32

structure State where
  lbHook : Nat
  lcHook : Nat
  lvHook : Nat
  lb : List (Elem GBrick)
  lc : List (Elem GConn)
  lv : List (Elem GVpart)
  log : Log
  wild : Bool
  deriving DecidableEq, Repr

/-- The address that `PC_ALLOC` gives for a length. -/
abbrev Alloc := Log → Nat → Nat

variable (alloc : Alloc)

/-- `$output_init` as a constructor. -/
def State.init : State :=
  let hb := alloc [] brickSize
  let log := [.take ⟨hb, brickSize⟩]
  let hc := alloc log connSize
  let log := log ++ [.take ⟨hc, connSize⟩]
  let hv := alloc log vpartSize
  ⟨hb, hc, hv, [], [], [], log ++ [.take ⟨hv, vpartSize⟩], false⟩

/-- The third loop is as the second one, down to the size. -/
def clearBc (s : State) : State :=
  { s with
    lb := []
    lc := []
    lv := []
    log := s.log ++ freeAll brickSize s.lb ++ freeAll connSize s.lc ++ freeAll connSize s.lv }

def findBrick (s : State) (addr : Nat) : Option (Elem GBrick) := s.lb.find? fun b => b.val.addr = addr

def insertBrick (b : GBrick) (s : State) : State :=
  let p := alloc s.log brickSize
  { s with lb := s.lb ++ [⟨p, b⟩], log := s.log ++ [.take ⟨p, brickSize⟩] }

def insertConn (c : GConn) (s : State) : State :=
  let p := alloc s.log connSize
  { s with lc := s.lc ++ [⟨p, c⟩], log := s.log ++ [.take ⟨p, connSize⟩] }

/-- The answers of the strategy below that are still to come. -/
abbrev Answers := List (Option Text)

def Answers.next : Answers → Option Text × Answers
  | [] => (none, [])
  | t :: ts => (t, ts)

def lists : Lists (State × Answers) Unit where
  ask := fun _ r => (r.2.next.1, (r.1, r.2.next.2))
  enter := fun _ r => ((), r)
  known := fun a r => (findBrick r.1 a).map fun _ => ()
  addBrick := fun a _ b r => (insertBrick alloc ⟨a, b.name, b.bparam⟩ r.1, r.2)
  addConn := fun a _ c _ r =>
    (insertConn alloc ⟨c.cparam, c.srcName, a, c.dst.name, c.dst.addr⟩ r.1, r.2)

/-! ## Merging -/

/-- Why a merge ends early. -/
inductive Halt
  | check | freed | past | fuel
  deriving DecidableEq, Repr

def removeHook (baddr : Nat) : List (Elem GConn) → List (Elem GConn) × Log
  | [] => ([], [])
  | c :: cs =>
    let r := removeHook baddr cs
    if c.val.isHook baddr then (r.1, .give ⟨c.ptr, connSize⟩ :: r.2) else (c :: r.1, r.2)

structure Thinned where
  lc : List (Elem GConn)
  found : Bool
  log : Log

def removeDw (refc : GConn) : Bool → List (Elem GConn) → Thinned
  | found, [] => ⟨[], found, []⟩
  | found, c :: cs =>
    if c.val.sameWire refc then
      if found then
        let r := removeDw refc found cs
        { r with log := .give ⟨c.ptr, connSize⟩ :: r.log }
      else
        let r := removeDw refc true cs
        { r with lc := c :: r.lc }
    else
      let r := removeDw refc found cs
      { r with lc := c :: r.lc }

def rewireLoop (baddr raddr : Nat) : Nat → List (Elem GConn) → List (Elem GConn) →
    Except Halt (List (Elem GConn) × Log)
  | 0, _, _ => .error .fuel
  | _ + 1, done, [] => .ok (done, [])
  | fuel + 1, done, c :: rest =>
    if c.val.isHook baddr then
      (rewireLoop baddr raddr fuel done rest).map fun r =>
        (r.1, .give ⟨c.ptr, connSize⟩ :: r.2)
    else
      let tc := c.val.rename baddr raddr
      let before := removeDw tc false done
      let here := removeDw tc before.found [⟨c.ptr, tc⟩]
      let behind := removeDw tc here.found rest
      if rest.head?.any fun n => tc.sameWire n.val then .error .freed
      else
        (rewireLoop baddr raddr fuel (before.lc ++ here.lc) behind.lc).map fun r =>
          (r.1, before.log ++ here.log ++ behind.log ++ r.2)

def rewireNc (baddr raddr : Nat) (lc : List (Elem GConn)) :
    Except Halt (List (Elem GConn) × Log) :=
  rewireLoop baddr raddr (lc.length + 1) [] lc

/-! One turn of each loop. -/

theorem removeHook_cons (baddr : Nat) (c : Elem GConn) (cs : List (Elem GConn)) :
    removeHook baddr (c :: cs) =
      if c.val.isHook baddr then
        ((removeHook baddr cs).1, .give ⟨c.ptr, connSize⟩ :: (removeHook baddr cs).2)
      else (c :: (removeHook baddr cs).1, (removeHook baddr cs).2) := rfl

theorem removeDw_cons (refc : GConn) (found : Bool) (c : Elem GConn) (cs : List (Elem GConn)) :
    removeDw refc found (c :: cs) =
      if c.val.sameWire refc then
        if found then
          { removeDw refc found cs with
            log := .give ⟨c.ptr, connSize⟩ :: (removeDw refc found cs).log }
        else { removeDw refc true cs with lc := c :: (removeDw refc true cs).lc }
      else { removeDw refc found cs with lc := c :: (removeDw refc found cs).lc } := rfl

theorem rewireLoop_cons (baddr raddr fuel : Nat) (done : List (Elem GConn)) (c : Elem GConn)
    (rest : List (Elem GConn)) :
    rewireLoop baddr raddr (fuel + 1) done (c :: rest) =
      if c.val.isHook baddr then
        (rewireLoop baddr raddr fuel done rest).map fun r =>
          (r.1, .give ⟨c.ptr, connSize⟩ :: r.2)
      else
        let tc := c.val.rename baddr raddr
        let before := removeDw tc false done
        let here := removeDw tc before.found [⟨c.ptr, tc⟩]
        let behind := removeDw tc here.found rest
        if rest.head?.any fun n => tc.sameWire n.val then .error .freed
        else
          (rewireLoop baddr raddr fuel (before.lc ++ here.lc) behind.lc).map fun r =>
            (r.1, before.log ++ here.log ++ behind.log ++ r.2) := rfl

/-- The lists during a pass, and how it has ended. -/
structure Pass where
  lb : List (Elem GBrick)
  lc : List (Elem GConn)
  lv : List (Elem GVpart)
  log : Log
  group : Option (Nat × Text)
  halt : Option Halt
  deriving DecidableEq, Repr

def Pass.cons (b : Elem GBrick) (m : Pass) : Pass := { m with lb := b :: m.lb }

/-- The scanner would leave the parameter string. -/
def overrun (b : GBrick) : Bool :=
  (paramGetopt (b.bparam.length + 1) b.bparam "rid".toList).isNone

/-- The inner loop, over the bricks from the current one on. -/
def mergeLoop (k : Kind) (group : Option (Nat × Text)) :
    List (Elem GBrick) → List (Elem GConn) → List (Elem GVpart) → Log → Pass
  | [], lc, lv, log => ⟨[], lc, lv, log, group, none⟩
  | b :: bs, lc, lv, log =>
    if isPart k b.val then
      match rid b.val, group with
      | none, _ => ⟨b :: bs, lc, lv, log, group, some (if overrun b.val then .past else .check)⟩
      | some r, none =>
        if (ridParam r).length < paramSize then
          (mergeLoop k (some (b.val.addr, r)) bs (removeHook b.val.addr lc).1 lv
            (log ++ (removeHook b.val.addr lc).2)).cons ⟨b.ptr, b.val.addr, k.whole, ridParam r⟩
        else
          ⟨⟨b.ptr, b.val.addr, k.whole, (ridParam r).take (paramSize - 1)⟩ :: bs, lc, lv, log, group,
            some .check⟩
      | some r, some (raddr, r₀) =>
        if r = r₀ then
          match rewireNc b.val.addr raddr lc with
          | .error e => ⟨b :: bs, lc, lv, log, group, some e⟩
          | .ok (lc, freed) =>
            let log := log ++ freed
            let p := alloc log vpartSize
            mergeLoop k group bs lc (lv ++ [⟨p, raddr, b.val.addr⟩])
              (log ++ [.take ⟨p, vpartSize⟩] ++ [.give ⟨b.ptr, brickSize⟩])
        else (mergeLoop k group bs lc lv log).cons b
    else (mergeLoop k group bs lc lv log).cons b

def mergeNc (k : Kind) : Nat → List (Elem GBrick) → List (Elem GConn) → List (Elem GVpart) → Log →
    Pass
  | 0, lb, lc, lv, log => ⟨lb, lc, lv, log, none, some .fuel⟩
  | fuel + 1, lb, lc, lv, log =>
    let m := mergeLoop alloc k none lb lc lv log
    match m.halt with
    | some _ => m
    | none => if m.group.isSome then mergeNc k fuel m.lb m.lc m.lv m.log else m

theorem mergeNc_succ (k : Kind) (fuel : Nat) (lb : List (Elem GBrick)) (lc : List (Elem GConn))
    (lv : List (Elem GVpart)) (log : Log) : mergeNc alloc k (fuel + 1) lb lc lv log =
      match (mergeLoop alloc k none lb lc lv log).halt with
      | some _ => mergeLoop alloc k none lb lc lv log
      | none =>
        if (mergeLoop alloc k none lb lc lv log).group.isSome then
          mergeNc alloc k fuel (mergeLoop alloc k none lb lc lv log).lb
            (mergeLoop alloc k none lb lc lv log).lc (mergeLoop alloc k none lb lc lv log).lv
            (mergeLoop alloc k none lb lc lv log).log
        else mergeLoop alloc k none lb lc lv log := rfl

/-- `merge_nc_r` and `merge_nc_m`. -/
def merge (k : Kind) (s : State) : State × Option Halt :=
  let m := mergeNc alloc k (s.lb.length + 1) s.lb s.lc s.lv s.log
  ({ s with
      lb := m.lb
      lc := m.lc
      lv := m.lv
      log := m.log
      wild := s.wild || m.halt = some .freed || m.halt = some .past }, m.halt)

/-! ## Operations -/

/-- The two merges, where the graph has been read. -/
def mergeAll (s : State) : State × Bool :=
  let r := merge alloc .remote s
  match r.2 with
  | some _ => (r.1, false)
  | none =>
    let m := merge alloc .mirror r.1
    (m.1, m.2.isNone)

/-- `build_graph` and the merges. There is no result while `binfo` has not come to an end. -/
def rebuild (fuel : Nat) (answers : Answers) (s : State) : Option (State × Bool) :=
  (binfo (lists alloc) fuel 0 (clearBc s, answers)).map fun r =>
    match r.2 with
    | none => (r.1.1, false)
    | some _ => mergeAll alloc r.1.1

def outConns (s : State) (addr : Nat) : List OutConn :=
  (s.lc.filter fun c => c.val.srcAddr = addr).map fun c =>
    ⟨c.val.srcName, c.val.cparam, c.val.dstAddr, c.val.dstName⟩

def trans (directRead : Bool) (addr len fuel : Nat) (answers : Answers) (s : State) :
    Option (State × Option Text) :=
  if directRead then
    (if addr = 0 then rebuild alloc fuel answers s else some (s, true)).map fun r =>
      (r.1, if r.2 then (findBrick r.1 addr).bind fun b =>
        fitText len (printBrick b.val.name b.val.bparam (outConns r.1 b.val.addr)) else none)
  else some (s, none)

/-- The loop of `$deinstbrick`. The address is the one of the part after each call, and `answers` are
the results of the calls. -/
def deinstLoop : Nat → List Bool → List (Elem GVpart) → List (Elem GVpart) × Log
  | _, _, [] => ([], [])
  | addr, answers, v :: vs =>
    if v.val.vaddr = addr then
      if answers.headD false then
        let r := deinstLoop v.val.addr answers.tail vs
        (r.1, .give ⟨v.ptr, connSize⟩ :: r.2)
      else (v :: vs, [])
    else
      let r := deinstLoop addr answers vs
      (v :: r.1, r.2)

def deinstbrick (addr : Nat) (answers : List Bool) (s : State) : State :=
  let r := deinstLoop addr answers s.lv
  { s with lv := r.1, log := s.log ++ r.2 }

inductive Op
  | trans (directRead : Bool) (addr len fuel : Nat) (answers : Answers)
  | deinstbrick (addr : Nat) (answers : List Bool)
  /-- `$gadr`, `$padr` and `$instbrick` are passed on. -/
  | pass

def step (s : State) : Op → Option State
  | .trans directRead addr len fuel answers =>
    (trans alloc directRead addr len fuel answers s).map Prod.fst
  | .deinstbrick addr answers => some (deinstbrick addr answers s)
  | .pass => some s

end Athomux.NetConnect.Mem
