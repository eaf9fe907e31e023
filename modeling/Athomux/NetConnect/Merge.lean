import Athomux.NetConnect.Params
import Athomux.StratText.Walk

/-!
# Merging the parts of a virtual brick

`merge_nc_r` and `merge_nc_m` of `#strategy_netconnect`. The lists are in the order from the hook
on, and a new element is the last one. A traversal has saved the element that it goes on with. It
ends as `freed` when that one is gone.
-/

namespace Athomux.NetConnect

/-- `struct g_brick_t`. -/
structure GBrick where
  addr : Nat
  name : Text
  bparam : Text
  deriving DecidableEq, Repr

/-- `struct g_conn_t`. -/
structure GConn where
  cparam : Text
  srcName : Text
  srcAddr : Nat
  dstName : Text
  dstAddr : Nat
  deriving DecidableEq, Repr

/-- `struct g_vpart_t`. -/
structure GVpart where
  vaddr : Nat
  addr : Nat
  deriving DecidableEq, Repr

inductive Stop
  | check
  | freed
  | fuel
  deriving DecidableEq, Repr

/-! ## Connections -/

def GConn.isHook (baddr : Nat) (c : GConn) : Bool := c.srcAddr = 0 ∧ c.dstAddr = baddr

/-- Equal endpoints, and equal names of the connectors. -/
def GConn.sameWire (c d : GConn) : Bool :=
  c.srcAddr = d.srcAddr ∧ c.dstAddr = d.dstAddr ∧ c.srcName = d.srcName ∧ c.dstName = d.dstName

def GConn.rename (baddr raddr : Nat) (c : GConn) : GConn :=
  { c with
    srcAddr := if c.srcAddr = baddr then raddr else c.srcAddr
    dstAddr := if c.dstAddr = baddr then raddr else c.dstAddr }

def removeHook (baddr : Nat) (lc : List GConn) : List GConn := lc.filter fun c => !c.isHook baddr

/-- `remove_dw` over a part of the list: what remains of it, and whether a match has been found. -/
def removeDw (refc : GConn) : Bool → List GConn → List GConn × Bool
  | found, [] => ([], found)
  | found, c :: cs =>
    if c.sameWire refc then
      if found then removeDw refc found cs
      else
        let r := removeDw refc true cs
        (c :: r.1, r.2)
    else
      let r := removeDw refc found cs
      (c :: r.1, r.2)

/-- The loop of `rewire_nc`: what is in front of the current element, and the rest from there on. -/
def rewireLoop (baddr raddr : Nat) : Nat → List GConn → List GConn → Except Stop (List GConn)
  | 0, _, _ => .error .fuel
  | _ + 1, done, [] => .ok done
  | fuel + 1, done, c :: rest =>
    if c.isHook baddr then rewireLoop baddr raddr fuel done rest
    else
      let tc := c.rename baddr raddr
      let before := removeDw tc false done
      let here := removeDw tc before.2 [tc]
      let behind := removeDw tc here.2 rest
      -- all matches behind the current one are removed
      if rest.head?.any tc.sameWire then .error .freed
      else rewireLoop baddr raddr fuel (before.1 ++ here.1) behind.1

def rewireNc (baddr raddr : Nat) (lc : List GConn) : Except Stop (List GConn) :=
  rewireLoop baddr raddr (lc.length + 1) [] lc

/-! ## Bricks -/

/-- `remote_*` to `remote`, and `mirror_*` to `mirror`. -/
inductive Kind
  | remote | mirror
  deriving DecidableEq, Repr

def Kind.part : Kind → Text
  | .remote => "remote_".toList
  | .mirror => "mirror_".toList

def Kind.whole : Kind → Text
  | .remote => "remote".toList
  | .mirror => "mirror".toList

def isPart (k : Kind) (b : GBrick) : Bool := k.part.isPrefixOf b.name

def rid (b : GBrick) : Option Text := getoptval b.bparam "rid".toList

def ridParam (r : Text) : Text := "rid=".toList ++ r

def paramSize : Nat := 256

/-- The three lists, and the first part of the group with its `rid`. -/
structure Merge where
  lb : List GBrick
  lc : List GConn
  lv : List GVpart
  group : Option (Nat × Text)
  deriving DecidableEq, Repr

def Merge.cons (b : GBrick) (m : Merge) : Merge := { m with lb := b :: m.lb }

/-- The inner loop, over the bricks from the current one on. -/
def mergeLoop (k : Kind) (lc : List GConn) (lv : List GVpart) (group : Option (Nat × Text)) :
    List GBrick → Except Stop Merge
  | [] => .ok ⟨[], lc, lv, group⟩
  | b :: bs =>
    if isPart k b then
      match rid b, group with
      | none, _ => .error .check
      | some r, none =>
        if (ridParam r).length < paramSize then
          (mergeLoop k (removeHook b.addr lc) lv (some (b.addr, r)) bs).map
            (Merge.cons ⟨b.addr, k.whole, ridParam r⟩)
        else .error .check
      | some r, some (raddr, r₀) =>
        if r = r₀ then
          (rewireNc b.addr raddr lc).bind fun lc =>
            mergeLoop k lc (lv ++ [⟨raddr, b.addr⟩]) group bs
        else (mergeLoop k lc lv group bs).map (Merge.cons b)
    else (mergeLoop k lc lv group bs).map (Merge.cons b)

/-- The outer loop. It ends after a pass that has found no part. -/
def mergeNc (k : Kind) : Nat → List GBrick → List GConn → List GVpart → Except Stop Merge
  | 0, _, _, _ => .error .fuel
  | fuel + 1, lb, lc, lv =>
    (mergeLoop k lc lv none lb).bind fun m =>
      if m.group.isSome then mergeNc k fuel m.lb m.lc m.lv else .ok m

/-- `merge_nc_r` and `merge_nc_m`. Every pass but the last one uses up a part. -/
def merge (k : Kind) (lb : List GBrick) (lc : List GConn) (lv : List GVpart) : Except Stop Merge :=
  mergeNc k (lb.length + 1) lb lc lv

end Athomux.NetConnect

/-!
## The graph of the texts

What `binfo` puts into the lists of bricks and connections, from whatever answers there are.
-/

namespace Athomux.NetConnect

open StratText

/-- The two lists, in the order from the hook on. -/
structure Found where
  lb : List GBrick
  lc : List GConn
  deriving DecidableEq, Repr

def Found.addBrick (b : GBrick) (g : Found) : Found := { g with lb := g.lb ++ [b] }

def Found.addConn (c : GConn) (g : Found) : Found := { g with lc := g.lc ++ [c] }

variable {ω : Type}

/-- The steps of `binfo`, with the state `ω` of the strategy below. -/
def reading (ask : Nat → ω → Option Text × ω) : Lists (Found × ω) Unit where
  ask := fun a r => ((ask a r.2).1, (r.1, (ask a r.2).2))
  enter := fun _ r => ((), r)
  known := fun a r => (r.1.lb.find? fun b => b.addr = a).map fun _ => ()
  addBrick := fun a _ b r => (r.1.addBrick ⟨a, b.name, b.bparam⟩, r.2)
  addConn := fun a _ c _ r =>
    (r.1.addConn ⟨c.cparam, c.srcName, a, c.dst.name, c.dst.addr⟩, r.2)

end Athomux.NetConnect
