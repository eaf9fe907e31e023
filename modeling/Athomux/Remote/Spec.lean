import Athomux.Lib.ByteMem
import Athomux.Args

/-!
# The packets of `remote_client` and `remote_server`

`remote_common.inc`: a header, the arguments, a parameter string and a block of data, one behind the
other. The offsets are the ones of the structures on a machine with 8 bytes in a pointer.
-/

namespace Athomux.Remote

open Lib

/-! ## Layout -/

/-- `sizeof(struct rpc_header_t)`. -/
def sizeofHeader : Nat := 24

/-- `sizeof(struct args)`. -/
def sizeofArgs : Nat := 144

/-- `sizeof(struct conn_info)`. -/
def sizeofConn : Nat := 24

/-- `sizeof(struct rpc_args_t)`. -/
def sizeofRpcArgs : Nat := 224

/-- `RPC_IDENTIFICATION`. -/
def rpcIdentification : Nat := ofBytes [65, 82, 80, 67]

def rpcVersion : UInt8 := 1

def rpcReq : UInt8 := 1

def rpcRsp : UInt8 := 2

/-- One of the pointers `conn1`, `conn2` and `res_conn`: where it is in `struct args`, and where its
flag and what it points to are in `struct rpc_args_t`. -/
structure ConnField where
  pointer : Nat
  valid : Nat
  info : Nat

def conn1 : ConnField := ⟨112, 144, 152⟩

def conn2 : ConnField := ⟨120, 145, 176⟩

def resConn : ConnField := ⟨128, 146, 200⟩

/-- `struct packet_t`, and the memory from `paddr` on. -/
structure Packet where
  paddr : Nat
  len : Nat
  mem : ByteMem
  fits : len < addrSpace

namespace Packet

variable (p : Packet)

def num (pos n : Nat) : Nat := ofBytes (p.mem.load pos n)

/-- `header->param_len`. -/
def paramLen : Nat := p.num 8 8

/-- `header->data_len`. -/
def dataLen : Nat := p.num 16 8

/-- `sizeof(struct rpc_header_t)+sizeof(struct rpc_args_t)+header->param_len`. -/
def dataPos : Nat := add64 (sizeofHeader + sizeofRpcArgs) p.paramLen

def store (pos : Nat) (bytes : List UInt8) : Packet := { p with mem := p.mem.store pos bytes }

end Packet

/-! ## Taking a packet apart

A function returns what it has read besides its results.
-/

structure Parsed (α : Type) where
  success : Bool
  value : α
  reads : List Region

/-- The last check of `get_packet`. -/
def getPacket (p : Packet) : Bool := ¬ p.len < sizeofHeader

def checkHeader (p : Packet) (type : UInt8) : Parsed Unit where
  success := p.num 0 4 = rpcIdentification ∧ p.mem 4 = rpcVersion ∧ p.mem 5 = type
  value := ()
  reads := [⟨0, 4⟩, ⟨4, 1⟩, ⟨5, 1⟩]

/-- A pointer of the arguments afterwards: to the packet, or `NULL`. -/
def extractConn (p : Packet) (f : ConnField) : Option Region :=
  if p.mem (sizeofHeader + f.valid) = 1 then some ⟨sizeofHeader + f.info, sizeofConn⟩ else none

/-- Where the arguments and what they point to are. -/
structure ArgsPlace where
  args : Region
  conn1 : Option Region
  conn2 : Option Region
  resConn : Option Region

def extractArgs (p : Packet) : Parsed ArgsPlace where
  success := ¬ p.len < sizeofHeader + sizeofRpcArgs
  value := ⟨⟨sizeofHeader, sizeofArgs⟩, extractConn p conn1, extractConn p conn2,
    extractConn p resConn⟩
  reads := [conn1, conn2, resConn].map fun f => ⟨sizeofHeader + f.valid, 1⟩

/-- `extract_args` sets a pointer in the packet itself. -/
def setPointer (p : Packet) (f : ConnField) : Packet :=
  p.store (sizeofHeader + f.pointer)
    (toBytes 8 (match extractConn p f with
      | some r => add64 p.paddr r.start
      | none => 0))

def setPointers (p : Packet) : Packet := setPointer (setPointer (setPointer p conn1) conn2) resConn

/-- The start of the text. -/
def extractParam (p : Packet) : Parsed Nat where
  success := ¬ p.len < p.dataPos
  value := sizeofHeader + sizeofRpcArgs
  reads := [⟨8, 8⟩]

def extractData (p : Packet) : Parsed Region where
  success := ¬ p.len < add64 p.dataPos p.dataLen
  value := ⟨p.dataPos, p.dataLen⟩
  reads := [⟨8, 8⟩, ⟨16, 8⟩]

/-! ## Building a packet -/

/-- `struct conn_info`. -/
structure ConnInfo where
  bytes : List UInt8
  length_eq : bytes.length = sizeofConn

/-- `struct args`: its bytes, and what its three pointers point to. -/
structure Args where
  plain : List UInt8
  length_eq : plain.length = sizeofArgs
  conn1 : Option ConnInfo
  conn2 : Option ConnInfo
  resConn : Option ConnInfo

/-- `op_code`. -/
def Args.opCode (a : Args) : Nat := (a.plain.getD 82 0).toNat

def opcodeInstconn : Nat := 14

def opcodeDeinstconn : Nat := 15

def opcodeConnect : Nat := 16

def opcodeDisconnect : Nat := 17

def opcodeGetconn : Nat := 18

def opcodeFindconn : Nat := 19

/-- The operations that `conn1` is carried for. -/
def takesConn1 (op : Nat) : Bool :=
  op = opcodeInstconn ∨ op = opcodeDeinstconn ∨ op = opcodeConnect ∨ op = opcodeDisconnect ∨
    op = opcodeGetconn ∨ op = opcodeFindconn

def takesConn2 (op : Nat) : Bool := op = opcodeConnect

def takesResConn (op : Nat) : Bool := op = opcodeGetconn ∨ op = opcodeFindconn

/-- `set_header`, and the packet that `new_packet` has got. -/
def setHeader (p : Packet) (type : UInt8) : Packet :=
  let p := p.store 0 (toBytes 4 rpcIdentification)
  let p := p.store 4 [rpcVersion]
  let p := p.store 5 [type]
  let p := p.store 8 (toBytes 8 0)
  p.store 16 (toBytes 8 0)

def insertConn (p : Packet) (f : ConnField) (takes : Bool) (c : Option ConnInfo) : Packet :=
  match c with
  | some c =>
    if takes then (p.store (sizeofHeader + f.info) c.bytes).store (sizeofHeader + f.valid) [1]
    else p.store (sizeofHeader + f.valid) [0]
  | none => p.store (sizeofHeader + f.valid) [0]

def insertArgs (p : Packet) (a : Args) : Packet :=
  let p := p.store sizeofHeader a.plain
  let p := insertConn p conn1 (takesConn1 a.opCode) a.conn1
  let p := insertConn p conn2 (takesConn2 a.opCode) a.conn2
  insertConn p resConn (takesResConn a.opCode) a.resConn

/-- The text comes without its final zero. `_param` of the operation is the text that is given. -/
def insertParam (p : Packet) (param : List UInt8) : Bool × Packet :=
  let paramLen := param.length + 1
  if p.len < add64 (sizeofHeader + sizeofRpcArgs) paramLen then (false, p)
  else
    let p := p.store 8 (toBytes 8 paramLen)
    (true, p.store (sizeofHeader + sizeofRpcArgs) (param ++ [0]))

def insertData (p : Packet) (data : List UInt8) : Bool × Packet :=
  if p.len < add64 p.dataPos data.length then (false, p)
  else
    let p := p.store 16 (toBytes 8 data.length)
    (true, p.store p.dataPos data)

/-! ## What is taken out -/

/-- `*conn1` and the others. -/
def connInfo (p : Packet) (f : ConnField) : Option ConnInfo :=
  (extractConn p f).map fun r => ⟨p.mem.load r.start sizeofConn, ByteMem.load_length _ _ _⟩

/-- The arguments that `extract_args` hands out. -/
def argsOf (p : Packet) : Args :=
  let p := setPointers p
  ⟨p.mem.load sizeofHeader sizeofArgs, ByteMem.load_length _ _ _, connInfo p conn1, connInfo p conn2,
    connInfo p resConn⟩

end Athomux.Remote
