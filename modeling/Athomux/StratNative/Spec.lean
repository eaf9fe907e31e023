import Athomux.Lib.Run

/-!
# Processes and descriptors

The system calls of `#strategy_native`. What other bricks answer is part of a call. A step has no
result when it would use memory outside of the two tables.
-/

namespace Athomux.StratNative

def fdMax : Nat := 64

/-- `ULINUX_MAX_PROCESSES`. -/
def maxProcesses : Nat := 128

inductive FileType
  | none | file | char | pipe
  deriving DecidableEq, Repr

structure Filedes where
  type : FileType
  flags : Nat
  addr : Nat
  filepos : Nat
  fsIndex : Int
  filename : String
  deriving DecidableEq, Repr

def Filedes.empty : Filedes := ⟨.none, 0, 0, 0, 0, ""⟩

/-- The fields of `task_struct` that belong to the tables. `posix` is the brick whose inputs the
descriptors are. -/
structure Task where
  pid : Nat
  posix : Nat
  children : List Nat
  exitCode : Int
  fd : Nat → Filedes

/-- The brick graph is there as far as it is about `posix` bricks: what each of their inputs `fd` is
connected to. Addresses from `next` on are free. -/
structure State where
  task : Nat → Option Task
  input : Nat → Nat → Option (Nat × Int)
  next : Nat
  fsAddr : Nat
  getdentsIndex : Nat

inductive Errno
  | ok | enoent | eexist | eacces | emfile | ebadf | echild
  deriving DecidableEq, Repr

structure Reply where
  success : Bool
  result : Int
  error : Errno
  deriving DecidableEq, Repr

/-- How the steps of `fork_process` end: those for the new image, the `posix` brick, the connections
of the descriptors, and what comes after that. -/
structure ForkAnswers where
  image : Bool
  posix : Bool
  conns : Nat → Bool
  finished : Bool

inductive Call
  | exit (status : Int) (killed : Bool)
  | open (path : String) (flags : Nat) (found created connects : Bool) (index : Int)
  | close (fd : Int) (disconnects : Bool)
  | fork (answers : ForkAnswers)
  | execve (built removed : Bool)
  | pipe
  | stat (found : Bool)
  | getdents (fd : Nat) (found : Bool)
  | dup (oldfd : Nat) (connects : Bool)
  | dup2 (oldfd newfd : Nat) (disconnects connects : Bool)
  | wait4 (waitpid : Int)
  | unknown (nr : Int)

/-! ## The tables -/

def usedFd (t : Task) (fd : Nat) : Bool := (t.fd fd).addr ≠ 0

/-- The first free descriptor from `start` on. -/
def freeFd (t : Task) (start : Nat) : Option Nat :=
  (List.range' start (fdMax - start)).find? fun fd => !usedFd t fd

def freeTask (s : State) : Option Nat :=
  (List.range maxProcesses).find? fun p => (s.task p).isNone

def State.getTask (s : State) (pid : Int) : Option Task :=
  if 0 ≤ pid ∧ pid < maxProcesses then s.task pid.toNat else none

def State.setTask (s : State) (p : Nat) (t : Option Task) : State :=
  { s with task := fun q => if q = p then t else s.task q }

def Task.setFd (t : Task) (fd : Nat) (f : Filedes) : Task :=
  { t with fd := fun i => if i = fd then f else t.fd i }

def State.setInput (s : State) (posix fd : Nat) (c : Option (Nat × Int)) : State :=
  { s with input := fun b i => if b = posix ∧ i = fd then c else s.input b i }

/-! ## The calls -/

def oCreat : Nat := 64
def oExcl : Nat := 128

def failed (s : State) (success : Bool) (e : Errno) : Option (State × Reply) :=
  some (s, ⟨success, -1, e⟩)

/-- `sprintf` into the file name of a slot stays in the slot, and takes no argument. -/
def fitsName (path : String) : Prop := path.length < 128 ∧ '%' ∉ path.toList

instance (path : String) : Decidable (fitsName path) := inferInstanceAs (Decidable (_ ∧ _))

def openFd (s : State) (p : Nat) (t : Task) (path : String) (flags : Nat) (connects : Bool)
    (index : Int) : Option (State × Reply) :=
  match freeFd t 0 with
  | none => failed s true .emfile
  | some fd =>
    if !connects then failed s false .enoent
    else if fitsName path then
      some ((s.setTask p (t.setFd fd ⟨.file, flags, s.fsAddr, 0, index, path⟩)).setInput t.posix
        fd (some (s.fsAddr, index)), ⟨true, fd, .ok⟩)
    else none

def openCall (s : State) (p : Nat) (t : Task) (path : String) (flags : Nat)
    (found created connects : Bool) (index : Int) : Option (State × Reply) :=
  if path.toList.head? ≠ some '/' then failed s true .enoent
  else if !found && flags &&& oCreat == 0 then failed s true .enoent
  -- the two flags are different bits, so this is never the case
  else if found && (flags &&& oCreat) &&& (flags &&& oExcl) != 0 then failed s true .eexist
  else if !found && !created then failed s false .eacces
  else openFd s p t path flags connects index

def closeCall (s : State) (p : Nat) (t : Task) (fd : Int) (disconnects : Bool) :
    Option (State × Reply) :=
  if fd < 0 then some (s, ⟨true, 0, .ok⟩)
  else if fd.toNat < fdMax then
    if !usedFd t fd.toNat then failed s true .ebadf
    else if (t.fd fd.toNat).type = .file then
      if !disconnects then failed s false .ebadf
      else some ((s.setTask p (t.setFd fd.toNat .empty)).setInput t.posix fd.toNat none,
        ⟨true, 0, .ok⟩)
    else some (s, ⟨true, 0, .ok⟩)
  else none

/-- `children` has eight places. -/
def addChild (t : Task) (p : Nat) : Task :=
  { t with
    children := match t.children.findIdx? (· = 0) with
      | some i => t.children.set i p
      | none => t.children }

/-- The copied descriptors. Pipes are left out. -/
def forkInput (t : Task) (conns : Nat → Bool) (fd : Nat) : Option (Nat × Int) :=
  if fd < fdMax ∧ usedFd t fd ∧ ((t.fd fd).type = .char ∨ (t.fd fd).type = .file) ∧ conns fd then
    some ((t.fd fd).addr, (t.fd fd).fsIndex)
  else none

def forkCall (s : State) (p : Nat) (t : Task) (a : ForkAnswers) : Option (State × Reply) :=
  match freeTask s with
  | none => none
  | some q =>
    if !a.image then some (s, ⟨false, q, .ok⟩)
    else
      let s := s.setTask p (addChild t q)
      if !a.posix then some (s, ⟨false, q, .ok⟩)
      else
        let s' : State :=
          { s with
            input := fun b i => if b = s.next then forkInput t a.conns i else s.input b i
            next := s.next + 1 }
        if !a.finished then some (s', ⟨false, q, .ok⟩)
        else some (s'.setTask q (some { t with pid := q, posix := s.next, exitCode := 0xAAAA }),
          ⟨true, q, .ok⟩)

def execveCall (s : State) (p : Nat) (t : Task) (built removed : Bool) : Option (State × Reply) :=
  if built then some (s.setTask p (some { t with exitCode := 0xAAAA }), ⟨removed, 0, .ok⟩)
  else some (s.setTask t.pid none, ⟨false, 0, .ok⟩)

def pipeFd (addr : Nat) (f : Filedes) : Filedes := { f with addr := addr, type := .pipe }

def pipeCall (s : State) (p : Nat) (t : Task) : Option (State × Reply) :=
  match freeFd t 0 with
  | none => failed s true .emfile
  | some r =>
    match freeFd t (r + 1) with
    | none => failed s true .emfile
    | some w =>
      some (s.setTask p ((t.setFd r (pipeFd 42 (t.fd r))).setFd w (pipeFd 43 (t.fd w))),
        ⟨true, 0, .ok⟩)

def getdentsCall (s : State) (t : Task) (fd : Nat) (found : Bool) : Option (State × Reply) :=
  if 1 < s.getdentsIndex then failed s true .enoent
  else if fd < fdMax then
    if !usedFd t fd then failed s true .ebadf
    else if !found then failed s false .enoent
    else some ({ s with getdentsIndex := s.getdentsIndex + 1 }, ⟨true, 1, .ok⟩)
  else none

/-- A copy of a descriptor, and its connection. -/
def copyFd (s : State) (p : Nat) (t : Task) (f : Filedes) (fd : Nat) (connects : Bool) :
    Option (State × Reply) :=
  let s := s.setTask p (t.setFd fd f)
  if f.type = .file ∨ f.type = .char then
    if connects then some (s.setInput t.posix fd (some (f.addr, f.fsIndex)), ⟨true, fd, .ok⟩)
    else failed s false .ebadf
  else some (s, ⟨true, fd, .ok⟩)

def dupCall (s : State) (p : Nat) (t : Task) (oldfd : Nat) (connects : Bool) :
    Option (State × Reply) :=
  if oldfd < fdMax then
    if !usedFd t oldfd then failed s true .ebadf
    else match freeFd t 0 with
      | none => failed s true .emfile
      | some fd => copyFd s p t (t.fd oldfd) fd connects
  else none

def clearAddr (f : Filedes) : Filedes := { f with addr := 0 }

def dup2Call (s : State) (p : Nat) (t : Task) (oldfd newfd : Nat) (disconnects connects : Bool) :
    Option (State × Reply) :=
  if oldfd < fdMax then
    if !usedFd t oldfd then failed s true .ebadf
    else if newfd < fdMax then
      if usedFd t newfd && disconnects then
        let t' := t.setFd newfd (clearAddr (t.fd newfd))
        copyFd ((s.setTask p t').setInput t.posix newfd none) p t' (t'.fd oldfd) newfd connects
      else copyFd s p t (t.fd oldfd) newfd connects
    else none
  else none

/-- Up to the time when the other process is done. -/
def wait4Call (s : State) (p : Nat) (t : Task) (waitpid : Int) : Option (State × Reply) :=
  if waitpid = -1 then
    match t.children with
    | [] => failed s true .echild
    | c :: cs =>
      if c = 0 then failed s true .echild
      else if c < maxProcesses then
        some (s.setTask p (some { t with children := 0 :: cs }), ⟨true, c, .ok⟩)
      else none
  else if 0 ≤ waitpid ∧ waitpid < maxProcesses then some (s, ⟨true, waitpid, .ok⟩)
  else none

def callOf (s : State) (p : Nat) (t : Task) : Call → Option (State × Reply)
  | .exit status killed =>
    some (s.setTask p (some { t with exitCode := status }), ⟨killed, 0, .ok⟩)
  | .open path flags found created connects index =>
    openCall s p t path flags found created connects index
  | .close fd disconnects => closeCall s p t fd disconnects
  | .fork answers => forkCall s p t answers
  | .execve built removed => execveCall s p t built removed
  | .pipe => pipeCall s p t
  | .stat found => if found then some (s, ⟨true, 0, .ok⟩) else failed s false .enoent
  | .getdents fd found => getdentsCall s t fd found
  | .dup oldfd connects => dupCall s p t oldfd connects
  | .dup2 oldfd newfd disconnects connects => dup2Call s p t oldfd newfd disconnects connects
  | .wait4 waitpid => wait4Call s p t waitpid
  | .unknown _ => some (s, ⟨true, 0, .ok⟩)

/-- `$trans` of section 2: a call of process `pid`. -/
def trans (s : State) (e : Int × Call) : Option (State × Reply) :=
  (s.getTask e.1).bind fun t => callOf s e.1.toNat t e.2

/-! ## The first process -/

def State.empty (fsAddr : Nat) : State := ⟨fun _ => none, fun _ _ => none, fsAddr + 1, fsAddr, 0⟩

/-- The descriptors of a new process: keyboard and screens at `addr`, `addr + 1` and `addr + 2`. -/
def stdFd (addr : Nat) (fd : Nat) : Filedes :=
  if fd < 3 then { Filedes.empty with type := .char, addr := addr + fd } else .empty

/-- `create_process`. `found` is about the program file, `built` about all the bricks. -/
def createProcess (s : State) (found built : Bool) : Option State :=
  if !found then some s
  else match freeTask s with
    | none => none
    | some p =>
      if !built then some s
      else
        some ({ s with
          input := fun b i =>
            if b = s.next then if i < 3 then some (s.next + 1 + i, 0) else none else s.input b i
          next := s.next + 4 }.setTask p
            (some ⟨p, s.next, List.replicate 8 0, 0xAAAA, stdFd (s.next + 1)⟩))

/-- `$output_init`. -/
def Init (s : State) : Prop :=
  ∃ fsAddr found built, fsAddr ≠ 0 ∧ createProcess (.empty fsAddr) found built = some s

end Athomux.StratNative
