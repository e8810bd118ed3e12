/-
# The program with a process per file

`old/cpr_old.c`: the same walk as in `cpr.c`, but `copy_reg` forks a child for every regular
file, and the child runs `aio_copy_p` with an AIO context of its own.  The parent and its
children take their steps in any order.
-/
import Cpr.Program.Main

namespace Cpr

open Unix

/-! ## The children -/

/-- Where `aio_copy_p` is. -/
inductive ChildPc
  | ioSetup
  /-- `open`, `fstat` and `mmap`. -/
  | openSrc
  | readSubmit
  /-- The loop on `io_getevents` for the read. -/
  | readSpin
  | openDst
  | writeSubmit
  | writeSpin
  | ioDestroy
  | exited
deriving DecidableEq, Repr

/-- A child, with the local variables of `aio_copy_p` and the kernel objects of the process. -/
structure Child where
  /-- The arguments of `aio_copy_p`. -/
  node : Node
  pc : ChildPc
  srcFd : ℤ
  dstFd : ℤ
  fsize : ℤ
  buffer : ℕ
  openFds : Finset ℤ
  maps : List (ℕ × ℕ)
  /-- The AIO context. -/
  flight : List Op
  /-- The results that `io_getevents` returned for the read and for the write. -/
  readRes : Option ℕ
  writeRes : Option ℕ
  /-- What `aio_copy_p` returned: `copy_reg` ignores it, and calls `exit(0)`. -/
  ret : Option ℤ

/-- The labels of a child's steps. -/
inductive ChildAct
  | ioSetup (ok : Bool)
  | openSrc (o : AioState.ReadAnswer)
  | readSubmit (ret : ℤ)
  /-- `read_events[0]` when the loop is left; `returned` says that `io_getevents` has filled
  it in.  A failing call leaves the loop, too. -/
  | readReap (e : IoEvent) (returned : Bool)
  | openDst (fd : ℤ)
  | writeSubmit (ret : ℤ)
  | writeReap (e : IoEvent) (returned : Bool)
  | ioDestroy (ok : Bool)
  /-- The kernel completes the pending operation. -/
  | complete (op : Iocb) (res : ℕ)
deriving DecidableEq, Repr

namespace Child

/-- A child after `fork`. -/
def new (node : Node) : Child where
  node := node
  pc := .ioSetup
  srcFd := -1
  dstFd := -1
  fsize := 0
  buffer := 0
  openFds := ∅
  maps := []
  flight := []
  readRes := none
  writeRes := none
  ret := none

variable (c : Child)

/-- `aio_copy_p` returns, and the process exits with status 0. -/
def exit (ret : ℤ) : Child := { c with pc := .exited, ret := some ret }

/-- The read request. -/
def readReq : Iocb := AioState.ioPrepPread 0 c.srcFd c.buffer (toUlong c.fsize) 0 0

/-- The write request. -/
def writeReq : Iocb := AioState.ioPrepPwrite 1 c.dstFd c.buffer (toUlong c.fsize) 0 0

/-- What the kernel may answer to `open`, `fstat` and `mmap`. -/
def Possible (o : AioState.ReadAnswer) : Prop :=
  (0 ≤ o.fd → o.fd ∉ c.openFds) ∧
    ∀ n ∈ o.stSize, n < 2 ^ 63 ∧ MmapAnswer c.maps (toUlong (toInt32 n)) o.buf

instance (o : AioState.ReadAnswer) : Decidable (c.Possible o) :=
  inferInstanceAs (Decidable (_ ∧ ∀ n ∈ o.stSize, _))

/-- `open`, `fstat` and `mmap`. -/
def openSrc (o : AioState.ReadAnswer) : Child :=
  if o.fd < 0 then c.exit (-1)
  else
    match o.stSize with
    | none => c.exit (-1)
    | some stSize =>
      if o.buf = 0 then c.exit (-1)
      else
        let fsize := toInt32 stSize
        { c with
          pc := .readSubmit
          srcFd := o.fd
          fsize := fsize
          buffer := o.buf
          openFds := insert o.fd c.openFds
          maps := if o.buf = mapFailed then c.maps else (o.buf, toUlong fsize) :: c.maps }

/-- `io_submit` of one request; `next` is the loop on `io_getevents`. -/
def submit (ret : ℤ) (req : Iocb) (next : ChildPc) : Child :=
  if ret ≠ 1 then c.exit (-1) else { c with pc := next, flight := .pending req :: c.flight }

/-- The content of the event array is the event of a completed operation, or it is not from
the kernel. -/
def Fills (e : IoEvent) (returned : Bool) : Prop := returned = true → e.op ∈ c.flight

instance (e : IoEvent) (returned : Bool) : Decidable (c.Fills e returned) :=
  inferInstanceAs (Decidable (_ → _))

/-- The operations left in the context. -/
def left (e : IoEvent) (returned : Bool) : List Op :=
  if returned then c.flight.erase e.op else c.flight

/-- The result that the kernel has reported, if it has. -/
def reported (e : IoEvent) (returned : Bool) : Option ℕ := if returned then some e.res else none

/-- After the read: `res` is an `unsigned long`.  The source is closed. -/
def readReap (e : IoEvent) (returned : Bool) : Child :=
  let c' := { c with flight := c.left e returned, readRes := reported e returned }
  if e.res < 0 then c'.exit (-1)
  else { c' with pc := .openDst, openFds := c.openFds.erase c.srcFd }

/-- `open` of the destination. -/
def openDst (fd : ℤ) : Child :=
  if fd < 0 then c.exit (-1)
  else { c with pc := .writeSubmit, dstFd := fd, openFds := insert fd c.openFds }

/-- After the write. -/
def writeReap (e : IoEvent) (returned : Bool) : Child :=
  let c' := { c with flight := c.left e returned, writeRes := reported e returned }
  if e.res < 0 then c'.exit (-1) else { c' with pc := .ioDestroy }

/-- The kernel completes a pending operation. -/
def complete (op : Iocb) (res : ℕ) : Child :=
  { c with flight := ⟨op, some res⟩ :: c.flight.erase (.pending op) }

/-- One step of a child. -/
def step : ChildAct → Option Child
  | .ioSetup ok =>
    if c.pc = .ioSetup then some (if ok then { c with pc := .openSrc } else c.exit (-1)) else none
  | .openSrc o => if c.pc = .openSrc ∧ c.Possible o then some (c.openSrc o) else none
  | .readSubmit ret =>
    if c.pc = .readSubmit ∧ ret ≤ 1 then some (c.submit ret c.readReq .readSpin) else none
  | .readReap e returned =>
    if c.pc = .readSpin ∧ c.Fills e returned then some (c.readReap e returned) else none
  | .openDst fd =>
    if c.pc = .openDst ∧ (0 ≤ fd → fd ∉ c.openFds) then some (c.openDst fd) else none
  | .writeSubmit ret =>
    if c.pc = .writeSubmit ∧ ret ≤ 1 then some (c.submit ret c.writeReq .writeSpin) else none
  | .writeReap e returned =>
    if c.pc = .writeSpin ∧ c.Fills e returned then some (c.writeReap e returned) else none
  | .ioDestroy ok =>
    if c.pc = .ioDestroy then some (c.exit (if ok then 0 else -1)) else none
  | .complete op res =>
    if c.pc ≠ .exited ∧ .pending op ∈ c.flight ∧ res < 2 ^ 64 then
      some (c.complete op res) else none

end Child

/-! ## The parent -/

/-- Where `main` is. -/
inductive OldPc
  -- the head of the loop of `copy_internal`
  | walk
  | mkdir
  -- `copy_dir`
  | opendir
  | readdir
  | closedir
  -- `copy_reg`
  | fork
  -- `wait_for_children`
  | wait
deriving DecidableEq, Repr

/-- The state of the program. -/
structure OldProg where
  pc : OldPc
  queue : List Node
  argv : Node
  /-- The children, in the order of the forks. -/
  children : List Child
  /-- The children that `wait` has returned. -/
  waited : List ℕ
  /-- What `main` returned. -/
  ended : Option ℤ
  /-- The nodes that `copy_reg` was called for, newest first. -/
  reached : List Node

/-- The labels of the program's steps.  A `Bool` says whether the call succeeds. -/
inductive OldLabel
  | stat (answer : Option Kind)
  | walkEnd
  | mkdir (ok : Bool)
  | opendir (ok : Bool)
  | readdir (answer : ReaddirAnswer)
  | closedir (ok : Bool)
  | fork (ok : Bool)
  /-- `wait` returns a child. -/
  | wait (i : ℕ)
  /-- `wait` returns -1: there is no child left. -/
  | waitEnd
  /-- A step of a child. -/
  | child (i : ℕ) (act : ChildAct)
deriving DecidableEq, Repr

namespace OldProg

/-- The state when `main` starts. -/
def init (srcName dstName : CStr) : OldProg where
  pc := .walk
  queue := [⟨srcName, dstName⟩]
  argv := ⟨srcName, dstName⟩
  children := []
  waited := []
  ended := none
  reached := []

variable (p : OldProg)

/-- `main` returns a value. -/
def exit (ret : ℤ) : OldProg := { p with ended := some ret }

/-- The parent goes on, or `main` returns -1 because a call failed. -/
def proceed (ok : Bool) (next : OldProg) : OldProg := if ok then next else p.exit (-1)

/-- The end of an iteration of `copy_internal`. -/
def next : OldProg := { p with queue := p.queue.tail, pc := .walk }

/-- The branches of `copy_internal` on the kind of the file. -/
def branch (answer : Option Kind) : OldProg :=
  match answer with
  | none => p.exit (-1)
  | some .dir => { p with pc := .mkdir }
  | some .reg => { p with pc := .fork }
  | some _ => p.next

/-- The body of the loop of `copy_dir` over the entries of `curr`: an error ends the loop like
the end of the directory, and an entry of another type is passed over. -/
def readdirStep (curr : Node) (answer : ReaddirAnswer) : OldProg :=
  match answer with
  | .failed | .finished => { p with pc := .closedir }
  | .entry name dtype =>
    if name = dot ∨ name = dotdot then p
    else if dtype = .dir ∨ dtype = .reg then
      { p with queue := p.queue ++ [Prog.child curr name] }
    else p

/-- `copy_reg` in the parent. -/
def copyReg (curr : Node) (ok : Bool) : OldProg :=
  { p.next with
    children := if ok then p.children ++ [.new curr] else p.children
    reached := curr :: p.reached }

/-- A step of the parent. -/
def mainStep : OldLabel → Option OldProg
  | .stat answer => if p.pc = .walk ∧ p.queue ≠ [] then some (p.branch answer) else none
  | .walkEnd => if p.pc = .walk ∧ p.queue = [] then some { p with pc := .wait } else none
  | .mkdir ok => if p.pc = .mkdir then some (p.proceed ok { p with pc := .opendir }) else none
  | .opendir ok => if p.pc = .opendir then some (p.proceed ok { p with pc := .readdir }) else none
  | .readdir answer =>
    match p.queue with
    | curr :: _ => if p.pc = .readdir then some (p.readdirStep curr answer) else none
    | [] => none
  | .closedir _ => if p.pc = .closedir then some p.next else none
  | .fork ok =>
    match p.queue with
    | curr :: _ => if p.pc = .fork then some (p.copyReg curr ok) else none
    | [] => none
  | .wait i =>
    match p.children[i]? with
    | some c =>
      if p.pc = .wait ∧ c.pc = .exited ∧ i ∉ p.waited then some { p with waited := i :: p.waited }
      else none
    | none => none
  | .waitEnd =>
    if p.pc = .wait ∧ ∀ i < p.children.length, i ∈ p.waited then some (p.exit 0) else none
  | .child _ _ => none

/-- One step of the program; the children may outlive `main`. -/
def step (l : OldLabel) : Option OldProg :=
  match l with
  | .child i act =>
    match p.children[i]? with
    | some c => (c.step act).map fun c' => { p with children := p.children.set i c' }
    | none => none
  | l => if p.ended.isSome then none else p.mainStep l

end OldProg

end Cpr
