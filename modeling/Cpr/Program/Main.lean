/-
# The program

`cpr.c` on top of the manager: `main`, the walk of `copy_internal` and `copy_dir` over its
queue of nodes, and `copy_reg`.  The main thread and `aio_loop` take their steps in any
order; each label says which thread moves, or that the kernel completes an operation, and
what the kernel answers.
-/
import Cpr.Lib.Unix.Calls
import Cpr.Manager.Step

namespace Cpr

open Unix

/-- `MAX_EVENTS`. -/
def maxEvents : ℕ := 65536

/-- `node_t`. -/
structure Node where
  srcName : CStr
  dstName : CStr
deriving DecidableEq, Repr

/-- The values of `d_type`. -/
inductive DType
  | unknown
  | fifo
  | chr
  | dir
  | blk
  | reg
  | lnk
  | sock
deriving DecidableEq, Repr

/-- The answer of `readdir`: an entry, the end of the directory, or an error (`NULL` with
`errno` set). -/
inductive ReaddirAnswer
  | entry (name : Name) (dtype : DType)
  | finished
  | failed
deriving DecidableEq, Repr

/-- Where the main thread is.  The node it works on is the first of the queue. -/
inductive MainPc
  -- `main`
  | initManager
  | startThread
  -- the head of the loop of `copy_internal`
  | walk
  | mkdir
  -- `copy_dir`
  | opendir
  | readdir
  | closedir
  | bumpReqCount
  -- `copy_reg`, then `add_copy_req`
  | copyReg
  | addLock
  | addLink
  | addUnlock
  -- `wait_for_aio_finish`
  | waitLock
  | waitSet
  | waitUnlock
  | join
  -- `destroy_aio_manager`
  | destroy
deriving DecidableEq, Repr

/-- The state of the program. -/
structure Prog where
  aio : AioState
  pc : MainPc
  /-- The queue of nodes of `copy_internal`. -/
  queue : List Node
  /-- `argv[1]` and `argv[2]`. -/
  argv : Node

/-- The labels of the program's steps.  A `Bool` says whether the call succeeds. -/
inductive Label
  | initManager (ok : Bool)
  | startThread (ok : Bool)
  /-- `stat` of the first node; `none` is a failure. -/
  | stat (answer : Option Kind)
  /-- The queue is empty: `copy_internal` returns. -/
  | walkEnd
  | mkdir (ok : Bool)
  | opendir (ok : Bool)
  | readdir (answer : ReaddirAnswer)
  | closedir (ok : Bool)
  | bumpReqCount
  | copyReg
  | addLock (ok : Bool)
  | addLink
  | addUnlock (ok : Bool)
  | waitLock (ok : Bool)
  | waitSet
  | waitUnlock (ok : Bool)
  | join (ok : Bool)
  | destroy (ok : Bool)
  /-- A step of `aio_loop`, or the completion of an operation. -/
  | aio (act : Act)
deriving DecidableEq, Repr

namespace Prog

/-- The state when `main` starts, with the batch size it has read. -/
def init (srcName dstName : CStr) (batchSize : ℤ) : Prog where
  aio := .init batchSize batchSize
  pc := .initManager
  queue := []
  argv := ⟨srcName, dstName⟩

variable (p : Prog)

/-- `main` returns -1.  (The steps of `aio_loop` between the failed call and the end of the
process are in `Leaving`.) -/
def fail : Prog := { p with aio := p.aio.exit (-1) }

/-- The main thread goes on, or `main` returns -1 because a call failed. -/
def proceed (ok : Bool) (next : Prog) : Prog := if ok then next else p.fail

/-- The end of an iteration of `copy_internal`: the node is freed and removed. -/
def next : Prog := { p with queue := p.queue.tail, pc := .walk }

/-- The node that `copy_dir` makes for an entry. -/
def child (curr : Node) (name : Name) : Node :=
  ⟨curr.srcName ++ '/' :: name, curr.dstName ++ '/' :: name⟩

/-- The branches of `copy_internal` on the kind of the file. -/
def branch (answer : Option Kind) : Prog :=
  match answer with
  | none => p.fail
  | some .dir => { p with pc := .mkdir }
  | some .reg => { p with pc := .bumpReqCount }
  | some _ => p.next

/-- The body of the loop of `copy_dir` over the entries of `curr`. -/
def readdirStep (curr : Node) (answer : ReaddirAnswer) : Prog :=
  match answer with
  | .failed => p.fail
  | .finished => { p with pc := .closedir }
  | .entry name dtype =>
    if name = dot ∨ name = dotdot then p
    else if dtype = .dir ∨ dtype = .reg ∨ dtype = .unknown then
      { p with queue := p.queue ++ [child curr name] }
    else { p with aio := p.aio.exit 1 }

/-- A step of `aio_loop`, or the completion of an operation. -/
def aioStep (a : AioState) (act : Act) : Option AioState :=
  match act with
  | .complete c res => a.completeStep c res
  | act => a.loopStep act

/-- A step of the main thread, at the place where it is; a step inside the walk needs a
first node. -/
def mainStep : Label → Option Prog
  | .initManager ok =>
    if p.pc = .initManager then some (p.proceed ok { p with pc := .startThread }) else none
  | .startThread ok =>
    if p.pc = .startThread then
      some (p.proceed ok
        { p with aio := { p.aio with pc := .lockFlush }, pc := .walk, queue := [p.argv] })
    else none
  | .stat answer => if p.pc = .walk ∧ p.queue ≠ [] then some (p.branch answer) else none
  | .walkEnd => if p.pc = .walk ∧ p.queue = [] then some { p with pc := .waitLock } else none
  | .mkdir ok => if p.pc = .mkdir then some (p.proceed ok { p with pc := .opendir }) else none
  | .opendir ok => if p.pc = .opendir then some (p.proceed ok { p with pc := .readdir }) else none
  | .readdir answer =>
    match p.queue with
    | curr :: _ => if p.pc = .readdir then some (p.readdirStep curr answer) else none
    | [] => none
  | .closedir ok => if p.pc = .closedir then some (p.proceed ok p.next) else none
  | .bumpReqCount =>
    if p.pc = .bumpReqCount then some { p with aio := p.aio.bumpReqCount, pc := .copyReg }
    else none
  | .copyReg =>
    match p.queue with
    | curr :: _ =>
      if p.pc = .copyReg then
        some { p with aio := p.aio.newRequest curr.srcName curr.dstName, pc := .addLock }
      else none
    | [] => none
  | .addLock ok =>
    if p.pc = .addLock then
      if ok then (p.aio.lockRequest .main).map fun a => { p with aio := a, pc := .addLink }
      else some p.fail
    else none
  | .addLink =>
    match p.aio.mainReq with
    | some r =>
      if p.pc = .addLink then some { p with aio := p.aio.addCopyReq r, pc := .addUnlock } else none
    | none => none
  | .addUnlock ok =>
    if p.pc = .addUnlock then some (p.proceed ok { p.next with aio := p.aio.unlockRequest })
    else none
  | .waitLock ok =>
    if p.pc = .waitLock then
      if ok then (p.aio.lockFlush .main).map fun a => { p with aio := a, pc := .waitSet }
      else some p.fail
    else none
  | .waitSet =>
    if p.pc = .waitSet then some { p with aio := p.aio.setFlush, pc := .waitUnlock } else none
  | .waitUnlock ok =>
    if p.pc = .waitUnlock then
      some (p.proceed ok { p with aio := p.aio.unlockFlush, pc := .join })
    else none
  | .join ok =>
    if p.pc = .join ∧ (ok = true → p.aio.pc = .returned) then
      some (p.proceed ok { p with pc := .destroy })
    else none
  | .destroy ok =>
    if p.pc = .destroy then some (p.proceed ok { p with aio := p.aio.exit 0 }) else none
  | .aio _ => none

/-- One step of the program; a process that ended does not move. -/
def step (l : Label) : Option Prog :=
  if p.aio.ended.isSome then none
  else
    match l with
    | .aio act => (aioStep p.aio act).map fun a => { p with aio := a }
    | l => p.mainStep l

end Prog

end Cpr
