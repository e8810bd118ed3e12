/-
# `aio_loop` and the operations of the manager

Each function here is the code of `aio_manager.c` between two points where the other thread
or the kernel may interfere: the lock and unlock calls, the stop test, one iteration of
each `for` loop, and the calls of `io_getevents` and `io_submit`.  The answers of the kernel
are arguments; `none` means that the kernel cannot give that answer.

The main thread appears as a client: it allocates requests, takes and releases the two
mutexes, links a request in, sets `flush`, increments `req_count` and may end the process,
in any order that respects the mutexes.  The order in which `cpr.c` does these things is
added later.
-/
import Cpr.Manager.Types

namespace Cpr

/-- `init_aio_manager`, and the state of the process around it. -/
def AioState.init (readBatchSize writeBatchSize : ℤ) : AioState where
  mgr :=
    { readHead := none, writeHead := none, requestCount := 0, readLen := 0, writeLen := 0,
      finishedCount := 0, flush := false, readBatchSize := readBatchSize,
      writeBatchSize := writeBatchSize, requestMutex := none, flushMutex := none }
  reqs := .empty
  iocbs := .empty
  flight := []
  openFds := ∅
  maps := []
  reqCount := 0
  mainReq := none
  pc := .notStarted
  ended := none
  log := []

namespace AioState

variable (a : AioState)

/-- The process ends with an exit status. -/
def exit (code : ℤ) : AioState := { a with ended := some (.exited code) }

/-- An access through a null or dangling pointer. -/
def crash : AioState := { a with ended := some .crashed }

/-! ## Mutexes -/

/-- `pthread_mutex_lock(&aio_manager->request_mutex)` by thread `t`: it waits until the
mutex is free. -/
def lockRequest (t : Thread) : Option AioState :=
  if a.mgr.requestMutex = none then
    some { a with mgr := { a.mgr with requestMutex := some t } }
  else none

/-- `pthread_mutex_unlock(&aio_manager->request_mutex)`. -/
def unlockRequest : AioState := { a with mgr := { a.mgr with requestMutex := none } }

/-- `pthread_mutex_lock(&aio_manager->flush_mutex)` by thread `t`. -/
def lockFlush (t : Thread) : Option AioState :=
  if a.mgr.flushMutex = none then
    some { a with mgr := { a.mgr with flushMutex := some t } }
  else none

/-- `pthread_mutex_unlock(&aio_manager->flush_mutex)`. -/
def unlockFlush : AioState := { a with mgr := { a.mgr with flushMutex := none } }

/-! ## The reap phase -/

/-- `io_getevents(ctx, 0, 10, events, NULL)` returns the given events: at most ten
completed operations, in any order.  A failing call returns none. -/
def getEvents (events : List IoEvent) : Option AioState :=
  if events.length ≤ 10 ∧ (events.map IoEvent.op).Subperm a.flight then
    some { a with
      flight := a.flight.diff (events.map IoEvent.op)
      pc := .handle events
      log := (events.map fun e => .reaped e.obj e.res).reverse ++ a.log }
  else none

/-- The finished read: close the source, push the request onto the write list and free the
control block. -/
def finishRead (e : IoEvent) (req : CopyRequest) (rest : List IoEvent) : AioState :=
  { a with
    openFds := a.openFds.erase req.srcFd
    reqs := a.reqs.set e.data { req with next := a.mgr.writeHead }
    mgr := { a.mgr with
      writeHead := some e.data
      writeLen := toInt32 (a.mgr.writeLen + 1) }
    iocbs := a.iocbs.free e.obj.addr
    pc := .handle rest }

/-- The finished write: close the destination, count and free the request and the control
block. -/
def finishWrite (e : IoEvent) (req : CopyRequest) (rest : List IoEvent) : AioState :=
  { a with
    openFds := a.openFds.erase req.dstFd
    reqs := a.reqs.free e.data
    mgr := { a.mgr with finishedCount := toInt32 (a.mgr.finishedCount + 1) }
    iocbs := a.iocbs.free e.obj.addr
    pc := .handle rest
    log := .finished e.data :: a.log }

/-- The body of the `for` loop over the events, for the event `e`; `rest` are the events
after it. -/
def handleEvent (e : IoEvent) (rest : List IoEvent) : AioState :=
  match a.reqs.get? e.data with
  | none => a.crash
  | some req =>
    if e.res ≠ toUlong req.fsize then a.exit 1
    else if req.state = 1 then a.finishRead e req rest
    else if req.state = 2 then a.finishWrite e req rest
    else { a with iocbs := a.iocbs.free e.obj.addr, pc := .handle rest }

/-- The stop test `flush && (req_count == finished_count)`. -/
def stopTest : Bool := a.mgr.flush && decide (a.reqCount = a.mgr.finishedCount)

/-- The stop test and its branch. -/
def checkDone : AioState :=
  { a with pc := if a.stopTest then .unlockBreak else .lockRequest }

/-! ## The read phase -/

/-- The value of `read_size` before the loop. -/
def chooseReadSize : ℤ :=
  if a.mgr.flush then a.mgr.readLen
  else if a.mgr.readLen ≥ a.mgr.readBatchSize then a.mgr.readBatchSize
  else 0

/-- `int read_size = …; if (read_size > 0)`. -/
def readSize : AioState :=
  { a with pc := if a.chooseReadSize > 0 then .readLoop a.chooseReadSize [] else .unlockRequest }

/-- What the kernel answers in one iteration of the read loop: the result of `open`, the
`st_size` of a successful `fstat`, and the result of `mmap`. -/
structure ReadAnswer where
  fd : ℤ
  stSize : Option ℕ
  buf : ℕ
deriving DecidableEq, Repr

/-- `open` returns a descriptor that is not open; `st_size` is a non-negative `off_t`. -/
def ReadAnswer.Possible (o : ReadAnswer) : Prop :=
  (0 ≤ o.fd → o.fd ∉ a.openFds) ∧
    ∀ n ∈ o.stSize, n < 2 ^ 63 ∧ MmapAnswer a.maps (toUlong (toInt32 n)) o.buf

instance (o : ReadAnswer) : Decidable (o.Possible a) :=
  inferInstanceAs (Decidable (_ ∧ ∀ n ∈ o.stSize, _))

/-- `io_prep_pread` and the assignment of the `data` field. -/
def ioPrepPread (addr : ℕ) (fd : ℤ) (buf count offset : ℕ) (data : ReqId) : Iocb :=
  ⟨addr, .pread, fd, buf, count, offset, data⟩

/-- `io_prep_pwrite` and the assignment of the `data` field. -/
def ioPrepPwrite (addr : ℕ) (fd : ℤ) (buf count offset : ℕ) (data : ReqId) : Iocb :=
  ⟨addr, .pwrite, fd, buf, count, offset, data⟩

/-- The rest of an iteration of the read loop, when `open`, `fstat` and `mmap` passed their
tests: the request `r` with content `curr` gets its size, its buffer and its control block,
and leaves the read list. -/
def startRead (r : ReqId) (curr : CopyRequest) (fd : ℤ) (stSize buf : ℕ) (size : ℤ)
    (readIocbs : List Iocb) : AioState :=
  let fsize := toInt32 stSize
  let readReq := ioPrepPread a.iocbs.next fd buf (toUlong fsize) 0 r
  { a with
    openFds := insert fd a.openFds
    maps := if buf = mapFailed then a.maps else (buf, toUlong fsize) :: a.maps
    iocbs := a.iocbs.alloc readReq
    mgr := { a.mgr with
      readHead := curr.next
      readLen := toInt32 (a.mgr.readLen - 1) }
    reqs := a.reqs.set r { curr with
      srcFd := fd, fsize := fsize, buffer := buf, next := none, state := 1 }
    pc := .readLoop size (readIocbs ++ [readReq]) }

/-- One iteration of the read loop. -/
def readOne (o : ReadAnswer) (size : ℤ) (readIocbs : List Iocb) : AioState :=
  match a.mgr.readHead with
  | none => a.crash
  | some r =>
    match a.reqs.get? r with
    | none => a.crash
    | some curr =>
      if o.fd < 0 then a.exit 1
      else
        match o.stSize with
        | none => { a with openFds := insert o.fd a.openFds }.exit 1
        | some stSize =>
          if o.buf = 0 then { a with openFds := insert o.fd a.openFds }.exit 1
          else a.startRead r curr o.fd stSize o.buf size readIocbs

/-- The operations that `io_submit` accepts when it returns `ret`. -/
def accepted (ret : ℤ) (iocbs : List Iocb) : List Iocb := iocbs.take ret.toNat

/-- `io_submit(ctx, size, iocbs)` returns `ret`, an error code or the number of control
blocks accepted.  `next` is where the loop goes on; `stop` is the loop with the control
blocks that were not accepted, where the process exits. -/
def submit (ret size : ℤ) (iocbs : List Iocb) (next : AioPc) (stop : List Iocb → AioPc) :
    AioState :=
  let a' := { a with
    flight := (accepted ret iocbs).map Op.pending ++ a.flight
    log := ((accepted ret iocbs).map Obs.submitted).reverse ++ a.log }
  if ret ≠ size then { a' with pc := stop (iocbs.drop ret.toNat) }.exit 1
  else { a' with pc := next }

/-! ## The write phase -/

/-- The value of `write_size` before the loop. -/
def chooseWriteSize : ℤ :=
  if a.mgr.flush then a.mgr.writeLen
  else if a.mgr.writeLen ≥ a.mgr.writeBatchSize then a.mgr.writeBatchSize
  else 0

/-- `int write_size = …; if (write_size > 0)`. -/
def writeSize : AioState :=
  { a with pc := if a.chooseWriteSize > 0 then .writeLoop a.chooseWriteSize [] else .unlockFlush }

/-- The rest of an iteration of the write loop, when `open` succeeded: the request `r` with
content `curr` gets its control block and leaves the write list. -/
def startWrite (r : ReqId) (curr : CopyRequest) (fd size : ℤ) (writeIocbs : List Iocb) :
    AioState :=
  let writeReq := ioPrepPwrite a.iocbs.next fd curr.buffer (toUlong curr.fsize) 0 r
  { a with
    openFds := insert fd a.openFds
    iocbs := a.iocbs.alloc writeReq
    mgr := { a.mgr with
      writeHead := curr.next
      writeLen := toInt32 (a.mgr.writeLen - 1) }
    reqs := a.reqs.set r { curr with dstFd := fd, next := none, state := 2 }
    pc := .writeLoop size (writeIocbs ++ [writeReq]) }

/-- One iteration of the write loop; `fd` is the result of `open`. -/
def writeOne (fd : ℤ) (size : ℤ) (writeIocbs : List Iocb) : AioState :=
  match a.mgr.writeHead with
  | none => a.crash
  | some r =>
    match a.reqs.get? r with
    | none => a.crash
    | some curr => if fd < 0 then a.exit 1 else a.startWrite r curr fd size writeIocbs

/-! ## The client's operations -/

/-- The allocation and initialisation in `copy_reg`. -/
def newRequest (srcName dstName : CStr) : AioState :=
  { a with
    reqs := a.reqs.alloc
      { srcName := srcName, dstName := dstName, srcFd := -1, dstFd := -1, fsize := 0,
        buffer := 0, next := none, state := 0 }
    mainReq := some a.reqs.next }

/-- The assignments of `add_copy_req` under the lock, for a request with content `req`. -/
def linkIn (r : ReqId) (req : CopyRequest) : AioState :=
  { a with
    mgr := { a.mgr with
      requestCount := toInt32 (a.mgr.requestCount + 1)
      readLen := toInt32 (a.mgr.readLen + 1)
      readHead := some r }
    reqs := a.reqs.set r { req with next := a.mgr.readHead }
    mainReq := none
    log := .accepted r :: a.log }

/-- `add_copy_req` under the lock. -/
def addCopyReq (r : ReqId) : AioState :=
  match a.reqs.get? r with
  | none => a.crash
  | some req => a.linkIn r req

/-- `aio_manager->flush = true` of `wait_for_aio_finish`. -/
def setFlush : AioState := { a with mgr := { a.mgr with flush := true } }

/-- `req_count += 1`. -/
def bumpReqCount : AioState := { a with reqCount := toInt32 (a.reqCount + 1) }

end AioState

end Cpr
