/-
# The data of the AIO manager

The types of `aio_manager.h`, the parts of the kernel that `aio_loop` talks to (the AIO
context, the descriptor table, the address space), and the state of the two threads as far
as `aio_manager.c` is concerned.

Pointers to a `copy_request_t` are blocks of a `Heap`, so that following a null pointer or
a pointer to a freed request is an observable error.  A pointer to a `struct iocb` carries
the control block it points to: no code writes to a control block after `io_prep_pread` or
`io_prep_pwrite`.
-/
import Cpr.Lib.Heap
import Cpr.Lib.MachineInt
import Mathlib.Data.Finset.Erase
import Mathlib.Data.Finset.Insert
import Mathlib.Data.List.Perm.Subperm

namespace Cpr

/-- A C string, without its terminator. -/
abbrev CStr : Type := List Char

/-- A pointer to a `copy_request_t`. -/
abbrev ReqId : Type := ℕ

/-- `copy_request_t`. -/
structure CopyRequest where
  srcName : CStr
  dstName : CStr
  srcFd : ℤ
  dstFd : ℤ
  fsize : ℤ
  /-- An address; `0` is `NULL`. -/
  buffer : ℕ
  next : Option ReqId
  /-- 0-pre, 1-read, 2-write -/
  state : ℤ
deriving DecidableEq, Repr

/-- The two threads of the process. -/
inductive Thread
  | main
  | aio
deriving DecidableEq, Repr

/-- `aio_manager_t`, with each mutex represented by the thread that holds it. -/
structure AioManager where
  readHead : Option ReqId
  writeHead : Option ReqId
  requestCount : ℤ
  readLen : ℤ
  writeLen : ℤ
  finishedCount : ℤ
  flush : Bool
  readBatchSize : ℤ
  writeBatchSize : ℤ
  requestMutex : Option Thread
  flushMutex : Option Thread
deriving DecidableEq, Repr

/-! ## The kernel's side -/

/-- The operation of a control block. -/
inductive Opcode
  | pread
  | pwrite
deriving DecidableEq, Repr

/-- A pointer to a `struct iocb`, with the control block it points to. -/
structure Iocb where
  addr : ℕ
  opcode : Opcode
  fd : ℤ
  buf : ℕ
  nbytes : ℕ
  offset : ℕ
  data : ReqId
deriving DecidableEq, Repr

/-- An operation accepted by `io_submit` and not yet returned by `io_getevents`: pending,
or completed with a 64-bit result. -/
structure Op where
  obj : Iocb
  result : Option ℕ
deriving DecidableEq, Repr

/-- An operation that `io_submit` just accepted. -/
def Op.pending (c : Iocb) : Op := ⟨c, none⟩

/-- `struct io_event`. -/
structure IoEvent where
  obj : Iocb
  res : ℕ
deriving DecidableEq, Repr

/-- The kernel copies the `data` field of the control block into the event. -/
def IoEvent.data (e : IoEvent) : ReqId := e.obj.data

/-- The completed operation that an event reports. -/
def IoEvent.op (e : IoEvent) : Op := ⟨e.obj, some e.res⟩

/-- `MAP_FAILED`, that is `(void *) -1`. -/
def mapFailed : ℕ := 2 ^ 64 - 1

/-- The page size, to which `mmap` aligns its result. -/
def pageSize : ℕ := 4096

/-- The end of the user part of the address space. -/
def addressLimit : ℕ := 2 ^ 47

/-- A length rounded up to whole pages. -/
def pageRound (len : ℕ) : ℕ := (len + (pageSize - 1)) / pageSize * pageSize

/-- Two mappings, given by start and length, share no page. -/
def DisjointMaps (m m' : ℕ × ℕ) : Prop :=
  m.1 + pageRound m.2 ≤ m'.1 ∨ m'.1 + pageRound m'.2 ≤ m.1

instance (m m' : ℕ × ℕ) : Decidable (DisjointMaps m m') :=
  inferInstanceAs (Decidable (_ ∨ _))

/-- What `mmap` may return for a length: `MAP_FAILED`, or, for a positive length, a
page-aligned address of pages that are not mapped yet. -/
def MmapAnswer (maps : List (ℕ × ℕ)) (len buf : ℕ) : Prop :=
  buf = mapFailed ∨
    (0 < len ∧ 0 < buf ∧ pageSize ∣ buf ∧ buf + len ≤ addressLimit ∧
      ∀ m ∈ maps, DisjointMaps (buf, len) m)

instance (maps : List (ℕ × ℕ)) (len buf : ℕ) : Decidable (MmapAnswer maps len buf) :=
  inferInstanceAs (Decidable (_ ∨ (_ ∧ _ ∧ _ ∧ _ ∧ _)))

/-! ## The two threads -/

/-- Where `aio_loop` is.  The local arrays `events`, `read_iocbs` and `write_iocbs` are
arguments: the events not handled yet, and the control blocks prepared so far. -/
inductive AioPc
  /-- Before `pthread_create`. -/
  | notStarted
  /-- The top of the loop: lock `flush_mutex`. -/
  | lockFlush
  | getEvents
  /-- The `for` loop over the events; with no event left, the stop test. -/
  | handle (events : List IoEvent)
  /-- The stop test succeeded: unlock and `break`. -/
  | unlockBreak
  | lockRequest
  | readSize
  | readLoop (readSize : ℤ) (readIocbs : List Iocb)
  | unlockRequest
  | writeSize
  | writeLoop (writeSize : ℤ) (writeIocbs : List Iocb)
  | unlockFlush
  /-- `aio_loop` returned. -/
  | returned
deriving DecidableEq, Repr

/-- How the process ended. -/
inductive Exit
  /-- `exit(code)`, or `main` returned `code`. -/
  | exited (code : ℤ)
  /-- An access through a null or dangling pointer. -/
  | crashed
deriving DecidableEq, Repr

/-- What happened to the requests so far, as seen at the interfaces of the manager. -/
inductive Obs
  /-- `add_copy_req` linked the request in. -/
  | accepted (r : ReqId)
  /-- `io_submit` accepted the control block. -/
  | submitted (c : Iocb)
  /-- `io_getevents` returned the control block with a result. -/
  | reaped (c : Iocb) (res : ℕ)
  /-- `aio_loop` freed the request. -/
  | finished (r : ReqId)
deriving DecidableEq, Repr

/-- A history, newest first. -/
abbrev Log : Type := List Obs

/-- The state of the process, as far as `aio_manager.c` reads or writes it, with the
kernel objects it owns. -/
structure AioState where
  mgr : AioManager
  reqs : Heap CopyRequest
  iocbs : Heap Iocb
  /-- The AIO context: the operations submitted and not yet reaped. -/
  flight : List Op
  openFds : Finset ℤ
  /-- The live mappings made by `aio_loop`, as start and length. -/
  maps : List (ℕ × ℕ)
  /-- `req_count` of `cpr.c`. -/
  reqCount : ℤ
  /-- The local variable `copy_request` of `copy_reg`, in the main thread. -/
  mainReq : Option ReqId
  pc : AioPc
  ended : Option Exit
  /-- The history of the run. -/
  log : Log

end Cpr
