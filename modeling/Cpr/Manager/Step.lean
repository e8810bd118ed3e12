/-
# The steps of the manager

One step of the process as `aio_manager.c` sees it: a step of `aio_loop`, the completion of
an operation inside the kernel, or an action of the client (the main thread).  The label
says who moves and what the kernel answers.
-/
import Cpr.Manager.Loop
import Cpr.Lib.Transition

namespace Cpr

/-- The labels of the manager's steps. -/
inductive Act
  -- steps of `aio_loop`, in the order of its code
  | lockFlush
  | getEvents (events : List IoEvent)
  | handleEvent
  | checkDone
  | unlockBreak
  | lockRequest
  | readSize
  | readOne (o : AioState.ReadAnswer)
  | readSubmit (ret : ℤ)
  | unlockRequest
  | writeSize
  | writeOne (fd : ℤ)
  | writeSubmit (ret : ℤ)
  | unlockFlush
  /-- The kernel completes a pending operation. -/
  | complete (c : Iocb) (res : ℕ)
  -- the client
  | startThread
  | bumpReqCount
  | newRequest (srcName dstName : CStr)
  | clientLockRequest
  | addCopyReq (r : ReqId)
  | clientUnlockRequest
  | clientLockFlush
  | setFlush
  | clientUnlockFlush
  | exit (code : ℤ)
deriving DecidableEq, Repr

namespace AioState

/-- A step of `aio_loop`, at the place where it is. -/
def loopStep (a : AioState) : Act → Option AioState
  | .lockFlush =>
    if a.pc = .lockFlush then (a.lockFlush .aio).map fun a' => { a' with pc := .getEvents }
    else none
  | .getEvents events => if a.pc = .getEvents then a.getEvents events else none
  | .handleEvent =>
    match a.pc with
    | .handle (e :: rest) => some (a.handleEvent e rest)
    | _ => none
  | .checkDone => if a.pc = .handle [] then some a.checkDone else none
  | .unlockBreak =>
    if a.pc = .unlockBreak then some { a.unlockFlush with pc := .returned } else none
  | .lockRequest =>
    if a.pc = .lockRequest then (a.lockRequest .aio).map fun a' => { a' with pc := .readSize }
    else none
  | .readSize => if a.pc = .readSize then some a.readSize else none
  | .readOne o =>
    match a.pc with
    | .readLoop size iocbs =>
      if (iocbs.length : ℤ) < size ∧ o.Possible a then some (a.readOne o size iocbs) else none
    | _ => none
  | .readSubmit ret =>
    match a.pc with
    | .readLoop size iocbs =>
      if ¬ (iocbs.length : ℤ) < size ∧ ret ≤ iocbs.length then
        some (a.submit ret size iocbs .unlockRequest (.readLoop size))
      else none
    | _ => none
  | .unlockRequest =>
    if a.pc = .unlockRequest then some { a.unlockRequest with pc := .writeSize } else none
  | .writeSize => if a.pc = .writeSize then some a.writeSize else none
  | .writeOne fd =>
    match a.pc with
    | .writeLoop size iocbs =>
      if (iocbs.length : ℤ) < size ∧ (0 ≤ fd → fd ∉ a.openFds) then
        some (a.writeOne fd size iocbs)
      else none
    | _ => none
  | .writeSubmit ret =>
    match a.pc with
    | .writeLoop size iocbs =>
      if ¬ (iocbs.length : ℤ) < size ∧ ret ≤ iocbs.length then
        some (a.submit ret size iocbs .unlockFlush (.writeLoop size))
      else none
    | _ => none
  | .unlockFlush =>
    if a.pc = .unlockFlush then some { a.unlockFlush with pc := .lockFlush } else none
  | _ => none

/-- The kernel completes a pending operation with a result. -/
def completeStep (a : AioState) (c : Iocb) (res : ℕ) : Option AioState :=
  if Op.pending c ∈ a.flight ∧ res < 2 ^ 64 then
    some { a with flight := ⟨c, some res⟩ :: a.flight.erase (.pending c) }
  else none

/-- An action of the client. -/
def clientStep (a : AioState) : Act → Option AioState
  | .startThread => if a.pc = .notStarted then some { a with pc := .lockFlush } else none
  | .bumpReqCount => some a.bumpReqCount
  | .newRequest srcName dstName => some (a.newRequest srcName dstName)
  | .clientLockRequest => a.lockRequest .main
  | .addCopyReq r =>
    if a.mgr.requestMutex = some .main ∧ a.mainReq = some r then some (a.addCopyReq r) else none
  | .clientUnlockRequest =>
    if a.mgr.requestMutex = some .main then some a.unlockRequest else none
  | .clientLockFlush => a.lockFlush .main
  | .setFlush => if a.mgr.flushMutex = some .main then some a.setFlush else none
  | .clientUnlockFlush => if a.mgr.flushMutex = some .main then some a.unlockFlush else none
  | .exit code => some (a.exit code)
  | _ => none

/-- One step of the process; a process that ended does not move. -/
def step (a : AioState) (act : Act) : Option AioState :=
  if a.ended.isSome then none
  else
    match act with
    | .complete c res => a.completeStep c res
    | act => (a.loopStep act).or (a.clientStep act)

/-! ## What a step can do -/

/-- What each label asks of the state and what it does to it. -/
inductive Fires (a : AioState) : Act → AioState → Prop
  | lockFlush (hpc : a.pc = .lockFlush) (hfree : a.mgr.flushMutex = none) :
      Fires a .lockFlush
        { a with mgr := { a.mgr with flushMutex := some .aio }, pc := .getEvents }
  | getEvents (events : List IoEvent) (hpc : a.pc = .getEvents) (hten : events.length ≤ 10)
      (hsub : (events.map IoEvent.op).Subperm a.flight) :
      Fires a (.getEvents events)
        { a with
          flight := a.flight.diff (events.map IoEvent.op)
          pc := .handle events
          log := (events.map fun e => .reaped e.obj e.res).reverse ++ a.log }
  | handleEvent (e : IoEvent) (rest : List IoEvent) (hpc : a.pc = .handle (e :: rest)) :
      Fires a .handleEvent (a.handleEvent e rest)
  | checkDone (hpc : a.pc = .handle []) : Fires a .checkDone a.checkDone
  | unlockBreak (hpc : a.pc = .unlockBreak) :
      Fires a .unlockBreak { a with mgr := { a.mgr with flushMutex := none }, pc := .returned }
  | lockRequest (hpc : a.pc = .lockRequest) (hfree : a.mgr.requestMutex = none) :
      Fires a .lockRequest
        { a with mgr := { a.mgr with requestMutex := some .aio }, pc := .readSize }
  | readSize (hpc : a.pc = .readSize) : Fires a .readSize a.readSize
  | readOne (o : ReadAnswer) (size : ℤ) (iocbs : List Iocb) (hpc : a.pc = .readLoop size iocbs)
      (hlt : (iocbs.length : ℤ) < size) (hposs : o.Possible a) :
      Fires a (.readOne o) (a.readOne o size iocbs)
  | readSubmit (ret size : ℤ) (iocbs : List Iocb) (hpc : a.pc = .readLoop size iocbs)
      (hge : size ≤ iocbs.length) (hret : ret ≤ iocbs.length) :
      Fires a (.readSubmit ret) (a.submit ret size iocbs .unlockRequest (.readLoop size))
  | unlockRequest (hpc : a.pc = .unlockRequest) :
      Fires a .unlockRequest
        { a with mgr := { a.mgr with requestMutex := none }, pc := .writeSize }
  | writeSize (hpc : a.pc = .writeSize) : Fires a .writeSize a.writeSize
  | writeOne (fd size : ℤ) (iocbs : List Iocb) (hpc : a.pc = .writeLoop size iocbs)
      (hlt : (iocbs.length : ℤ) < size) (hfd : 0 ≤ fd → fd ∉ a.openFds) :
      Fires a (.writeOne fd) (a.writeOne fd size iocbs)
  | writeSubmit (ret size : ℤ) (iocbs : List Iocb) (hpc : a.pc = .writeLoop size iocbs)
      (hge : size ≤ iocbs.length) (hret : ret ≤ iocbs.length) :
      Fires a (.writeSubmit ret) (a.submit ret size iocbs .unlockFlush (.writeLoop size))
  | unlockFlush (hpc : a.pc = .unlockFlush) :
      Fires a .unlockFlush { a with mgr := { a.mgr with flushMutex := none }, pc := .lockFlush }
  | complete (c : Iocb) (res : ℕ) (hmem : .pending c ∈ a.flight) (hres : res < 2 ^ 64) :
      Fires a (.complete c res)
        { a with flight := ⟨c, some res⟩ :: a.flight.erase (.pending c) }
  | startThread (hpc : a.pc = .notStarted) : Fires a .startThread { a with pc := .lockFlush }
  | bumpReqCount : Fires a .bumpReqCount a.bumpReqCount
  | newRequest (srcName dstName : CStr) :
      Fires a (.newRequest srcName dstName) (a.newRequest srcName dstName)
  | clientLockRequest (hfree : a.mgr.requestMutex = none) :
      Fires a .clientLockRequest { a with mgr := { a.mgr with requestMutex := some .main } }
  | addCopyReq (r : ReqId) (hheld : a.mgr.requestMutex = some .main) (hr : a.mainReq = some r) :
      Fires a (.addCopyReq r) (a.addCopyReq r)
  | clientUnlockRequest (hheld : a.mgr.requestMutex = some .main) :
      Fires a .clientUnlockRequest { a with mgr := { a.mgr with requestMutex := none } }
  | clientLockFlush (hfree : a.mgr.flushMutex = none) :
      Fires a .clientLockFlush { a with mgr := { a.mgr with flushMutex := some .main } }
  | setFlush (hheld : a.mgr.flushMutex = some .main) : Fires a .setFlush a.setFlush
  | clientUnlockFlush (hheld : a.mgr.flushMutex = some .main) :
      Fires a .clientUnlockFlush { a with mgr := { a.mgr with flushMutex := none } }
  | exit (code : ℤ) : Fires a (.exit code) (a.exit code)

/-- Inversion of a step. -/
theorem fires_of_step {a a' : AioState} {act : Act} (h : a.step act = some a') :
    a.ended = none ∧ Fires a act a' := by
  have hended : a.ended = none := by
    cases he : a.ended with
    | none => rfl
    | some x => simp [step, he] at h
  refine ⟨hended, ?_⟩
  unfold step at h
  rw [if_neg (by simp [hended])] at h
  cases act <;>
    simp only [loopStep, clientStep, completeStep, AioState.lockFlush, AioState.lockRequest,
      AioState.getEvents, AioState.unlockFlush, AioState.unlockRequest, Option.or_none,
      Option.none_or, Option.ite_none_right_eq_some, Option.map_eq_some_iff,
      Option.some.injEq] at h
  case lockFlush =>
    obtain ⟨hpc, _, ⟨hfree, rfl⟩, rfl⟩ := h
    exact .lockFlush hpc hfree
  case getEvents events =>
    obtain ⟨hpc, ⟨hten, hsub⟩, rfl⟩ := h
    exact .getEvents events hpc hten hsub
  case handleEvent =>
    split at h
    · rename_i e rest hpc
      obtain rfl := Option.some.inj h
      exact .handleEvent e rest hpc
    · simp at h
  case checkDone =>
    obtain ⟨hpc, rfl⟩ := h
    exact .checkDone hpc
  case unlockBreak =>
    obtain ⟨hpc, rfl⟩ := h
    exact .unlockBreak hpc
  case lockRequest =>
    obtain ⟨hpc, _, ⟨hfree, rfl⟩, rfl⟩ := h
    exact .lockRequest hpc hfree
  case readSize =>
    obtain ⟨hpc, rfl⟩ := h
    exact .readSize hpc
  case readOne o =>
    split at h
    · rename_i size iocbs hpc
      obtain ⟨⟨hlt, hposs⟩, rfl⟩ := by simpa using h
      exact .readOne o size iocbs hpc hlt hposs
    · simp at h
  case readSubmit ret =>
    split at h
    · rename_i size iocbs hpc
      obtain ⟨⟨hge, hret⟩, rfl⟩ := by simpa using h
      exact .readSubmit ret size iocbs hpc hge hret
    · simp at h
  case unlockRequest =>
    obtain ⟨hpc, rfl⟩ := h
    exact .unlockRequest hpc
  case writeSize =>
    obtain ⟨hpc, rfl⟩ := h
    exact .writeSize hpc
  case writeOne fd =>
    split at h
    · rename_i size iocbs hpc
      obtain ⟨⟨hlt, hfd⟩, rfl⟩ := by simpa using h
      exact .writeOne fd size iocbs hpc hlt hfd
    · simp at h
  case writeSubmit ret =>
    split at h
    · rename_i size iocbs hpc
      obtain ⟨⟨hge, hret⟩, rfl⟩ := by simpa using h
      exact .writeSubmit ret size iocbs hpc hge hret
    · simp at h
  case unlockFlush =>
    obtain ⟨hpc, rfl⟩ := h
    exact .unlockFlush hpc
  case complete c res =>
    obtain ⟨⟨hmem, hres⟩, rfl⟩ := h
    exact .complete c res hmem hres
  case startThread =>
    obtain ⟨hpc, rfl⟩ := h
    exact .startThread hpc
  case bumpReqCount =>
    obtain rfl := h
    exact .bumpReqCount
  case newRequest srcName dstName =>
    obtain rfl := h
    exact .newRequest srcName dstName
  case clientLockRequest =>
    obtain ⟨hfree, rfl⟩ := h
    exact .clientLockRequest hfree
  case addCopyReq r =>
    obtain ⟨⟨hheld, hr⟩, rfl⟩ := h
    exact .addCopyReq r hheld hr
  case clientUnlockRequest =>
    obtain ⟨hheld, rfl⟩ := h
    exact .clientUnlockRequest hheld
  case clientLockFlush =>
    obtain ⟨hfree, rfl⟩ := h
    exact .clientLockFlush hfree
  case setFlush =>
    obtain ⟨hheld, rfl⟩ := h
    exact .setFlush hheld
  case clientUnlockFlush =>
    obtain ⟨hheld, rfl⟩ := h
    exact .clientUnlockFlush hheld
  case exit code =>
    obtain rfl := h
    exact .exit code

end AioState

end Cpr
