/-
# Where the requests are

The invariant of the manager.  Each request that `add_copy_req` ever linked in is on a belt
of five stages:

* in the read list,
* in a read: its control block is in `read_iocbs`, in flight, or among the reaped events,
* in the write list,
* in a write,
* finished (freed).

`Inv a xs ys b` says that the heap-level state `a` is described by the read list `xs`, the
write list `ys` and the belt `b`: the intrusive lists are linked as `xs` and `ys`, the
counters count, and every request has the content that its stage calls for.
-/
import Cpr.Lib.Belt
import Cpr.Manager.Step
import Mathlib.Order.Interval.Finset.Fin

namespace Cpr

/-! ## Stages and views of the state -/

/-- The stages of a request. -/
abbrev Stage : Type := Fin 5

namespace Stage

/-- In the read list. -/
abbrev queued : Stage := 0
/-- In a read. -/
abbrev reading : Stage := 1
/-- In the write list. -/
abbrev toWrite : Stage := 2
/-- In a write. -/
abbrev writing : Stage := 3
/-- Freed. -/
abbrev finished : Stage := 4

lemma queued_covBy : queued ⋖ reading := ⟨by decide, by decide⟩
lemma reading_covBy : reading ⋖ toWrite := ⟨by decide, by decide⟩
lemma toWrite_covBy : toWrite ⋖ writing := ⟨by decide, by decide⟩
lemma writing_covBy : writing ⋖ finished := ⟨by decide, by decide⟩

end Stage

/-- The stage in which an operation is running. -/
def Opcode.stage : Opcode → Stage
  | .pread => .reading
  | .pwrite => .writing

lemma Opcode.stage_ne {o o' : Opcode} (h : o ≠ o') : o.stage ≠ o'.stage := by
  revert h
  cases o <;> cases o' <;> decide

/-- The requests of the control blocks with a given operation. -/
def reqsOf (o : Opcode) (cs : List Iocb) : List ReqId :=
  (cs.filter (·.opcode = o)).map (·.data)

section reqsOf

variable {o : Opcode} {c : Iocb} {cs ds : List Iocb} {r : ReqId}

@[simp] lemma reqsOf_nil : reqsOf o [] = [] := rfl

lemma reqsOf_cons : reqsOf o (c :: cs) = if c.opcode = o then c.data :: reqsOf o cs
    else reqsOf o cs := by
  by_cases h : c.opcode = o <;> simp [reqsOf, h]

@[simp] lemma reqsOf_append : reqsOf o (cs ++ ds) = reqsOf o cs ++ reqsOf o ds := by
  simp [reqsOf]

lemma reqsOf_perm (h : cs.Perm ds) : (reqsOf o cs).Perm (reqsOf o ds) :=
  (h.filter _).map _

lemma mem_reqsOf : r ∈ reqsOf o cs ↔ ∃ c ∈ cs, c.opcode = o ∧ c.data = r := by
  simp [reqsOf, and_assoc]

end reqsOf

/-- The events still to be handled. -/
def AioPc.events : AioPc → List IoEvent
  | .handle events => events
  | _ => []

/-- The control blocks prepared and not yet submitted. -/
def AioPc.taken : AioPc → List Iocb
  | .readLoop _ iocbs => iocbs
  | .writeLoop _ iocbs => iocbs
  | _ => []

namespace AioPc

variable {events : List IoEvent} {n : ℤ} {cs : List Iocb}

@[simp] lemma events_handle : (handle events).events = events := rfl
@[simp] lemma events_readLoop : (readLoop n cs).events = [] := rfl
@[simp] lemma events_writeLoop : (writeLoop n cs).events = [] := rfl
@[simp] lemma taken_handle : (handle events).taken = [] := rfl
@[simp] lemma taken_readLoop : (readLoop n cs).taken = cs := rfl
@[simp] lemma taken_writeLoop : (writeLoop n cs).taken = cs := rfl

end AioPc

namespace Log

/-- The requests linked in so far. -/
def accepted (log : Log) : List ReqId :=
  log.filterMap fun
    | .accepted r => some r
    | _ => none

/-- The control blocks submitted so far. -/
def submitted (log : Log) : List Iocb :=
  log.filterMap fun
    | .submitted c => some c
    | _ => none

/-- The control blocks reaped so far. -/
def reaped (log : Log) : List Iocb :=
  log.filterMap fun
    | .reaped c _ => some c
    | _ => none

/-- The requests freed so far. -/
def finished (log : Log) : List ReqId :=
  log.filterMap fun
    | .finished r => some r
    | _ => none

variable {log : Log} {r : ReqId} {c : Iocb} {res : ℕ}

@[simp] lemma accepted_nil : accepted [] = [] := rfl
@[simp] lemma submitted_nil : submitted [] = [] := rfl
@[simp] lemma reaped_nil : reaped [] = [] := rfl
@[simp] lemma finished_nil : finished [] = [] := rfl
@[simp] lemma accepted_cons_accepted : accepted (.accepted r :: log) = r :: accepted log := rfl
@[simp] lemma accepted_cons_finished : accepted (.finished r :: log) = accepted log := rfl
@[simp] lemma submitted_cons_accepted : submitted (.accepted r :: log) = submitted log := rfl
@[simp] lemma submitted_cons_finished : submitted (.finished r :: log) = submitted log := rfl
@[simp] lemma reaped_cons_accepted : reaped (.accepted r :: log) = reaped log := rfl
@[simp] lemma reaped_cons_finished : reaped (.finished r :: log) = reaped log := rfl
@[simp] lemma finished_cons_accepted : finished (.accepted r :: log) = finished log := rfl
@[simp] lemma finished_cons_finished : finished (.finished r :: log) = r :: finished log := rfl

@[simp] lemma accepted_submit (cs : List Iocb) :
    accepted ((cs.map Obs.submitted).reverse ++ log) = accepted log := by
  simp [accepted, List.filterMap_append]

@[simp] lemma finished_submit (cs : List Iocb) :
    finished ((cs.map Obs.submitted).reverse ++ log) = finished log := by
  simp [finished, List.filterMap_append]

@[simp] lemma reaped_submit (cs : List Iocb) :
    reaped ((cs.map Obs.submitted).reverse ++ log) = reaped log := by
  simp [reaped, List.filterMap_append]

@[simp] lemma submitted_submit (cs : List Iocb) :
    submitted ((cs.map Obs.submitted).reverse ++ log) = cs.reverse ++ submitted log := by
  rw [← List.map_reverse]
  simp [submitted, List.filterMap_append, List.filterMap_map]

@[simp] lemma accepted_reap (es : List IoEvent) :
    accepted ((es.map fun e => Obs.reaped e.obj e.res).reverse ++ log) = accepted log := by
  simp [accepted, List.filterMap_append]

@[simp] lemma finished_reap (es : List IoEvent) :
    finished ((es.map fun e => Obs.reaped e.obj e.res).reverse ++ log) = finished log := by
  simp [finished, List.filterMap_append]

@[simp] lemma submitted_reap (es : List IoEvent) :
    submitted ((es.map fun e => Obs.reaped e.obj e.res).reverse ++ log) = submitted log := by
  simp [submitted, List.filterMap_append]

@[simp] lemma reaped_reap (es : List IoEvent) :
    reaped ((es.map fun e => Obs.reaped e.obj e.res).reverse ++ log) =
      (es.map (·.obj)).reverse ++ reaped log := by
  rw [← List.map_reverse, ← List.map_reverse]
  simp [reaped, List.filterMap_append, List.filterMap_map]

end Log

namespace AioState

/-- The link of a request to the next one of its list. -/
def link (a : AioState) (r : ReqId) : Option (Option ReqId) := (a.reqs.get? r).map (·.next)

/-- The requests of the operations in flight. -/
def inFlight (a : AioState) (o : Opcode) : List ReqId := reqsOf o (a.flight.map (·.obj))

/-- The requests whose control block was prepared and not submitted. -/
def taken (a : AioState) (o : Opcode) : List ReqId := reqsOf o a.pc.taken

/-- The requests of the events still to be handled. -/
def reapedReqs (a : AioState) (o : Opcode) : List ReqId := reqsOf o (a.pc.events.map (·.obj))

/-- All live control blocks. -/
def refs (a : AioState) : List Iocb :=
  a.pc.taken ++ a.flight.map (·.obj) ++ a.pc.events.map (·.obj)

/-- The requests in the stage of an operation. -/
def running (a : AioState) (o : Opcode) : List ReqId := reqsOf o a.refs

lemma running_eq (a : AioState) (o : Opcode) :
    a.running o = a.taken o ++ a.inFlight o ++ a.reapedReqs o := by
  simp [running, refs, taken, inFlight, reapedReqs]

lemma mem_refs_of_taken {a : AioState} {c : Iocb} (hc : c ∈ a.pc.taken) : c ∈ a.refs :=
  List.mem_append_left _ (List.mem_append_left _ hc)

lemma mem_refs_of_obj {a : AioState} {c : Iocb} (hc : c ∈ a.flight.map (·.obj)) : c ∈ a.refs :=
  List.mem_append_left _ (List.mem_append_right _ hc)

lemma mem_refs_of_flight {a : AioState} {op : Op} (hop : op ∈ a.flight) : op.obj ∈ a.refs :=
  mem_refs_of_obj (List.mem_map_of_mem hop)

lemma mem_running_of_mem_refs {a : AioState} {c : Iocb} (hc : c ∈ a.refs) :
    c.data ∈ a.running c.opcode :=
  mem_reqsOf.mpr ⟨c, hc, rfl, rfl⟩

end AioState

/-- The control block asks for the transfer of the request's buffer. -/
structure Iocb.Describes (c : Iocb) (q : CopyRequest) : Prop where
  buf : c.buf = q.buffer
  nbytes : c.nbytes = toUlong q.fsize
  offset : c.offset = 0
  fd : c.fd = match c.opcode with
    | .pread => q.srcFd
    | .pwrite => q.dstFd
  state : q.state = match c.opcode with
    | .pread => 1
    | .pwrite => 2

/-! ## The invariant -/

/-- The state `a` is described by the read list `xs`, the write list `ys` and the belt `b`. -/
structure Inv (a : AioState) (xs ys : List ReqId) (b : Belt Stage ReqId) : Prop where
  readList : Linked a.link a.mgr.readHead xs
  writeList : Linked a.link a.mgr.writeHead ys
  readLen : a.mgr.readLen = toInt32 xs.length
  writeLen : a.mgr.writeLen = toInt32 ys.length
  requestCount : a.mgr.requestCount = toInt32 (a.log.accepted).length
  finishedCount : a.mgr.finishedCount = toInt32 (a.log.finished).length
  queued : b.holds .queued = xs
  running : ∀ o : Opcode, b.holds o.stage = a.running o
  toWrite : b.holds .toWrite = ys
  finished : b.holds .finished = a.log.finished
  accepted : b.arrived .queued = a.log.accepted
  acceptedNodup : (a.log.accepted).Nodup
  submitted : ∀ o : Opcode, b.arrived o.stage =
    ↑(reqsOf o (a.log.submitted)) + ↑(a.taken o)
  reaped : ∀ o : Opcode, b.arrived o.stage =
    ↑(reqsOf o (a.log.reaped)) + ↑(a.taken o) + ↑(a.inFlight o)
  queuedRec : ∀ r ∈ xs, ∃ q, a.reqs.get? r = some q ∧ q.state = 0
  refRec : ∀ c ∈ a.refs, ∃ q, a.reqs.get? c.data = some q ∧ q.next = none ∧ c.Describes q
  toWriteRec : ∀ r ∈ ys, ∃ q, a.reqs.get? r = some q ∧ q.state = 1
  finishedRec : ∀ r ∈ a.log.finished, a.reqs.get? r = none
  acceptedLt : ∀ r ∈ a.log.accepted, r < a.reqs.next
  mainReq : ∀ r, a.mainReq = some r → r ∉ a.log.accepted ∧
    ∃ q, a.reqs.get? r = some q ∧ q.state = 0 ∧ q.next = none

namespace Inv

variable {a a' : AioState} {xs ys : List ReqId} {b : Belt Stage ReqId} {r : ReqId}

lemma init (readBatchSize writeBatchSize : ℤ) :
    Inv (AioState.init readBatchSize writeBatchSize) [] [] .empty := by
  refine
    { readList := rfl, writeList := rfl, readLen := by simp [AioState.init],
      writeLen := by simp [AioState.init], requestCount := by simp [AioState.init],
      finishedCount := by simp [AioState.init], queued := rfl, running := fun o => ?_,
      toWrite := rfl, finished := rfl, accepted := rfl, acceptedNodup := List.nodup_nil,
      submitted := fun o => rfl, reaped := fun o => rfl, queuedRec := by simp,
      refRec := ?_, toWriteRec := by simp, finishedRec := by simp [AioState.init],
      acceptedLt := by simp [AioState.init], mainReq := by simp [AioState.init] }
  · rfl
  · simp [AioState.refs, AioState.init, AioPc.taken, AioPc.events]

/-! ### Consequences -/

lemma mem_accepted_of_holds (h : Inv a xs ys b) (i : Stage) (hr : r ∈ b.holds i) :
    r ∈ a.log.accepted := by
  have hle := b.holds_le_arrived (Fin.zero_le i)
  rw [h.accepted] at hle
  exact Multiset.mem_coe.mp (Multiset.mem_of_le hle hr)

lemma nodup_arrived (h : Inv a xs ys b) (i : Stage) : (b.arrived i).Nodup := by
  refine b.nodup_arrived (Fin.zero_le i) ?_
  rw [h.accepted]
  exact Multiset.coe_nodup.mpr h.acceptedNodup

lemma nodup_holds (h : Inv a xs ys b) (i : Stage) : (b.holds i).Nodup :=
  Multiset.nodup_of_le (b.holds_le_arrived le_rfl) (h.nodup_arrived i)

lemma ne_of_holds (h : Inv a xs ys b) {i j : Stage} (hij : i ≠ j) {r s : ReqId}
    (hr : r ∈ b.holds i) (hs : s ∈ b.holds j) : r ≠ s := by
  rintro rfl
  exact Multiset.disjoint_left.mp
    (b.disjoint_holds (Fin.zero_le i) (Fin.zero_le j) hij (h.nodup_arrived 0)) hr hs

lemma mem_holds_of_mem_refs (h : Inv a xs ys b) {c : Iocb} (hc : c ∈ a.refs) :
    c.data ∈ b.holds c.opcode.stage := by
  rw [h.running]
  exact AioState.mem_running_of_mem_refs hc

lemma nodup_running (h : Inv a xs ys b) (o : Opcode) : (a.running o).Nodup := by
  have hnd := h.nodup_holds o.stage
  rwa [h.running, Multiset.coe_nodup] at hnd

/-- No two live control blocks belong to one request. -/
lemma ne_of_mem_refs (h : Inv a xs ys b) {c : Iocb} {cs : List Iocb}
    (hrefs : a.refs.Perm (c :: cs)) : ∀ d ∈ cs, d.data ≠ c.data := by
  intro d hd
  have hc : c ∈ a.refs := hrefs.mem_iff.mpr List.mem_cons_self
  have hd' : d ∈ a.refs := hrefs.mem_iff.mpr (List.mem_cons_of_mem _ hd)
  by_cases ho : d.opcode = c.opcode
  · have hnd := h.nodup_running c.opcode
    rw [AioState.running, (reqsOf_perm hrefs).nodup_iff, reqsOf_cons, if_pos rfl,
      List.nodup_cons] at hnd
    rintro heq
    exact hnd.1 (heq ▸ mem_reqsOf.mpr ⟨d, hd, ho, rfl⟩)
  · exact h.ne_of_holds (Opcode.stage_ne ho) (h.mem_holds_of_mem_refs hd')
      (h.mem_holds_of_mem_refs hc)

end Inv

end Cpr
