/-
# Request conservation

At every boundary between the phases of `aio_loop`, each request that was ever accepted is
in exactly one of five places, and the lists, the counters, the links and the control
blocks agree with that.  The counters are `int`s: they hold the numbers they count modulo
`2 ^ 32`, and are equal to them while fewer than `2 ^ 31` requests were accepted.
-/
import Cpr.Manager.History
import Mathlib.Algebra.BigOperators.Fin

namespace Cpr

open Transition

/-- A boundary between the phases: no event is waiting to be handled, and no control block
is prepared and not submitted. -/
def AioState.AtBoundary (a : AioState) : Prop := a.pc.taken = [] ∧ a.pc.events = []

instance (a : AioState) : Decidable a.AtBoundary := inferInstanceAs (Decidable (_ ∧ _))

/-- The state of a request whose operation is in flight. -/
def Opcode.reqState : Opcode → ℤ
  | .pread => 1
  | .pwrite => 2

/-- Each accepted request is in the read list `xs`, in an in-flight read, in the write list
`ys`, in an in-flight write, or freed. -/
structure Conserved (a : AioState) (xs ys : List ReqId) : Prop where
  readList : Linked a.link a.mgr.readHead xs
  writeList : Linked a.link a.mgr.writeHead ys
  acyclic : xs.Nodup ∧ ys.Nodup
  readLen : a.mgr.readLen = toInt32 xs.length
  writeLen : a.mgr.writeLen = toInt32 ys.length
  requestCount : a.mgr.requestCount = toInt32 a.log.accepted.length
  finishedCount : a.mgr.finishedCount = toInt32 a.log.finished.length
  places : (xs ++ a.inFlight .pread ++ ys ++ a.inFlight .pwrite ++ a.log.finished).Perm
    a.log.accepted
  onePlace : a.log.accepted.Nodup
  queued : ∀ r ∈ xs, ∃ q, a.reqs.get? r = some q ∧ q.state = 0
  toWrite : ∀ r ∈ ys, ∃ q, a.reqs.get? r = some q ∧ q.state = 1
  inFlight : ∀ op ∈ a.flight, ∃ q, a.reqs.get? op.obj.data = some q ∧
    q.state = op.obj.opcode.reqState
  freed : ∀ r ∈ a.log.finished, a.reqs.get? r = none
  linkLive : ∀ r s, r ∈ a.log.accepted → a.link r = some (some s) → s ∉ a.log.finished
  headLive : ∀ r, a.mgr.readHead = some r ∨ a.mgr.writeHead = some r → r ∉ a.log.finished
  flightLive : ∀ op ∈ a.flight, op.obj.data ∉ a.log.finished
  readOnce : (reqsOf .pread a.log.submitted).Nodup
  writeOnce : (reqsOf .pwrite a.log.submitted).Nodup
  writeAfterRead : ∀ c older, (.submitted c :: older) <:+ a.log → c.opcode = .pwrite →
    c.data ∈ reqsOf .pread (Log.reaped older)

/-- The `int` counters are the numbers they count. -/
structure CountersExact (a : AioState) (xs ys : List ReqId) : Prop where
  readLen : a.mgr.readLen = xs.length
  writeLen : a.mgr.writeLen = ys.length
  requestCount : a.mgr.requestCount = a.log.accepted.length
  finishedCount : a.mgr.finishedCount = a.log.finished.length

/-- The numbers counted are at most the number of accepted requests, so no counter wraps
before `request_count` does. -/
lemma Conserved.countersExact {a : AioState} {xs ys : List ReqId} (h : Conserved a xs ys)
    (hlt : a.log.accepted.length < 2 ^ 31) : CountersExact a xs ys := by
  have hlen := h.places.length_eq
  simp only [List.length_append] at hlen
  exact {
    readLen := by rw [h.readLen, toInt32_nat (by omega)]
    writeLen := by rw [h.writeLen, toInt32_nat (by omega)]
    requestCount := by rw [h.requestCount, toInt32_nat hlt]
    finishedCount := by rw [h.finishedCount, toInt32_nat (by omega)] }

namespace Inv

variable {a : AioState} {xs ys : List ReqId} {b : Belt Stage ReqId}

/-- The five stages together are what was accepted. -/
lemma places (h : Inv a xs ys b) :
    (xs ++ a.running .pread ++ ys ++ a.running .pwrite ++ a.log.finished).Perm
      a.log.accepted := by
  have hsum : (b.arrived .queued) = b.holds .queued + b.holds .reading + b.holds .toWrite +
      b.holds .writing + b.holds .finished := by
    rw [b.law, show Finset.Ici Stage.queued = Finset.univ from rfl, Fin.sum_univ_five]
  have hread : b.holds .reading = a.running .pread := h.running .pread
  have hwrite : b.holds .writing = a.running .pwrite := h.running .pwrite
  rw [h.accepted, h.queued, hread, h.toWrite, hwrite, h.finished] at hsum
  simp only [Multiset.coe_add, Multiset.coe_eq_coe] at hsum
  exact hsum.symm

lemma running_of_atBoundary (hb : a.AtBoundary) (o : Opcode) : a.running o = a.inFlight o := by
  simp [AioState.running, AioState.inFlight, AioState.refs, hb.1, hb.2]

/-- The lengths of the lists and the number of freed requests are at most the number of
accepted ones. -/
lemma lengths (h : Inv a xs ys b) : xs.length + (a.running .pread).length + ys.length +
    (a.running .pwrite).length + a.log.finished.length = a.log.accepted.length := by
  have := h.places.length_eq
  simpa only [List.length_append] using this

/-- What was submitted for an operation had arrived in its stage, so it was submitted once. -/
lemma nodup_submitted (h : Inv a xs ys b) (o : Opcode) : (reqsOf o a.log.submitted).Nodup := by
  have hnd := h.nodup_arrived o.stage
  rw [h.submitted, Multiset.nodup_add] at hnd
  exact Multiset.coe_nodup.mp hnd.1

lemma not_finished_of_holds (h : Inv a xs ys b) {i : Stage} (hi : .finished ≠ i) {r : ReqId}
    (hr : r ∈ b.holds i) : r ∉ a.log.finished := fun hf =>
  h.ne_of_holds hi (by rw [h.finished]; exact hf) hr rfl

lemma not_finished_of_mem_refs (h : Inv a xs ys b) {c : Iocb} (hc : c ∈ a.refs) :
    c.data ∉ a.log.finished :=
  h.not_finished_of_holds (by cases c.opcode <;> decide) (h.mem_holds_of_mem_refs hc)

lemma not_finished_of_mem_queued (h : Inv a xs ys b) {r : ReqId} (hr : r ∈ xs) :
    r ∉ a.log.finished :=
  h.not_finished_of_holds (i := .queued) (by decide) (by rw [h.queued]; exact hr)

lemma not_finished_of_mem_toWrite (h : Inv a xs ys b) {r : ReqId} (hr : r ∈ ys) :
    r ∉ a.log.finished :=
  h.not_finished_of_holds (i := .toWrite) (by decide) (by rw [h.toWrite]; exact hr)

/-- A link of an accepted request leads to a request of the same list. -/
lemma not_finished_of_link (h : Inv a xs ys b) {r s : ReqId} (hr : r ∈ a.log.accepted)
    (hs : a.link r = some (some s)) : s ∉ a.log.finished := by
  have hrefs : ∀ o, r ∈ a.running o → False := by
    intro o hmem
    obtain ⟨c, hc, -, rfl⟩ := mem_reqsOf.mp hmem
    obtain ⟨q, hq, hnext, -⟩ := h.refRec c hc
    simp [AioState.link, hq, hnext] at hs
  have hmem := h.places.mem_iff.mpr hr
  simp only [List.mem_append] at hmem
  rcases hmem with (((hx | hx) | hy) | hy) | hf
  · exact h.not_finished_of_mem_queued (h.readList.next_mem hx hs)
  · exact (hrefs _ hx).elim
  · exact h.not_finished_of_mem_toWrite (h.writeList.next_mem hy hs)
  · exact (hrefs _ hy).elim
  · simp [AioState.link, h.finishedRec r hf] at hs

end Inv

section

variable {a : AioState} {readBatchSize writeBatchSize : ℤ}

lemma exists_conserved
    (h : Reaches AioState.step anyLabel (AioState.init readBatchSize writeBatchSize) a)
    (hb : a.AtBoundary) : ∃ xs ys, Conserved a xs ys := by
  obtain ⟨xs, ys, b, hinv, -⟩ := Good.of_reaches h
  have hist := History.of_reaches h
  have hop : ∀ op ∈ a.flight, op.obj ∈ a.refs := fun op hop => AioState.mem_refs_of_flight hop
  refine ⟨xs, ys,
    { readList := hinv.readList
      writeList := hinv.writeList
      acyclic := ⟨hinv.readList.nodup, hinv.writeList.nodup⟩
      readLen := hinv.readLen
      writeLen := hinv.writeLen
      requestCount := hinv.requestCount
      finishedCount := hinv.finishedCount
      places := ?_
      onePlace := hinv.acceptedNodup
      queued := hinv.queuedRec
      toWrite := hinv.toWriteRec
      inFlight := fun op hmem => ?_
      freed := hinv.finishedRec
      linkLive := fun r s hr hs => hinv.not_finished_of_link hr hs
      headLive := fun r hr => ?_
      flightLive := fun op hmem => hinv.not_finished_of_mem_refs (hop op hmem)
      readOnce := hinv.nodup_submitted .pread
      writeOnce := hinv.nodup_submitted .pwrite
      writeAfterRead := hist.submitted }⟩
  · have hplaces := hinv.places
    rwa [Inv.running_of_atBoundary hb, Inv.running_of_atBoundary hb] at hplaces
  · obtain ⟨q, hq, -, hdesc⟩ := hinv.refRec op.obj (hop op hmem)
    refine ⟨q, hq, ?_⟩
    rw [hdesc.state]
    cases op.obj.opcode <;> rfl
  · rcases hr with hr | hr
    · obtain ⟨tl, rfl⟩ := (hr ▸ hinv.readList).cons_of_some
      exact hinv.not_finished_of_mem_queued List.mem_cons_self
    · obtain ⟨tl, rfl⟩ := (hr ▸ hinv.writeList).cons_of_some
      exact hinv.not_finished_of_mem_toWrite List.mem_cons_self

/-- **Request conservation**, for every client, kernel and schedule; the `int` counters are
the numbers they count while fewer than `2 ^ 31` requests were accepted. -/
theorem conserved_of_reaches
    (h : Reaches AioState.step anyLabel (AioState.init readBatchSize writeBatchSize) a)
    (hb : a.AtBoundary) :
    ∃ xs ys, Conserved a xs ys ∧ (a.log.accepted.length < 2 ^ 31 → CountersExact a xs ys) := by
  obtain ⟨xs, ys, hcons⟩ := exists_conserved h hb
  exact ⟨xs, ys, hcons, hcons.countersExact⟩

end

/-- Conservation in a run in which one request is freed, one is in an in-flight read and
one is still on the read list. -/
theorem conserved_of_reaches_pipeline : ∃ a xs ys,
    Reaches AioState.step anyLabel (AioState.init 1 1) a ∧ a.log.accepted = [2, 1, 0] ∧
      a.log.finished = [0] ∧ Conserved a xs ys ∧ CountersExact a xs ys := by
  have hrun : (exec AioState.step (AioState.init 1 1)
      [.newRequest [] [], .clientLockRequest, .addCopyReq 0, .clientUnlockRequest, .startThread,
        .lockFlush, .getEvents [], .checkDone, .lockRequest, .readSize,
        .readOne ⟨3, some 5, 4096⟩, .readSubmit 1, .unlockRequest, .writeSize, .unlockFlush,
        .complete ⟨0, .pread, 3, 4096, 5, 0, 0⟩ 5,
        .lockFlush, .getEvents [⟨⟨0, .pread, 3, 4096, 5, 0, 0⟩, 5⟩], .handleEvent, .checkDone,
        .lockRequest, .readSize, .unlockRequest, .writeSize, .writeOne 4, .writeSubmit 1,
        .unlockFlush, .complete ⟨1, .pwrite, 4, 4096, 5, 0, 0⟩ 5,
        .newRequest [] [], .clientLockRequest, .addCopyReq 1, .clientUnlockRequest,
        .newRequest [] [], .clientLockRequest, .addCopyReq 2, .clientUnlockRequest,
        .lockFlush, .getEvents [⟨⟨1, .pwrite, 4, 4096, 5, 0, 0⟩, 5⟩], .handleEvent, .checkDone,
        .lockRequest, .readSize, .readOne ⟨3, some 7, 8192⟩, .readSubmit 1, .unlockRequest]).map
      (fun a => (decide a.AtBoundary, a.log.accepted, a.log.finished)) =
        some (true, [2, 1, 0], [0]) := by
    decide +kernel
  obtain ⟨a, ha, hfacts⟩ := Option.map_eq_some_iff.mp hrun
  simp only [Prod.mk.injEq, decide_eq_true_eq] at hfacts
  obtain ⟨hb, hacc, hfin⟩ := hfacts
  have hreach : Reaches AioState.step anyLabel (AioState.init 1 1) a :=
    reaches_of_exec (fun _ _ => trivial) ha
  obtain ⟨xs, ys, hcons, hexact⟩ := conserved_of_reaches hreach hb
  exact ⟨a, xs, ys, hreach, hacc, hfin, hcons, hexact (by rw [hacc]; decide)⟩

/-! ## The range of the counters -/

/-- A client can have any number of requests accepted before the thread starts. -/
lemma reaches_accepted (readBatchSize writeBatchSize : ℤ) (n : ℕ) :
    ∃ a, Reaches AioState.step anyLabel (AioState.init readBatchSize writeBatchSize) a ∧
      a.log.accepted.length = n ∧ a.pc = .notStarted ∧ a.ended = none ∧
      a.mgr.requestMutex = none := by
  induction n with
  | zero => exact ⟨_, Reaches.refl, rfl, rfl, rfl, rfl⟩
  | succ n ih =>
    obtain ⟨a, ha, hn, hpc, hended, hfree⟩ := ih
    refine ⟨{ (AioState.linkIn { a.newRequest [] [] with
        mgr := { a.mgr with requestMutex := some .main } } a.reqs.next
          { srcName := [], dstName := [], srcFd := -1, dstFd := -1, fsize := 0, buffer := 0,
            next := none, state := 0 }).unlockRequest with ended := none }, ?_, ?_, hpc, rfl, rfl⟩
    · refine ha.trans (reaches_of_exec (fun _ _ => trivial) (?_ : exec AioState.step a
        [.newRequest [] [], .clientLockRequest, .addCopyReq a.reqs.next, .clientUnlockRequest] = _))
      simp [AioState.step, AioState.loopStep, AioState.clientStep, AioState.newRequest,
        AioState.lockRequest, AioState.addCopyReq, AioState.linkIn, AioState.unlockRequest,
        hended, hfree]
    · simp [AioState.linkIn, AioState.unlockRequest, AioState.newRequest, hn]

/-- With `2 ^ 31` accepted requests, `request_count` is negative. -/
theorem not_conserved_of_overflow : ¬ ∀ (readBatchSize writeBatchSize : ℤ) (a : AioState),
    Reaches AioState.step anyLabel (AioState.init readBatchSize writeBatchSize) a →
      a.AtBoundary → ∃ xs ys, Conserved a xs ys ∧ CountersExact a xs ys := by
  intro hall
  obtain ⟨a, ha, hn, hpc, -⟩ := reaches_accepted 8 8 (2 ^ 31)
  obtain ⟨xs, ys, hcons, hexact⟩ :=
    hall 8 8 a ha (by rw [AioState.AtBoundary, hpc]; exact ⟨rfl, rfl⟩)
  have hcount := hexact.requestCount
  rw [hcons.requestCount, hn] at hcount
  exact absurd hcount (by decide)

end Cpr
