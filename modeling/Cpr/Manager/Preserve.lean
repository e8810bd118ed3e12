/-
# The steps of the manager move requests along the belt

Each step either leaves every request in its stage or moves one request to the next stage;
`Inv` is preserved by all of them.
-/
import Cpr.Manager.Inv
import Mathlib.Tactic.Abel

namespace Cpr

/-- The two states agree on everything that `Inv` reads. -/
structure SameRequests (a a' : AioState) : Prop where
  readHead : a'.mgr.readHead = a.mgr.readHead
  writeHead : a'.mgr.writeHead = a.mgr.writeHead
  readLen : a'.mgr.readLen = a.mgr.readLen
  writeLen : a'.mgr.writeLen = a.mgr.writeLen
  requestCount : a'.mgr.requestCount = a.mgr.requestCount
  finishedCount : a'.mgr.finishedCount = a.mgr.finishedCount
  reqs : a'.reqs = a.reqs
  flight : a'.flight = a.flight
  taken : a'.pc.taken = a.pc.taken
  events : a'.pc.events = a.pc.events
  mainReq : a'.mainReq = a.mainReq
  log : a'.log = a.log

namespace Inv

variable {a a' : AioState} {xs ys : List ReqId} {b : Belt Stage ReqId} {r : ReqId}

lemma frame (h : Inv a xs ys b) (e : SameRequests a a') : Inv a' xs ys b := by
  have hlink : a'.link = a.link := by
    funext r
    simp [AioState.link, e.reqs]
  have htaken : ∀ o, a'.taken o = a.taken o := fun o => by simp [AioState.taken, e.taken]
  have hflight : ∀ o, a'.inFlight o = a.inFlight o := fun o => by
    simp [AioState.inFlight, e.flight]
  have hrefs : a'.refs = a.refs := by simp [AioState.refs, e.taken, e.flight, e.events]
  exact
    { readList := by rw [hlink, e.readHead]; exact h.readList
      writeList := by rw [hlink, e.writeHead]; exact h.writeList
      readLen := by rw [e.readLen]; exact h.readLen
      writeLen := by rw [e.writeLen]; exact h.writeLen
      requestCount := by rw [e.requestCount, e.log]; exact h.requestCount
      finishedCount := by rw [e.finishedCount, e.log]; exact h.finishedCount
      queued := h.queued
      running := fun o => by rw [h.running, AioState.running, AioState.running, hrefs]
      toWrite := h.toWrite
      finished := by rw [e.log]; exact h.finished
      accepted := by rw [e.log]; exact h.accepted
      acceptedNodup := by rw [e.log]; exact h.acceptedNodup
      submitted := fun o => by rw [e.log, htaken]; exact h.submitted o
      reaped := fun o => by rw [e.log, htaken, hflight]; exact h.reaped o
      queuedRec := by rw [e.reqs]; exact h.queuedRec
      refRec := by rw [hrefs, e.reqs]; exact h.refRec
      toWriteRec := by rw [e.reqs]; exact h.toWriteRec
      finishedRec := by rw [e.log, e.reqs]; exact h.finishedRec
      acceptedLt := by rw [e.log, e.reqs]; exact h.acceptedLt
      mainReq := by rw [e.mainReq, e.log, e.reqs]; exact h.mainReq }

/-- A step that moves control blocks between the local arrays, the context and the events
leaves every request in its stage. -/
lemma refs_perm (h : Inv a xs ys b) (hrefs : a'.refs.Perm a.refs) (o : Opcode) :
    b.holds o.stage = a'.running o := by
  rw [h.running, Multiset.coe_eq_coe]
  exact (reqsOf_perm hrefs).symm

/-! ### The reap phase -/

lemma getEvents (h : Inv a xs ys b) (hpc : a.pc = .getEvents) {events : List IoEvent}
    (hstep : a.getEvents events = some a') : Inv a' xs ys b := by
  obtain ⟨⟨-, hsub⟩, hs⟩ := Option.ite_none_right_eq_some.mp hstep
  obtain rfl := Option.some.inj hs
  have htaken : a.pc.taken = [] := by rw [hpc]; rfl
  have hevents : a.pc.events = [] := by rw [hpc]; rfl
  -- the reaped operations leave the context
  have hperm : (a.flight.map (·.obj)).Perm
      (events.map (·.obj) ++ (a.flight.diff (events.map IoEvent.op)).map (·.obj)) := by
    have hp := (List.subperm_append_diff_self_of_count_le
      (List.subperm_ext_iff.mp hsub)).symm.map (·.obj)
    simpa [List.map_append, List.map_map, Function.comp_def, IoEvent.op] using hp
  have hrefs : ((a.flight.diff (events.map IoEvent.op)).map (·.obj) ++ events.map (·.obj)).Perm
      a.refs := by
    simpa [AioState.refs, htaken, hevents] using (hperm.trans List.perm_append_comm).symm
  refine
    { readList := h.readList, writeList := h.writeList, readLen := h.readLen,
      writeLen := h.writeLen, requestCount := by simpa using h.requestCount,
      finishedCount := by simpa using h.finishedCount, queued := h.queued,
      running := h.refs_perm hrefs,
      toWrite := h.toWrite, finished := by simpa using h.finished,
      accepted := by simpa using h.accepted, acceptedNodup := by simpa using h.acceptedNodup,
      submitted := fun o => ?_, reaped := fun o => ?_, queuedRec := h.queuedRec,
      refRec := fun c hc => h.refRec c (hrefs.mem_iff.mp hc), toWriteRec := h.toWriteRec,
      finishedRec := by simpa using h.finishedRec, acceptedLt := by simpa using h.acceptedLt,
      mainReq := by simpa using h.mainReq }
  · rw [h.submitted]
    simp [AioState.taken, htaken]
  · have hsplit := reqsOf_perm (o := o) hperm
    have hrev := reqsOf_perm (o := o) (List.reverse_perm (events.map (·.obj)))
    rw [h.reaped]
    simp only [AioState.taken, htaken, AioState.inFlight, AioPc.taken_handle, Log.reaped_reap,
      reqsOf_append, reqsOf_nil, Multiset.coe_nil, add_zero, Multiset.coe_add,
      Multiset.coe_eq_coe]
    rw [reqsOf_append] at hsplit
    calc (reqsOf o a.log.reaped ++ reqsOf o (a.flight.map (·.obj))).Perm
          (reqsOf o a.log.reaped ++ (reqsOf o (events.map (·.obj)) ++ _)) :=
          hsplit.append_left _
      _ = (reqsOf o a.log.reaped ++ reqsOf o (events.map (·.obj))) ++ _ :=
          (List.append_assoc _ _ _).symm
      List.Perm _ (reqsOf o (events.map (·.obj)).reverse ++ reqsOf o a.log.reaped ++ _) :=
          (List.perm_append_comm.trans (hrev.symm.append_right _)).append_right _

end Inv

/-! ### One request changes -/

/-- Between `a` and `a'` only the block of the request `r` changes, and no request is
allocated or accepted. -/
structure Touches (a a' : AioState) (r : ReqId) : Prop where
  get? : ∀ s, s ≠ r → a'.reqs.get? s = a.reqs.get? s
  next : a'.reqs.next = a.reqs.next
  mainReq : a'.mainReq = a.mainReq
  requestCount : a'.mgr.requestCount = a.mgr.requestCount
  accepted : a'.log.accepted = a.log.accepted

lemma Touches.linked {a a' : AioState} {r : ReqId} (t : Touches a a' r) {p : Option ReqId}
    {zs : List ReqId} (hl : Linked a.link p zs) (hz : ∀ s ∈ zs, s ≠ r) : Linked a'.link p zs :=
  hl.congr fun s hs => by rw [AioState.link, AioState.link, t.get? s (hz s hs)]

/-- The two accounts of what arrived at the stage of an operation. -/
structure Arrived (a : AioState) (b : Belt Stage ReqId) : Prop where
  submitted : ∀ o : Opcode, b.arrived o.stage = ↑(reqsOf o a.log.submitted) + ↑(a.taken o)
  reaped : ∀ o : Opcode, b.arrived o.stage =
    ↑(reqsOf o a.log.reaped) + ↑(a.taken o) + ↑(a.inFlight o)

namespace Inv

variable {a a' : AioState} {xs ys : List ReqId} {b b' : Belt Stage ReqId} {r : ReqId} {i : Stage}

lemma ne_of_mem_queued (h : Inv a xs ys b) (hr : r ∈ b.holds i) (hi : .queued ≠ i) :
    ∀ s ∈ xs, s ≠ r := fun s hs =>
  h.ne_of_holds hi (by rw [h.queued]; exact Multiset.mem_coe.mpr hs) hr

lemma ne_of_mem_toWrite (h : Inv a xs ys b) (hr : r ∈ b.holds i) (hi : .toWrite ≠ i) :
    ∀ s ∈ ys, s ≠ r := fun s hs =>
  h.ne_of_holds hi (by rw [h.toWrite]; exact Multiset.mem_coe.mpr hs) hr

lemma ne_of_mem_finished (h : Inv a xs ys b) (hr : r ∈ b.holds i) (hi : .finished ≠ i) :
    ∀ s ∈ a.log.finished, s ≠ r := fun s hs =>
  h.ne_of_holds hi (by rw [h.finished]; exact Multiset.mem_coe.mpr hs) hr

lemma ne_of_mem_refs_of_holds (h : Inv a xs ys b) (hr : r ∈ b.holds i)
    (hi : ∀ o : Opcode, o.stage ≠ i) : ∀ c ∈ a.refs, c.data ≠ r := fun _ hc =>
  h.ne_of_holds (hi _) (h.mem_holds_of_mem_refs hc) hr

/-- What the change of one accepted request leaves of the invariant, whatever its stage. -/
lemma touched (h : Inv a xs ys b) (t : Touches a a' r) (hr : r ∈ b.holds i) :
    a'.mgr.requestCount = toInt32 a'.log.accepted.length ∧
      b.arrived .queued = a'.log.accepted ∧ a'.log.accepted.Nodup ∧
      (∀ s ∈ a'.log.accepted, s < a'.reqs.next) ∧
      ∀ s, a'.mainReq = some s → s ∉ a'.log.accepted ∧
        ∃ q, a'.reqs.get? s = some q ∧ q.state = 0 ∧ q.next = none := by
  rw [t.accepted, t.requestCount, t.next, t.mainReq]
  refine ⟨h.requestCount, h.accepted, h.acceptedNodup, h.acceptedLt, fun s hs => ?_⟩
  obtain ⟨hnot, q, hq, hrest⟩ := h.mainReq s hs
  refine ⟨hnot, q, ?_, hrest⟩
  rw [t.get? s, hq]
  rintro rfl
  exact hnot (h.mem_accepted_of_holds i hr)

lemma queuedRec_touched (h : Inv a xs ys b) (t : Touches a a' r) (hr : r ∈ b.holds i)
    (hi : .queued ≠ i) : ∀ s ∈ xs, ∃ q, a'.reqs.get? s = some q ∧ q.state = 0 := by
  intro s hs
  rw [t.get? s (h.ne_of_mem_queued hr hi s hs)]
  exact h.queuedRec s hs

lemma toWriteRec_touched (h : Inv a xs ys b) (t : Touches a a' r) (hr : r ∈ b.holds i)
    (hi : .toWrite ≠ i) : ∀ s ∈ ys, ∃ q, a'.reqs.get? s = some q ∧ q.state = 1 := by
  intro s hs
  rw [t.get? s (h.ne_of_mem_toWrite hr hi s hs)]
  exact h.toWriteRec s hs

lemma finishedRec_touched (h : Inv a xs ys b) (t : Touches a a' r) (hr : r ∈ b.holds i)
    (hi : .finished ≠ i) : ∀ s ∈ a.log.finished, a'.reqs.get? s = none := by
  intro s hs
  rw [t.get? s (h.ne_of_mem_finished hr hi s hs)]
  exact h.finishedRec s hs

/-- A request whose control block is live is in the stage of the operation, and its state
field says so. -/
lemma describes_of_mem_refs (h : Inv a xs ys b) {c : Iocb} {q : CopyRequest} (hc : c ∈ a.refs)
    (hq : a.reqs.get? c.data = some q) : q.next = none ∧ c.Describes q := by
  obtain ⟨q', hq', hrest⟩ := h.refRec c hc
  obtain rfl : q = q' := Option.some.inj (hq.symm.trans hq')
  exact hrest

/-- The requests of the live control blocks, when the first of them has operation `o`. -/
lemma running_cons (h : Inv a xs ys b) {c : Iocb} {cs : List Iocb}
    (hrefs : a.refs.Perm (c :: cs)) (o : Opcode) : b.holds o.stage =
      if c.opcode = o then c.data ::ₘ ↑(reqsOf o cs) else (reqsOf o cs : Multiset ReqId) := by
  rw [h.running, AioState.running, Multiset.coe_eq_coe.mpr (reqsOf_perm hrefs), reqsOf_cons]
  by_cases ho : c.opcode = o <;> simp [ho]

/-! ### The finished read and the finished write -/

/-- One event less to handle. -/
lemma refs_handle {e : IoEvent} {rest : List IoEvent} (hpc : a.pc = .handle (e :: rest))
    (hpc' : a'.pc = .handle rest) (hflight : a'.flight = a.flight) :
    a.refs.Perm (e.obj :: a'.refs) := by
  simp [AioState.refs, hpc, hpc', hflight]

lemma taken_handle {e : IoEvent} {rest : List IoEvent} (hpc : a.pc = .handle (e :: rest))
    (hpc' : a'.pc = .handle rest) (o : Opcode) : a.taken o = a'.taken o := by
  simp [AioState.taken, hpc, hpc']

/-- Nothing arrives at the stage of an operation. -/
lemma arrived_handle (h : Inv a xs ys b) (htaken : ∀ o, a.taken o = a'.taken o)
    (hsubmitted : a'.log.submitted = a.log.submitted) (hreaped : a'.log.reaped = a.log.reaped)
    (hflight : a'.flight = a.flight)
    (harr : ∀ o : Opcode, b'.arrived o.stage = b.arrived o.stage) : Arrived a' b' where
  submitted o := by rw [harr, h.submitted, htaken, hsubmitted]
  reaped o := by rw [harr, h.reaped, htaken, hreaped, AioState.inFlight, AioState.inFlight, hflight]

/-- The control blocks that are left describe what they did. -/
lemma refRec_handle (h : Inv a xs ys b) {e : IoEvent} (t : Touches a a' e.data)
    (hrefs : a.refs.Perm (e.obj :: a'.refs)) :
    ∀ c ∈ a'.refs, ∃ q, a'.reqs.get? c.data = some q ∧ q.next = none ∧ c.Describes q := by
  intro c hc
  rw [t.get? _ (h.ne_of_mem_refs hrefs c hc)]
  exact h.refRec c (hrefs.mem_iff.mpr (List.mem_cons_of_mem _ hc))

/-- The operation of a control block is the one its request is in. -/
lemma opcode_of_state (h : Inv a xs ys b) {c : Iocb} {q : CopyRequest} (hc : c ∈ a.refs)
    (hq : a.reqs.get? c.data = some q) :
    (q.state = 1 ∧ c.opcode = .pread) ∨ (q.state = 2 ∧ c.opcode = .pwrite) := by
  have hst := (h.describes_of_mem_refs hc hq).2.state
  cases ho : c.opcode with
  | pread => exact Or.inl ⟨by simpa [ho] using hst, rfl⟩
  | pwrite => exact Or.inr ⟨by simpa [ho] using hst, rfl⟩

/-- The finished read: its request moves to the head of the write list. -/
lemma finishRead (h : Inv a xs ys b) {e : IoEvent} {rest : List IoEvent} {q : CopyRequest}
    (hpc : a.pc = .handle (e :: rest)) (hq : a.reqs.get? e.data = some q)
    (hstate : q.state = 1) : ∃ b', Inv (a.finishRead e q rest) xs (e.data :: ys) b' := by
  have hrefs : a.refs.Perm (e.obj :: (a.finishRead e q rest).refs) := refs_handle hpc rfl rfl
  have hmem : e.obj ∈ a.refs := hrefs.mem_iff.mpr List.mem_cons_self
  -- `aio_loop` tells a read from a write by the state field of the request
  have hop : e.obj.opcode = .pread := by
    rcases h.opcode_of_state hmem hq with ⟨-, ho⟩ | ⟨hst, -⟩
    · exact ho
    · omega
  have hhold : e.data ∈ b.holds .reading := by
    have := h.mem_holds_of_mem_refs hmem
    rwa [hop] at this
  have t : Touches a (a.finishRead e q rest) e.data :=
    ⟨fun s hs => Heap.get?_set_of_ne hs, rfl, rfl, rfl, rfl⟩
  have hself : (a.finishRead e q rest).reqs.get? e.data =
      some { q with next := a.mgr.writeHead } := Heap.get?_set_self hq
  have hxs := h.ne_of_mem_queued hhold (by decide)
  have hys := h.ne_of_mem_toWrite hhold (by decide)
  obtain ⟨hcount, hacc, hnodup, hlt, hmainReq⟩ := h.touched t hhold
  refine ⟨b.advance Stage.reading_covBy hhold, ?_⟩
  have harr : Arrived (a.finishRead e q rest) (b.advance Stage.reading_covBy hhold) :=
    h.arrived_handle (taken_handle hpc rfl) rfl rfl rfl fun o => by cases o <;> rfl
  refine
    { readList := t.linked h.readList hxs
      writeList := ⟨rfl, a.mgr.writeHead, by simp [AioState.link, hself], t.linked h.writeList hys⟩
      readLen := h.readLen, writeLen := ?_, requestCount := hcount,
      finishedCount := h.finishedCount, queued := h.queued,
      running := fun o => ?_, toWrite := ?_, finished := h.finished,
      accepted := hacc, acceptedNodup := hnodup,
      submitted := harr.submitted, reaped := harr.reaped,
      queuedRec := h.queuedRec_touched t hhold (by decide), refRec := h.refRec_handle t hrefs,
      toWriteRec := ?_, finishedRec := h.finishedRec_touched t hhold (by decide),
      acceptedLt := hlt, mainReq := hmainReq }
  · simp [AioState.finishRead, h.writeLen, toInt32_add_toInt32]
  · have hrun := h.running_cons hrefs o
    rw [hop] at hrun
    cases o with
    | pread =>
      have hrun' : b.holds .reading = e.data ::ₘ ↑((a.finishRead e q rest).running .pread) := hrun
      rw [Opcode.stage, Belt.holds_advance, if_pos rfl, hrun', Multiset.erase_cons_head]
    | pwrite => exact hrun
  · rw [Belt.holds_advance, if_neg (by decide), if_pos rfl, h.toWrite, Multiset.cons_coe]
  · intro r hr
    rcases List.mem_cons.mp hr with rfl | hr
    · exact ⟨_, hself, hstate⟩
    · exact h.toWriteRec_touched t hhold (by decide) r hr

/-- The finished write: its request is freed. -/
lemma finishWrite (h : Inv a xs ys b) {e : IoEvent} {rest : List IoEvent} {q : CopyRequest}
    (hpc : a.pc = .handle (e :: rest)) (hq : a.reqs.get? e.data = some q)
    (hstate : q.state = 2) : ∃ b', Inv (a.finishWrite e q rest) xs ys b' := by
  have hrefs : a.refs.Perm (e.obj :: (a.finishWrite e q rest).refs) := refs_handle hpc rfl rfl
  have hmem : e.obj ∈ a.refs := hrefs.mem_iff.mpr List.mem_cons_self
  have hop : e.obj.opcode = .pwrite := by
    rcases h.opcode_of_state hmem hq with ⟨hst, -⟩ | ⟨-, ho⟩
    · omega
    · exact ho
  have hhold : e.data ∈ b.holds .writing := by
    have := h.mem_holds_of_mem_refs hmem
    rwa [hop] at this
  have t : Touches a (a.finishWrite e q rest) e.data :=
    ⟨fun s hs => Heap.get?_free_of_ne hs, rfl, rfl, rfl, rfl⟩
  have hxs := h.ne_of_mem_queued hhold (by decide)
  have hys := h.ne_of_mem_toWrite hhold (by decide)
  obtain ⟨hcount, hacc, hnodup, hlt, hmainReq⟩ := h.touched t hhold
  refine ⟨b.advance Stage.writing_covBy hhold, ?_⟩
  have harr : Arrived (a.finishWrite e q rest) (b.advance Stage.writing_covBy hhold) :=
    h.arrived_handle (taken_handle hpc rfl) rfl rfl rfl fun o => by cases o <;> rfl
  refine
    { readList := t.linked h.readList hxs, writeList := t.linked h.writeList hys,
      readLen := h.readLen, writeLen := h.writeLen, requestCount := hcount,
      finishedCount := ?_, queued := h.queued,
      running := fun o => ?_, toWrite := h.toWrite, finished := ?_,
      accepted := hacc, acceptedNodup := hnodup,
      submitted := harr.submitted, reaped := harr.reaped,
      queuedRec := h.queuedRec_touched t hhold (by decide), refRec := h.refRec_handle t hrefs,
      toWriteRec := h.toWriteRec_touched t hhold (by decide), finishedRec := ?_,
      acceptedLt := hlt, mainReq := hmainReq }
  · simp [AioState.finishWrite, h.finishedCount, toInt32_add_toInt32]
  · have hrun := h.running_cons hrefs o
    rw [hop] at hrun
    cases o with
    | pread => exact hrun
    | pwrite =>
      have hrun' : b.holds .writing = e.data ::ₘ ↑((a.finishWrite e q rest).running .pwrite) :=
        hrun
      rw [Opcode.stage, Belt.holds_advance, if_pos rfl, hrun', Multiset.erase_cons_head]
  · rw [Belt.holds_advance, if_neg (by decide), if_pos rfl, h.finished]
    rfl
  · intro r hr
    rcases List.mem_cons.mp (show r ∈ e.data :: a.log.finished from hr) with rfl | hr
    · exact Heap.get?_free_self
    · exact h.finishedRec_touched t hhold (by decide) r hr

/-! ### Taking a request from a list -/

/-- One more control block among those prepared. -/
lemma refs_take {c : Iocb} (htaken : a'.pc.taken = a.pc.taken ++ [c])
    (hevents : a'.pc.events = a.pc.events) (hflight : a'.flight = a.flight) :
    a'.refs.Perm (c :: a.refs) := by
  simp only [AioState.refs, htaken, hevents, hflight, List.append_assoc]
  exact List.perm_middle

lemma taken_take {c : Iocb} (htaken : a'.pc.taken = a.pc.taken ++ [c]) (o : Opcode) :
    (a'.taken o : Multiset ReqId) =
      if c.opcode = o then c.data ::ₘ ↑(a.taken o) else ↑(a.taken o) := by
  have hperm : (a'.pc.taken).Perm (c :: a.pc.taken) := by
    rw [htaken]
    exact List.perm_append_singleton c _
  rw [AioState.taken, Multiset.coe_eq_coe.mpr (reqsOf_perm hperm), reqsOf_cons]
  by_cases ho : c.opcode = o <;> simp [ho, AioState.taken]

/-- The request of the new control block arrives at the stage of its operation. -/
lemma arrived_take (h : Inv a xs ys b) {c : Iocb} (htaken : a'.pc.taken = a.pc.taken ++ [c])
    (hsubmitted : a'.log.submitted = a.log.submitted) (hreaped : a'.log.reaped = a.log.reaped)
    (hflight : a'.flight = a.flight)
    (harr : ∀ o : Opcode, b'.arrived o.stage =
      if c.opcode = o then c.data ::ₘ b.arrived o.stage else b.arrived o.stage) :
    Arrived a' b' where
  submitted o := by
    rw [harr, h.submitted, taken_take htaken, hsubmitted]
    split_ifs
    · exact (Multiset.add_cons _ _ _).symm
    · rfl
  reaped o := by
    rw [harr, h.reaped, taken_take htaken, hreaped, AioState.inFlight, AioState.inFlight, hflight]
    split_ifs
    · rw [Multiset.add_cons, Multiset.cons_add]
    · rfl

/-- The new control block describes its request, the others what they did. -/
lemma refRec_take (h : Inv a xs ys b) (t : Touches a a' r) (hold : ∀ d ∈ a.refs, d.data ≠ r)
    {c : Iocb} {q : CopyRequest} (hrefs : a'.refs.Perm (c :: a.refs)) (hdata : c.data = r)
    (hself : a'.reqs.get? r = some q) (hq : q.next = none ∧ c.Describes q) :
    ∀ d ∈ a'.refs, ∃ q, a'.reqs.get? d.data = some q ∧ q.next = none ∧ d.Describes q := by
  intro d hd
  rcases List.mem_cons.mp (hrefs.mem_iff.mp hd) with rfl | hd
  · rw [hdata]
    exact ⟨q, hself, hq⟩
  · rw [t.get? _ (hold d hd)]
    exact h.refRec d hd

lemma describes_pread {c : Iocb} {addr : ℕ} {q : CopyRequest}
    (hc : c = AioState.ioPrepPread addr q.srcFd q.buffer (toUlong q.fsize) 0 r)
    (hstate : q.state = 1) : c.Describes q := by
  subst hc
  exact ⟨rfl, rfl, rfl, rfl, hstate⟩

lemma describes_pwrite {c : Iocb} {addr : ℕ} {q : CopyRequest}
    (hc : c = AioState.ioPrepPwrite addr q.dstFd q.buffer (toUlong q.fsize) 0 r)
    (hstate : q.state = 2) : c.Describes q := by
  subst hc
  exact ⟨rfl, rfl, rfl, rfl, hstate⟩

/-- The first request of the read list gets its buffer and its control block. -/
lemma startRead (h : Inv a (r :: xs) ys b) {curr : CopyRequest} {size : ℤ}
    {cs : List Iocb} (hpc : a.pc = .readLoop size cs) (hcurr : a.reqs.get? r = some curr)
    (fd : ℤ) (stSize buf : ℕ) :
    ∃ b', Inv (a.startRead r curr fd stSize buf size cs) xs ys b' := by
  set a' := a.startRead r curr fd stSize buf size cs with ha'
  obtain ⟨c, hc⟩ : ∃ c, c = AioState.ioPrepPread a.iocbs.next fd buf
      (toUlong (toInt32 stSize)) 0 r := ⟨_, rfl⟩
  have htaken : a'.pc.taken = a.pc.taken ++ [c] := by
    rw [ha', hpc, hc]
    rfl
  have hop : c.opcode = .pread := by rw [hc]; rfl
  have hdata : c.data = r := by rw [hc]; rfl
  have hrefs : a'.refs.Perm (c :: a.refs) := refs_take htaken (by rw [hpc]; rfl) rfl
  have hhold : r ∈ b.holds .queued := by
    rw [h.queued]
    simp
  have t : Touches a a' r := ⟨fun s hs => Heap.get?_set_of_ne hs, rfl, rfl, rfl, rfl⟩
  have hself : a'.reqs.get? r = some { curr with
      srcFd := fd, fsize := toInt32 stSize, buffer := buf, next := none, state := 1 } :=
    Heap.get?_set_self hcurr
  have hnodup : r ∉ xs := (List.nodup_cons.mp h.readList.nodup).1
  have hxs : ∀ s ∈ xs, s ≠ r := fun s hs hsr => hnodup (hsr ▸ hs)
  have hys := h.ne_of_mem_toWrite hhold (by decide)
  have hold := h.ne_of_mem_refs_of_holds hhold fun o => by cases o <;> decide
  obtain ⟨hcount, hacc, hnd, hlt, hmainReq⟩ := h.touched t hhold
  obtain ⟨-, tl, hlink, htl⟩ := h.readList
  obtain rfl : curr.next = tl := by simpa [AioState.link, hcurr] using hlink
  refine ⟨b.advance Stage.queued_covBy hhold, ?_⟩
  have harr : Arrived a' (b.advance Stage.queued_covBy hhold) :=
    h.arrived_take htaken rfl rfl rfl fun o => by
      rw [hop, hdata]
      cases o <;> rfl
  refine
    { readList := t.linked htl hxs, writeList := t.linked h.writeList hys,
      readLen := ?_, writeLen := h.writeLen,
      requestCount := hcount, finishedCount := h.finishedCount,
      queued := ?_, running := fun o => ?_, toWrite := h.toWrite, finished := h.finished,
      accepted := hacc, acceptedNodup := hnd,
      submitted := harr.submitted, reaped := harr.reaped, queuedRec := ?_, refRec := ?_,
      toWriteRec := h.toWriteRec_touched t hhold (by decide),
      finishedRec := h.finishedRec_touched t hhold (by decide),
      acceptedLt := hlt, mainReq := hmainReq }
  · change toInt32 (a.mgr.readLen - 1) = _
    rw [h.readLen, sub_eq_add_neg, toInt32_add_toInt32]
    simp
  -- the request leaves the read list and runs from now on
  · rw [Belt.holds_advance, if_pos rfl, h.queued, Multiset.coe_erase, List.erase_cons_head]
  · have hrun := h.running o
    rw [AioState.running, Multiset.coe_eq_coe.mpr (reqsOf_perm hrefs), reqsOf_cons, hop]
    cases o with
    | pread =>
      have hrun' : b.holds .reading = ↑(reqsOf .pread a.refs) := hrun
      rw [Opcode.stage, Belt.holds_advance, if_neg (by decide), if_pos rfl, hrun', if_pos rfl,
        hdata, Multiset.cons_coe]
    | pwrite => exact hrun
  · intro s hs
    rw [t.get? s (hxs s hs)]
    exact h.queuedRec s (List.mem_cons_of_mem _ hs)
  · exact h.refRec_take t hold hrefs hdata hself ⟨rfl, describes_pread hc rfl⟩

/-- The first request of the write list gets its destination and its control block. -/
lemma startWrite (h : Inv a xs (r :: ys) b) {curr : CopyRequest} {size : ℤ}
    {cs : List Iocb} (hpc : a.pc = .writeLoop size cs) (hcurr : a.reqs.get? r = some curr)
    (fd : ℤ) :
    ∃ b', Inv (a.startWrite r curr fd size cs) xs ys b' := by
  set a' := a.startWrite r curr fd size cs with ha'
  obtain ⟨c, hc⟩ : ∃ c, c = AioState.ioPrepPwrite a.iocbs.next fd curr.buffer
      (toUlong curr.fsize) 0 r := ⟨_, rfl⟩
  have htaken : a'.pc.taken = a.pc.taken ++ [c] := by
    rw [ha', hpc, hc]
    rfl
  have hop : c.opcode = .pwrite := by rw [hc]; rfl
  have hdata : c.data = r := by rw [hc]; rfl
  have hrefs : a'.refs.Perm (c :: a.refs) := refs_take htaken (by rw [hpc]; rfl) rfl
  have hhold : r ∈ b.holds .toWrite := by
    rw [h.toWrite]
    simp
  have t : Touches a a' r := ⟨fun s hs => Heap.get?_set_of_ne hs, rfl, rfl, rfl, rfl⟩
  have hself : a'.reqs.get? r = some { curr with dstFd := fd, next := none, state := 2 } :=
    Heap.get?_set_self hcurr
  have hnodup : r ∉ ys := (List.nodup_cons.mp h.writeList.nodup).1
  have hys : ∀ s ∈ ys, s ≠ r := fun s hs hsr => hnodup (hsr ▸ hs)
  have hxs := h.ne_of_mem_queued hhold (by decide)
  have hold := h.ne_of_mem_refs_of_holds hhold fun o => by cases o <;> decide
  obtain ⟨hcount, hacc, hnd, hlt, hmainReq⟩ := h.touched t hhold
  obtain ⟨-, tl, hlink, htl⟩ := h.writeList
  obtain rfl : curr.next = tl := by simpa [AioState.link, hcurr] using hlink
  refine ⟨b.advance Stage.toWrite_covBy hhold, ?_⟩
  have harr : Arrived a' (b.advance Stage.toWrite_covBy hhold) :=
    h.arrived_take htaken rfl rfl rfl fun o => by
      rw [hop, hdata]
      cases o <;> rfl
  refine
    { readList := t.linked h.readList hxs, writeList := t.linked htl hys,
      readLen := h.readLen, writeLen := ?_,
      requestCount := hcount, finishedCount := h.finishedCount,
      queued := h.queued, running := fun o => ?_, toWrite := ?_, finished := h.finished,
      accepted := hacc, acceptedNodup := hnd,
      submitted := harr.submitted, reaped := harr.reaped,
      queuedRec := h.queuedRec_touched t hhold (by decide), refRec := ?_, toWriteRec := ?_,
      finishedRec := h.finishedRec_touched t hhold (by decide),
      acceptedLt := hlt, mainReq := hmainReq }
  · change toInt32 (a.mgr.writeLen - 1) = _
    rw [h.writeLen, sub_eq_add_neg, toInt32_add_toInt32]
    simp
  · have hrun := h.running o
    rw [AioState.running, Multiset.coe_eq_coe.mpr (reqsOf_perm hrefs), reqsOf_cons, hop]
    cases o with
    | pread => exact hrun
    | pwrite =>
      have hrun' : b.holds .writing = ↑(reqsOf .pwrite a.refs) := hrun
      rw [Opcode.stage, Belt.holds_advance, if_neg (by decide), if_pos rfl, hrun', if_pos rfl,
        hdata, Multiset.cons_coe]
  · rw [Belt.holds_advance, if_pos rfl, h.toWrite, Multiset.coe_erase, List.erase_cons_head]
  · exact h.refRec_take t hold hrefs hdata hself ⟨rfl, describes_pwrite hc rfl⟩
  · intro s hs
    rw [t.get? s (hys s hs)]
    exact h.toWriteRec s (List.mem_cons_of_mem _ hs)

/-! ### Submission and completion -/

/-- `io_submit` accepts a prefix of the prepared control blocks. -/
lemma submit (h : Inv a xs ys b) {cs ds : List Iocb} (htaken : a.pc.taken = cs ++ ds)
    (htaken' : a'.pc.taken = ds) (hevents : a'.pc.events = a.pc.events)
    (hflight : a'.flight = cs.map Op.pending ++ a.flight)
    (hlog : a'.log = (cs.map Obs.submitted).reverse ++ a.log) (hmain : a'.mainReq = a.mainReq)
    (hreqs : a'.reqs = a.reqs) (hmgr : a'.mgr = a.mgr) : Inv a' xs ys b := by
  have hobj : (cs.map Op.pending).map (·.obj) = cs := by
    simp [Function.comp_def, Op.pending]
  have hlink : a'.link = a.link := by
    funext r
    simp [AioState.link, hreqs]
  have hrefs : a'.refs.Perm a.refs := by
    simp only [AioState.refs, htaken, htaken', hevents, hflight, List.map_append, hobj]
    refine List.Perm.append_right _ ?_
    rw [← List.append_assoc]
    exact List.perm_append_comm.append_right _
  have hrev : ∀ o, (reqsOf o cs.reverse).Perm (reqsOf o cs) := fun o =>
    reqsOf_perm (List.reverse_perm cs)
  refine
    { readList := by rw [hlink, hmgr]; exact h.readList,
      writeList := by rw [hlink, hmgr]; exact h.writeList,
      readLen := by rw [hmgr]; exact h.readLen, writeLen := by rw [hmgr]; exact h.writeLen,
      requestCount := by rw [hmgr, hlog, Log.accepted_submit]; exact h.requestCount,
      finishedCount := by rw [hmgr, hlog, Log.finished_submit]; exact h.finishedCount,
      queued := h.queued, running := h.refs_perm hrefs, toWrite := h.toWrite,
      finished := by rw [hlog, Log.finished_submit]; exact h.finished,
      accepted := by rw [hlog, Log.accepted_submit]; exact h.accepted,
      acceptedNodup := by rw [hlog, Log.accepted_submit]; exact h.acceptedNodup,
      submitted := fun o => ?_, reaped := fun o => ?_,
      queuedRec := by rw [hreqs]; exact h.queuedRec,
      refRec := fun c hc => by rw [hreqs]; exact h.refRec c (hrefs.mem_iff.mp hc),
      toWriteRec := by rw [hreqs]; exact h.toWriteRec,
      finishedRec := by rw [hlog, Log.finished_submit, hreqs]; exact h.finishedRec,
      acceptedLt := by rw [hlog, Log.accepted_submit, hreqs]; exact h.acceptedLt,
      mainReq := by rw [hmain, hlog, Log.accepted_submit, hreqs]; exact h.mainReq }
  · rw [h.submitted, hlog, Log.submitted_submit, AioState.taken, AioState.taken, htaken, htaken',
      reqsOf_append, reqsOf_append, ← Multiset.coe_add, ← Multiset.coe_add,
      Multiset.coe_eq_coe.mpr (hrev o)]
    abel
  · rw [h.reaped, hlog, Log.reaped_submit, AioState.taken, AioState.taken, AioState.inFlight,
      AioState.inFlight, hflight, List.map_append, hobj, htaken, htaken', reqsOf_append,
      reqsOf_append, ← Multiset.coe_add, ← Multiset.coe_add]
    abel

/-- The kernel completes an operation. -/
lemma complete (h : Inv a xs ys b) {c : Iocb} {res : ℕ}
    (hstep : a.completeStep c res = some a') : Inv a' xs ys b := by
  obtain ⟨⟨hmem, -⟩, hs⟩ := Option.ite_none_right_eq_some.mp hstep
  obtain rfl := Option.some.inj hs
  have hperm : ((⟨c, some res⟩ :: a.flight.erase (.pending c) : List Op).map (·.obj)).Perm
      (a.flight.map (·.obj)) := by
    have := (List.perm_cons_erase hmem).map (·.obj)
    simpa [Op.pending] using this.symm
  have hrefs : AioState.refs { a with flight := ⟨c, some res⟩ :: a.flight.erase (.pending c) }
      |>.Perm a.refs := (hperm.append_left _).append_right _
  refine { h with
    running := h.refs_perm hrefs
    reaped := fun o => ?_
    refRec := fun d hd => h.refRec d (hrefs.mem_iff.mp hd) }
  rw [h.reaped o, AioState.inFlight, AioState.inFlight,
    Multiset.coe_eq_coe.mpr (reqsOf_perm hperm)]
  rfl

/-! ### The client -/

/-- A request is allocated. -/
lemma newRequest (h : Inv a xs ys b) (srcName dstName : CStr) :
    Inv (a.newRequest srcName dstName) xs ys b := by
  have hget : ∀ s q, a.reqs.get? s = some q →
      (a.newRequest srcName dstName).reqs.get? s = some q := fun s q hq =>
    Heap.get?_alloc_of_get? hq
  have hlinked : ∀ {p zs}, Linked a.link p zs →
      Linked (a.newRequest srcName dstName).link p zs := by
    intro p zs hl
    refine hl.congr fun s hs => ?_
    obtain ⟨q, hq⟩ : ∃ q, a.reqs.get? s = some q := by
      have := hl.isSome s hs
      simpa [AioState.link, Option.isSome_iff_exists] using this
    simp [AioState.link, hq, hget s q hq]
  have hlt : ∀ s ∈ a.log.accepted, s ≠ a.reqs.next := fun s hs =>
    Nat.ne_of_lt (h.acceptedLt s hs)
  refine { h with
    readList := hlinked h.readList
    writeList := hlinked h.writeList
    queuedRec := fun s hs => ?_
    refRec := fun c hc => ?_
    toWriteRec := fun s hs => ?_
    finishedRec := fun s hs => ?_
    acceptedLt := fun s hs => Nat.lt_succ_of_lt (h.acceptedLt s hs)
    mainReq := fun s hs => ?_ }
  · obtain ⟨q, hq, hstate⟩ := h.queuedRec s hs
    exact ⟨q, hget s q hq, hstate⟩
  · obtain ⟨q, hq, hrest⟩ := h.refRec c hc
    exact ⟨q, hget _ q hq, hrest⟩
  · obtain ⟨q, hq, hstate⟩ := h.toWriteRec s hs
    exact ⟨q, hget s q hq, hstate⟩
  · have hacc : s ∈ a.log.accepted :=
      h.mem_accepted_of_holds .finished (by rw [h.finished]; exact hs)
    rw [AioState.newRequest, Heap.get?_alloc, if_neg (hlt s hacc)]
    exact h.finishedRec s hs
  · obtain rfl : a.reqs.next = s := Option.some.inj hs
    exact ⟨fun hacc => hlt _ hacc rfl, _, Heap.get?_alloc_self, rfl, rfl⟩

/-- The request of the main thread is allocated, so `add_copy_req` links it in. -/
lemma addCopyReq_eq (h : Inv a xs ys b) (hr : a.mainReq = some r) :
    ∃ q, a.reqs.get? r = some q ∧ a.addCopyReq r = a.linkIn r q := by
  obtain ⟨-, q, hq, -⟩ := h.mainReq r hr
  exact ⟨q, hq, by rw [AioState.addCopyReq, hq]⟩

/-- A request is linked in at the head of the read list. -/
lemma linkIn (h : Inv a xs ys b) {q : CopyRequest} (hr : a.mainReq = some r)
    (hq : a.reqs.get? r = some q) : ∃ b', Inv (a.linkIn r q) (r :: xs) ys b' := by
  obtain ⟨hnot, q', hq', hstate, -⟩ := h.mainReq r hr
  obtain rfl : q = q' := Option.some.inj (hq.symm.trans hq')
  have hne : ∀ i, ∀ s ∈ b.holds i, s ≠ r := fun i s hs hsr =>
    hnot (hsr ▸ h.mem_accepted_of_holds i hs)
  have hget : ∀ s, s ≠ r → (a.linkIn r q).reqs.get? s = a.reqs.get? s := fun s hs =>
    Heap.get?_set_of_ne hs
  have hlinked : ∀ {p zs}, Linked a.link p zs → (∀ s ∈ zs, s ≠ r) →
      Linked (a.linkIn r q).link p zs := fun hl hz =>
    hl.congr fun s hs => by rw [AioState.link, AioState.link, hget s (hz s hs)]
  have hself : (a.linkIn r q).reqs.get? r = some { q with next := a.mgr.readHead } :=
    Heap.get?_set_self hq
  have hxs : ∀ s ∈ xs, s ≠ r := fun s hs => hne .queued s (by rw [h.queued]; exact hs)
  have hys : ∀ s ∈ ys, s ≠ r := fun s hs => hne .toWrite s (by rw [h.toWrite]; exact hs)
  have hfin : ∀ s ∈ a.log.finished, s ≠ r := fun s hs =>
    hne .finished s (by rw [h.finished]; exact hs)
  refine ⟨b.enter r, ?_⟩
  refine
    { readList := ⟨rfl, a.mgr.readHead, by simp [AioState.link, hself], hlinked h.readList hxs⟩
      writeList := hlinked h.writeList hys, readLen := ?_, writeLen := h.writeLen,
      requestCount := ?_, finishedCount := h.finishedCount,
      queued := ?_, running := fun o => ?_, toWrite := ?_, finished := ?_,
      accepted := ?_, acceptedNodup := List.nodup_cons.mpr ⟨hnot, h.acceptedNodup⟩,
      submitted := fun o => ?_, reaped := fun o => ?_, queuedRec := ?_, refRec := ?_,
      toWriteRec := ?_, finishedRec := ?_, acceptedLt := ?_, mainReq := ?_ }
  · simp [AioState.linkIn, h.readLen, toInt32_add_toInt32]
  · simp [AioState.linkIn, h.requestCount, toInt32_add_toInt32]
  · rw [Belt.holds_enter, if_pos (show Stage.queued = ⊥ from rfl), h.queued, Multiset.cons_coe]
  · rw [Belt.holds_enter, if_neg (by cases o <;> decide), h.running]
    rfl
  · rw [Belt.holds_enter, if_neg (by decide), h.toWrite]
  · rw [Belt.holds_enter, if_neg (by decide), h.finished]
    rfl
  · rw [Belt.arrived_enter, if_pos (show Stage.queued = ⊥ from rfl), h.accepted]
    rfl
  · rw [Belt.arrived_enter, if_neg (by cases o <;> decide), h.submitted]
    rfl
  · rw [Belt.arrived_enter, if_neg (by cases o <;> decide), h.reaped]
    rfl
  · intro s hs
    rcases List.mem_cons.mp hs with rfl | hs
    · exact ⟨_, hself, hstate⟩
    · rw [hget s (hxs s hs)]
      exact h.queuedRec s hs
  · intro c hc
    rw [hget _ (hne _ _ (h.mem_holds_of_mem_refs hc))]
    exact h.refRec c hc
  · intro s hs
    rw [hget s (hys s hs)]
    exact h.toWriteRec s hs
  · intro s hs
    rw [hget s (hfin s hs)]
    exact h.finishedRec s hs
  · intro s hs
    rcases List.mem_cons.mp (show s ∈ r :: a.log.accepted from hs) with rfl | hs
    · have hlt : s < a.reqs.next := Heap.lt_next_of_get? hq
      exact hlt
    · exact h.acceptedLt s hs
  · intro s hs
    simp [AioState.linkIn] at hs

end Inv

end Cpr
