/-
# The history of a request

What the log of a run says about each request: a request on the write list, or in a write,
has a read that was reaped with the full size; a finished request has, after that read, a
write of the same buffer that was reaped with the full size.  A write is submitted only
after the read of its request was reaped.
-/
import Cpr.Manager.Moves

namespace Cpr

open Transition

/-- The history has a read of the request `r`, with content `q`, that was reaped with a
result equal to the size. -/
def ReadDone (log : Log) (r : ReqId) (q : CopyRequest) : Prop :=
  ∃ c, .reaped c (toUlong q.fsize) ∈ log ∧ c.opcode = .pread ∧ c.data = r ∧
    c.buf = q.buffer ∧ c.nbytes = toUlong q.fsize

/-- The history has, after such a read, a write of the same buffer that was reaped with a
result equal to the size. -/
def WriteDone (log : Log) (r : ReqId) (q : CopyRequest) : Prop :=
  ∃ c older, (.reaped c (toUlong q.fsize) :: older) <:+ log ∧ c.opcode = .pwrite ∧ c.data = r ∧
    c.buf = q.buffer ∧ c.nbytes = toUlong q.fsize ∧ ReadDone older r q

section

variable {log log' : Log} {r : ReqId} {q q' : CopyRequest}

lemma ReadDone.mono (h : ReadDone log r q) (hlog : log <:+ log') : ReadDone log' r q := by
  obtain ⟨c, hc, hrest⟩ := h
  exact ⟨c, hlog.mem hc, hrest⟩

lemma ReadDone.congr (h : ReadDone log r q) (hsize : q'.fsize = q.fsize)
    (hbuf : q'.buffer = q.buffer) : ReadDone log r q' := by
  unfold ReadDone
  rw [hsize, hbuf]
  exact h

lemma WriteDone.mono (h : WriteDone log r q) (hlog : log <:+ log') : WriteDone log' r q := by
  obtain ⟨c, older, hc, hrest⟩ := h
  exact ⟨c, older, hc.trans hlog, hrest⟩

/-- A new entry of the history, with the history as it was before it. -/
lemma exists_suffix_of_mem (log : Log) {new : Log} {o : Obs} (ho : o ∈ new) :
    ∃ older, (o :: older) <:+ new ++ log ∧ log <:+ older := by
  obtain ⟨as, bs, rfl⟩ := List.append_of_mem ho
  exact ⟨bs ++ log, ⟨as, by simp⟩, List.suffix_append _ _⟩

/-- An entry of the extended history is new, and the old history precedes it, or it is old. -/
lemma suffix_append_cases {new older : Log} {o : Obs} (h : (o :: older) <:+ new ++ log) :
    (o ∈ new ∧ log <:+ older) ∨ (o :: older) <:+ log := by
  induction new with
  | nil => exact Or.inr h
  | cons o' new ih =>
    rcases List.suffix_cons_iff.mp (by simpa using h) with heq | h
    · obtain ⟨rfl, rfl⟩ := List.cons.inj heq
      exact Or.inl ⟨List.mem_cons_self, List.suffix_append _ _⟩
    · rcases ih h with ⟨hmem, hold⟩ | h
      · exact Or.inl ⟨List.mem_cons_of_mem _ hmem, hold⟩
      · exact Or.inr h

end

namespace AioState

/-- The request is on the write list. -/
def InWriteList (a : AioState) (r : ReqId) : Prop :=
  ∃ ys, Linked a.link a.mgr.writeHead ys ∧ r ∈ ys

/-- The request is on the read list. -/
def InReadList (a : AioState) (r : ReqId) : Prop :=
  ∃ xs, Linked a.link a.mgr.readHead xs ∧ r ∈ xs

end AioState

/-- What the history says about the requests. -/
structure History (a : AioState) : Prop where
  toWrite : ∀ r q, a.InWriteList r → a.reqs.get? r = some q → ReadDone a.log r q
  writing : ∀ c ∈ a.refs, c.opcode = .pwrite → ∀ q, a.reqs.get? c.data = some q →
    ReadDone a.log c.data q
  reaped : ∀ e ∈ a.pc.events, .reaped e.obj e.res ∈ a.log
  written : ∀ e ∈ a.pc.events, e.obj.opcode = .pwrite → ∀ q, a.reqs.get? e.data = some q →
    ∃ older, (.reaped e.obj e.res :: older) <:+ a.log ∧ ReadDone older e.data q
  finished : ∀ r ∈ a.log.finished, ∃ q, a.reqs.last? r = some q ∧ WriteDone a.log r q
  submitted : ∀ c older, (.submitted c :: older) <:+ a.log → c.opcode = .pwrite →
    c.data ∈ reqsOf .pread (Log.reaped older)

namespace Inv

variable {a a' : AioState} {xs ys : List ReqId} {b : Belt Stage ReqId} {r : ReqId}

lemma inWriteList (h : Inv a xs ys b) : a.InWriteList r ↔ r ∈ ys := by
  constructor
  · rintro ⟨zs, hzs, hr⟩
    rwa [h.writeList.unique hzs]
  · exact fun hr => ⟨ys, h.writeList, hr⟩

lemma inReadList (h : Inv a xs ys b) : a.InReadList r ↔ r ∈ xs := by
  constructor
  · rintro ⟨zs, hzs, hr⟩
    rwa [h.readList.unique hzs]
  · exact fun hr => ⟨xs, h.readList, hr⟩

/-- The read of a request that is in a write was reaped: it arrived in the read stage and
is not there any more. -/
lemma read_reaped_of_writing (h : Inv a xs ys b) {c : Iocb} (hc : c ∈ a.refs)
    (hop : c.opcode = .pwrite) : c.data ∈ reqsOf .pread a.log.reaped := by
  have hhold : c.data ∈ b.holds .writing := by
    have := h.mem_holds_of_mem_refs hc
    rwa [hop] at this
  have harr : c.data ∈ b.arrived .reading :=
    Multiset.mem_of_le (b.holds_le_arrived (by decide)) hhold
  have hnot : c.data ∉ b.holds .reading := fun hr =>
    h.ne_of_holds (show Stage.reading ≠ .writing by decide) hr hhold rfl
  have hrun : b.holds .reading = a.running .pread := h.running .pread
  have hreap : b.arrived .reading = _ := h.reaped .pread
  rw [hreap, Multiset.mem_add, Multiset.mem_add] at harr
  rw [hrun, AioState.running_eq] at hnot
  simp only [Multiset.mem_coe, List.mem_append, not_or] at harr hnot
  rcases harr with (harr | harr) | harr
  · exact harr
  · exact absurd harr hnot.1.1
  · exact absurd harr hnot.1.2

end Inv

namespace History

variable {a a' : AioState} {xs ys : List ReqId} {b : Belt Stage ReqId} {r : ReqId}

lemma init (readBatchSize writeBatchSize : ℤ) :
    History (AioState.init readBatchSize writeBatchSize) where
  toWrite := by simp [AioState.init, AioState.InWriteList, linked_none]
  writing := by simp [AioState.init, AioState.refs, AioPc.taken, AioPc.events]
  reaped := by simp [AioState.init, AioPc.events]
  written := by simp [AioState.init, AioPc.events]
  finished := by simp [AioState.init]
  submitted := by simp [AioState.init]

lemma frame (hist : History a) (e : SameRequests a a') : History a' := by
  have hlink : a'.link = a.link := by
    funext r
    simp [AioState.link, e.reqs]
  have hrefs : a'.refs = a.refs := by simp [AioState.refs, e.taken, e.flight, e.events]
  refine ⟨?_, ?_, ?_, ?_, ?_, ?_⟩
  · simp only [AioState.InWriteList, hlink, e.writeHead, e.reqs, e.log]
    exact hist.toWrite
  · rw [hrefs, e.reqs, e.log]
    exact hist.writing
  · rw [e.events, e.log]
    exact hist.reaped
  · rw [e.events, e.reqs, e.log]
    exact hist.written
  · rw [e.reqs, e.log]
    exact hist.finished
  · rw [e.log]
    exact hist.submitted

/-- The old part of the history, after the log grew by entries that are not submissions. -/
lemma submitted_append (hist : History a) (new : Log) (hnew : ∀ c, .submitted c ∉ new) :
    ∀ c older, (.submitted c :: older) <:+ new ++ a.log → c.opcode = .pwrite →
      c.data ∈ reqsOf .pread (Log.reaped older) := by
  intro c older hc
  rcases suffix_append_cases hc with ⟨hmem, -⟩ | hc
  · exact absurd hmem (hnew c)
  · exact hist.submitted c older hc

/-- The completed requests, after a change of another request. -/
lemma finished_mono (hist : History a) (h : Inv a xs ys b) (hlog : a.log <:+ a'.log)
    (hlast : ∀ s, s ≠ r → s < a.reqs.next → a'.reqs.last? s = a.reqs.last? s)
    (hr : ∀ s ∈ a.log.finished, s ≠ r) :
    ∀ s ∈ a.log.finished, ∃ q, a'.reqs.last? s = some q ∧ WriteDone a'.log s q := by
  intro s hs
  obtain ⟨q, hq, hdone⟩ := hist.finished s hs
  have hacc : s ∈ a.log.accepted :=
    h.mem_accepted_of_holds .finished (by rw [h.finished]; exact hs)
  exact ⟨q, by rw [hlast s (hr s hs) (h.acceptedLt s hacc), hq], hdone.mono hlog⟩

lemma reap (hist : History a) (h : Inv a xs ys b) {events : List IoEvent}
    (hpc : a.pc = .getEvents) (hsub : (events.map IoEvent.op).Subperm a.flight)
    (ha' : a' = { a with
      flight := a.flight.diff (events.map IoEvent.op)
      pc := .handle events
      log := (events.map fun e => .reaped e.obj e.res).reverse ++ a.log }) : History a' := by
  have hrefs : ∀ c ∈ a'.refs, c ∈ a.refs := by
    subst ha'
    intro c hc
    simp only [AioState.refs, hpc, AioPc.taken_handle, AioPc.events_handle, List.nil_append,
      List.mem_append] at hc ⊢
    rcases hc with hc | hc
    · obtain ⟨o, ho, rfl⟩ := List.mem_map.mp hc
      exact Or.inl (Or.inr (List.mem_map_of_mem (List.diff_subset _ _ ho)))
    · obtain ⟨e, he, rfl⟩ := List.mem_map.mp hc
      exact Or.inl (Or.inr (List.mem_map_of_mem (f := (·.obj))
        (hsub.subset (List.mem_map_of_mem (f := IoEvent.op) he))))
  have hlog : a.log <:+ a'.log := by
    subst ha'
    exact List.suffix_append _ _
  have hreqs : a'.reqs = a.reqs := by rw [ha']
  have hevents : a'.pc.events = events := by rw [ha']; rfl
  have hmem : ∀ e ∈ events, Obs.reaped e.obj e.res ∈
      (events.map fun e => Obs.reaped e.obj e.res).reverse := fun e he =>
    List.mem_reverse.mpr (List.mem_map_of_mem (f := fun e => Obs.reaped e.obj e.res) he)
  refine ⟨fun r q hr hq => ?_, fun c hc hop q hq => ?_, fun e he => ?_, fun e he hop q hq => ?_,
    ?_, ?_⟩
  · rw [hreqs] at hq
    subst ha'
    exact (hist.toWrite r q hr hq).mono hlog
  · rw [hreqs] at hq
    exact (hist.writing c (hrefs c hc) hop q hq).mono hlog
  · rw [hevents] at he
    subst ha'
    exact List.mem_append_left _ (hmem e he)
  · rw [hevents] at he
    rw [hreqs] at hq
    have hc : e.obj ∈ a'.refs := by
      subst ha'
      exact List.mem_append_right _ (List.mem_map_of_mem (f := (·.obj)) he)
    have hread := hist.writing e.obj (hrefs _ hc) hop q hq
    obtain ⟨older, hsuff, hold⟩ := exists_suffix_of_mem a.log (hmem e he)
    subst ha'
    exact ⟨older, hsuff, hread.mono hold⟩
  · have hfin : a'.log.finished = a.log.finished := by
      subst ha'
      simp
    rw [hfin]
    have hne : ∀ s ∈ a.log.finished, s ≠ a.reqs.next := fun s hs =>
      Nat.ne_of_lt (h.acceptedLt s
        (h.mem_accepted_of_holds .finished (by rw [h.finished]; exact hs)))
    exact hist.finished_mono h hlog (fun s _ _ => by rw [hreqs]) hne
  · subst ha'
    refine hist.submitted_append _ fun c hc => ?_
    simp at hc

/-- The frame of a step that changes the block of one request, not finished before. -/
lemma touched (hist : History a) (h : Inv a xs ys b) (t : Touches a a' r)
    (hlog : a.log <:+ a'.log) {i : Stage} (hr : r ∈ b.holds i) (hi : .finished ≠ i)
    (hlast : ∀ s, s ≠ r → a'.reqs.last? s = a.reqs.last? s) :
    (∀ s q, s ≠ r → s ∈ ys → a'.reqs.get? s = some q → ReadDone a'.log s q) ∧
      (∀ c ∈ a.refs, c.data ≠ r → c.opcode = .pwrite → ∀ q, a'.reqs.get? c.data = some q →
        ReadDone a'.log c.data q) ∧
      (∀ e ∈ a.pc.events, e.data ≠ r → e.obj.opcode = .pwrite →
        ∀ q, a'.reqs.get? e.data = some q → ∃ older,
          (.reaped e.obj e.res :: older) <:+ a'.log ∧ ReadDone older e.data q) ∧
      ∀ s ∈ a.log.finished, ∃ q, a'.reqs.last? s = some q ∧ WriteDone a'.log s q := by
  refine ⟨fun s q hs hmem hq => ?_, fun c hc hne hop q hq => ?_, fun e he hne hop q hq => ?_, ?_⟩
  · rw [t.get? s hs] at hq
    exact (hist.toWrite s q (h.inWriteList.mpr hmem) hq).mono hlog
  · rw [t.get? _ hne] at hq
    exact (hist.writing c hc hop q hq).mono hlog
  · rw [t.get? _ hne] at hq
    obtain ⟨older, hsuff, hread⟩ := hist.written e he hop q hq
    exact ⟨older, hsuff.trans hlog, hread⟩
  · exact hist.finished_mono h hlog (fun s hs _ => hlast s hs)
      (h.ne_of_mem_finished hr hi)

lemma finishRead (hist : History a) (h : Inv a xs ys b) {e : IoEvent} {rest : List IoEvent}
    {q : CopyRequest} (hpc : a.pc = .handle (e :: rest)) (hq : a.reqs.get? e.data = some q)
    (hop : e.obj.opcode = .pread) (hst : q.state = 1) (hres : e.res = toUlong q.fsize) :
    History (a.finishRead e q rest) := by
  have hrefs : a.refs.Perm (e.obj :: (a.finishRead e q rest).refs) := Inv.refs_handle hpc rfl rfl
  have hmem : e.obj ∈ a.refs := hrefs.mem_iff.mpr List.mem_cons_self
  have hevent : e ∈ a.pc.events := by rw [hpc]; exact List.mem_cons_self
  have hhold : e.data ∈ b.holds .reading := by
    have := h.mem_holds_of_mem_refs hmem
    rwa [hop] at this
  have t : Touches a (a.finishRead e q rest) e.data :=
    ⟨fun s hs => Heap.get?_set_of_ne hs, rfl, rfl, rfl, rfl⟩
  have hself : (a.finishRead e q rest).reqs.get? e.data =
      some { q with next := a.mgr.writeHead } := Heap.get?_set_self hq
  obtain ⟨b', h'⟩ := h.finishRead hpc hq hst
  obtain ⟨htoWrite, hwriting, hwritten, hfinished⟩ := hist.touched h t List.suffix_rfl hhold
    (by decide) fun s hs => Heap.last?_set_of_ne hs
  have hrest : ∀ e' ∈ rest, e' ∈ a.pc.events ∧ e'.data ≠ e.data := fun e' he' =>
    ⟨by rw [hpc]; exact List.mem_cons_of_mem _ he', h.ne_of_mem_refs hrefs e'.obj
      (List.mem_append_right _ (List.mem_map_of_mem (f := (·.obj)) he'))⟩
  refine ⟨fun r p hr hp => ?_, fun c hc hw p hp => ?_, fun e' he' => ?_, fun e' he' hw p hp => ?_,
    hfinished, hist.submitted⟩
  · rcases List.mem_cons.mp (h'.inWriteList.mp hr) with rfl | hr
    · obtain rfl : { q with next := a.mgr.writeHead } = p := by simpa [hself] using hp
      have hdesc := (h.describes_of_mem_refs hmem hq).2
      exact ⟨e.obj, hres ▸ hist.reaped e hevent, hop, rfl, hdesc.buf, hdesc.nbytes⟩
    · exact htoWrite r p (h.ne_of_mem_toWrite hhold (by decide) r hr) hr hp
  · exact hwriting c (hrefs.mem_iff.mpr (List.mem_cons_of_mem _ hc))
      (h.ne_of_mem_refs hrefs c hc) hw p hp
  · exact hist.reaped e' (hrest e' he').1
  · exact hwritten e' (hrest e' he').1 (hrest e' he').2 hw p hp

lemma finishWrite (hist : History a) (h : Inv a xs ys b) {e : IoEvent} {rest : List IoEvent}
    {q : CopyRequest} (hpc : a.pc = .handle (e :: rest)) (hq : a.reqs.get? e.data = some q)
    (hop : e.obj.opcode = .pwrite) (hst : q.state = 2) (hres : e.res = toUlong q.fsize) :
    History (a.finishWrite e q rest) := by
  have hrefs : a.refs.Perm (e.obj :: (a.finishWrite e q rest).refs) := Inv.refs_handle hpc rfl rfl
  have hmem : e.obj ∈ a.refs := hrefs.mem_iff.mpr List.mem_cons_self
  have hevent : e ∈ a.pc.events := by rw [hpc]; exact List.mem_cons_self
  have hhold : e.data ∈ b.holds .writing := by
    have := h.mem_holds_of_mem_refs hmem
    rwa [hop] at this
  have t : Touches a (a.finishWrite e q rest) e.data :=
    ⟨fun s hs => Heap.get?_free_of_ne hs, rfl, rfl, rfl, rfl⟩
  have hlog : a.log <:+ (a.finishWrite e q rest).log := List.suffix_cons _ _
  obtain ⟨b', h'⟩ := h.finishWrite hpc hq hst
  obtain ⟨htoWrite, hwriting, hwritten, hfinished⟩ := hist.touched h t hlog hhold
    (by decide) fun s hs => Heap.last?_free s
  have hrest : ∀ e' ∈ rest, e' ∈ a.pc.events ∧ e'.data ≠ e.data := fun e' he' =>
    ⟨by rw [hpc]; exact List.mem_cons_of_mem _ he', h.ne_of_mem_refs hrefs e'.obj
      (List.mem_append_right _ (List.mem_map_of_mem (f := (·.obj)) he'))⟩
  refine ⟨fun r p hr hp => ?_, fun c hc hw p hp => ?_, fun e' he' => ?_, fun e' he' hw p hp => ?_,
    fun r hr => ?_, hist.submitted_append [.finished e.data] (by simp)⟩
  · have hr' := h'.inWriteList.mp hr
    exact htoWrite r p (h.ne_of_mem_toWrite hhold (by decide) r hr') hr' hp
  · exact hwriting c (hrefs.mem_iff.mpr (List.mem_cons_of_mem _ hc))
      (h.ne_of_mem_refs hrefs c hc) hw p hp
  · exact hlog.mem (hist.reaped e' (hrest e' he').1)
  · exact hwritten e' (hrest e' he').1 (hrest e' he').2 hw p hp
  · rcases List.mem_cons.mp (show r ∈ e.data :: a.log.finished from hr) with rfl | hr
    · obtain ⟨older, hsuff, hread⟩ := hist.written e hevent hop q hq
      have hdesc := (h.describes_of_mem_refs hmem hq).2
      refine ⟨q, ?_, e.obj, older, ?_, hop, rfl, hdesc.buf, hdesc.nbytes, hread⟩
      · rw [AioState.finishWrite, Heap.last?_free]
        exact Heap.last?_of_get? hq
      · rw [← hres]
        exact hsuff.trans hlog
    · exact hfinished r hr

lemma startRead (hist : History a) (h : Inv a xs ys b) {size : ℤ} {cs : List Iocb}
    {curr : CopyRequest} {fd : ℤ} {stSize buf : ℕ} (hpc : a.pc = .readLoop size cs)
    (hhead : a.mgr.readHead = some r) (hcurr : a.reqs.get? r = some curr) :
    History (a.startRead r curr fd stSize buf size cs) := by
  obtain ⟨xs, rfl⟩ := (hhead ▸ h.readList).cons_of_some
  obtain ⟨b', h'⟩ := h.startRead hpc hcurr fd stSize buf
  have hhold : r ∈ b.holds .queued := by
    rw [h.queued]
    simp
  have t : Touches a (a.startRead r curr fd stSize buf size cs) r :=
    ⟨fun s hs => Heap.get?_set_of_ne hs, rfl, rfl, rfl, rfl⟩
  obtain ⟨htoWrite, hwriting, -, hfinished⟩ := hist.touched h t List.suffix_rfl hhold
    (by decide) fun s hs => Heap.last?_set_of_ne hs
  have hold := h.ne_of_mem_refs_of_holds hhold fun o => by cases o <;> decide
  refine ⟨fun s p hs hp => ?_, fun c hc hw p hp => ?_, by simp [AioState.startRead],
    by simp [AioState.startRead], hfinished, hist.submitted⟩
  · have hs' := h'.inWriteList.mp hs
    exact htoWrite s p (h.ne_of_mem_toWrite hhold (by decide) s hs') hs' hp
  · have hrefs : (a.startRead r curr fd stSize buf size cs).refs.Perm (_ :: a.refs) :=
      Inv.refs_take (by rw [hpc]; rfl) (by rw [hpc]; rfl) rfl
    rcases List.mem_cons.mp (hrefs.mem_iff.mp hc) with rfl | hc
    · simp [AioState.ioPrepPread] at hw
    · exact hwriting c hc (hold c hc) hw p hp

lemma startWrite (hist : History a) (h : Inv a xs ys b) {size : ℤ} {cs : List Iocb}
    {curr : CopyRequest} {fd : ℤ} (hpc : a.pc = .writeLoop size cs)
    (hhead : a.mgr.writeHead = some r) (hcurr : a.reqs.get? r = some curr) :
    History (a.startWrite r curr fd size cs) := by
  obtain ⟨ys, rfl⟩ := (hhead ▸ h.writeList).cons_of_some
  obtain ⟨b', h'⟩ := h.startWrite hpc hcurr fd
  have hhold : r ∈ b.holds .toWrite := by
    rw [h.toWrite]
    simp
  have hnodup : r ∉ ys := (List.nodup_cons.mp h.writeList.nodup).1
  have t : Touches a (a.startWrite r curr fd size cs) r :=
    ⟨fun s hs => Heap.get?_set_of_ne hs, rfl, rfl, rfl, rfl⟩
  have hself : (a.startWrite r curr fd size cs).reqs.get? r =
      some { curr with dstFd := fd, next := none, state := 2 } := Heap.get?_set_self hcurr
  obtain ⟨htoWrite, hwriting, -, hfinished⟩ := hist.touched h t List.suffix_rfl hhold
    (by decide) fun s hs => Heap.last?_set_of_ne hs
  have hold := h.ne_of_mem_refs_of_holds hhold fun o => by cases o <;> decide
  have hread := hist.toWrite r curr (h.inWriteList.mpr List.mem_cons_self) hcurr
  refine ⟨fun s p hs hp => ?_, fun c hc hw p hp => ?_, by simp [AioState.startWrite],
    by simp [AioState.startWrite], hfinished, hist.submitted⟩
  · have hs' := h'.inWriteList.mp hs
    exact htoWrite s p (fun hsr => hnodup (hsr ▸ hs')) (List.mem_cons_of_mem _ hs') hp
  · have hrefs : (a.startWrite r curr fd size cs).refs.Perm (_ :: a.refs) :=
      Inv.refs_take (by rw [hpc]; rfl) (by rw [hpc]; rfl) rfl
    rcases List.mem_cons.mp (hrefs.mem_iff.mp hc) with rfl | hc
    · obtain rfl : { curr with dstFd := fd, next := none, state := 2 } = p := by
        simpa [AioState.ioPrepPwrite, hself] using hp
      exact hread.congr rfl rfl
    · exact hwriting c hc (hold c hc) hw p hp

lemma submit (hist : History a) (h : Inv a xs ys b) {cs ds : List Iocb}
    (htaken : a.pc.taken = cs ++ ds) (htaken' : a'.pc.taken = ds) (hevents : a'.pc.events = [])
    (hflight : a'.flight = cs.map Op.pending ++ a.flight)
    (hlog : a'.log = (cs.map Obs.submitted).reverse ++ a.log)
    (hreqs : a'.reqs = a.reqs) (hmgr : a'.mgr = a.mgr) : History a' := by
  have hsuff : a.log <:+ a'.log := by
    rw [hlog]
    exact List.suffix_append _ _
  have hlink : a'.link = a.link := by
    funext r
    simp [AioState.link, hreqs]
  have hrefs : ∀ c ∈ a'.refs, c ∈ a.refs := by
    intro c hc
    simp only [AioState.refs, htaken', hflight, hevents, List.map_append, List.mem_append,
      List.map_map, List.map_nil, List.not_mem_nil, or_false] at hc
    simp only [AioState.refs, htaken, List.mem_append]
    rcases hc with hc | hc | hc
    · exact Or.inl (Or.inl (Or.inr hc))
    · obtain ⟨d, hd, rfl⟩ := List.mem_map.mp hc
      exact Or.inl (Or.inl (Or.inl hd))
    · exact Or.inl (Or.inr hc)
  refine ⟨fun r q hr hq => ?_, fun c hc hop q hq => ?_, by simp [hevents], by simp [hevents], ?_,
    fun c older hc hop => ?_⟩
  · rw [hreqs] at hq
    simp only [AioState.InWriteList, hlink, hmgr] at hr
    exact (hist.toWrite r q hr hq).mono hsuff
  · rw [hreqs] at hq
    exact (hist.writing c (hrefs c hc) hop q hq).mono hsuff
  · intro r hr
    rw [hlog, Log.finished_submit] at hr
    obtain ⟨q, hq, hdone⟩ := hist.finished r hr
    exact ⟨q, by rw [hreqs, hq], hdone.mono hsuff⟩
  · rw [hlog] at hc
    rcases suffix_append_cases hc with ⟨hmem, hold⟩ | hc
    · have hcs : c ∈ cs := by simpa using hmem
      have hc : c ∈ a.refs := by
        simp only [AioState.refs, htaken, List.mem_append]
        exact Or.inl (Or.inl (Or.inl hcs))
      obtain ⟨d, hd, hdop, hdr⟩ := mem_reqsOf.mp (h.read_reaped_of_writing hc hop)
      exact mem_reqsOf.mpr ⟨d, (hold.filterMap _).mem hd, hdop, hdr⟩
    · exact hist.submitted c older hc hop

lemma complete (hist : History a) {c : Iocb} {res : ℕ} (hmem : .pending c ∈ a.flight)
    (ha' : a' = { a with flight := ⟨c, some res⟩ :: a.flight.erase (.pending c) }) :
    History a' := by
  have hrefs : ∀ d ∈ a'.refs, d ∈ a.refs := by
    have hc : c ∈ a.flight.map (·.obj) := List.mem_map_of_mem (f := (·.obj)) hmem
    subst ha'
    intro d hd
    simp only [AioState.refs, List.map_cons, List.mem_append, List.mem_cons] at hd ⊢
    rcases hd with (hd | rfl | hd) | hd
    · exact Or.inl (Or.inl hd)
    · exact Or.inl (Or.inr hc)
    · obtain ⟨o, ho, rfl⟩ := List.mem_map.mp hd
      exact Or.inl (Or.inr (List.mem_map_of_mem (f := (·.obj)) (List.mem_of_mem_erase ho)))
    · exact Or.inr hd
  subst ha'
  exact { hist with writing := fun d hd => hist.writing d (hrefs d hd) }

lemma newRequest (hist : History a) (h : Inv a xs ys b) (srcName dstName : CStr) :
    History (a.newRequest srcName dstName) := by
  have hget : ∀ s q, s ∈ a.log.accepted →
      (a.newRequest srcName dstName).reqs.get? s = some q → a.reqs.get? s = some q := by
    intro s q hs hq
    rwa [AioState.newRequest, Heap.get?_alloc, if_neg (Nat.ne_of_lt (h.acceptedLt s hs))] at hq
  have h' := h.newRequest srcName dstName
  refine ⟨fun r q hr hq => ?_, fun c hc hop q hq => ?_, hist.reaped, fun e he hop q hq => ?_, ?_,
    hist.submitted⟩
  · have hr' := h'.inWriteList.mp hr
    have hacc := h.mem_accepted_of_holds .toWrite (by rw [h.toWrite]; exact hr')
    exact hist.toWrite r q (h.inWriteList.mpr hr') (hget r q hacc hq)
  · have hacc := h.mem_accepted_of_holds _ (h.mem_holds_of_mem_refs (c := c) hc)
    exact hist.writing c hc hop q (hget _ q hacc hq)
  · have hc : e.obj ∈ a.refs :=
      List.mem_append_right _ (List.mem_map_of_mem (f := (·.obj)) he)
    have hacc := h.mem_accepted_of_holds _ (h.mem_holds_of_mem_refs hc)
    exact hist.written e he hop q (hget _ q hacc hq)
  · have hne : ∀ s ∈ a.log.finished, s ≠ a.reqs.next := fun s hs =>
      Nat.ne_of_lt (h.acceptedLt s
        (h.mem_accepted_of_holds .finished (by rw [h.finished]; exact hs)))
    have hlast : ∀ s, s ≠ a.reqs.next → s < a.reqs.next →
        (a.newRequest srcName dstName).reqs.last? s = a.reqs.last? s :=
      fun s hs _ => Heap.last?_alloc_of_ne hs
    exact hist.finished_mono h List.suffix_rfl hlast hne

lemma linkIn (hist : History a) (h : Inv a xs ys b) {q : CopyRequest} (hr : a.mainReq = some r)
    (hq : a.reqs.get? r = some q) : History (a.linkIn r q) := by
  obtain ⟨b', h'⟩ := h.linkIn hr hq
  have hnot := (h.mainReq r hr).1
  have hget : ∀ s, s ∈ a.log.accepted → (a.linkIn r q).reqs.get? s = a.reqs.get? s := fun s hs =>
    Heap.get?_set_of_ne fun hsr => hnot (hsr ▸ hs)
  have hlog : a.log <:+ (a.linkIn r q).log := List.suffix_cons _ _
  refine ⟨fun s p hs hp => ?_, fun c hc hop p hp => ?_, fun e he => hlog.mem (hist.reaped e he),
    fun e he hop p hp => ?_, ?_, hist.submitted_append [.accepted r] (by simp)⟩
  · have hs' := h'.inWriteList.mp hs
    rw [hget s (h.mem_accepted_of_holds .toWrite (by rw [h.toWrite]; exact hs'))] at hp
    exact (hist.toWrite s p (h.inWriteList.mpr hs') hp).mono hlog
  · rw [hget _ (h.mem_accepted_of_holds _ (h.mem_holds_of_mem_refs (c := c) hc))] at hp
    exact (hist.writing c hc hop p hp).mono hlog
  · have hc : e.obj ∈ a.refs :=
      List.mem_append_right _ (List.mem_map_of_mem (f := (·.obj)) he)
    rw [hget e.data (h.mem_accepted_of_holds _ (h.mem_holds_of_mem_refs hc))] at hp
    obtain ⟨older, hsuff, hread⟩ := hist.written e he hop p hp
    exact ⟨older, hsuff.trans hlog, hread⟩
  · have hne : ∀ s ∈ a.log.finished, s ≠ r := fun s hs hsr =>
      hnot (hsr ▸ h.mem_accepted_of_holds .finished (by rw [h.finished]; exact hs))
    exact hist.finished_mono h hlog (fun s hs _ => Heap.last?_set_of_ne hs) hne

/-- One step keeps what the history says. -/
theorem step {act : Act} (hist : History a) (hgood : Good a) (hstep : a.step act = some a') :
    History a' := by
  obtain ⟨xs, ys, b, h, -⟩ := id hgood
  cases hgood.moves hstep with
  | same e => exact hist.frame e
  | reap events hpc hsub => exact hist.reap h hpc hsub rfl
  | finishRead e rest q hpc hq hop hst hres => exact hist.finishRead h hpc hq hop hst hres
  | finishWrite e rest q hpc hq hop hst hres => exact hist.finishWrite h hpc hq hop hst hres
  | startRead o size cs r curr stSize hpc hhead hcurr => exact hist.startRead h hpc hhead hcurr
  | submit cs ds taken taken' _ _ events' flight log _ reqs mgr =>
    exact hist.submit h taken taken' events' flight log reqs mgr
  | startWrite fd size cs r curr hpc hhead hcurr => exact hist.startWrite h hpc hhead hcurr
  | complete c res hmem => exact hist.complete hmem rfl
  | newRequest srcName dstName => exact hist.newRequest h srcName dstName
  | linkIn r q hr hq => exact hist.linkIn h hr hq

theorem of_reaches {readBatchSize writeBatchSize : ℤ}
    (h : Reaches AioState.step anyLabel (AioState.init readBatchSize writeBatchSize) a) :
    History a :=
  h.invariant_of (fun _ hr => Good.of_reaches hr)
    (fun hgood _ hist _ hstep => hist.step hgood hstep) (init _ _)

end History

end Cpr
