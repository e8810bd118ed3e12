/-
# The mappings outlive the requests

Nothing unmaps the buffer of a request whose write has finished.  The live mappings are the
buffers of the requests between read and write in exactly those runs in which no write has
been finished, and in which `mmap` has not failed either: its result is not compared with
`MAP_FAILED`.
-/
import Cpr.Manager.Buffers
import Cpr.Program.Success

namespace Cpr

open Transition Unix

/-- The live mappings are the buffers of the requests in an in-flight read, on the write
list, or in an in-flight write. -/
structure BuffersExact (a : AioState) : Prop where
  exact : ∀ addr, addr ∈ a.maps.map Prod.fst ↔
    ∃ r, (r ∈ a.inFlight .pread ∨ a.InWriteList r ∨ r ∈ a.inFlight .pwrite) ∧
      ∃ q, a.reqs.get? r = some q ∧ q.buffer = addr
  finished : ∀ r ∈ a.log.finished, ∀ q, a.reqs.last? r = some q →
    q.buffer ∉ a.maps.map Prod.fst
  stopped : a.pc = .unlockBreak ∨ a.pc = .returned → a.maps = []

/-- The event reports a write that passes the size check: handling it frees the request. -/
def AioState.finishes (a : AioState) (e : IoEvent) : Bool :=
  match a.reqs.get? e.data with
  | some q => decide (e.res = toUlong q.fsize ∧ q.state = 2)
  | none => false

/-- `mmap` does not fail, and no write is finished. -/
def AioState.Keeping (a : AioState) : Act → Prop
  | .readOne o => o.fd < 0 ∨ o.stSize = none ∨ o.buf ≠ mapFailed
  | .handleEvent =>
    match a.pc with
    | .handle (e :: _) => a.finishes e = false
    | _ => True
  | _ => True

/-- The same for the steps of the program. -/
def Prog.Keeping (p : Prog) : Label → Prop
  | .aio act => p.aio.Keeping act
  | _ => True

instance (a : AioState) (act : Act) : Decidable (a.Keeping act) := by
  induction act using Act.casesOn with
  | handleEvent =>
    unfold AioState.Keeping
    induction a.pc using AioPc.casesOn with
    | handle events => induction events using List.casesOn <;> infer_instance
    | _ => infer_instance
  | _ => unfold AioState.Keeping; infer_instance

instance (p : Prog) (l : Label) : Decidable (p.Keeping l) := by
  induction l using Label.casesOn <;> (unfold Prog.Keeping; infer_instance)

/-- No request was freed, and no buffer is `MAP_FAILED`. -/
structure Kept (a : AioState) : Prop where
  finished : a.log.finished = []
  buffer : ∀ r q, a.reqs.last? r = some q → q.buffer ≠ mapFailed

namespace Kept

variable {a a' : AioState} {act : Act}

lemma init (readBatchSize writeBatchSize : ℤ) :
    Kept (AioState.init readBatchSize writeBatchSize) :=
  ⟨rfl, fun r q hq => by
    rw [AioState.init, Heap.last?_eq_none_of_le (Nat.zero_le r)] at hq
    cases hq⟩

lemma of_set {r : ReqId} {q q' : CopyRequest} (hk : Kept a) (hq : a.reqs.get? r = some q)
    (hreqs : a'.reqs = a.reqs.set r q') (hfin : a'.log.finished = a.log.finished)
    (hbuf : q'.buffer ≠ mapFailed) : Kept a' := by
  refine ⟨hfin.trans hk.finished, fun s p hp => ?_⟩
  rw [hreqs, AioState.last?_set hq] at hp
  split_ifs at hp with hs
  · obtain rfl := Option.some.inj hp
    exact hbuf
  · exact hk.buffer s p hp

lemma step (hk : Kept a) (hgood : Good a) (hact : a.Keeping act) (hstep : a.step act = some a') :
    Kept a' := by
  cases hgood.moves hstep with
  | same e =>
    exact ⟨by rw [e.log]; exact hk.finished, by rw [e.reqs]; exact hk.buffer⟩
  | reap => exact ⟨(Log.finished_reap _).trans hk.finished, hk.buffer⟩
  | finishRead e rest q _ hq =>
    exact hk.of_set hq rfl rfl (hk.buffer _ q (Heap.last?_of_get? hq))
  | finishWrite e rest q hpc hq _ hst hres =>
    simp [AioState.Keeping, hpc, AioState.finishes, hq, hst, hres] at hact
  | startRead o size cs r curr stSize _ _ hcurr _ _ hfd hstSize =>
    refine hk.of_set hcurr rfl rfl ?_
    rcases hact with hneg | hnone | hbuf
    · exact absurd hneg (not_lt.mpr hfd)
    · simp [hstSize] at hnone
    · exact hbuf
  | submit cs ds _ _ _ _ _ _ log _ reqs =>
    refine ⟨?_, by rw [reqs]; exact hk.buffer⟩
    rw [log, Log.finished_submit]
    exact hk.finished
  | startWrite fd size cs r curr _ _ hcurr =>
    exact hk.of_set hcurr rfl rfl (hk.buffer _ curr (Heap.last?_of_get? hcurr))
  | complete => exact ⟨hk.finished, hk.buffer⟩
  | newRequest srcName dstName =>
    refine ⟨hk.finished, fun s q hq => ?_⟩
    rcases AioState.last?_newRequest hq with ⟨-, rfl⟩ | hq
    · exact (by decide : (0 : ℕ) ≠ mapFailed)
    · exact hk.buffer s q hq
  | linkIn r q _ hq => exact hk.of_set hq rfl rfl (hk.buffer _ q (Heap.last?_of_get? hq))

theorem of_reaches {readBatchSize writeBatchSize : ℤ}
    (h : Reaches AioState.step AioState.Keeping (AioState.init readBatchSize writeBatchSize) a) :
    Kept a :=
  h.invariant_of (fun _ hr => Good.of_reaches (hr.weaken fun _ _ _ => trivial))
    (fun hgood _ hk hact hstep => hk.step hgood hact hstep) (init _ _)

end Kept

section

variable {a : AioState} {p : Prog} {srcName dstName : CStr} {batchSize : ℤ}

/-- In a run without finished writes and failed mappings, nothing has leaked yet. -/
lemma Kept.exact {xs ys : List ReqId} {b : Belt Stage ReqId} (hk : Kept a) (h : Inv a xs ys b)
    (hb : a.AtBoundary) (hbuf : Buffers a) {addr : ℕ} : addr ∈ a.maps.map Prod.fst ↔
      ∃ r, (r ∈ a.inFlight .pread ∨ a.InWriteList r ∨ r ∈ a.inFlight .pwrite) ∧
        ∃ q, a.reqs.get? r = some q ∧ q.buffer = addr := by
  rw [hbuf.mem_maps_iff h, Inv.running_of_atBoundary hb, Inv.running_of_atBoundary hb]
  have hlive : ∀ o r, r ∈ a.inFlight o → ∃ q, a.reqs.get? r = some q := by
    intro o r hr
    rw [← Inv.running_of_atBoundary hb] at hr
    obtain ⟨c, hc, -, rfl⟩ := mem_reqsOf.mp hr
    obtain ⟨q, hq, -⟩ := h.refRec c hc
    exact ⟨q, hq⟩
  constructor
  · rintro ⟨-, r, hr, q, hq, rfl⟩
    rw [hk.finished] at hr
    have hplace : r ∈ a.inFlight .pread ∨ a.InWriteList r ∨ r ∈ a.inFlight .pwrite := by
      rw [h.inWriteList]
      simpa using hr
    have hget : ∃ q, a.reqs.get? r = some q := by
      rcases hplace with hr | hr | hr
      · exact hlive _ r hr
      · obtain ⟨q, hq, -⟩ := h.toWriteRec r (h.inWriteList.mp hr)
        exact ⟨q, hq⟩
      · exact hlive _ r hr
    obtain ⟨q', hq'⟩ := hget
    obtain rfl := Option.some.inj ((Heap.last?_of_get? hq').symm.trans hq)
    exact ⟨r, hplace, q', hq', rfl⟩
  · rintro ⟨r, hr, q, hq, rfl⟩
    have hlast := Heap.last?_of_get? hq
    refine ⟨hk.buffer r q hlast, r, ?_, q, hlast, rfl⟩
    rw [h.inWriteList] at hr
    tauto

/-- **No buffer leaks** in the runs in which no write is finished and `mmap` does not
fail. -/
theorem buffersExact_of_reaches
    (h : Reaches Prog.step Prog.Keeping (Prog.init srcName dstName batchSize) p)
    (hb : p.aio.AtBoundary) (hlt : p.aio.log.accepted.length < 2 ^ 32) :
    BuffersExact p.aio := by
  have hany : Reaches Prog.step anyLabel (Prog.init srcName dstName batchSize) p :=
    h.weaken fun _ _ _ => trivial
  have hk : Kept p.aio := Kept.of_reaches (Prog.manager_reaches (fun _ _ hl => hl)
    (fun a act hact => by cases act <;> simp [Act.ofClient] at hact <;> trivial) h)
  have hbuf : Buffers p.aio := Buffers.of_reaches (Prog.manager_reaches_any hany)
  obtain ⟨xs, ys, b, hinv, -⟩ := Prog.good_of_reaches hany
  refine ⟨fun addr => hk.exact hinv hb hbuf, by simp [hk.finished], fun hpc => ?_⟩
  have hd := hinv.drained ((Stopped.of_reaches hany hpc).2 hlt)
  refine List.eq_nil_iff_forall_not_mem.mpr fun m hm => ?_
  obtain ⟨r, hr, -⟩ := (hk.exact hinv hb hbuf).mp (List.mem_map_of_mem (f := Prod.fst) hm)
  have hwrite := hinv.writeList
  rw [hd.writeHead, linked_none] at hwrite
  rw [hinv.inWriteList, hwrite] at hr
  simp [AioState.inFlight, hd.flight] at hr

/-- A run in which a read is in flight. -/
theorem buffersExact_of_reaches_reading : ∃ p : Prog,
    Reaches Prog.step Prog.Keeping (Prog.init ['a'] ['b'] 1) p ∧ p.aio.AtBoundary ∧
      p.aio.maps = [(4096, 5)] ∧ BuffersExact p.aio := by
  have hrun : (execOk Prog.step Prog.Keeping (Prog.init ['a'] ['b'] 1)
      [.initManager true, .startThread true, .stat (some .reg), .bumpReqCount, .copyReg,
        .addLock true, .addLink, .addUnlock true, .aio .lockFlush, .aio (.getEvents []),
        .aio .checkDone, .aio .lockRequest, .aio .readSize, .aio (.readOne ⟨3, some 5, 4096⟩),
        .aio (.readSubmit 1)]).map
      (fun p => (decide p.aio.AtBoundary, p.aio.maps, p.aio.log.accepted.length)) =
        some (true, [(4096, 5)], 1) := by
    decide +kernel
  obtain ⟨p, hp, hfacts⟩ := Option.map_eq_some_iff.mp hrun
  simp only [Prod.mk.injEq, decide_eq_true_eq] at hfacts
  obtain ⟨hb, hmaps, hacc⟩ := hfacts
  have hreach := reaches_of_execOk hp
  exact ⟨p, hreach, hb, hmaps, buffersExact_of_reaches hreach hb (by rw [hacc]; decide)⟩

end

/-- After a file of five bytes was copied, its buffer is still mapped. -/
theorem not_buffersExact_of_copy : ¬ ∀ (srcName dstName : CStr) (batchSize : ℤ) (p : Prog),
    Reaches Prog.step anyLabel (Prog.init srcName dstName batchSize) p → p.aio.AtBoundary →
      BuffersExact p.aio := by
  intro hall
  have hrun : (exec Prog.step (Prog.init ['a'] ['b'] 1)
      [.initManager true, .startThread true, .stat (some .reg), .bumpReqCount, .copyReg,
        .addLock true, .addLink, .addUnlock true, .walkEnd, .waitLock true, .waitSet,
        .waitUnlock true, .aio .lockFlush, .aio (.getEvents []), .aio .checkDone,
        .aio .lockRequest, .aio .readSize, .aio (.readOne ⟨3, some 5, 4096⟩),
        .aio (.readSubmit 1), .aio .unlockRequest, .aio .writeSize, .aio .unlockFlush,
        .aio (.complete ⟨0, .pread, 3, 4096, 5, 0, 0⟩ 5), .aio .lockFlush,
        .aio (.getEvents [⟨⟨0, .pread, 3, 4096, 5, 0, 0⟩, 5⟩]), .aio .handleEvent,
        .aio .checkDone, .aio .lockRequest, .aio .readSize, .aio .unlockRequest,
        .aio .writeSize, .aio (.writeOne 4), .aio (.writeSubmit 1), .aio .unlockFlush,
        .aio (.complete ⟨1, .pwrite, 4, 4096, 5, 0, 0⟩ 5), .aio .lockFlush,
        .aio (.getEvents [⟨⟨1, .pwrite, 4, 4096, 5, 0, 0⟩, 5⟩]), .aio .handleEvent,
        .aio .checkDone, .aio .unlockBreak]).map
      (fun p => (decide p.aio.AtBoundary, p.aio.pc, p.aio.maps)) =
        some (true, .returned, [(4096, 5)]) := by
    decide +kernel
  obtain ⟨p, hp, hfacts⟩ := Option.map_eq_some_iff.mp hrun
  simp only [Prod.mk.injEq, decide_eq_true_eq] at hfacts
  obtain ⟨hb, hpc, hmaps⟩ := hfacts
  have hstop := (hall _ _ _ p (reaches_of_exec (fun _ _ => trivial) hp) hb).stopped (Or.inr hpc)
  simp [hmaps] at hstop

end Cpr
