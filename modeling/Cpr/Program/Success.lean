/-
# No premature success

The stop test of `aio_loop` succeeds only when every accepted request is finished, so a
process that exits with status 0 has transferred every request completely, whatever calls
failed on the way.  The test compares two `int` counters: this needs fewer than `2 ^ 32`
requests.
-/
import Cpr.System.Flat

namespace Cpr

open Transition Unix

/-- Every accepted request is finished: none is in a list, in a read or in a write. -/
structure Drained (a : AioState) : Prop where
  readHead : a.mgr.readHead = none
  writeHead : a.mgr.writeHead = none
  flight : a.flight = []
  finished : ∀ r, r ∈ a.log.accepted ↔ r ∈ a.log.finished

/-- What a successful exit, a `break` and the stop test imply. -/
structure SoundStop (p : Prog) : Prop where
  stopTest : p.aio.stopTest = true → Drained p.aio
  atBreak : p.aio.pc = .unlockBreak ∨ p.aio.pc = .returned → Drained p.aio
  ioDestroy : p.pc = .destroy → p.aio.flight = []
  success : p.aio.ended = some (.exited 0) → Drained p.aio ∧
    ∀ r, r < p.aio.reqs.next → ∃ q, p.aio.reqs.last? r = some q ∧ WriteDone p.aio.log r q
  onceRead : (reqsOf .pread p.aio.log.reaped).Nodup
  onceWritten : (reqsOf .pwrite p.aio.log.reaped).Nodup

namespace Inv

variable {a : AioState} {xs ys : List ReqId} {b : Belt Stage ReqId}

/-- As many finished requests as accepted ones leave nothing anywhere else. -/
lemma eq_nil_of_length (h : Inv a xs ys b)
    (hlen : a.log.finished.length = a.log.accepted.length) : xs = [] ∧ ys = [] ∧ a.refs = [] := by
  have hsum := h.lengths
  have hread : a.running .pread = [] := List.length_eq_zero_iff.mp (by omega)
  have hwrite : a.running .pwrite = [] := List.length_eq_zero_iff.mp (by omega)
  refine ⟨List.length_eq_zero_iff.mp (by omega), List.length_eq_zero_iff.mp (by omega), ?_⟩
  refine List.eq_nil_iff_forall_not_mem.mpr fun c hc => ?_
  have hmem := AioState.mem_running_of_mem_refs hc
  cases ho : c.opcode <;> simp [ho, hread, hwrite] at hmem

/-- When every accepted request is finished, no operation is left to wait for. -/
lemma not_awaits_of_length (h : Inv a xs ys b)
    (hlen : a.log.finished.length = a.log.accepted.length) {o : Opcode} {r : ReqId} :
    ¬ a.Awaits o r := by
  intro hw
  obtain ⟨c, hc, -⟩ := hw.exists_mem_refs
  rw [(h.eq_nil_of_length hlen).2.2] at hc
  cases hc

lemma drained (h : Inv a xs ys b) (hlen : a.log.finished.length = a.log.accepted.length) :
    Drained a := by
  obtain ⟨rfl, rfl, hrefs⟩ := h.eq_nil_of_length hlen
  refine ⟨h.readList, h.writeList, ?_, fun r => ?_⟩
  · have hflight : a.flight.map (·.obj) = [] :=
      (List.append_eq_nil_iff.mp (List.append_eq_nil_iff.mp hrefs).1).2
    exact List.map_eq_nil_iff.mp hflight
  · rw [← h.places.mem_iff, AioState.running, AioState.running, hrefs]
    simp

lemma nodup_reaped (h : Inv a xs ys b) (o : Opcode) : (reqsOf o a.log.reaped).Nodup := by
  have hnd := h.nodup_arrived o.stage
  rw [h.reaped, add_assoc, Multiset.nodup_add] at hnd
  exact Multiset.coe_nodup.mp hnd.1

end Inv

/-- Once `aio_loop` has left its loop, `flush` is set, and there are as many finished
requests as accepted ones. -/
def Stopped (p : Prog) : Prop := p.aio.pc = .unlockBreak ∨ p.aio.pc = .returned →
  p.aio.mgr.flush = true ∧ (p.aio.log.accepted.length < 2 ^ 32 →
    p.aio.log.finished.length = p.aio.log.accepted.length)

namespace Stopped

variable {p p' : Prog} {l : Label} {srcName dstName : CStr} {batchSize : ℤ}

/-- The stop test compares the counters of accepted and finished requests. -/
lemma finished_of_stopTest (hc : Counting p) (hgood : Good p.aio)
    (htest : p.aio.stopTest = true) : p.aio.mgr.flush = true ∧
      (p.aio.log.accepted.length < 2 ^ 32 →
        p.aio.log.finished.length = p.aio.log.accepted.length) := by
  obtain ⟨hflush, hcount⟩ := by simpa [AioState.stopTest] using htest
  obtain ⟨xs, ys, b, hinv, -⟩ := hgood
  have hafter : p.pc.afterFlush = true := hc.flush.symm.trans hflush
  have hcounted : p.pc.counted = false := by
    revert hafter
    cases p.pc <;> simp [MainPc.afterFlush, MainPc.counted]
  have hreq := hc.reqCount
  rw [hcounted, hcount, hinv.finishedCount] at hreq
  have hlen := hinv.lengths
  refine ⟨hflush, fun hlt => ?_⟩
  have heq := (toInt32_nat_inj (m := p.aio.log.finished.length)
    (n := p.aio.log.accepted.length) (by omega) (by omega)).mp (by simpa using hreq.symm)
  exact heq.symm

lemma step (hs : Stopped p) (hc : Counting p) (hgood : Good p.aio)
    (hstep : p.step l = some p') : Stopped p' := by
  intro hpc'
  obtain ⟨hended, hfires⟩ := Prog.fires_of_step hstep
  cases hfires with
  | aio act a ha =>
    obtain ⟨hact, hclient⟩ := Prog.step_of_aioStep hended ha
    have hf := aioFrame_of_aioStep hended ha
    have hfires := (AioState.fires_of_step hact).2
    dsimp only at hpc' ⊢
    cases hfires with
    | startThread | bumpReqCount | newRequest | clientLockRequest | addCopyReq
    | clientUnlockRequest | clientLockFlush | setFlush | clientUnlockFlush | exit =>
      simp [Act.ofClient] at hclient
    | complete => exact hs hpc'
    | unlockBreak hpc => exact hs (Or.inl hpc)
    | checkDone hpc =>
      rw [AioState.checkDone] at hpc' ⊢
      split_ifs at hpc' with htest
      · exact finished_of_stopTest hc hgood htest
      · simp at hpc'
    | lockFlush | getEvents | lockRequest | unlockRequest | unlockFlush => simp at hpc'
    | readSize =>
      rw [AioState.readSize] at hpc'
      split_ifs at hpc' <;> simp at hpc'
    | writeSize =>
      rw [AioState.writeSize] at hpc'
      split_ifs at hpc' <;> simp at hpc'
    | handleEvent e rest hpc =>
      rcases (p.aio.handleEvent_facts e rest).2.2.2 with h | h <;> simp [h, hpc] at hpc'
    | readOne o size cs hpc =>
      rcases (p.aio.readOne_facts o size cs).2.2.2 with h | ⟨ds, h⟩ <;> simp [h, hpc] at hpc'
    | writeOne fd size cs hpc =>
      rcases (p.aio.writeOne_facts fd size cs).2.2.2 with h | ⟨ds, h⟩ <;> simp [h, hpc] at hpc'
    | readSubmit ret size cs hpc =>
      rcases (p.aio.submit_facts ret size cs .unlockRequest (.readLoop size)).2.2 with
        h | ⟨ds, h⟩ <;> simp [h] at hpc'
    | writeSubmit ret size cs hpc =>
      rcases (p.aio.submit_facts ret size cs .unlockFlush (.writeLoop size)).2.2 with
        h | ⟨ds, h⟩ <;> simp [h] at hpc'
  | addLink r hpc hr =>
    -- after the walk nothing is accepted any more
    obtain ⟨q, -, hlink⟩ := hgood.addCopyReq_eq hr
    rw [hlink] at hpc'
    have hflush := hc.flush
    rw [(hs hpc').1, hpc] at hflush
    simp [MainPc.afterFlush] at hflush
  | startThread => simp at hpc'
  | waitSet => exact ⟨rfl, (hs hpc').2⟩
  | _ => exact hs hpc'

theorem of_reaches (h : Reaches Prog.step anyLabel (Prog.init srcName dstName batchSize) p) :
    Stopped p := by
  refine h.invariant_of (J := fun p => Counting p ∧ Good p.aio)
    (fun _ hr => ⟨Counting.of_reaches hr, Prog.good_of_reaches hr⟩)
    (fun hj _ hs _ hstep => hs.step hj.1 hj.2 hstep) ?_
  intro hpc
  simp [Prog.init, AioState.init] at hpc

end Stopped

section

variable {p : Prog} {srcName dstName : CStr} {batchSize : ℤ}

/-- After a success every accepted request is finished. -/
lemma drained_of_success
    (h : Reaches Prog.step anyLabel (Prog.init srcName dstName batchSize) p)
    (hlt : p.aio.log.accepted.length < 2 ^ 32) (hexit : p.aio.ended = some (.exited 0)) :
    Drained p.aio := by
  have hpc := (Counting.of_reaches h).success hexit
  obtain ⟨xs, ys, b, hinv, -⟩ := Prog.good_of_reaches h
  exact hinv.drained ((Stopped.of_reaches h (Or.inr ((Locks.of_reaches h).joined hpc))).2 hlt)

/-- When as many requests are finished as accepted, every request that was made is finished. -/
lemma state_of_length
    (h : Reaches Prog.step anyLabel (Prog.init srcName dstName batchSize) p)
    (halloc : p.pc.allocated = false)
    (hlen : p.aio.log.finished.length = p.aio.log.accepted.length) {r : ReqId} {q : CopyRequest}
    (hq : p.aio.reqs.last? r = some q) : q.state = 2 := by
  have hbuf : Buffers p.aio := Buffers.of_reaches (Prog.manager_reaches_any h)
  have hr : r < p.aio.reqs.next := by
    by_contra hge
    simp [Heap.last?_eq_none_of_le (not_lt.mp hge)] at hq
  obtain ⟨xs, ys, b, hinv, -⟩ := Prog.good_of_reaches h
  have hacc := ((Counting.of_reaches h).allocated r hr).resolve_right (by simp [halloc])
  exact hbuf.finished r q hq (((hinv.drained hlen).finished r).mp hacc)

/-- After a success every request that was made is finished. -/
lemma state_of_success
    (h : Reaches Prog.step anyLabel (Prog.init srcName dstName batchSize) p)
    (hlt : p.aio.log.accepted.length < 2 ^ 32) (hexit : p.aio.ended = some (.exited 0))
    {r : ReqId} {q : CopyRequest} (hq : p.aio.reqs.last? r = some q) : q.state = 2 := by
  have hpc := (Counting.of_reaches h).success hexit
  have hlen := (Stopped.of_reaches h (Or.inr ((Locks.of_reaches h).joined hpc))).2 hlt
  exact state_of_length h (by rw [hpc]; rfl) hlen hq

/-- **No premature success**, for every kernel and schedule. -/
theorem soundStop_of_reaches
    (h : Reaches Prog.step anyLabel (Prog.init srcName dstName batchSize) p)
    (hlt : p.aio.log.accepted.length < 2 ^ 32) : SoundStop p := by
  have hc := Counting.of_reaches h
  have hl := Locks.of_reaches h
  have hgood := Prog.good_of_reaches h
  have hist := Prog.history_of_reaches h
  have hstop := Stopped.of_reaches h
  obtain ⟨xs, ys, b, hinv, -⟩ := id hgood
  refine
    { stopTest := fun htest =>
        hinv.drained ((Stopped.finished_of_stopTest hc hgood htest).2 hlt)
      atBreak := fun hpc => hinv.drained ((hstop hpc).2 hlt)
      ioDestroy := fun hpc => (hinv.drained ((hstop (Or.inr (hl.joined hpc))).2 hlt)).flight
      success := fun hexit => ?_
      onceRead := hinv.nodup_reaped .pread
      onceWritten := hinv.nodup_reaped .pwrite }
  have hpc := hc.success hexit
  have hd := drained_of_success h hlt hexit
  refine ⟨hd, fun r hr => hist.finished r ((hd.finished r).mp ?_)⟩
  refine (hc.allocated r hr).resolve_right ?_
  rw [hpc]
  simp [MainPc.allocated]

/-- A run that copies one file and exits with status 0. -/
theorem soundStop_of_reaches_success : ∃ p : Prog,
    Reaches Prog.step anyLabel (Prog.init ['a'] ['b'] 1) p ∧
      p.aio.ended = some (.exited 0) ∧ p.aio.reqs.next = 1 ∧ SoundStop p := by
  have hrun : (exec Prog.step (Prog.init ['a'] ['b'] 1)
      [.initManager true, .startThread true, .stat (some .reg), .bumpReqCount, .copyReg,
        .addLock true, .addLink, .addUnlock true, .walkEnd,
        .aio .lockFlush, .aio (.getEvents []), .aio .checkDone, .aio .lockRequest,
        .aio .readSize, .aio (.readOne ⟨3, some 5, 4096⟩), .aio (.readSubmit 1),
        .aio .unlockRequest, .aio .writeSize, .aio .unlockFlush,
        .waitLock true, .waitSet, .waitUnlock true,
        .aio (.complete ⟨0, .pread, 3, 4096, 5, 0, 0⟩ 5), .aio .lockFlush,
        .aio (.getEvents [⟨⟨0, .pread, 3, 4096, 5, 0, 0⟩, 5⟩]), .aio .handleEvent,
        .aio .checkDone, .aio .lockRequest, .aio .readSize, .aio .unlockRequest,
        .aio .writeSize, .aio (.writeOne 4), .aio (.writeSubmit 1), .aio .unlockFlush,
        .aio (.complete ⟨1, .pwrite, 4, 4096, 5, 0, 0⟩ 5), .aio .lockFlush,
        .aio (.getEvents [⟨⟨1, .pwrite, 4, 4096, 5, 0, 0⟩, 5⟩]), .aio .handleEvent,
        .aio .checkDone, .aio .unlockBreak, .join true, .destroy true]).map
      (fun p => (p.aio.ended, p.aio.reqs.next, p.aio.log.accepted.length)) =
        some (some (.exited 0), 1, 1) := by
    decide +kernel
  obtain ⟨p, hp, hfacts⟩ := Option.map_eq_some_iff.mp hrun
  simp only [Prod.mk.injEq] at hfacts
  obtain ⟨hended, hnext, hacc⟩ := hfacts
  have hreach : Reaches Prog.step anyLabel (Prog.init ['a'] ['b'] 1) p :=
    reaches_of_exec (fun _ _ => trivial) hp
  exact ⟨p, hreach, hended, hnext, soundStop_of_reaches hreach (by rw [hacc]; decide)⟩

/-- With `2 ^ 32` files, `req_count` is back at 0 when the stop test is made, and `main`
returns 0 before any file is read. -/
theorem not_soundStop_of_overflow : ¬ ∀ (srcName dstName : CStr) (batchSize : ℤ) (p : Prog),
    Reaches Prog.step anyLabel (Prog.init srcName dstName batchSize) p → SoundStop p := by
  intro hall
  obtain ⟨s, hs, hexit, hacc, hfin, -⟩ := flat.reaches_exit (n := 2 ^ 32) (by decide) 1
  have hd := ((hall _ _ _ _ (Sys.prog_reaches_any hs)).success hexit).1
  cases hlog : s.prog.aio.log.accepted with
  | nil => simp [hlog] at hacc
  | cons r rs =>
    have hr := (hd.finished r).mp (by rw [hlog]; exact List.mem_cons_self)
    rw [hfin] at hr
    cases hr

end

end Cpr
