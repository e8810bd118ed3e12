/-
# The buffers that are submitted

`mmap` reports a failure by `MAP_FAILED`, and `aio_loop` compares its result with `NULL`.  As
long as `mmap` does not fail, the buffer of every request that is read or written is a mapping
of its own.  There is no mapping of length zero: `mmap` fails for an empty file.
-/
import Cpr.Program.Requests

namespace Cpr

open Transition Unix

/-- The request is in a read, on the write list, or in a write. -/
def AioState.Transfers (a : AioState) (r : ReqId) : Prop :=
  r ∈ a.running .pread ∨ a.InWriteList r ∨ r ∈ a.running .pwrite

/-- The buffers that the kernel is given, and may be given later. -/
structure ValidBuffers (a : AioState) : Prop where
  /-- The buffer is a live mapping of at least `fsize` bytes. -/
  live : ∀ r, a.Transfers r → ∃ q m, a.reqs.get? r = some q ∧ a.mapping r = some m ∧
    m ∈ a.maps ∧ m.1 = q.buffer ∧ q.fsize ≤ m.2
  disjoint : ∀ r s, r ≠ s → a.Transfers r → a.Transfers s → ∀ m m', a.mapping r = some m →
    a.mapping s = some m' → DisjointMaps m m'
  /-- The kernel transfers no more than the mapping holds. -/
  flight : ∀ op ∈ a.flight, ∃ m ∈ a.maps, m.1 = op.obj.buf ∧ op.obj.nbytes ≤ m.2
  /-- Where `mmap` failed, the process has exited before a submission. -/
  failed : ∀ r q, a.reqs.last? r = some q → q.buffer = mapFailed →
    (∃ code, code ≠ 0 ∧ a.ended = some (.exited code)) ∧ ∀ c ∈ a.log.submitted, c.data ≠ r

/-- `mmap` does not fail. -/
def AioState.Maps (_ : AioState) : Act → Prop
  | .readOne o => o.fd < 0 ∨ o.stSize = none ∨ o.buf ≠ mapFailed
  | _ => True

/-- The same for the steps of the program. -/
def Prog.Maps (p : Prog) : Label → Prop
  | .aio act => p.aio.Maps act
  | _ => True

instance (a : AioState) (act : Act) : Decidable (a.Maps act) := by
  induction act using Act.casesOn <;> (unfold AioState.Maps; infer_instance)

instance (p : Prog) (l : Label) : Decidable (p.Maps l) := by
  induction l using Label.casesOn <;> (unfold Prog.Maps; infer_instance)

/-- No buffer is `MAP_FAILED`, and every size is an `int`. -/
structure Mapped (a : AioState) : Prop where
  buffer : ∀ r q, a.reqs.last? r = some q → q.buffer ≠ mapFailed
  fsize : ∀ r q, a.reqs.last? r = some q → q.fsize < 2 ^ 31

namespace Mapped

variable {a a' : AioState} {act : Act} {xs ys : List ReqId} {b : Belt Stage ReqId}

lemma init (readBatchSize writeBatchSize : ℤ) :
    Mapped (AioState.init readBatchSize writeBatchSize) := by
  have hnone : ∀ r, (AioState.init readBatchSize writeBatchSize).reqs.last? r = none := fun r =>
    Heap.last?_eq_none_of_le (Nat.zero_le r)
  constructor <;> simp [hnone]

/-- The size and the buffer of a request are those that `fstat` and `mmap` returned, or zero. -/
lemma step (h : Mapped a) (hgood : Good a) (hact : a.Maps act) (hstep : a.step act = some a') :
    Mapped a' := by
  have hcases : ∀ r q', a'.reqs.last? r = some q' → q'.buffer ≠ mapFailed ∧ q'.fsize < 2 ^ 31 := by
    intro r q' hq'
    cases hgood.descends hstep hq' with
    | fresh hnew =>
      rw [hnew] at hstep
      generalize hsrc : q'.srcName = srcName at hstep
      generalize hdst : q'.dstName = dstName at hstep
      cases (AioState.fires_of_step hstep).2 with
      | newRequest =>
        rcases AioState.last?_newRequest hq' with ⟨-, rfl⟩ | hq
        · exact ⟨(by decide : (0 : ℕ) ≠ mapFailed), by norm_num⟩
        · exact ⟨h.buffer r q' hq, h.fsize r q' hq⟩
    | old q hq _ transfer =>
      rw [transfer.buffer, transfer.fsize]
      exact ⟨h.buffer r q hq, h.fsize r q hq⟩
    | read q o stSize _ _ hread hfd _ hstSize hfsize hbuffer =>
      rw [hbuffer, hfsize]
      refine ⟨?_, (toInt32_range _).2⟩
      rw [hread] at hact
      rcases hact with hneg | hnone | hbuf
      · omega
      · simp [hstSize] at hnone
      · exact hbuf
    | opened q _ hq _ transfer =>
      have hlast := Heap.last?_of_get? hq
      rw [transfer.buffer, transfer.fsize]
      exact ⟨h.buffer r q hlast, h.fsize r q hlast⟩
  exact ⟨fun r q hq => (hcases r q hq).1, fun r q hq => (hcases r q hq).2⟩

theorem of_reaches {readBatchSize writeBatchSize : ℤ}
    (h : Reaches AioState.step AioState.Maps (AioState.init readBatchSize writeBatchSize) a) :
    Mapped a :=
  h.invariant_of (fun _ hr => Good.of_reaches (hr.weaken fun _ _ _ => trivial))
    (fun hgood _ hm hact hstep => hm.step hgood hact hstep) (init _ _)

/-- A request that was started has a mapping. -/
lemma mapping_eq (h : Mapped a) (hb : Buffers a) {r : ReqId} {q : CopyRequest}
    (hq : a.reqs.last? r = some q) (hst : q.state ≠ 0) :
    a.mapping r = some (q.buffer, toUlong q.fsize) ∧ (q.buffer, toUlong q.fsize) ∈ a.maps := by
  have hmapping : a.mapping r = some (q.buffer, toUlong q.fsize) := by
    rw [AioState.mapping, hq]
    simp [CopyRequest.mapping, hb.started r q hq hst, h.buffer r q hq]
  refine ⟨hmapping, hb.maps.mem_iff.mpr (List.mem_filterMap.mpr ⟨r, ?_, hmapping⟩)⟩
  exact List.mem_range.mpr (Buffers.of_mapping hmapping).1

/-- The requests that hold a buffer were started. -/
lemma started (hinv : Inv a xs ys b) {r : ReqId} (hr : a.Transfers r) :
    ∃ q, a.reqs.get? r = some q ∧ q.state ≠ 0 := by
  have hrunning : ∀ o, r ∈ a.running o → ∃ q, a.reqs.get? r = some q ∧ q.state ≠ 0 := by
    intro o hmem
    obtain ⟨c, hc, -, rfl⟩ := mem_reqsOf.mp hmem
    obtain ⟨q, hq, -, hdesc⟩ := hinv.refRec c hc
    refine ⟨q, hq, ?_⟩
    rw [hdesc.state]
    cases c.opcode <;> simp
  rcases hr with hr | hr | hr
  · exact hrunning _ hr
  · obtain ⟨q, hq, hst⟩ := hinv.toWriteRec r (hinv.inWriteList.mp hr)
    exact ⟨q, hq, by omega⟩
  · exact hrunning _ hr

lemma le_toUlong {x : ℤ} (hx : x < 2 ^ 31) : x ≤ toUlong x := by
  unfold toUlong
  omega

lemma validBuffers (h : Mapped a) (hinv : Inv a xs ys b) (hb : Buffers a) : ValidBuffers a where
  live r hr := by
    obtain ⟨q, hq, hst⟩ := started hinv hr
    have hlast := Heap.last?_of_get? hq
    obtain ⟨hmapping, hmem⟩ := h.mapping_eq hb hlast hst
    exact ⟨q, _, hq, hmapping, hmem, rfl, le_toUlong (h.fsize r q hlast)⟩
  disjoint r s hne _ _ m m' hm hm' := hb.disjoint_of_ne hne hm hm'
  flight op hop := by
    have hc : op.obj ∈ a.refs := AioState.mem_refs_of_flight hop
    obtain ⟨q, hq, -, hdesc⟩ := hinv.refRec op.obj hc
    have hst : q.state ≠ 0 := by
      rw [hdesc.state]
      cases op.obj.opcode <;> simp
    obtain ⟨-, hmem⟩ := h.mapping_eq hb (Heap.last?_of_get? hq) hst
    exact ⟨_, hmem, hdesc.buf.symm, hdesc.nbytes.le⟩
  failed r q hq hbuf := absurd hbuf (h.buffer r q hq)

end Mapped

section

variable {p : Prog} {srcName dstName : CStr} {batchSize : ℤ}

/-- **Every buffer is valid** as long as `mmap` does not fail. -/
theorem validBuffers_of_reaches
    (h : Reaches Prog.step Prog.Maps (Prog.init srcName dstName batchSize) p) :
    ValidBuffers p.aio := by
  have hany : Reaches Prog.step anyLabel (Prog.init srcName dstName batchSize) p :=
    h.weaken fun _ _ _ => trivial
  have hm : Mapped p.aio := Mapped.of_reaches (Prog.manager_reaches (fun _ _ hl => hl)
    (fun a act hact => by cases act <;> simp [Act.ofClient] at hact <;> trivial) h)
  have hb : Buffers p.aio := Buffers.of_reaches (Prog.manager_reaches_any hany)
  obtain ⟨xs, ys, b, hinv, -⟩ := Prog.good_of_reaches hany
  exact hm.validBuffers hinv hb

/-- A run in which a read is in flight. -/
theorem validBuffers_of_reaches_reading : ∃ p : Prog,
    Reaches Prog.step Prog.Maps (Prog.init ['a'] ['b'] 1) p ∧
      p.aio.flight = [.pending ⟨0, .pread, 3, 4096, 5, 0, 0⟩] ∧ ValidBuffers p.aio := by
  have hrun : (execOk Prog.step Prog.Maps (Prog.init ['a'] ['b'] 1)
      [.initManager true, .startThread true, .stat (some .reg), .bumpReqCount, .copyReg,
        .addLock true, .addLink, .addUnlock true, .aio .lockFlush, .aio (.getEvents []),
        .aio .checkDone, .aio .lockRequest, .aio .readSize, .aio (.readOne ⟨3, some 5, 4096⟩),
        .aio (.readSubmit 1)]).map (fun p => p.aio.flight) =
        some [.pending ⟨0, .pread, 3, 4096, 5, 0, 0⟩] := by
    decide +kernel
  obtain ⟨p, hp, hflight⟩ := Option.map_eq_some_iff.mp hrun
  have hreach := reaches_of_execOk hp
  exact ⟨p, hreach, hflight, validBuffers_of_reaches hreach⟩

end

/-- The read of an empty file is submitted with the buffer `MAP_FAILED`. -/
theorem not_validBuffers_of_empty : ¬ ∀ (srcName dstName : CStr) (batchSize : ℤ) (p : Prog),
    Reaches Prog.step anyLabel (Prog.init srcName dstName batchSize) p → ValidBuffers p.aio := by
  intro hall
  have hrun : (exec Prog.step (Prog.init ['a'] ['b'] 1)
      [.initManager true, .startThread true, .stat (some .reg), .bumpReqCount, .copyReg,
        .addLock true, .addLink, .addUnlock true, .aio .lockFlush, .aio (.getEvents []),
        .aio .checkDone, .aio .lockRequest, .aio .readSize,
        .aio (.readOne ⟨3, some 0, mapFailed⟩), .aio (.readSubmit 1)]).map
      (fun p => (p.aio.flight, p.aio.maps)) =
        some ([.pending ⟨0, .pread, 3, mapFailed, 0, 0, 0⟩], []) := by
    decide +kernel
  obtain ⟨p, hp, hfacts⟩ := Option.map_eq_some_iff.mp hrun
  simp only [Prod.mk.injEq] at hfacts
  obtain ⟨hflight, hmaps⟩ := hfacts
  obtain ⟨m, hm, -⟩ := (hall _ _ _ p (reaches_of_exec (fun _ _ => trivial) hp)).flight
    (.pending ⟨0, .pread, 3, mapFailed, 0, 0, 0⟩) (by rw [hflight]; exact List.mem_cons_self)
  simp [hmaps] at hm

end Cpr
