/-
# Direct transfers

The files are opened with `O_DIRECT`, so every transfer has to consist of whole blocks at
block boundaries.  The byte count of a transfer is the size of the file, and its buffer is
whatever `mmap` returned: the transfers are legal in the runs in which every file that is
read consists of whole blocks and `mmap` does not fail.  It does for an empty file.
-/
import Cpr.Program.Leak

namespace Cpr

open Transition Unix

/-- The size of a logical block. -/
def blockSize : ℕ := 512

/-- The buffer, the offset and the byte count are multiples of the block size. -/
structure DirectLegal (c : Iocb) : Prop where
  buf : blockSize ∣ c.buf
  offset : blockSize ∣ c.offset
  nbytes : blockSize ∣ c.nbytes

/-- The size that `fstat` reports is a multiple of the block size, and `mmap` does not
fail. -/
def AioState.WholeBlocks (_ : AioState) : Act → Prop
  | .readOne o => o.fd < 0 ∨ ∀ n ∈ o.stSize, blockSize ∣ n ∧ o.buf ≠ mapFailed
  | _ => True

/-- The same for the steps of the program. -/
def Prog.WholeBlocks (p : Prog) : Label → Prop
  | .aio act => p.aio.WholeBlocks act
  | _ => True

instance (a : AioState) (act : Act) : Decidable (a.WholeBlocks act) := by
  induction act using Act.casesOn <;> (unfold AioState.WholeBlocks; infer_instance)

instance (p : Prog) (l : Label) : Decidable (p.WholeBlocks l) := by
  induction l using Label.casesOn <;> (unfold Prog.WholeBlocks; infer_instance)

/-- The byte count that is passed to the kernel for a file of whole blocks. -/
lemma blockSize_dvd_toUlong {n : ℕ} (h : blockSize ∣ n) :
    blockSize ∣ toUlong (toInt32 n) := by
  unfold blockSize at h ⊢
  unfold toUlong toInt32
  omega

/-- Every request has a buffer and a size of whole blocks, and so had every transfer. -/
structure Blocks (a : AioState) : Prop where
  buffer : ∀ r q, a.reqs.last? r = some q → blockSize ∣ q.buffer
  fsize : ∀ r q, a.reqs.last? r = some q → blockSize ∣ toUlong q.fsize
  submitted : ∀ c ∈ a.log.submitted, DirectLegal c

namespace Blocks

variable {a a' : AioState} {act : Act} {xs ys : List ReqId} {b : Belt Stage ReqId}

lemma init (readBatchSize writeBatchSize : ℤ) :
    Blocks (AioState.init readBatchSize writeBatchSize) := by
  have hnone : ∀ r, (AioState.init readBatchSize writeBatchSize).reqs.last? r = none := fun r =>
    Heap.last?_eq_none_of_le (Nat.zero_le r)
  refine ⟨?_, ?_, ?_⟩
  · simp [hnone]
  · simp [hnone]
  · simp [AioState.init]

/-- The control blocks that are ready to be submitted ask for the buffers of requests. -/
lemma legal_of_mem_refs (hk : Blocks a) (h : Inv a xs ys b) {c : Iocb} (hc : c ∈ a.refs) :
    DirectLegal c := by
  obtain ⟨q, hq, -, hdesc⟩ := h.refRec c hc
  have hlast := Heap.last?_of_get? hq
  refine ⟨?_, ?_, ?_⟩
  · rw [hdesc.buf]
    exact hk.buffer _ q hlast
  · rw [hdesc.offset]
    exact dvd_zero _
  · rw [hdesc.nbytes]
    exact hk.fsize _ q hlast

lemma of_set {r : ReqId} {q q' : CopyRequest} (hk : Blocks a) (hq : a.reqs.get? r = some q)
    (hreqs : a'.reqs = a.reqs.set r q') (hsub : a'.log.submitted = a.log.submitted)
    (hbuf : blockSize ∣ q'.buffer) (hsize : blockSize ∣ toUlong q'.fsize) : Blocks a' := by
  have hcases : ∀ s p, a'.reqs.last? s = some p → p = q' ∨ a.reqs.last? s = some p := by
    intro s p hp
    rw [hreqs, AioState.last?_set hq] at hp
    split_ifs at hp
    · exact Or.inl (Option.some.inj hp).symm
    · exact Or.inr hp
  refine ⟨fun s p hp => ?_, fun s p hp => ?_, by rw [hsub]; exact hk.submitted⟩
  · rcases hcases s p hp with rfl | hp
    · exact hbuf
    · exact hk.buffer s p hp
  · rcases hcases s p hp with rfl | hp
    · exact hsize
    · exact hk.fsize s p hp

/-- A step that changes one request, and neither its buffer nor its size. -/
lemma of_set_same {r : ReqId} {q q' : CopyRequest} (hk : Blocks a) (hq : a.reqs.get? r = some q)
    (hreqs : a'.reqs = a.reqs.set r q') (hsub : a'.log.submitted = a.log.submitted)
    (hbuf : q'.buffer = q.buffer) (hsize : q'.fsize = q.fsize) : Blocks a' := by
  have hlast := Heap.last?_of_get? hq
  refine hk.of_set hq hreqs hsub ?_ ?_
  · rw [hbuf]
    exact hk.buffer r q hlast
  · rw [hsize]
    exact hk.fsize r q hlast

lemma startRead (hk : Blocks a) {o : AioState.ReadAnswer} {size : ℤ} {cs : List Iocb} {r : ReqId}
    {curr : CopyRequest} {stSize : ℕ} (hcurr : a.reqs.get? r = some curr) (hposs : o.Possible a)
    (hfd : 0 ≤ o.fd) (hstSize : o.stSize = some stSize) (hact : a.WholeBlocks (.readOne o)) :
    Blocks (a.startRead r curr o.fd stSize o.buf size cs) := by
  obtain ⟨hsize, hbuf⟩ := hact.resolve_left (not_lt.mpr hfd) stSize hstSize
  obtain ⟨-, -, hpage, -⟩ := (hposs.2 stSize hstSize).2.resolve_left hbuf
  exact hk.of_set hcurr rfl rfl ((by decide : blockSize ∣ pageSize).trans hpage)
    (blockSize_dvd_toUlong hsize)

lemma step (hk : Blocks a) (hgood : Good a) (hact : a.WholeBlocks act)
    (hstep : a.step act = some a') : Blocks a' := by
  obtain ⟨xs, ys, b, h, -⟩ := id hgood
  cases hgood.moves hstep with
  | same e =>
    exact ⟨by rw [e.reqs]; exact hk.buffer, by rw [e.reqs]; exact hk.fsize,
      by rw [e.log]; exact hk.submitted⟩
  | reap events =>
    refine ⟨hk.buffer, hk.fsize, ?_⟩
    dsimp only
    rw [Log.submitted_reap]
    exact hk.submitted
  | finishRead e rest q _ hq => exact hk.of_set_same hq rfl rfl rfl rfl
  | finishWrite e rest q =>
    refine ⟨fun s p hp => ?_, fun s p hp => ?_, hk.submitted⟩
    · rw [AioState.finishWrite, Heap.last?_free] at hp
      exact hk.buffer s p hp
    · rw [AioState.finishWrite, Heap.last?_free] at hp
      exact hk.fsize s p hp
  | startRead o size cs r curr stSize _ _ hcurr _ hposs hfd hstSize =>
    exact hk.startRead hcurr hposs hfd hstSize hact
  | submit cs ds taken _ _ _ _ _ log _ reqs =>
    refine ⟨by rw [reqs]; exact hk.buffer, by rw [reqs]; exact hk.fsize, fun c hc => ?_⟩
    rw [log, Log.submitted_submit, List.mem_append, List.mem_reverse] at hc
    rcases hc with hc | hc
    · refine hk.legal_of_mem_refs h ?_
      rw [AioState.refs, taken]
      simp [hc]
    · exact hk.submitted c hc
  | startWrite fd size cs r curr _ _ hcurr => exact hk.of_set_same hcurr rfl rfl rfl rfl
  | complete => exact ⟨hk.buffer, hk.fsize, hk.submitted⟩
  | newRequest srcName dstName =>
    refine ⟨fun s q hq => ?_, fun s q hq => ?_, hk.submitted⟩
    · rcases AioState.last?_newRequest hq with ⟨-, rfl⟩ | hq
      · exact dvd_zero _
      · exact hk.buffer s q hq
    · rcases AioState.last?_newRequest hq with ⟨-, rfl⟩ | hq
      · exact dvd_zero _
      · exact hk.fsize s q hq
  | linkIn r q _ hq => exact hk.of_set_same hq rfl rfl rfl rfl

theorem of_reaches {readBatchSize writeBatchSize : ℤ}
    (h : Reaches AioState.step AioState.WholeBlocks
      (AioState.init readBatchSize writeBatchSize) a) : Blocks a :=
  h.invariant_of (fun _ hr => Good.of_reaches (hr.weaken fun _ _ _ => trivial))
    (fun hgood _ hk hact hstep => hk.step hgood hact hstep) (init _ _)

end Blocks

section

variable {p : Prog} {srcName dstName : CStr} {batchSize : ℤ}

/-- **Every direct transfer is legal** in the runs that read only files of whole blocks. -/
theorem directLegal_of_reaches
    (h : Reaches Prog.step Prog.WholeBlocks (Prog.init srcName dstName batchSize) p) :
    ∀ c, c ∈ p.aio.log.submitted ∨ c ∈ p.aio.pc.taken → DirectLegal c := by
  have hk : Blocks p.aio := Blocks.of_reaches (Prog.manager_reaches (fun _ _ hl => hl)
    (fun a act hact => by cases act <;> simp [Act.ofClient] at hact <;> trivial) h)
  obtain ⟨xs, ys, b, hinv, -⟩ := Prog.good_of_reaches (h.weaken fun _ _ _ => trivial)
  rintro c (hc | hc)
  · exact hk.submitted c hc
  · exact hk.legal_of_mem_refs hinv (AioState.mem_refs_of_taken hc)

/-- A run that reads a file of one block. -/
theorem directLegal_of_reaches_block : ∃ p : Prog,
    Reaches Prog.step Prog.WholeBlocks (Prog.init ['a'] ['b'] 1) p ∧
      p.aio.log.submitted = [⟨0, .pread, 3, 4096, 512, 0, 0⟩] ∧
      ∀ c, c ∈ p.aio.log.submitted ∨ c ∈ p.aio.pc.taken → DirectLegal c := by
  have hrun : (execOk Prog.step Prog.WholeBlocks (Prog.init ['a'] ['b'] 1)
      [.initManager true, .startThread true, .stat (some .reg), .bumpReqCount, .copyReg,
        .addLock true, .addLink, .addUnlock true, .aio .lockFlush, .aio (.getEvents []),
        .aio .checkDone, .aio .lockRequest, .aio .readSize, .aio (.readOne ⟨3, some 512, 4096⟩),
        .aio (.readSubmit 1)]).map (fun p => p.aio.log.submitted) =
        some [⟨0, .pread, 3, 4096, 512, 0, 0⟩] := by
    decide +kernel
  obtain ⟨p, hp, hsub⟩ := Option.map_eq_some_iff.mp hrun
  have hreach := reaches_of_execOk hp
  exact ⟨p, hreach, hsub, directLegal_of_reaches hreach⟩

end

/-- The read of a file of five bytes asks for five bytes. -/
theorem not_directLegal_of_five : ¬ ∀ (srcName dstName : CStr) (batchSize : ℤ) (p : Prog),
    Reaches Prog.step anyLabel (Prog.init srcName dstName batchSize) p →
      ∀ c, c ∈ p.aio.log.submitted ∨ c ∈ p.aio.pc.taken → DirectLegal c := by
  intro hall
  have hrun : (exec Prog.step (Prog.init ['a'] ['b'] 1)
      [.initManager true, .startThread true, .stat (some .reg), .bumpReqCount, .copyReg,
        .addLock true, .addLink, .addUnlock true, .aio .lockFlush, .aio (.getEvents []),
        .aio .checkDone, .aio .lockRequest, .aio .readSize, .aio (.readOne ⟨3, some 5, 4096⟩),
        .aio (.readSubmit 1)]).map (fun p => p.aio.log.submitted) =
        some [⟨0, .pread, 3, 4096, 5, 0, 0⟩] := by
    decide +kernel
  obtain ⟨p, hp, hsub⟩ := Option.map_eq_some_iff.mp hrun
  have hlegal := hall _ _ _ p (reaches_of_exec (fun _ _ => trivial) hp)
    ⟨0, .pread, 3, 4096, 5, 0, 0⟩ (Or.inl (by rw [hsub]; exact List.mem_cons_self))
  exact absurd hlegal.nbytes (by decide)

end Cpr
