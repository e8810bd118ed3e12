/-
# Which direct transfers are legal

A transfer asks for the buffer and the size of its request, and the size is that of the file
when it was opened, as an `int`.  So whether the device accepts the transfer depends on the
file alone, except where `mmap` failed: the source is never changed.
-/
import Cpr.Program.Direct
import Cpr.System.Data

namespace Cpr

open Transition Unix

/-- The request transfers the file of a place. -/
structure Measured (t : Setting) (s : Sys) (q : CopyRequest) (rel : Loc) : Prop where
  reg : t.kind rel = some .reg
  names : q.For (s.prog.argv.below rel)
  fsize : q.fsize = toInt32 (t.content rel).length
  buffer : q.buffer = mapFailed ∨ blockSize ∣ q.buffer

/-- The control block asks for the file of a place. -/
structure AsksFor (t : Setting) (s : Sys) (c : Iocb) (rel : Loc) : Prop where
  reg : t.kind rel = some .reg
  request : ∃ q, s.prog.aio.reqs.last? c.data = some q ∧ q.For (s.prog.argv.below rel)
  offset : c.offset = 0
  nbytes : c.nbytes = toUlong (toInt32 (t.content rel).length)
  buf : c.buf = mapFailed ∨ blockSize ∣ c.buf

/-- What the requests have, and what was submitted. -/
structure Transferring (t : Setting) (s : Sys) : Prop where
  requests : ∀ r q, s.prog.aio.reqs.last? r = some q → q.state ≠ 0 → ∃ rel, Measured t s q rel
  submitted : ∀ c ∈ s.prog.aio.log.submitted, ∃ rel, AsksFor t s c rel

section

variable {t : Setting} {s s' : Sys} {d : Places} {l : Label} {rel : Loc} {r : ReqId}
  {q q' : CopyRequest} {c : Iocb} {ok : Sys → Label → Prop} {batchSize : ℤ}

lemma not_blockSize_dvd_mapFailed : ¬ blockSize ∣ mapFailed := by decide

lemma blockSize_dvd_pageSize : blockSize ∣ pageSize := by decide

lemma blockSize_dvd_toUlong_iff {n : ℕ} : blockSize ∣ toUlong (toInt32 n) ↔ blockSize ∣ n := by
  unfold blockSize toUlong toInt32
  omega

/-- A size goes through an `int`, but its remainder does not change. -/
lemma AsksFor.directLegal_iff (h : AsksFor t s c rel) :
    DirectLegal c ↔ blockSize ∣ (t.content rel).length ∧ c.buf ≠ mapFailed := by
  constructor
  · rintro ⟨hbuf, -, hnbytes⟩
    rw [h.nbytes, blockSize_dvd_toUlong_iff] at hnbytes
    exact ⟨hnbytes, fun heq => not_blockSize_dvd_mapFailed (heq ▸ hbuf)⟩
  · rintro ⟨hlen, hbuf⟩
    refine ⟨h.buf.resolve_left hbuf, by rw [h.offset]; exact dvd_zero _, ?_⟩
    rw [h.nbytes, blockSize_dvd_toUlong_iff]
    exact hlen

lemma AsksFor.mono (h : AsksFor t s c rel) (g : Sys.Grows s s') : AsksFor t s' c rel where
  reg := h.reg
  request := by
    obtain ⟨q, hq, hfor⟩ := h.request
    obtain ⟨q', hq', names⟩ := g.persist _ q hq
    exact ⟨q', hq', g.argv ▸ names.for hfor⟩
  offset := h.offset
  nbytes := h.nbytes
  buf := h.buf

lemma Measured.mono (h : Measured t s q rel) (hargv : s'.prog.argv = s.prog.argv)
    (names : SameNames q q') (transfer : SameTransfer q q') : Measured t s' q' rel where
  reg := h.reg
  names := hargv ▸ names.for h.names
  fsize := transfer.fsize.trans h.fsize
  buffer := by rw [transfer.buffer]; exact h.buffer

/-- What is prepared asks for the file of its request. -/
lemma Transferring.asksFor (h : Transferring t s) (hgood : Good s.prog.aio)
    (hc : c ∈ s.prog.aio.refs) : ∃ rel, AsksFor t s c rel := by
  obtain ⟨xs, ys, b, hinv, -⟩ := hgood
  obtain ⟨q, hq, -, hdesc⟩ := hinv.refRec c hc
  have hlast := Heap.last?_of_get? hq
  have hst : q.state ≠ 0 := by
    rw [hdesc.state]
    cases c.opcode <;> simp
  obtain ⟨rel, hrel⟩ := h.requests c.data q hlast hst
  refine ⟨rel, hrel.reg, ⟨q, hlast, hrel.names⟩, hdesc.offset, ?_, ?_⟩
  · rw [hdesc.nbytes, hrel.fsize]
  · rw [hdesc.buf]
    exact hrel.buffer

/-- The size that `fstat` reports is that of a file of the source. -/
lemma Copying.stSize_eq (hcopy : Copying t s d) (hr : t.Run s) {o : AioState.ReadAnswer} {n : ℕ}
    {w' : World} (hperm : World.Permits s.world s.prog (.aio (.readOne o)) w') (hfd : 0 ≤ o.fd)
    (hhead : s.prog.aio.mgr.readHead = some r) (hq : s.prog.aio.reqs.get? r = some q)
    (hn : o.stSize = some n) :
    ∃ rel, t.kind rel = some .reg ∧ q.For (s.prog.argv.below rel) ∧
      n = (t.content rel).length := by
  obtain ⟨rel, hfor, hnames⟩ := hcopy.tree.toFiles.of_get? hq
  have hbind : s.prog.aio.mgr.readHead.bind s.prog.aio.reqs.get? = some q := by rwa [hhead]
  refine ⟨rel, hfor.reg, hnames, ?_⟩
  cases hperm with
  | openSrc _ q₂ loc _ hhead₂ hopen hsize =>
    obtain rfl := Option.some.inj (hbind.symm.trans hhead₂)
    rw [hnames.srcName] at hopen
    obtain rfl := hr.openRead_eq (by simp [hfor.reg]) hopen
    rw [hsize n hn, Fs.content, hcopy.tree.source]
    rfl
  | noSrc _ hfail =>
    rw [hbind] at hfail
    exact absurd hfail (by simp; omega)
  | other _ _ _ _ _ _ hread => exact absurd rfl (hread _)

/-- What a step submits was prepared before. -/
lemma Good.submitted_cases {a a' : AioState} {act : Act} (hgood : Good a)
    (hstep : a.step act = some a') (hc : c ∈ a'.log.submitted) :
    c ∈ a.log.submitted ∨ c ∈ a.refs := by
  cases hgood.moves hstep with
  | same e => exact Or.inl (e.log ▸ hc)
  | reap => exact Or.inl (by simpa [Log.submitted_reap] using hc)
  | submit cs ds taken _ _ _ _ _ log =>
    rw [log, Log.submitted_submit, List.mem_append, List.mem_reverse] at hc
    refine hc.symm.imp_right fun hc => AioState.mem_refs_of_taken ?_
    rw [taken]
    exact List.mem_append_left _ hc
  | _ => exact Or.inl hc

namespace Transferring

lemma init (batchSize : ℤ) : Transferring t (t.init batchSize) := by
  refine ⟨fun r q hq => ?_, by simp [Setting.init, Sys.init, Prog.init, AioState.init]⟩
  have hnone : (t.init batchSize).prog.aio.reqs.last? r = none :=
    Heap.last?_eq_none_of_le (Nat.zero_le r)
  simp [hnone] at hq

lemma step (h : Transferring t s) (hcopy : Copying t s d) (hr : t.Run s)
    (hstep : s.step l = some s') : Transferring t s' := by
  have hgood := hr.ready.good
  have g := Sys.grows_of_step hgood hstep
  obtain ⟨-, hfires, hperm⟩ := Sys.fires_of_step hstep
  have hargv := Prog.argv_of_fires hfires
  rcases Prog.manager_step hr.locks (Sys.prog_step hstep) with heq | ⟨act, ha, hact⟩
  · refine ⟨fun r q hq hst => ?_, fun c hc => ?_⟩
    · obtain ⟨rel, hrel⟩ := h.requests r q (heq ▸ hq) hst
      exact ⟨rel, hrel.mono hargv (.refl q) ⟨rfl, rfl⟩⟩
    · obtain ⟨rel, hrel⟩ := h.submitted c (heq ▸ hc)
      exact ⟨rel, hrel.mono g⟩
  · refine ⟨fun r q' hq' hst' => ?_, fun c hc => ?_⟩
    · cases hgood.descends ha hq' with
      | fresh _ _ hst => exact absurd hst hst'
      | old q hq names transfer hst =>
        obtain ⟨rel, hrel⟩ := h.requests r q hq (hst ▸ hst')
        exact ⟨rel, hrel.mono hargv names transfer⟩
      | read q o n hq names hact' hfd hhead hn hfsize hbuffer =>
        subst hact'
        rcases hact with hclient | rfl
        · simp [Act.ofClient] at hclient
        · have hposs : o.Possible s.prog.aio := by
            generalize s'.prog.aio = a' at ha
            cases (AioState.fires_of_step ha).2 with
            | readOne _ _ _ _ _ hposs => exact hposs
          obtain ⟨rel, hreg, hfor, rfl⟩ := hcopy.stSize_eq hr hperm hfd hhead hq hn
          refine ⟨rel, hreg, hargv ▸ names.for hfor, hfsize, ?_⟩
          rw [hbuffer]
          rcases (hposs.2 _ hn).2 with hnull | ⟨-, -, hpage, -⟩
          · exact Or.inl hnull
          · exact Or.inr (blockSize_dvd_pageSize.trans hpage)
      | opened q fd hq names transfer _ _ _ hst =>
        obtain ⟨rel, hrel⟩ := h.requests r q (Heap.last?_of_get? hq) (by omega)
        exact ⟨rel, hrel.mono hargv names transfer⟩
    · rcases hgood.submitted_cases ha hc with hold | hnew
      · obtain ⟨rel, hrel⟩ := h.submitted c hold
        exact ⟨rel, hrel.mono g⟩
      · obtain ⟨rel, hrel⟩ := h.asksFor hgood hnew
        exact ⟨rel, hrel.mono g⟩

theorem of_reaches (h : Reaches Sys.step ok (t.init batchSize) s) : Transferring t s := by
  refine h.invariant_of (J := fun s => Reaches Sys.step ok (t.init batchSize) s)
    (fun _ hr => hr) (fun {s l s'} hs _ ht _ hstep => ?_) (init batchSize)
  obtain ⟨d, hcopy⟩ := Copying.of_reaches hs (Or.inl (Sys.fires_of_step hstep).1)
  exact ht.step hcopy (.of_reaches hs) hstep

end Transferring

/-- **A direct transfer is legal if and only if its file has whole blocks** and its buffer is
there, whatever the kernel answers and in every schedule. -/
theorem directLegal_iff_of_submitted (h : Reaches Sys.step anyLabel (t.init batchSize) s)
    (hc : c ∈ s.prog.aio.log.submitted) :
    ∃ rel q, t.kind rel = some .reg ∧ s.prog.aio.reqs.last? c.data = some q ∧
      q.For (s.prog.argv.below rel) ∧
      (DirectLegal c ↔ blockSize ∣ (t.content rel).length ∧ c.buf ≠ mapFailed) := by
  obtain ⟨rel, hrel⟩ := (Transferring.of_reaches h).submitted c hc
  obtain ⟨q, hq, hfor⟩ := hrel.request
  exact ⟨rel, q, hrel.reg, hq, hfor, hrel.directLegal_iff⟩

/-- Where all files have whole blocks, and none is empty, no other size is reported. -/
lemma Copying.wholeBlocks
    (hblocks : ∀ rel, t.kind rel = some .reg → blockSize ∣ (t.content rel).length ∧
      t.content rel ≠ []) (hcopy : Copying t s d) (hr : t.Run s) {act : Act}
    (hstep : s.step (.aio act) = some s') (hok : s.prog.aio.Faultless act) :
    s.prog.aio.WholeBlocks act := by
  obtain ⟨-, -, hperm⟩ := Sys.fires_of_step hstep
  have hact := (Prog.aio_step (Sys.prog_step hstep)).1
  cases act with
  | readOne o =>
    refine Or.inr fun n hn => ?_
    generalize s'.prog.aio = a' at hact
    obtain ⟨hended, hfires⟩ := AioState.fires_of_step hact
    cases hfires with
    | readOne _ size iocbs hpc hlt =>
      obtain ⟨xs, ys, b, hinv, hloop⟩ := hr.ready.good
      obtain ⟨r, tl, q, -, hhead, hq, -⟩ := Good.readHead hinv hloop hpc hended hlt
      obtain ⟨rel, hreg, -, rfl⟩ := hcopy.stSize_eq hr hperm hok.1 hhead hq hn
      obtain ⟨hdvd, hne⟩ := hblocks rel hreg
      refine ⟨hdvd, hok.2.2.resolve_left fun hzero => hne ?_⟩
      exact List.length_eq_zero_iff.mp (Option.some.inj (hn.symm.trans hzero))
  | _ => trivial

/-- **Files of whole blocks are transferred legally**, when no call of `aio_loop` fails. -/
theorem blocks_of_reaches
    (hblocks : ∀ rel, t.kind rel = some .reg → blockSize ∣ (t.content rel).length ∧
      t.content rel ≠ []) (hok : ∀ s l, ok s l → s.AioFaultless l)
    (h : Reaches Sys.step ok (t.init batchSize) s) : Blocks s.prog.aio := by
  refine h.invariant_of (J := fun s => Reaches Sys.step ok (t.init batchSize) s)
    (I := fun s => Blocks s.prog.aio) (fun _ hr => hr) (fun {s l s'} hs _ hk hl hstep => ?_)
    (Blocks.init _ _)
  have hr : t.Run s := .of_reaches hs
  obtain ⟨d, hcopy⟩ := Copying.of_reaches hs (Or.inl (Sys.fires_of_step hstep).1)
  rcases Prog.manager_step hr.locks (Sys.prog_step hstep) with heq | ⟨act, ha, hact⟩
  · rwa [heq]
  · refine hk.step hr.ready.good ?_ ha
    rcases hact with hclient | rfl
    · cases act <;> simp [Act.ofClient] at hclient <;> trivial
    · exact hcopy.wholeBlocks hblocks hr hstep (hok s _ hl)

end

/-- The read of a file of three bytes is not legal. -/
theorem directLegal_iff_of_submitted_oneFile : ∃ (s : Sys) (c : Iocb) (rel : Loc),
    Reaches Sys.step anyLabel (oneFileTask.init 1) s ∧ s.prog.aio.log.submitted = [c] ∧
      (DirectLegal c ↔ blockSize ∣ (oneFileTask.content rel).length ∧ c.buf ≠ mapFailed) := by
  have hrun : (exec Sys.step (oneFileTask.init 1) (oneFileWalk ++
      [.aio .lockFlush, .aio (.getEvents []), .aio .checkDone, .aio .lockRequest,
        .aio .readSize, .aio (.readOne ⟨3, some 3, 4096⟩), .aio (.readSubmit 1)])).map
      (fun s => s.prog.aio.log.submitted) = some [⟨0, .pread, 3, 4096, 3, 0, 0⟩] := by
    decide +kernel
  obtain ⟨s, hs, hsub⟩ := Option.map_eq_some_iff.mp hrun
  have hreach : Reaches Sys.step anyLabel (oneFileTask.init 1) s :=
    reaches_of_exec (fun _ _ => trivial) hs
  obtain ⟨rel, -, -, -, -, hlegal⟩ := directLegal_iff_of_submitted hreach
    (hsub ▸ List.mem_singleton_self _)
  exact ⟨s, _, rel, hreach, hsub, hlegal⟩

end Cpr
