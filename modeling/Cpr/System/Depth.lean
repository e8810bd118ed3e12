/-
# The depth of the AIO queue

`aio_loop` bounds neither the reads nor the writes in flight: with `flush` set it submits
all it has.  What bounds them is the number of requests, and `copy_reg` makes one request
for each regular file of the source.
-/
import Cpr.Program.Phase
import Cpr.System.Tree

namespace Cpr

open Transition Unix

/-- The regular files of the source. -/
def Setting.regularFiles (t : Setting) : Finset Loc :=
  t.fs.dom.filter fun l => t.root <:+ l ∧ (t.fs.entry l).map Entry.kind = some .reg

variable {t : Setting} {s : Sys} {d : Places} {rel : Loc}

lemma Setting.mem_regularFiles (h : t.kind rel = some .reg) : rel ++ t.root ∈ t.regularFiles := by
  obtain ⟨e, he, -⟩ := Setting.kind_eq_some.mp h
  refine Finset.mem_filter.mpr ⟨(t.fs.mem_dom _).mpr ?_, List.suffix_append rel t.root, h⟩
  rw [he]
  rfl

/-- The requests are for different places. -/
lemma Tidy.next_le (h : Tidy s d) {fs : Fs} {root : Loc} (hwalk : Walk fs root s d)
    (hready : Walk.Ready fs root s) {files : Finset Loc}
    (hfiles : ∀ rel ∈ d.met, s.srcStat rel = some .reg → rel ++ root ∈ files) :
    s.prog.aio.reqs.next ≤ files.card := by
  obtain ⟨rels, hnd, hreg, hlen⟩ : ∃ rels : List Loc, rels.Nodup ∧
      (∀ rel ∈ rels, rel ++ root ∈ files) ∧ rels.length = s.prog.aio.reqs.next := by
    have hfilter : ∀ rel ∈ d.done.filter (fun rel => s.srcStat rel = some .reg),
        rel ++ root ∈ files := by
      intro rel hrel
      obtain ⟨hdone, hk⟩ := List.mem_filter.mp hrel
      exact hfiles rel (List.mem_append_left _ hdone) (of_decide_eq_true hk)
    have hnd := h.nodup
    have hcount := h.count
    by_cases hreq : s.prog.pc.requested = true
    · -- the request of the first node of the queue is there already
      have hin : s.prog.pc.inBody = true := by
        revert hreq
        cases s.prog.pc <;> simp [MainPc.requested, MainPc.inBody]
      obtain ⟨rel, todo, hd⟩ := hwalk.exists_head_of_inBody hready hin
      have hhead : rel ∈ d.todo.head? := by rw [hd]; rfl
      have hpc : s.prog.pc.kind = some .reg := by
        revert hreq
        cases s.prog.pc <;> simp [MainPc.requested, MainPc.kind]
      have hrel := hfiles rel (Places.mem_met_of_head hhead) (hwalk.srcStat_head hpc hhead)
      rw [hd, Places.met, List.nodup_append] at hnd
      refine ⟨rel :: d.done.filter (fun rel => s.srcStat rel = some .reg), ?_, fun r hr => ?_, ?_⟩
      · refine List.nodup_cons.mpr ⟨fun hmem => ?_, hnd.1.filter _⟩
        exact hnd.2.2 rel (List.mem_filter.mp hmem).1 rel List.mem_cons_self rfl
      · rcases List.mem_cons.mp hr with rfl | hr
        · exact hrel
        · exact hfilter r hr
      · rw [hcount, if_pos hreq]
        rfl
    · rw [if_neg hreq] at hcount
      exact ⟨_, (List.nodup_append.mp hnd).1.filter _, hfilter, hcount.symm⟩
  rw [← hlen, ← List.toFinset_card_of_nodup hnd]
  exact Finset.card_le_card_of_injOn (· ++ root)
    (fun rel hrel => hreg rel (List.mem_toFinset.mp hrel))
    fun rel _ rel' _ heq => List.append_cancel_right heq

/-- The requests are for different regular files. -/
lemma Copying.next_le (h : Copying t s d) (hr : t.Run s) :
    s.prog.aio.reqs.next ≤ t.regularFiles.card := by
  refine h.tidy.next_le h.walk hr.ready fun rel hrel hk => Setting.mem_regularFiles ?_
  rwa [hr.srcStat_eq (h.tree.real rel hrel)] at hk

/-- Only `copy_reg` makes a request. -/
lemma Prog.next_of_ne {p p' : Prog} {l : Label} (hgood : Good p.aio) (hstep : p.step l = some p')
    (hl : l ≠ .copyReg) : p'.aio.reqs.next = p.aio.reqs.next := by
  obtain ⟨hended, hfires⟩ := fires_of_step hstep
  cases hfires with
  | aio act a ha => exact (aioFrame_of_aioStep hended ha).next
  | copyReg => exact absurd rfl hl
  | addLink r _ hr =>
    obtain ⟨q, -, hlink⟩ := hgood.addCopyReq_eq hr
    rw [hlink]
    rfl
  | _ => rfl

/-- A step that makes a request does not end the process. -/
lemma Prog.next_or_ended {p p' : Prog} {l : Label} (hgood : Good p.aio)
    (hstep : p.step l = some p') :
    p'.aio.reqs.next = p.aio.reqs.next ∨ p'.aio.ended = p.aio.ended := by
  by_cases hl : l = .copyReg
  · subst hl
    obtain ⟨-, hfires⟩ := fires_of_step hstep
    cases hfires with
    | fail _ _ hfails => cases hfails
    | copyReg => exact Or.inr rfl
  · exact Or.inl (Prog.next_of_ne hgood hstep hl)

section

variable {ok : Sys → Label → Prop} {batchSize : ℤ}

/-- A bound on the requests that holds as long as the walk is not broken off holds afterwards. -/
lemma Sys.next_le_of_live {s₀ : Sys} {N : ℕ}
    (hgood : ∀ u, Reaches Sys.step ok s₀ u → Good u.prog.aio) (hinit : s₀.prog.aio.reqs.next ≤ N)
    (hlive : ∀ u, Reaches Sys.step ok s₀ u →
      u.prog.aio.ended = none ∨ u.prog.aio.ended = some (.exited 0) → u.prog.aio.reqs.next ≤ N)
    (h : Reaches Sys.step ok s₀ s) : s.prog.aio.reqs.next ≤ N := by
  refine h.invariant_of (J := fun s => Reaches Sys.step ok s₀ s)
    (I := fun s => s.prog.aio.reqs.next ≤ N) (fun _ hr => hr)
    (fun {s l s'} hs hs' hle _ hstep => ?_) hinit
  by_cases hended : s'.prog.aio.ended = none ∨ s'.prog.aio.ended = some (.exited 0)
  · exact hlive s' hs' hended
  · rcases Prog.next_or_ended (hgood s hs) (Sys.prog_step hstep) with heq | heq
    · exact heq ▸ hle
    · exact absurd (Or.inl (heq.trans (Sys.fires_of_step hstep).1)) hended

/-- **`copy_reg` is called at most once for each regular file of the source.** -/
theorem Setting.next_le_of_reaches (h : Reaches Sys.step ok (t.init batchSize) s) :
    s.prog.aio.reqs.next ≤ t.regularFiles.card := by
  refine Sys.next_le_of_live (fun u hu => (Setting.Run.of_reaches hu).ready.good) (Nat.zero_le _)
    (fun u hu hended => ?_) h
  obtain ⟨d, hd⟩ := Copying.of_reaches hu hended
  exact hd.next_le (.of_reaches hu)

lemma Good.accepted_le {a : AioState} (hgood : Good a) : a.log.accepted.length ≤ a.reqs.next := by
  obtain ⟨xs, ys, b, h, -⟩ := hgood
  have hsub : a.log.accepted ⊆ List.range a.reqs.next := fun r hr =>
    List.mem_range.mpr (h.acceptedLt r hr)
  simpa using (h.acceptedNodup.subperm hsub).length_le

/-- Every operation in flight, or about to be submitted, is that of an accepted request. -/
lemma Good.flight_le {a : AioState} (hgood : Good a) :
    a.flight.length + a.pc.taken.length ≤ a.log.accepted.length := by
  obtain ⟨xs, ys, b, hinv, -⟩ := hgood
  have hlen := hinv.lengths
  have hrefs := Inv.length_reqsOf a.refs
  simp only [AioState.running] at hlen
  simp only [AioState.refs, List.length_append, List.length_map] at hlen hrefs
  omega

end

/-! ## A deep queue -/

/-- With a batch size of 1, `k` of the files are in flight, all of them in reads, and nothing
is in a list. -/
structure Piled (n k : ℕ) (s : Sys) : Prop where
  pc : s.prog.pc = .walk
  queue : s.prog.queue = (flat.nodes n).drop k
  fs : s.world.fs = flat.withTarget n
  cwd : s.world.cwd = []
  depth : s.prog.aio.flight.length = k
  readHead : s.prog.aio.mgr.readHead = none
  readLen : s.prog.aio.mgr.readLen = 0
  writeLen : s.prog.aio.mgr.writeLen = 0
  flush : s.prog.aio.mgr.flush = false
  readBatch : s.prog.aio.mgr.readBatchSize = 1
  writeBatch : s.prog.aio.mgr.writeBatchSize = 1
  requestMutex : s.prog.aio.mgr.requestMutex = none
  flushMutex : s.prog.aio.mgr.flushMutex = none
  aio : s.prog.aio.pc = .lockFlush
  ended : s.prog.aio.ended = none
  fds : ∀ fd ∈ s.prog.aio.openFds, fd < k + 3
  maps : ∀ m ∈ s.prog.aio.maps, m.1 + pageRound m.2 ≤ pageSize * (k + 1)

namespace Piled

variable {n k : ℕ} {s : Sys}

lemma of_listed (n : ℕ) : Piled n 0 (flat.listed n 1) where
  pc := rfl
  queue := rfl
  fs := rfl
  cwd := rfl
  depth := rfl
  readHead := rfl
  readLen := rfl
  writeLen := rfl
  flush := rfl
  readBatch := rfl
  writeBatch := rfl
  requestMutex := rfl
  flushMutex := rfl
  aio := rfl
  ended := rfl
  fds fd hfd := by simp [flat.listed, flat.opened, AioState.init] at hfd
  maps m hm := by simp [flat.listed, flat.opened, AioState.init] at hm

/-- One more file: the main thread makes its request, and `aio_loop` submits it at once.  Only
`req_count` counts it. -/
lemma step (h : Piled n k s) (hk : k < n) (hmap : pageSize * (k + 2) ≤ addressLimit) :
    ∃ s', Reaches Sys.step anyLabel s s' ∧ Piled n (k + 1) s' ∧
      s'.prog.aio.reqCount = toInt32 (s.prog.aio.reqCount + 1) ∧
      s'.prog.aio.mgr.finishedCount = s.prog.aio.mgr.finishedCount := by
  have hlt : k < (flat.nodes n).length := by simpa [flat.nodes] using hk
  have hqueue := h.queue.trans (List.drop_eq_getElem_cons hlt)
  have hmem : (flat.nodes n)[k] ∈ flat.nodes n := List.getElem_mem hlt
  generalize (flat.nodes n)[k] = curr at hqueue hmem
  obtain ⟨l, hopen, hcontent⟩ := flat.openRead_node hmem
  have hfile := Sys.reaches_file (fun _ => []) h.pc hqueue h.ended h.requestMutex
    (by rw [h.fs, h.cwd]; exact flat.stat_node hmem)
  -- the answers of the system for the file number `k`: descriptor `k + 3`, page `k + 1`
  obtain ⟨buf, hbuf⟩ : ∃ buf, buf = pageSize * (k + 1) := ⟨_, rfl⟩
  have hbuf0 : buf ≠ 0 := by rw [hbuf]; simp [pageSize]
  have hbufFailed : buf ≠ mapFailed := by
    simp only [pageSize, addressLimit, mapFailed] at hbuf hmap ⊢
    omega
  have hposs : ∀ a : AioState, a.openFds = s.prog.aio.openFds → a.maps = s.prog.aio.maps →
      AioState.ReadAnswer.Possible a ⟨k + 3, some 1, buf⟩ := by
    intro a hfds hmaps
    refine ⟨fun _ hmem => ?_, fun m hm => ?_⟩
    · have hlt := h.fds _ (hfds ▸ hmem)
      dsimp only at hlt
      omega
    · obtain rfl := Option.mem_some_iff.mp hm
      refine ⟨by decide, Or.inr ⟨by decide, Nat.pos_of_ne_zero hbuf0, ?_, ?_,
        fun m hm => Or.inr ?_⟩⟩
      · exact hbuf ▸ Nat.dvd_mul_right _ _
      · have hone : toUlong (toInt32 (1 : ℕ)) = 1 := by decide
        simp only [pageSize, addressLimit, hone] at hbuf hmap ⊢
        omega
      · exact hbuf ▸ h.maps m (hmaps ▸ hm)
  have hget : ∀ q q' : CopyRequest, ((s.prog.aio.reqs.alloc q).set s.prog.aio.reqs.next q').get?
      s.prog.aio.reqs.next = some q' := fun _ _ => Heap.get?_set_self Heap.get?_alloc_self
  have hone : toInt32 1 = 1 := by decide
  have hnonneg : ¬ (k : ℤ) + 3 < 0 := by omega
  -- one turn of `aio_loop`: the list is as long as the batch, so the read is submitted
  have hrun : ∃ s', exec Sys.step
      ⟨{ s.prog with aio := s.prog.aio.receive curr, queue := (flat.nodes n).drop (k + 1) },
        s.world⟩
      [.aio .lockFlush, .aio (.getEvents []), .aio .checkDone, .aio .lockRequest, .aio .readSize,
        .aio (.readOne ⟨k + 3, some 1, buf⟩), .aio (.readSubmit 1),
        .aio .unlockRequest, .aio .writeSize, .aio .unlockFlush] = some s' ∧ Piled n (k + 1) s' ∧
      s'.prog.aio.reqCount = toInt32 (s.prog.aio.reqCount + 1) ∧
      s'.prog.aio.mgr.finishedCount = s.prog.aio.mgr.finishedCount := by
    rw [AioState.receive_eq]
    simp [Sys.step, Prog.step, Prog.aioStep, AioState.loopStep, AioState.lockFlush,
      AioState.getEvents, AioState.checkDone, AioState.stopTest, AioState.lockRequest,
      AioState.readSize, AioState.chooseReadSize, AioState.readOne, AioState.startRead,
      AioState.submit, AioState.accepted, AioState.unlockRequest, AioState.writeSize,
      AioState.chooseWriteSize, AioState.unlockFlush, World.after, World.afterAio, World.openSrc,
      h.flush, h.ended, h.aio, h.readHead, h.readLen, h.writeLen, h.readBatch, h.writeBatch,
      h.flushMutex, h.fs, h.cwd, hopen, hcontent, hget, hposs, hone, hbuf0, hbufFailed, hnonneg]
    refine ⟨h.pc, rfl, h.fs, h.cwd, ?_, rfl, rfl, rfl, rfl, rfl, rfl, rfl, rfl, rfl, rfl,
      fun fd hfd => ?_, fun m hm => ?_⟩
    · simp [h.depth]
    · rcases Finset.mem_insert.mp hfd with rfl | hfd
      · push_cast
        omega
      · have hlt := h.fds fd hfd
        push_cast
        omega
    · rcases List.mem_cons.mp hm with rfl | hm
      · have hround : pageRound (toUlong 1) = pageSize := by decide
        rw [hround, hbuf]
        exact (Nat.mul_succ pageSize (k + 1)).ge
      · exact (h.maps m hm).trans (Nat.mul_le_mul_left pageSize (by omega))
  obtain ⟨s', hs', hafter⟩ := hrun
  exact ⟨s', (hfile.weaken fun _ _ _ => trivial).trans (reaches_of_exec (fun _ _ => trivial) hs'),
    hafter⟩

lemma reaches {n : ℕ} (hmap : pageSize * (n + 1) ≤ addressLimit) (k : ℕ) (hk : k ≤ n) :
    ∃ s, Reaches Sys.step anyLabel ((flatTask n).init 1) s ∧ Piled n k s := by
  induction k with
  | zero => exact ⟨_, (flat.reaches_listed n 1).weaken fun _ _ _ => trivial, of_listed n⟩
  | succ k ih =>
    obtain ⟨s, hs, h⟩ := ih (by omega)
    obtain ⟨s', hs', h', -⟩ := h.step hk
      ((Nat.mul_le_mul_left pageSize (by omega)).trans hmap)
    exact ⟨s', hs.trans hs', h'⟩

end Piled

end Cpr
