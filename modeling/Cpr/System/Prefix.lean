/-
# Whatever fails, nothing wrong is written

Short transfers and failing calls end the process in the middle of the copy.  But a write is
submitted only after the read of its request was reported as complete, so that the buffer has
the bytes of the source by then: at any time, in any run, a file below the destination holds a
prefix of the file that it is the copy of.
-/
import Cpr.System.Refinement

namespace Cpr

open Transition Unix

/-- The kernel moves no bytes from or to `MAP_FAILED`, which is no mapping. -/
def Sys.Guarded (_ : Sys) : Label → Prop
  | .aio (.complete c res) => c.buf = mapFailed → World.moved c res = 0
  | _ => True

instance Sys.decidableGuarded (s : Sys) (l : Label) : Decidable (s.Guarded l) := by
  induction l using Label.casesOn with
  | aio act =>
    induction act using Act.casesOn <;> (unfold Sys.Guarded; infer_instance)
  | _ => unfold Sys.Guarded; infer_instance

/-! ### Complete reads -/

/-- The kernel has reported a read of the request as complete. -/
def AioState.ReadFull (a : AioState) (r : ReqId) : Prop :=
  ∃ c, (⟨c, some c.nbytes⟩ ∈ a.flight ∨ .reaped c c.nbytes ∈ a.log) ∧ c.opcode = .pread ∧
    c.data = r

section

variable {a a' : AioState} {act : Act} {r : ReqId} {q : CopyRequest} {xs ys : List ReqId}
  {b : Belt Stage ReqId}

/-- A read is complete when the kernel says so. -/
lemma AioState.ReadFull.of_step (h : a'.ReadFull r) (hgood : Good a) (hstep : a.step act = some a')
    (hact : ∀ c n, act ≠ .complete c n) : a.ReadFull r := by
  obtain ⟨c, hc, hop, hdata⟩ := h
  refine ⟨c, ?_, hop, hdata⟩
  cases hgood.moves hstep with
  | same e => rwa [e.flight, e.log] at hc
  | reap events hpc hsub =>
    rcases hc with hc | hc
    · exact Or.inl (List.diff_subset _ _ hc)
    · rcases List.mem_append.mp hc with hc | hc
      · obtain ⟨e, he, heq⟩ := List.mem_map.mp (List.mem_reverse.mp hc)
        obtain ⟨hobj, hres⟩ := Obs.reaped.inj heq
        have hmem := hsub.subset (List.mem_map_of_mem he)
        rw [IoEvent.op, hobj, hres] at hmem
        exact Or.inl hmem
      · exact Or.inr hc
  | submit cs ds _ _ _ _ _ flight log =>
    rw [flight, log] at hc
    rcases hc with hc | hc
    · rcases List.mem_append.mp hc with hc | hc
      · obtain ⟨d, -, heq⟩ := List.mem_map.mp hc
        simp [Op.pending] at heq
      · exact Or.inl hc
    · rcases List.mem_append.mp hc with hc | hc
      · simp at hc
      · exact Or.inr hc
  | finishWrite | linkIn =>
    exact hc.imp_right fun hc => (List.mem_cons.mp hc).resolve_left (by simp)
  | complete c n => exact absurd rfl (hact c n)
  | _ => exact hc

/-- The completion of an operation may complete one read. -/
lemma AioState.ReadFull.of_complete {c : Iocb} {n : ℕ}
    (h : AioState.ReadFull
      { a with flight := ⟨c, some n⟩ :: a.flight.erase (.pending c) } r) :
    a.ReadFull r ∨ (c.data = r ∧ c.opcode = .pread ∧ n = c.nbytes) := by
  obtain ⟨c', hc | hc, hop, hdata⟩ := h
  · rcases List.mem_cons.mp hc with heq | hc
    · obtain ⟨rfl, hn⟩ := Op.mk.inj heq
      exact Or.inr ⟨hdata, hop, (Option.some.inj hn).symm⟩
    · exact Or.inl ⟨c', Or.inl (List.mem_of_mem_erase hc), hop, hdata⟩
  · exact Or.inl ⟨c', Or.inr hc, hop, hdata⟩

/-- A read that is awaited is not complete: there is one read of a request. -/
lemma Inv.not_readFull (h : Inv a xs ys b) (hw : a.Awaits .pread r) : ¬ a.ReadFull r := by
  have hnd := h.nodup_arrived Opcode.pread.stage
  rw [h.reaped, Multiset.coe_add, Multiset.coe_add, Multiset.coe_nodup] at hnd
  obtain ⟨hnd, hflight, hdisj⟩ := List.nodup_append.mp hnd
  obtain ⟨-, -, hdisj'⟩ := List.nodup_append.mp hnd
  obtain ⟨d, hd, hdop, rfl⟩ := hw
  rintro ⟨c, hc, hop, hdata⟩
  have hreaped : .reaped c c.nbytes ∈ a.log → d.data ∈ reqsOf .pread (Log.reaped a.log) :=
    fun hlog => mem_reqsOf.mpr ⟨c, List.mem_filterMap.mpr ⟨_, hlog, rfl⟩, hop, hdata⟩
  have hfull : ⟨c, some c.nbytes⟩ ∈ a.flight → d.data ∈ a.inFlight .pread := fun hmem =>
    mem_reqsOf.mpr ⟨c, List.mem_map_of_mem hmem, hop, hdata⟩
  rcases hd with hd | hd
  · have htaken : d.data ∈ a.taken .pread := mem_reqsOf.mpr ⟨d, hd, hdop, rfl⟩
    rcases hc with hc | hc
    · exact hdisj _ (List.mem_append_right _ htaken) _ (hfull hc) rfl
    · exact hdisj' _ (hreaped hc) _ htaken rfl
  · have hpending : d.data ∈ a.inFlight .pread :=
      mem_reqsOf.mpr ⟨d, List.mem_map_of_mem hd, hdop, rfl⟩
    rcases hc with hc | hc
    · have hinj := List.inj_on_of_nodup_map (f := fun op : Op => op.obj.data)
        (l := a.flight.filter fun op => op.obj.opcode = .pread) (by
          rw [AioState.inFlight, reqsOf, List.filter_map, List.map_map] at hflight
          exact hflight)
      have heq := hinj (List.mem_filter.mpr ⟨hd, decide_eq_true hdop⟩)
        (List.mem_filter.mpr ⟨hc, decide_eq_true hop⟩) hdata.symm
      simp [Op.pending] at heq
    · exact hdisj _ (List.mem_append_left _ (hreaped hc)) _ hpending rfl

/-- The history of a request that is written has a complete read. -/
lemma ReadDone.readFull (h : ReadDone a.log r q) : a.ReadFull r := by
  obtain ⟨c, hc, hop, hdata, -, hnbytes⟩ := h
  rw [← hnbytes] at hc
  exact ⟨c, Or.inr hc, hop, hdata⟩

end

/-! ### Bytes -/

/-- A prefix is written over a prefix. -/
lemma World.overwrite_prefix {old new bytes : List UInt8} (hold : old <+: bytes)
    (hnew : new <+: bytes) : overwrite old 0 new <+: bytes := by
  rw [overwrite_zero]
  rcases le_total old.length new.length with hle | hle
  · rwa [List.drop_eq_nil_of_le hle, List.append_nil]
  · obtain ⟨rest, rfl⟩ := List.prefix_of_prefix_length_le hnew hold hle
    rwa [List.drop_left]

/-- How far the transfer of a request for a place got, whatever failed. -/
structure Tracked (t : Setting) (s : Sys) (r : ReqId) (q : CopyRequest) (rel : Loc) : Prop where
  reg : t.kind rel = some .reg
  names : q.For (s.prog.argv.below rel)
  fsize : q.fsize = toInt32 (t.content rel).length
  mapped : q.buffer ≠ mapFailed → 0 ≤ q.fsize
  loaded : q.buffer ≠ mapFailed → s.prog.aio.ReadFull r →
    s.world.mem.load q.buffer (t.transferred rel).length = t.transferred rel

/-- The buffers of complete reads have the bytes of the source, and the files below the
destination have some of them. -/
structure Prefixes (t : Setting) (s : Sys) : Prop where
  requests : ∀ r q, s.prog.aio.reqs.last? r = some q → q.state ≠ 0 → ∃ rel, Tracked t s r q rel
  content : ∀ rel bytes, s.world.fs.entry (rel ++ t.target) = some (.reg bytes) →
    bytes <+: t.transferred rel

section

variable {t : Setting} {s s' : Sys} {d : Places} {l : Label} {rel rel' : Loc} {r r' : ReqId}
  {q q' : CopyRequest} {c : Iocb} {n : ℕ}

namespace Tracked

/-- A step that does not write to the buffer. -/
lemma keep (h : Tracked t s r q rel) (hargv : s'.prog.argv = s.prog.argv)
    (names : SameNames q q') (transfer : SameTransfer q q')
    (hfull : s'.prog.aio.ReadFull r → s.prog.aio.ReadFull r)
    (hmem : q.buffer ≠ mapFailed →
      s'.world.mem.load q.buffer (t.transferred rel).length =
        s.world.mem.load q.buffer (t.transferred rel).length) : Tracked t s' r q' rel where
  reg := h.reg
  names := hargv ▸ names.for h.names
  fsize := transfer.fsize.trans h.fsize
  mapped := by
    rw [transfer.buffer, transfer.fsize]
    exact h.mapped
  loaded hbuf hfull' := by
    rw [transfer.buffer] at hbuf ⊢
    rw [hmem hbuf]
    exact h.loaded hbuf (hfull hfull')

/-- A request that is for a place is tracked for it. -/
lemma isFor (h : Tracked t s r q rel) (hfor : IsFor t s d r rel')
    (hq : s.prog.aio.reqs.last? r = some q) : rel = rel' := by
  obtain ⟨q', hq', hnames⟩ := hfor.request
  obtain rfl := Option.some.inj (hq.symm.trans hq')
  exact h.names.unique hnames h.reg hfor.reg

/-- The number of bytes that are asked for. -/
lemma toUlong_fsize (h : Tracked t s r q rel) (hbuf : q.buffer ≠ mapFailed) :
    toUlong q.fsize = (t.transferred rel).length := by
  have hnonneg := h.mapped hbuf
  rw [h.fsize] at hnonneg ⊢
  rw [← Setting.length_transferred hnonneg, toUlong_nat (t.length_transferred_lt rel)]

lemma mapping (h : Tracked t s r q rel) (hr : t.Run s) (hq : s.prog.aio.reqs.last? r = some q)
    (hst : q.state ≠ 0) (hbuf : q.buffer ≠ mapFailed) :
    s.prog.aio.mapping r = some (q.buffer, (t.transferred rel).length) := by
  rw [AioState.mapping, hq, Option.bind_some, CopyRequest.mapping, if_neg, h.toUlong_fsize hbuf]
  exact not_or.mpr ⟨hr.buffers.started r q hq hst, hbuf⟩

/-- The buffers of two requests are apart. -/
lemma load_store_of_ne (h : Tracked t s r q rel) (h' : Tracked t s r' q' rel') (hr : t.Run s)
    (hq : s.prog.aio.reqs.last? r = some q) (hq' : s.prog.aio.reqs.last? r' = some q')
    (hst : q.state ≠ 0) (hst' : q'.state ≠ 0) (hbuf : q.buffer ≠ mapFailed)
    (hbuf' : q'.buffer ≠ mapFailed) (hne : r ≠ r') {bytes : List UInt8}
    (hbytes : bytes.length ≤ (t.transferred rel').length) :
    (s.world.mem.store q'.buffer bytes).load q.buffer (t.transferred rel).length =
      s.world.mem.load q.buffer (t.transferred rel).length := by
  have hdisj := hr.buffers.disjoint_of_ne hne (h.mapping hr hq hst hbuf)
    (h'.mapping hr hq' hst' hbuf')
  have hle := le_pageRound (t.transferred rel).length
  have hle' := le_pageRound (t.transferred rel').length
  simp only [DisjointMaps] at hdisj
  exact Memory.load_store_of_disjoint (by omega)

end Tracked

namespace Prefixes

lemma init (batchSize : ℤ) : Prefixes t (t.init batchSize) where
  requests r q hq := by
    have hnone : (t.init batchSize).prog.aio.reqs.last? r = none :=
      Heap.last?_eq_none_of_le (Nat.zero_le r)
    simp [hnone] at hq
  content rel bytes h := by simp [Setting.init, Sys.init, Setting.below_target_new] at h

/-- The source of a request is opened: its size and its buffer are set. -/
lemma tracked_of_read (hcopy : Copying t s d) (hr : t.Run s) {o : AioState.ReadAnswer} {stSize : ℕ}
    (hposs : o.Possible s.prog.aio) (hfd : 0 ≤ o.fd) (hargv : s'.prog.argv = s.prog.argv)
    (hperm : World.Permits s.world s.prog (.aio (.readOne o)) s'.world)
    (hq : s.prog.aio.reqs.get? r = some q) (names : SameNames q q')
    (hhead : s.prog.aio.mgr.readHead = some r) (hstSize : o.stSize = some stSize)
    (hfsize : q'.fsize = toInt32 stSize) (hbuffer : q'.buffer = o.buf)
    (hnot : ¬ s'.prog.aio.ReadFull r) : ∃ rel, Tracked t s' r q' rel := by
  obtain ⟨p', w'⟩ := s'
  dsimp only at hargv hperm hnot
  obtain ⟨rel, hfor⟩ := hcopy.tree.requests r q (Heap.last?_of_get? hq)
  obtain ⟨q₁, hq₁, hnames⟩ := hfor.request
  obtain rfl := Option.some.inj ((Heap.last?_of_get? hq).symm.trans hq₁)
  have hbind : s.prog.aio.mgr.readHead.bind s.prog.aio.reqs.get? = some q := by
    rw [hhead]
    exact hq
  have hlen : stSize = (t.content rel).length := by
    cases hperm with
    | openSrc _ q₂ loc _ hhead₂ hopen hsize =>
      obtain rfl := Option.some.inj (hbind.symm.trans hhead₂)
      rw [hnames.srcName] at hopen
      obtain rfl := hr.openRead_eq (by simp [hfor.reg]) hopen
      rw [hsize stSize hstSize, Fs.content, hcopy.tree.source]
      rfl
    | noSrc _ hfail =>
      rw [hbind] at hfail
      exact absurd hfail (by simp; omega)
    | other _ _ _ _ _ _ hread => exact absurd rfl (hread _)
  refine ⟨rel, hfor.reg, hargv ▸ names.for hnames, by rw [hfsize, hlen], fun hbuf => ?_,
    fun _ hfull => absurd hfull hnot⟩
  rw [hbuffer] at hbuf
  rw [hfsize]
  exact toInt32_nonneg_of_mmap (hposs.2 stSize hstSize).2 hbuf

/-- A step that moves no bytes. -/
lemma step_of_same_bytes (h : Prefixes t s) (hcopy : Copying t s d) (hr : t.Run s)
    (hr' : t.Run s') (hstep : s.step l = some s') (hl : ∀ c n, l ≠ .aio (.complete c n)) :
    Prefixes t s' := by
  obtain ⟨-, hfires, hperm⟩ := Sys.fires_of_step hstep
  have hargv := Prog.argv_of_fires hfires
  obtain ⟨hmem, hfs⟩ := hperm.same_bytes hl
  have hcontent : ∀ rel bytes, s'.world.fs.entry (rel ++ t.target) = some (.reg bytes) →
      bytes <+: t.transferred rel := by
    intro rel bytes hb
    rcases hfs.new _ bytes hb with rfl | hold
    · exact List.nil_prefix
    · exact h.content rel bytes hold
  rcases Prog.manager_step hr.locks (Sys.prog_step hstep) with heq | ⟨act, ha, hact⟩
  · refine ⟨fun r q hq hst => ?_, hcontent⟩
    rw [heq] at hq
    obtain ⟨rel, hp⟩ := h.requests r q hq hst
    exact ⟨rel, hp.keep hargv (.refl q) ⟨rfl, rfl⟩ (fun hfull => heq ▸ hfull) fun _ => by rw [hmem]⟩
  have hcomplete := Sys.ne_complete_of_manager hact hl
  have hfull : ∀ r, s'.prog.aio.ReadFull r → s.prog.aio.ReadFull r := fun r hf =>
    hf.of_step hr.ready.good ha hcomplete
  refine ⟨fun r q' hq' hst' => ?_, hcontent⟩
  cases hr.ready.good.descends ha hq' with
  | fresh _ _ hst => exact absurd hst hst'
  | old q hq names transfer hst =>
    obtain ⟨rel, hp⟩ := h.requests r q hq (hst ▸ hst')
    exact ⟨rel, hp.keep hargv names transfer (hfull r) fun _ => by rw [hmem]⟩
  | read q o stSize hq names hact' hfd hhead hstSize hfsize hbuffer hst hprep =>
    subst hact'
    rcases hact with hclient | rfl
    · simp [Act.ofClient] at hclient
    have hposs : o.Possible s.prog.aio := by
      generalize s'.prog.aio = a' at ha
      cases (AioState.fires_of_step ha).2 with
      | readOne _ _ _ _ _ hposs => exact hposs
    -- the new read is not complete yet
    obtain ⟨xs, ys, b, hinv, -⟩ := hr'.ready.good
    have hawaits : s'.prog.aio.Awaits .pread r := hprep.imp fun c hc => ⟨Or.inl hc.1, hc.2⟩
    exact tracked_of_read hcopy hr hposs hfd hargv hperm hq names hhead hstSize hfsize hbuffer
      (hinv.not_readFull hawaits)
  | opened q fd hq names transfer _ _ _ hst _ hnew =>
    obtain ⟨rel, hp⟩ := h.requests r q (Heap.last?_of_get? hq) (by omega)
    exact ⟨rel, hp.keep hargv names transfer (hfull r) fun _ => by rw [hmem]⟩

/-! ### The completion of an operation -/

/-- What is known about an operation in flight. -/
structure Moving (t : Setting) (s : Sys) (c : Iocb) (q : CopyRequest) (rel : Loc) : Prop where
  mem : .pending c ∈ s.prog.aio.flight
  live : s.prog.aio.reqs.get? c.data = some q
  describes : c.Describes q
  tracked : Tracked t s c.data q rel
  file : s.world.files c.fd = some (t.fileOf rel c.opcode)
  reg : (s.world.fs.entry (t.fileOf rel c.opcode)).map Entry.kind = some .reg

namespace Moving

lemma state_ne (h : Moving t s c q rel) : q.state ≠ 0 := by
  rw [h.describes.state]
  cases c.opcode <;> simp

lemma last? (h : Moving t s c q rel) : s.prog.aio.reqs.last? c.data = some q :=
  Heap.last?_of_get? h.live

/-- No more is moved than is transferred. -/
lemma moved_le (h : Moving t s c q rel) (hbuf : q.buffer ≠ mapFailed) :
    World.moved c n ≤ (t.transferred rel).length := by
  rw [← h.tracked.toUlong_fsize hbuf, ← h.describes.nbytes]
  exact World.moved_le c n

end Moving

lemma exists_moving (h : Prefixes t s) (hcopy : Copying t s d) (hr : t.Run s)
    (hended : s.prog.aio.ended = none) (hmem : .pending c ∈ s.prog.aio.flight) :
    ∃ q rel, Moving t s c q rel := by
  obtain ⟨rel, hfor, hfile, hreg⟩ := hcopy.tree.mem_refs_of_pending hended hmem
  obtain ⟨xs, ys, b, hinv, -⟩ := hr.ready.good
  obtain ⟨q, hq, -, hdesc⟩ := hinv.refRec c (AioState.mem_refs_of_flight hmem)
  have hlast := Heap.last?_of_get? hq
  have hst : q.state ≠ 0 := by
    rw [hdesc.state]
    cases c.opcode <;> simp
  obtain ⟨rel', hp⟩ := h.requests c.data q hlast hst
  obtain rfl := hp.isFor hfor hlast
  exact ⟨q, rel', hmem, hq, hdesc, hp, hfile, hreg⟩

/-- A read completes: the buffer has what it moved. -/
lemma complete_pread (h : Prefixes t s) (hcopy : Copying t s d) (hr : t.Run s)
    (hc : Moving t s c q rel) (hop : c.opcode = .pread)
    (hguard : c.buf = mapFailed → World.moved c n = 0) (hworld : s'.world = s.world.transfer c n)
    (haio : s'.prog.aio = { s.prog.aio with
      flight := ⟨c, some n⟩ :: s.prog.aio.flight.erase (.pending c) })
    (hargv : s'.prog.argv = s.prog.argv) : Prefixes t s' := by
  have hcontent : s.world.fs.content (rel ++ t.root) = t.content rel := by
    rw [Fs.content, hcopy.tree.source]
    rfl
  have hfile : s.world.files c.fd = some (rel ++ t.root) := by rw [hc.file, hop]; rfl
  have hworld : s'.world = { s.world with
      mem := s.world.mem.store q.buffer ((t.content rel).take (World.moved c n)) } := by
    rw [hworld]
    simp only [World.transfer, hfile, hop, hc.describes.offset, hc.describes.buf, List.drop_zero,
      hcontent]
  refine ⟨fun r' q' hq' hst' => ?_, by rw [hworld]; exact h.content⟩
  rw [haio] at hq'
  have hfull : ∀ {r}, s'.prog.aio.ReadFull r →
      s.prog.aio.ReadFull r ∨ (c.data = r ∧ c.opcode = .pread ∧ n = c.nbytes) := by
    intro r hf
    rw [haio] at hf
    exact hf.of_complete
  by_cases hr' : r' = c.data
  · subst hr'
    obtain rfl := Option.some.inj (hc.last?.symm.trans hq')
    have hp := hc.tracked
    refine ⟨rel, hp.reg, hargv ▸ hp.names, hp.fsize, hp.mapped, fun hbuf hf => ?_⟩
    -- it is this read that is complete
    obtain ⟨xs, ys, b, hinv, -⟩ := hr.ready.good
    obtain ⟨-, -, rfl⟩ := (hfull hf).resolve_left
      (hinv.not_readFull ⟨c, Or.inr hc.mem, hop, rfl⟩)
    rw [hworld, World.moved_nbytes, hc.describes.nbytes, hp.toUlong_fsize hbuf, t.take_content]
    exact Memory.load_store_self
  · obtain ⟨rel', hp⟩ := h.requests r' q' hq' hst'
    refine ⟨rel', hp.keep hargv (.refl q') ⟨rfl, rfl⟩
      (fun hf => (hfull hf).resolve_right fun h => hr' h.1.symm) fun hbuf => ?_⟩
    rw [hworld]
    by_cases hfailed : q.buffer = mapFailed
    · rw [hguard (hc.describes.buf.trans hfailed), List.take_zero, Memory.store_nil]
    · refine hp.load_store_of_ne hc.tracked hr hq' hc.last? hst' hc.state_ne hbuf hfailed hr' ?_
      rw [List.length_take]
      exact (min_le_left _ _).trans (hc.moved_le hfailed)

/-- A write completes: the destination has a longer prefix. -/
lemma complete_pwrite (h : Prefixes t s) (hist : History s.prog.aio) (hc : Moving t s c q rel)
    (hop : c.opcode = .pwrite) (hguard : c.buf = mapFailed → World.moved c n = 0)
    (hworld : s'.world = s.world.transfer c n)
    (haio : s'.prog.aio = { s.prog.aio with
      flight := ⟨c, some n⟩ :: s.prog.aio.flight.erase (.pending c) })
    (hargv : s'.prog.argv = s.prog.argv) : Prefixes t s' := by
  have hfile : s.world.files c.fd = some (rel ++ t.target) := by rw [hc.file, hop]; rfl
  obtain ⟨old, hold⟩ : ∃ old, s.world.fs.entry (rel ++ t.target) = some (.reg old) := by
    have hreg := hc.reg
    rw [hop] at hreg
    obtain ⟨e, he, hk⟩ := Option.map_eq_some_iff.mp hreg
    obtain ⟨old, rfl⟩ := Entry.kind_eq_reg.mp hk
    exact ⟨old, he⟩
  have hbytes : s.world.mem.load c.buf (World.moved c n) <+: t.transferred rel := by
    by_cases hfailed : c.buf = mapFailed
    · rw [hguard hfailed, Memory.load_zero]
      exact List.nil_prefix
    · rw [hc.describes.buf] at hfailed ⊢
      -- the read of the request was complete
      have hread := (hist.writing c (AioState.mem_refs_of_flight hc.mem) hop q hc.live).readFull
      rw [Memory.load_eq_take (hc.moved_le hfailed), hc.tracked.loaded hfailed hread]
      exact List.take_prefix _ _
  have hworld : s'.world = { s.world with
      fs := s.world.fs.setContent (rel ++ t.target)
        (World.overwrite old 0 (s.world.mem.load c.buf (World.moved c n))) } := by
    rw [hworld]
    simp only [World.transfer, hfile, hop, hc.describes.offset, Fs.content, hold]
  refine ⟨fun r' q' hq' hst' => ?_, fun rel' bytes hb => ?_⟩
  · rw [haio] at hq'
    obtain ⟨rel', hp⟩ := h.requests r' q' hq' hst'
    refine ⟨rel', hp.keep hargv (.refl q') ⟨rfl, rfl⟩ (fun hf => ?_) fun _ => by rw [hworld]⟩
    rw [haio] at hf
    exact hf.of_complete.resolve_right fun h => by simp [hop] at h
  · rw [hworld] at hb
    by_cases heq : rel' = rel
    · subst heq
      rw [Fs.entry_setContent_self hold] at hb
      rw [← Entry.reg.inj (Option.some.inj hb)]
      exact World.overwrite_prefix (h.content rel' old hold) hbytes
    · rw [Fs.entry_setContent_of_ne fun h => heq (List.append_cancel_right h)] at hb
      exact h.content rel' bytes hb

lemma step_complete (h : Prefixes t s) (hcopy : Copying t s d) (hr : t.Run s)
    (hist : History s.prog.aio) (hok : s.Guarded (.aio (.complete c n)))
    (hstep : s.step (.aio (.complete c n)) = some s') : Prefixes t s' := by
  obtain ⟨hended, hfires, hperm⟩ := Sys.fires_of_step hstep
  have hargv := Prog.argv_of_fires hfires
  have hact := (Prog.aio_step (Sys.prog_step hstep)).1
  have hworld : s'.world = s.world.transfer c n := by
    generalize s'.world = w' at hperm
    cases hperm with
    | complete => rfl
    | other _ _ _ _ _ _ _ _ hcomplete => exact absurd rfl (hcomplete _ _)
  obtain ⟨haio, hmem⟩ : s'.prog.aio = { s.prog.aio with
      flight := ⟨c, some n⟩ :: s.prog.aio.flight.erase (.pending c) } ∧
      .pending c ∈ s.prog.aio.flight := by
    generalize s'.prog.aio = a' at hact
    cases (AioState.fires_of_step hact).2 with
    | complete _ _ hmem => exact ⟨rfl, hmem⟩
  obtain ⟨q, rel, hc⟩ := h.exists_moving hcopy hr hended hmem
  cases hop : c.opcode with
  | pread => exact h.complete_pread hcopy hr hc hop hok hworld haio hargv
  | pwrite => exact h.complete_pwrite hist hc hop hok hworld haio hargv

/-- **The bytes of a run**, while the process goes on. -/
theorem of_reaches {batchSize : ℤ} (h : Reaches Sys.step Sys.Guarded (t.init batchSize) s)
    (hended : s.prog.aio.ended = none) : Prefixes t s := by
  refine h.invariant_of (J := fun s => Reaches Sys.step Sys.Guarded (t.init batchSize) s)
    (I := fun s => s.prog.aio.ended = none → Prefixes t s)
    (fun _ hr => hr) (fun {s l s'} hs hs' hprefixes hok hstep _ => ?_) (fun _ => .init batchSize)
    hended
  have hrun := (Sys.fires_of_step hstep).1
  obtain ⟨d, hcopy⟩ := Copying.of_reaches hs (Or.inl hrun)
  have hr := Setting.Run.of_reaches hs
  by_cases hcomplete : ∃ c n, l = .aio (.complete c n)
  · obtain ⟨c, n, rfl⟩ := hcomplete
    have hist := Prog.history_of_reaches (Sys.prog_reaches_any hs)
    exact (hprefixes hrun).step_complete hcopy hr hist hok hstep
  · exact (hprefixes hrun).step_of_same_bytes hcopy hr (Setting.Run.of_reaches hs') hstep
      fun c n heq => hcomplete ⟨c, n, heq⟩

end Prefixes

/-- **Whatever fails, nothing wrong is written**: in any run, for every schedule and however short
the transfers are, the file system is at all times, and when the process has ended, the old one
outside the destination, and a file below it holds a prefix of its source. -/
theorem prefix_of_reaches {batchSize : ℤ}
    (h : Reaches Sys.step Sys.Guarded (t.init batchSize) s) : Confined t s ∧
      ∀ rel bytes, s.world.fs.entry (rel ++ t.target) = some (.reg bytes) →
        t.kind rel = some .reg ∧ bytes <+: t.content rel := by
  have hconf := Confined.of_reaches h
  obtain ⟨u, hu, hrun, hfs⟩ := Sys.exists_running h
  refine ⟨hconf, fun rel bytes hb => ⟨hconf.copied rel _ hb, ?_⟩⟩
  rw [← hfs] at hb
  exact ((Prefixes.of_reaches hu hrun).content rel bytes hb).trans (List.take_prefix _ _)

end

/-- A run in which the write of a file of three bytes moves two of them. -/
theorem prefix_of_reaches_short : ∃ s : Sys,
    Reaches Sys.step Sys.Guarded (oneFileTask.init 1) s ∧
      s.prog.aio.ended = some (.exited 1) ∧
      s.world.fs.entry [['f'], ['d']] = some (.reg [1, 2]) ∧
      (Confined oneFileTask.toSetting s ∧
        ∀ rel bytes, s.world.fs.entry (rel ++ oneFileTask.target) = some (.reg bytes) →
          oneFileTask.kind rel = some .reg ∧ bytes <+: oneFileTask.content rel) := by
  have hrun : (execOk Sys.step Sys.Guarded (oneFileTask.init 1)
      (oneFileWalk ++ oneFileDrain.take 25 ++
        [.aio (.complete ⟨1, .pwrite, 4, 4096, 3, 0, 0⟩ 2), .aio .lockFlush,
          .aio (.getEvents [⟨⟨1, .pwrite, 4, 4096, 3, 0, 0⟩, 2⟩]), .aio .handleEvent])).map
      (fun s => (s.prog.aio.ended, s.world.fs.entry [['f'], ['d']])) =
        some (some (.exited 1), some (.reg [1, 2])) := by
    decide +kernel
  obtain ⟨s, hs, hfacts⟩ := Option.map_eq_some_iff.mp hrun
  obtain ⟨hended, hentry⟩ := Prod.mk.inj hfacts
  have hreach := reaches_of_execOk hs
  exact ⟨s, hreach, hended, hentry, prefix_of_reaches hreach⟩

end Cpr
