/-
# Who owns the descriptors and the control blocks

A descriptor is open and a control block is allocated exactly as long as the operation they
serve is under way.  The kernel may hand out a closed descriptor again at once: the stale
numbers in requests that are further along never lead to a `close`.
-/
import Cpr.Manager.ControlBlocks
import Cpr.System.Depth

namespace Cpr

open Transition Unix

namespace AioState

variable (a : AioState)

/-- `src_fd` of the requests whose read is in flight and `dst_fd` of those whose write is. -/
def inUse : List (Option ℤ) :=
  (a.inFlight .pread).map (fun r => (a.reqs.get? r).map (·.srcFd)) ++
    (a.inFlight .pwrite).map (fun r => (a.reqs.get? r).map (·.dstFd))

/-- The descriptor that is closed when the next event is handled. -/
def closing : Option ℤ :=
  match a.pc with
  | .handle (e :: _) => (a.reqs.get? e.data).bind fun req =>
    if e.res ≠ toUlong req.fsize then none
    else if req.state = 1 then some req.srcFd
    else if req.state = 2 then some req.dstFd
    else none
  | _ => none

end AioState

/-- The ownership of descriptors and control blocks while the process runs. -/
structure Ownership (a : AioState) : Prop where
  /-- Between the phases, the open descriptors are those of the transfers in flight. -/
  descriptors : a.AtBoundary → a.inUse.Nodup ∧ (a.inUse : Multiset _) = a.openFds.val.map some
  /-- A `close` is applied to the open descriptor of a reaped transfer, and to no other's. -/
  closes : ∀ fd, a.closing = some fd → fd ∈ a.openFds ∧ (∀ op ∈ a.flight, op.obj.fd ≠ fd) ∧
    ∃ e rest, a.pc = .handle (e :: rest) ∧ e.obj.fd = fd ∧ .reaped e.obj e.res ∈ a.log
  /-- Nothing else ends the use of a descriptor. -/
  closed : ∀ act a' fd, a.step act = some a' → a'.ended = none → fd ∈ a.openFds →
    fd ∉ a'.openFds → act = .handleEvent ∧ a.closing = some fd
  /-- `free` is applied to a live control block. -/
  frees : ∀ e rest, a.pc = .handle (e :: rest) → a.iocbs.get? e.obj.addr = some e.obj
  /-- A control block lives until its own event is handled. -/
  freed : ∀ act a' addr c, a.step act = some a' → a.iocbs.get? addr = some c →
    a'.iocbs.get? addr = none →
      act = .handleEvent ∧ ∃ e rest, a.pc = .handle (e :: rest) ∧ e.obj = c
  /-- Between the phases, an allocated control block is in flight, or reaped and freed. -/
  iocbs : a.AtBoundary → ∀ addr < a.iocbs.next,
    (∃ c, a.iocbs.get? addr = some c ∧ c ∈ a.flight.map (·.obj) ∧
      addr ∉ a.log.reaped.map (·.addr)) ∨
    (a.iocbs.get? addr = none ∧ addr ∈ a.log.reaped.map (·.addr))
  reapedOnce : (a.log.reaped.map (·.addr)).Nodup

/-- At the end of `aio_loop` every descriptor is closed and every control block is freed. -/
def Released (a : AioState) : Prop :=
  a.pc = .unlockBreak ∨ a.pc = .returned → a.openFds = ∅ ∧ ∀ addr, a.iocbs.get? addr = none

namespace Good

variable {a a' : AioState} {act : Act}

/-- At a boundary the live control blocks are those in flight, and their descriptors are
found in their requests. -/
lemma inUse_perm (hgood : Good a) (hb : a.AtBoundary) :
    a.inUse.Perm ((a.refs.map (·.fd)).map some) := by
  obtain ⟨xs, ys, b, h, -⟩ := hgood
  have hrefs : a.refs = a.flight.map (·.obj) := by
    rw [AioState.refs, hb.1, hb.2, List.nil_append, List.map_nil, List.append_nil]
  have hfield : ∀ o : Opcode, ∀ field : CopyRequest → ℤ,
      (∀ (c : Iocb) (q : CopyRequest), c.opcode = o → c.Describes q → field q = c.fd) →
      (a.inFlight o).map (fun r => (a.reqs.get? r).map field) =
        (a.refs.filter (·.opcode = o)).map (fun c => some c.fd) := by
    intro o field hfield
    rw [AioState.inFlight, reqsOf, List.map_map, ← hrefs]
    refine List.map_congr_left fun c hc => ?_
    obtain ⟨hmem, ho⟩ := List.mem_filter.mp hc
    obtain ⟨q, hq, -, hd⟩ := h.refRec c hmem
    dsimp only [Function.comp_apply]
    rw [hq, Option.map_some, hfield c q (of_decide_eq_true ho) hd]
  have hread := hfield .pread (·.srcFd) fun c q ho hd => by rw [hd.fd, ho]
  have hwrite := hfield .pwrite (·.dstFd) fun c q ho hd => by rw [hd.fd, ho]
  have hsplit : a.refs.filter (·.opcode = .pwrite) =
      a.refs.filter fun c => !decide (c.opcode = .pread) := by
    refine List.filter_congr fun c _ => ?_
    cases c.opcode <;> rfl
  rw [AioState.inUse, hread, hwrite, ← List.map_append, hsplit, List.map_map]
  exact (List.filter_append_perm _ _).map _

/-- The closed descriptor is the one of the event's control block. -/
lemma closing_eq (hgood : Good a) {fd : ℤ} (hclosing : a.closing = some fd) :
    ∃ e rest, a.pc = .handle (e :: rest) ∧ e.obj.fd = fd := by
  obtain ⟨xs, ys, b, h, -⟩ := hgood
  unfold AioState.closing at hclosing
  split at hclosing
  · rename_i e rest hpc
    obtain ⟨q, hq, hfd⟩ := Option.bind_eq_some_iff.mp hclosing
    refine ⟨e, rest, hpc, ?_⟩
    have hmem : e.obj ∈ a.refs := by simp [AioState.refs, hpc]
    have hd := (h.describes_of_mem_refs hmem hq).2
    have hstate := h.opcode_of_state hmem hq
    split_ifs at hfd with _ hread hwrite
    · obtain rfl := Option.some.inj hfd
      rw [hd.fd, (hstate.resolve_right fun hw => by omega).2]
    · obtain rfl := Option.some.inj hfd
      rw [hd.fd, (hstate.resolve_left fun hr => by omega).2]
  · cases hclosing

/-- Only the handling of an event closes a descriptor. -/
lemma closed (hgood : Good a) (hstep : a.step act = some a') (hended : a'.ended = none) {fd : ℤ}
    (hopen : fd ∈ a.openFds) (hgone : fd ∉ a'.openFds) :
    act = .handleEvent ∧ a.closing = some fd := by
  have herase : ∀ {x : ℤ}, fd ∉ a.openFds.erase x → fd = x := by
    intro x hx
    by_contra hne
    exact hx (Finset.mem_erase.mpr ⟨hne, hopen⟩)
  cases hgood.moves hstep with
  | finishRead e rest q hpc hq hop hst hres =>
    obtain rfl := herase hgone
    simp [AioState.closing, hpc, hq, hst, hres]
  | finishWrite e rest q hpc hq hop hst hres =>
    obtain rfl := herase hgone
    simp [AioState.closing, hpc, hq, hst, hres]
  | startRead | startWrite => exact absurd (Finset.mem_insert_of_mem hopen) hgone
  | same _ _ _ openFds => exact absurd (openFds hended ▸ hopen) hgone
  | submit _ _ _ _ _ _ _ _ _ _ _ _ _ _ openFds => exact absurd (openFds ▸ hopen) hgone
  | reap | complete | newRequest | linkIn => exact absurd hopen hgone

/-- Only the handling of an event ends the life of a control block. -/
lemma freed (hgood : Good a) (hblocks : ControlBlocks a) (hstep : a.step act = some a') {addr : ℕ}
    {c : Iocb} (hlive : a.iocbs.get? addr = some c) (hdead : a'.iocbs.get? addr = none) :
    act = .handleEvent ∧ ∃ e rest, a.pc = .handle (e :: rest) ∧ e.obj = c := by
  have hfree : ∀ {e : IoEvent} {rest : List IoEvent}, a.pc = .handle (e :: rest) →
      (a.iocbs.free e.obj.addr).get? addr = none →
      ∃ e rest, a.pc = .handle (e :: rest) ∧ e.obj = c := by
    intro e rest hpc hdead
    have haddr : addr = e.obj.addr := by
      by_contra hne
      rw [Heap.get?_free_of_ne hne, hlive] at hdead
      cases hdead
    have hobj := (hblocks.live e.obj.addr e.obj).mpr ⟨by simp [AioState.refs, hpc], rfl⟩
    rw [← haddr, hlive] at hobj
    exact ⟨e, rest, hpc, (Option.some.inj hobj).symm⟩
  cases hgood.moves hstep with
  | finishRead e rest q hpc => exact ⟨rfl, hfree hpc hdead⟩
  | finishWrite e rest q hpc => exact ⟨rfl, hfree hpc hdead⟩
  | startRead | startWrite =>
    exact absurd ((Heap.get?_alloc_of_get? hlive).symm.trans hdead) (by simp)
  | same _ iocbs | submit _ _ _ _ _ _ _ _ _ _ _ _ iocbs =>
    rw [iocbs, hlive] at hdead
    cases hdead
  | reap | complete | newRequest | linkIn => exact absurd (hlive.symm.trans hdead) (by simp)

end Good

section

variable {a : AioState} {p : Prog} {srcName dstName : CStr} {batchSize : ℤ}

lemma Ownership.of_invariants (hgood : Good a) (hd : Descriptors a) (hb : ControlBlocks a)
    (hended : a.ended = none) : Ownership a where
  descriptors hbound := by
    have hperm := hgood.inUse_perm hbound
    have heq : (a.inUse : Multiset _) = a.openFds.val.map some := by
      rw [hd hended, Multiset.map_coe, Multiset.coe_eq_coe]
      exact hperm
    refine ⟨?_, heq⟩
    rw [← Multiset.coe_nodup, heq]
    exact a.openFds.nodup.map (Option.some_injective _)
  closes fd hclosing := by
    obtain ⟨e, rest, hpc, rfl⟩ := hgood.closing_eq hclosing
    have hmem : e.obj ∈ a.refs := by simp [AioState.refs, hpc]
    refine ⟨hd.mem_openFds hended hmem, fun op hop heq => ?_, e, rest, hpc, rfl,
      hb.events e (by simp [hpc])⟩
    -- two live control blocks with one descriptor
    have hnd : (a.refs.map (·.fd)).Nodup := by
      rw [← Multiset.coe_nodup, ← hd hended]
      exact a.openFds.nodup
    rw [AioState.refs, List.map_append, List.nodup_append] at hnd
    refine hnd.2.2 op.obj.fd ?_ e.obj.fd ?_ heq
    · refine List.mem_map_of_mem (List.mem_append_right _ ?_)
      exact List.mem_map_of_mem hop
    · simp [hpc]
  closed act a' fd hstep hended' hopen hgone := hgood.closed hstep hended' hopen hgone
  frees e rest hpc := (hb.live _ _).mpr ⟨by simp [AioState.refs, hpc], rfl⟩
  freed act a' addr c hstep hlive hdead := hgood.freed hb hstep hlive hdead
  iocbs hbound addr hlt := by
    have hnd := hb.nodup_created
    have hmem : addr ∈ a.created.map (·.addr) := hb.addrs.mem_iff.mpr (List.mem_range.mpr hlt)
    have hrefs : a.refs = a.flight.map (·.obj) := by
      rw [AioState.refs, hbound.1, hbound.2, List.nil_append, List.map_nil, List.append_nil]
    simp only [AioState.created, hbound.1, List.nil_append, List.map_append] at hnd hmem
    obtain ⟨-, -, hdisj⟩ := List.nodup_append.mp hnd
    rcases List.mem_append.mp hmem with hreaped | hflight
    · refine Or.inr ⟨?_, hreaped⟩
      rw [Option.eq_none_iff_forall_ne_some]
      intro c hc
      obtain ⟨hlive, rfl⟩ := (hb.live _ _).mp hc
      exact hdisj _ hreaped _ (List.mem_map_of_mem (hrefs ▸ hlive)) rfl
    · obtain ⟨c, hc, rfl⟩ := List.mem_map.mp hflight
      exact Or.inl ⟨c, (hb.live _ _).mpr ⟨hrefs ▸ hc, rfl⟩, hc, fun hreaped =>
        hdisj _ hreaped _ hflight rfl⟩
  reapedOnce := by
    have hnd := hb.nodup_created
    rw [AioState.created, List.map_append, List.nodup_append] at hnd
    exact hnd.1

lemma Released.of_drained (hd : Descriptors a) (hb : ControlBlocks a) (hended : a.ended = none)
    (hdrained : a.pc = .unlockBreak ∨ a.pc = .returned → a.flight = []) : Released a := by
  intro hpc
  have hrefs : a.refs = [] := by
    rw [AioState.refs, hdrained hpc]
    rcases hpc with hpc | hpc <;> rw [hpc] <;> rfl
  constructor
  · have hval := hd hended
    rw [hrefs] at hval
    exact Finset.val_eq_zero.mp hval
  · intro addr
    rw [Option.eq_none_iff_forall_ne_some]
    intro c hc
    have hmem := ((hb.live _ _).mp hc).1
    rw [hrefs] at hmem
    cases hmem

/-- **Descriptors and control blocks are owned by the operations under way**, and when
`aio_loop` ends none is left. -/
theorem ownership_of_reaches
    (h : Reaches Prog.step anyLabel (Prog.init srcName dstName batchSize) p)
    (hended : p.aio.ended = none) :
    Ownership p.aio ∧ (p.aio.log.accepted.length < 2 ^ 32 → Released p.aio) := by
  have hmanager := Prog.manager_reaches_any h
  have hd := Descriptors.of_reaches hmanager
  have hb := ControlBlocks.of_reaches hmanager
  refine ⟨.of_invariants (Good.of_reaches hmanager) hd hb hended, fun hlt => ?_⟩
  refine .of_drained hd hb hended fun hpc => ?_
  obtain ⟨xs, ys, b, hinv, -⟩ := Good.of_reaches hmanager
  exact (hinv.drained ((Stopped.of_reaches h hpc).2 hlt)).flight

/-- A run in which the only read is in flight. -/
theorem ownership_of_reaches_reading : ∃ p : Prog,
    Reaches Prog.step anyLabel (Prog.init ['a'] ['b'] 1) p ∧ p.aio.ended = none ∧
      p.aio.openFds = {3} ∧ Ownership p.aio ∧
      (p.aio.log.accepted.length < 2 ^ 32 → Released p.aio) := by
  have hrun : (exec Prog.step (Prog.init ['a'] ['b'] 1)
      [.initManager true, .startThread true, .stat (some .reg), .bumpReqCount, .copyReg,
        .addLock true, .addLink, .addUnlock true, .walkEnd,
        .aio .lockFlush, .aio (.getEvents []), .aio .checkDone, .aio .lockRequest,
        .aio .readSize, .aio (.readOne ⟨3, some 5, 4096⟩), .aio (.readSubmit 1)]).map
      (fun p => (p.aio.ended, p.aio.openFds)) = some (none, {3}) := by
    decide +kernel
  obtain ⟨p, hp, hfacts⟩ := Option.map_eq_some_iff.mp hrun
  obtain ⟨hended, hfds⟩ := Prod.mk.inj hfacts
  have hreach : Reaches Prog.step anyLabel (Prog.init ['a'] ['b'] 1) p :=
    reaches_of_exec (fun _ _ => trivial) hp
  exact ⟨p, hreach, hended, hfds, ownership_of_reaches hreach hended⟩

end

/-! ## The loop may end with a read in flight -/

/-- `k` requests were made; the read of one of them is in flight, and none is finished. -/
structure Reading (a : AioState) (k : ℕ) : Prop where
  reqCount : a.reqCount = toInt32 k
  finishedCount : a.mgr.finishedCount = 0
  flight : a.flight ≠ []
  requestMutex : a.mgr.requestMutex = none
  flushMutex : a.mgr.flushMutex = none
  pc : a.pc = .lockFlush
  ended : a.ended = none

lemma Reading.receive {a : AioState} {k : ℕ} (h : Reading a k) (curr : Node) :
    Reading (a.receive curr) (k + 1) := by
  rw [AioState.receive_eq]
  refine ⟨?_, h.finishedCount, h.flight, rfl, h.flushMutex, h.pc, h.ended⟩
  dsimp only
  rw [h.reqCount, toInt32_add_toInt32]
  norm_num

/-- A directory with a multiple of `2 ^ 32` files: when only the first of them is in flight,
the stop test succeeds. -/
lemma flat.reaches_break {n : ℕ} (hpos : 0 < n) (hn : toInt32 n = 0) : ∃ s,
    Reaches Sys.step anyLabel (Sys.init (flat n) [] ['s'] ['d'] 1) s ∧
      s.prog.aio.pc = .unlockBreak ∧ s.prog.aio.flight ≠ [] ∧ s.prog.aio.ended = none := by
  obtain ⟨s, hs, h, hreq, hfin⟩ := (Piled.of_listed n).step hpos (by decide)
  have hlist : Reaches Sys.step anyLabel (Sys.init (flat n) [] ['s'] ['d'] 1) (flat.listed n 1) :=
    (flat.reaches_listed n 1).weaken fun _ _ _ => trivial
  have hone : Reading s.prog.aio 1 :=
    { reqCount := hreq, finishedCount := hfin,
      flight := fun hnil => by simpa [hnil] using h.depth,
      requestMutex := h.requestMutex, flushMutex := h.flushMutex, pc := h.aio, ended := h.ended }
  have hmem : ∀ curr ∈ s.prog.queue, s.world.fs.stat s.world.cwd curr.srcName = some .reg := by
    rw [h.queue, h.fs, h.cwd]
    exact fun curr hcurr => flat.stat_node (List.mem_of_mem_drop hcurr)
  obtain ⟨a, ha, hk⟩ := Sys.reaches_files (P := fun k a => Reading a k) (fun _ => []) Reading.ended
    Reading.requestMutex (fun curr h => h.receive curr) h.pc hone hmem
  have hlen : 1 + s.prog.queue.length = n := by
    rw [h.queue, List.length_drop, flat.nodes, List.length_map, List.length_range]
    omega
  rw [hlen] at hk
  have hbreak : ∃ s', exec Sys.step ⟨{ s.prog with aio := a, queue := [] }, s.world⟩
      [.walkEnd, .waitLock true, .waitSet, .waitUnlock true, .aio .lockFlush,
        .aio (.getEvents []), .aio .checkDone] = some s' ∧
      s'.prog.aio.pc = .unlockBreak ∧ s'.prog.aio.flight ≠ [] ∧ s'.prog.aio.ended = none := by
    simp [Sys.step, Prog.step, Prog.mainStep, Prog.proceed, Prog.aioStep, World.after,
      World.afterAio, AioState.loopStep, AioState.lockFlush, AioState.unlockFlush,
      AioState.setFlush, AioState.getEvents, AioState.checkDone, AioState.stopTest, h.pc, hk.ended,
      hk.flushMutex, hk.pc, hk.reqCount, hk.finishedCount, hk.flight, hn]
  obtain ⟨s', hs', hfacts⟩ := hbreak
  exact ⟨s', ((hlist.trans hs).trans (ha.weaken fun _ _ _ => trivial)).trans
    (reaches_of_exec (fun _ _ => trivial) hs'), hfacts⟩

/-- With `2 ^ 32` files, `aio_loop` can end while the file of its first read is open. -/
theorem not_ownership_of_overflow : ¬ ∀ (srcName dstName : CStr) (batchSize : ℤ) (p : Prog),
    Reaches Prog.step anyLabel (Prog.init srcName dstName batchSize) p → p.aio.ended = none →
      Ownership p.aio ∧ Released p.aio := by
  intro hall
  obtain ⟨s, hs, hpc, hflight, hended⟩ := flat.reaches_break (n := 2 ^ 32) (by decide) (by decide)
  have hreach := Sys.prog_reaches_any hs
  obtain ⟨op, hop⟩ := List.exists_mem_of_ne_nil _ hflight
  have hd : Descriptors s.prog.aio := Descriptors.of_reaches (Prog.manager_reaches_any hreach)
  have hmem : op.obj ∈ s.prog.aio.refs := AioState.mem_refs_of_flight hop
  have hopen := hd.mem_openFds hended hmem
  rw [((hall _ _ _ _ hreach hended).2 (Or.inl hpc)).1] at hopen
  exact absurd hopen (Finset.notMem_empty _)

end Cpr
