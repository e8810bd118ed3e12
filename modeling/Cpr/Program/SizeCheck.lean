/-
# The size of one copy

`st_size` is stored in an `int`, widened for `mmap` and the two transfers, and compared with
the 64-bit result of each transfer.  Every conversion is consistent with the others, so a size
that was cut off by the first one passes the checks.
-/
import Cpr.Manager.Descriptors
import Cpr.Manager.Faultless
import Cpr.Program.Requests

namespace Cpr

open Transition Unix

/-- The largest error code. -/
def maxErrno : ℕ := 4095

/-- The 64-bit results that the kernel may report: a number of bytes, at most as many as were
asked for, or a negative error code. -/
def KernelResult (nbytes res : ℕ) : Prop :=
  (res ≤ nbytes ∧ res < 2 ^ 63) ∨ (2 ^ 64 - maxErrno ≤ res ∧ res < 2 ^ 64)

instance (nbytes res : ℕ) : Decidable (KernelResult nbytes res) :=
  inferInstanceAs (Decidable (_ ∨ _))

namespace Prog

/-- Every completed transfer has a result that the kernel may report. -/
def Reports (_ : Prog) : Label → Prop
  | .aio (.complete c res) => KernelResult c.nbytes res
  | _ => True

instance (p : Prog) (l : Label) : Decidable (p.Reports l) := by
  induction l using Label.casesOn with
  | aio act => induction act using Act.casesOn <;> (unfold Reports; infer_instance)
  | _ => unfold Reports; infer_instance

/-- The read phase opens the source of the request `r`, which has `n` bytes. -/
def Opens (p : Prog) (r : ReqId) (n : ℕ) (p' : Prog) : Prop :=
  p.aio.mgr.readHead = some r ∧
    ∃ o, o.stSize = some n ∧ p.step (.aio (.readOne o)) = some p' ∧ p'.aio.ended = none

/-- The completion check of the event `e` passes. -/
def Passes (p : Prog) (e : IoEvent) (p' : Prog) : Prop :=
  (∃ rest, p.aio.pc = .handle (e :: rest)) ∧
    p.step (.aio .handleEvent) = some p' ∧ p'.aio.ended = none

end Prog

/-- What the two completion checks promise for a source of `n` bytes, in every run. -/
structure SizeSound (n : ℕ) : Prop where
  /-- If both pass, exactly `n` bytes were read and written. -/
  exact : ∀ {srcName dstName : CStr} {batchSize : ℤ} {p p₁ u u' v v' : Prog} {r : ReqId}
    {e e' : IoEvent}, Reaches Prog.step Prog.Reports (Prog.init srcName dstName batchSize) p →
    p.Opens r n p₁ →
    Reaches Prog.step Prog.Reports p₁ u → u.Passes e u' → e.data = r → e.obj.opcode = .pread →
    Reaches Prog.step Prog.Reports u' v → v.Passes e' v' → e'.data = r → e'.obj.opcode = .pwrite →
    toInt64 e.res = n ∧ toInt64 e'.res = n
  /-- No error code passes. -/
  noError : ∀ {srcName dstName : CStr} {batchSize : ℤ} {p p₁ u u' : Prog} {r : ReqId}
    {e : IoEvent}, Reaches Prog.step Prog.Reports (Prog.init srcName dstName batchSize) p →
    p.Opens r n p₁ → Reaches Prog.step Prog.Reports p₁ u → u.Passes e u' → e.data = r →
    0 ≤ toInt64 e.res

/-- The request was started with a size. -/
def AioState.Sized (a : AioState) (r : ReqId) (x : ℤ) : Prop :=
  ∃ q, a.reqs.last? r = some q ∧ q.fsize = x ∧ q.state ≠ 0

section

variable {a a' : AioState} {act : Act} {p p₁ p' : Prog} {l : Label} {r : ReqId} {x : ℤ} {n : ℕ}
  {e : IoEvent} {srcName dstName : CStr} {batchSize : ℤ}

/-- A request keeps its size: only the requests of the read list get one. -/
lemma AioState.Sized.step (h : a.Sized r x) (hgood : Good a) (hstep : a.step act = some a') :
    a'.Sized r x := by
  obtain ⟨q, hq, hsize, hst⟩ := h
  obtain ⟨q', hq', -⟩ := hgood.persist hstep r q hq
  refine ⟨q', hq', ?_⟩
  cases hgood.descends hstep hq' with
  | fresh _ hr =>
    rw [hr, Heap.last?_eq_none_of_le le_rfl] at hq
    cases hq
  | old q₁ hq₁ _ transfer hst₁ =>
    obtain rfl := Option.some.inj (hq.symm.trans hq₁)
    exact ⟨transfer.fsize.trans hsize, hst₁ ▸ hst⟩
  | opened q₁ _ hq₁ _ transfer _ _ _ _ hst₁ =>
    obtain rfl := Option.some.inj (hq.symm.trans (Heap.last?_of_get? hq₁))
    exact ⟨transfer.fsize.trans hsize, by omega⟩
  | read q₁ _ _ hq₁ _ _ _ hhead =>
    obtain rfl := Option.some.inj (hq.symm.trans (Heap.last?_of_get? hq₁))
    obtain ⟨xs, ys, b, hinv, -⟩ := hgood
    obtain ⟨tl, rfl⟩ := (hhead ▸ hinv.readList).cons_of_some
    obtain ⟨q₂, hq₂, hzero⟩ := hinv.queuedRec r List.mem_cons_self
    obtain rfl := Option.some.inj (hq₁.symm.trans hq₂)
    exact absurd hzero hst

lemma Prog.Opens.sized (h : p.Opens r n p₁) (hgood : Good p.aio) : p₁.aio.Sized r (toInt32 n) := by
  obtain ⟨hhead, o, hsize, hstep, hended⟩ := h
  obtain ⟨hact, -⟩ := Prog.aio_step hstep
  obtain ⟨q, hq⟩ := hgood.get?_readHead hhead
  generalize p₁.aio = a at hact hended
  cases (AioState.fires_of_step hact).2 with
  | readOne _ size cs hpc =>
    simp only [AioState.readOne, hhead, hq, hsize] at hended ⊢
    split_ifs at hended ⊢
    · cases hended
    · cases hended
    · exact ⟨_, Heap.last?_of_get? (Heap.get?_set_self hq), rfl, by simp⟩

/-- The size stays, whatever happens. -/
lemma Prog.sized_of_reaches {ok : Prog → Label → Prop}
    (h : Reaches Prog.step ok p p')
    (hp : Reaches Prog.step anyLabel (Prog.init srcName dstName batchSize) p)
    (hsized : p.aio.Sized r x) : p'.aio.Sized r x := by
  refine h.invariant_of (J := fun u => Good u.aio ∧ Locks u) (I := fun u => u.aio.Sized r x)
    (fun u hu => ?_) (fun {u l u'} hj _ hsized _ hstep => ?_) hsized
  · have hreach := hp.trans (hu.weaken fun _ _ _ => trivial)
    exact ⟨Prog.good_of_reaches hreach, .of_reaches hreach⟩
  · rcases Prog.manager_step hj.2 hstep with heq | ⟨act, ha, -⟩
    · rwa [heq]
    · exact hsized.step hj.1 ha

/-- A check that passes has seen the widened size. -/
lemma Prog.Passes.res_eq (h : p.Passes e p') (hsized : p.aio.Sized e.data x) :
    e.res = toUlong x := by
  obtain ⟨⟨rest, hpc⟩, hstep, hended⟩ := h
  obtain ⟨q, hq, hsize, -⟩ := hsized
  obtain ⟨hact, -⟩ := Prog.aio_step hstep
  generalize p'.aio = a at hact hended
  cases (AioState.fires_of_step hact).2 with
  | handleEvent e' rest' hpc' =>
    obtain ⟨rfl, rfl⟩ := List.cons.inj (AioPc.handle.inj (hpc.symm.trans hpc'))
    rw [AioState.handleEvent] at hended
    cases hget : p.aio.reqs.get? e.data with
    | none =>
      rw [hget] at hended
      cases hended
    | some req =>
      obtain rfl := Option.some.inj (hq.symm.trans (Heap.last?_of_get? hget))
      by_contra hne
      rw [hget] at hended
      dsimp only at hended
      rw [if_pos (by rw [hsize]; exact hne)] at hended
      cases hended

/-- The results of a run are among those that the kernel may report. -/
lemma Prog.completed_of_reaches
    (h : Reaches Prog.step Prog.Reports (Prog.init srcName dstName batchSize) p) :
    Completed (fun c res => KernelResult c.nbytes res) p.aio := by
  refine h.invariant_of (J := fun u => Good u.aio ∧ Locks u)
    (I := fun u => Completed (fun c res => KernelResult c.nbytes res) u.aio) (fun u hu => ?_)
    (fun {u l u'} hj _ hcomp hl hstep => ?_) (.init _ _)
  · have hreach := hu.weaken fun _ _ _ => trivial
    exact ⟨Prog.good_of_reaches hreach, .of_reaches hreach⟩
  · rcases Prog.manager_step hj.2 hstep with heq | ⟨act, ha, hact⟩
    · rwa [heq]
    · refine hcomp.step hj.1 (fun c res hcompl => ?_) ha
      subst hcompl
      obtain rfl := hact.resolve_left (by simp [Act.ofClient])
      exact hl

/-- A size that is cut off to a negative number other than an error code passes no check. -/
lemma Prog.Passes.le_of_reports (h : p.Passes e p')
    (hp : Reaches Prog.step Prog.Reports (Prog.init srcName dstName batchSize) p)
    (hsized : p.aio.Sized e.data x) (hx : x < 0) (hrange : -2 ^ 31 ≤ x) : -maxErrno ≤ x := by
  have hres := h.res_eq hsized
  obtain ⟨⟨rest, hpc⟩, -⟩ := h
  have hkernel := (Prog.completed_of_reaches hp).events e (by simp [AioPc.events, hpc])
  unfold KernelResult maxErrno at hkernel
  unfold toUlong at hres
  unfold maxErrno
  omega

/-- The two checks are right when the size fits, and when no check passes at all. -/
lemma SizeSound.of_lt (h : n < 2 ^ 31 ∨ toInt32 n < -maxErrno) : SizeSound n := by
  have hrange := toInt32_range n
  -- the size that a check has seen is the whole size
  have hsize : ∀ {srcName dstName : CStr} {batchSize : ℤ} {u u' : Prog} {e : IoEvent},
      Reaches Prog.step Prog.Reports (Prog.init srcName dstName batchSize) u → u.Passes e u' →
      u.aio.Sized e.data (toInt32 n) → toInt64 e.res = n := by
    intro srcName dstName batchSize u u' e hu hpasses hsized
    have hfits : n < 2 ^ 31 := h.resolve_right fun hlt => by
      have hle := hpasses.le_of_reports hu hsized (by unfold maxErrno at hlt; omega) hrange.1
      omega
    rw [hpasses.res_eq hsized, toInt64_toUlong hrange, toInt32_nat hfits]
  have hkept : ∀ {srcName dstName : CStr} {batchSize : ℤ} {p p₁ u : Prog} {r : ReqId},
      Reaches Prog.step Prog.Reports (Prog.init srcName dstName batchSize) p → p.Opens r n p₁ →
      Reaches Prog.step Prog.Reports p₁ u →
      Reaches Prog.step Prog.Reports (Prog.init srcName dstName batchSize) u ∧
        u.aio.Sized r (toInt32 n) := by
    intro srcName dstName batchSize p p₁ u r hp hopens hu
    have hany : ∀ {p : Prog},
        Reaches Prog.step Prog.Reports (Prog.init srcName dstName batchSize) p →
        Reaches Prog.step anyLabel (Prog.init srcName dstName batchSize) p :=
      fun hp => hp.weaken fun _ _ _ => trivial
    obtain ⟨-, o, -, hstep, -⟩ := id hopens
    have hp₁ := hp.tail (a := Label.aio (Act.readOne o)) trivial hstep
    exact ⟨hp₁.trans hu, Prog.sized_of_reaches hu (hany hp₁)
      (hopens.sized (Prog.good_of_reaches (hany hp)))⟩
  constructor
  · intro srcName dstName batchSize p p₁ u u' v v' r e e' hp hopens hu hpasses hr _ hv hpasses'
      hr' _
    obtain ⟨hu₀, hsized⟩ := hkept hp hopens hu
    obtain ⟨-, hstep, -⟩ := id hpasses
    have hu' := (hu.tail (a := Label.aio Act.handleEvent) trivial hstep).trans hv
    obtain ⟨hv₀, hsized'⟩ := hkept hp hopens hu'
    exact ⟨hsize hu₀ hpasses (hr ▸ hsized), hsize hv₀ hpasses' (hr' ▸ hsized')⟩
  · intro srcName dstName batchSize p p₁ u u' r e hp hopens hu hpasses hr
    obtain ⟨hu₀, hsized⟩ := hkept hp hopens hu
    rw [hsize hu₀ hpasses (hr ▸ hsized)]
    exact Int.natCast_nonneg n

end

/-! ## The copy of one file of any size -/

section

variable {p : Prog} {n buf : ℕ} {x : ℤ}

/-- The contents of the only request, before its read and during the two transfers. -/
def queued : CopyRequest := ⟨['a'], ['b'], -1, -1, 0, 0, none, 0⟩

def reading (x : ℤ) (buf : ℕ) : CopyRequest :=
  { queued with srcFd := 3, fsize := x, buffer := buf, state := 1 }

/-- The two control blocks. -/
def readBlock (x : ℤ) (buf : ℕ) : Iocb := ⟨0, .pread, 3, buf, toUlong x, 0, 0⟩
def writeBlock (x : ℤ) (buf : ℕ) : Iocb := ⟨1, .pwrite, 4, buf, toUlong x, 0, 0⟩

/-- The read loop at its first iteration, with the only request of the run. -/
structure ReadsFirst (a : AioState) : Prop where
  mgr : a.mgr = ⟨some 0, none, 1, 1, 0, 0, true, 1, 1, some .aio, some .aio⟩
  req : a.reqs.get? 0 = some queued
  iocbs : a.iocbs.next = 0
  flight : a.flight = []
  maps : a.maps = []
  openFds : a.openFds = ∅
  reqCount : a.reqCount = 1
  pc : a.pc = .readLoop 1 []
  ended : a.ended = none

lemma exists_readsFirst : ∃ p : Prog,
    Reaches Prog.step Prog.Reports (Prog.init ['a'] ['b'] 1) p ∧ ReadsFirst p.aio := by
  have hrun : ∃ p, exec Prog.step (Prog.init ['a'] ['b'] 1)
      [.initManager true, .startThread true, .stat (some .reg), .bumpReqCount, .copyReg,
        .addLock true, .addLink, .addUnlock true, .walkEnd, .waitLock true, .waitSet,
        .waitUnlock true, .aio .lockFlush, .aio (.getEvents []), .aio .checkDone,
        .aio .lockRequest, .aio .readSize] = some p ∧ ReadsFirst p.aio := by
    refine ⟨_, rfl, ?_⟩
    constructor <;> rfl
  obtain ⟨p, hp, hfirst⟩ := hrun
  exact ⟨p, reaches_of_exec_mem (by simp [Prog.Reports]) hp, hfirst⟩

/-- The first iteration of the read loop. -/
def opening (p : Prog) (n buf : ℕ) : Prog :=
  { p with aio := p.aio.startRead 0 queued 3 n buf 1 [] }

lemma ReadsFirst.opens (h : ReadsFirst p.aio) (hn : n < 2 ^ 63)
    (hbuf : MmapAnswer [] (toUlong (toInt32 n)) buf) (hbuf0 : buf ≠ 0) :
    p.Opens 0 n (opening p n buf) := by
  refine ⟨by rw [h.mgr], ⟨3, some n, buf⟩, rfl, ?_, h.ended⟩
  have hposs : (AioState.ReadAnswer.mk 3 (some n) buf).Possible p.aio := by
    refine ⟨fun _ => by simp [h.openFds], fun m hm => ?_⟩
    obtain rfl := Option.some.inj hm
    exact ⟨hn, h.maps ▸ hbuf⟩
  simp [Prog.step, Prog.aioStep, h.ended, AioState.loopStep, h.pc, hposs, AioState.readOne, h.mgr,
    h.req, hbuf0, opening]

/-- The event of the only transfer is about to be handled. -/
structure Returned (a : AioState) (c : Iocb) (q : CopyRequest) : Prop where
  mgr : a.mgr = ⟨none, none, 1, 0, 0, 0, true, 1, 1, none, some .aio⟩
  req : a.reqs.get? 0 = some q
  iocbs : a.iocbs.next = c.addr + 1
  flight : a.flight = []
  openFds : a.openFds = {c.fd}
  reqCount : a.reqCount = 1
  pc : a.pc = .handle [⟨c, c.nbytes⟩]
  ended : a.ended = none

lemma ReadsFirst.reads (h : ReadsFirst p.aio) (hx : toInt32 n = x)
    (hres : KernelResult (toUlong x) (toUlong x)) :
    ∃ u : Prog, Reaches Prog.step Prog.Reports (opening p n buf) u ∧
      Returned u.aio (readBlock x buf) (reading x buf) := by
  have hlt : toUlong x < 18446744073709551616 := by unfold toUlong; omega
  have hrun : ∃ u : Prog, exec Prog.step (opening p n buf)
    ([.readSubmit 1, .unlockRequest, .writeSize, .unlockFlush,
      .complete (readBlock x buf) (toUlong x), .lockFlush,
      .getEvents [⟨readBlock x buf, toUlong x⟩]].map Label.aio) = some u ∧
      Returned u.aio (readBlock x buf) (reading x buf) := by
    simp [Prog.step, Prog.aioStep, h.ended, AioState.loopStep, h.mgr, hx, hlt, readBlock, opening,
      AioState.startRead, AioState.submit, AioState.accepted, AioState.ioPrepPread, h.iocbs,
      h.flight,
      AioState.completeStep, AioState.unlockRequest, AioState.writeSize, AioState.chooseWriteSize,
      AioState.unlockFlush, AioState.lockFlush,
      AioState.getEvents, Op.pending, IoEvent.op]
    constructor <;> simp [queued, reading, Heap.alloc, h.iocbs, h.openFds, h.reqCount,
      Heap.get?_set_self h.req]
  obtain ⟨u, hu, hret⟩ := hrun
  refine ⟨u, reaches_of_exec_mem (fun l hl s => ?_) hu, hret⟩
  obtain ⟨act, hact, rfl⟩ := List.mem_map.mp hl
  cases act with
  | complete c res =>
    obtain ⟨rfl, rfl⟩ : c = readBlock x buf ∧ res = toUlong x := by simpa using hact
    exact hres
  | _ => trivial

lemma Returned.passes {c : Iocb} {q : CopyRequest} (h : Returned p.aio c q) (hdata : c.data = 0)
    (hq : toUlong q.fsize = c.nbytes) : ∃ p' : Prog, p.Passes ⟨c, c.nbytes⟩ p' ∧
      (q.state = 1 → p'.aio = p.aio.finishRead ⟨c, c.nbytes⟩ q []) := by
  have hstep : p.step (.aio .handleEvent) =
      some { p with aio := p.aio.handleEvent ⟨c, c.nbytes⟩ [] } := by
    simp [Prog.step, Prog.aioStep, h.ended, AioState.loopStep, h.pc]
  have hevent : p.aio.handleEvent ⟨c, c.nbytes⟩ [] =
      if q.state = 1 then p.aio.finishRead ⟨c, c.nbytes⟩ q []
      else if q.state = 2 then p.aio.finishWrite ⟨c, c.nbytes⟩ q []
      else { p.aio with iocbs := p.aio.iocbs.free c.addr, pc := .handle [] } := by
    simp [AioState.handleEvent, IoEvent.data, hdata, h.req, hq]
  refine ⟨_, ⟨⟨[], h.pc⟩, hstep, ?_⟩, fun hst => ?_⟩
  · dsimp only
    rw [hevent]
    split_ifs <;> exact h.ended
  · dsimp only
    rw [hevent, if_pos hst]

lemma Returned.writes (h : Returned p.aio (readBlock x buf) (reading x buf))
    (hres : KernelResult (toUlong x) (toUlong x)) {p' : Prog}
    (hp' : p'.aio = p.aio.finishRead ⟨readBlock x buf, toUlong x⟩ (reading x buf) []) :
    ∃ u : Prog, Reaches Prog.step Prog.Reports p' u ∧
      Returned u.aio (writeBlock x buf) { reading x buf with dstFd := 4, state := 2 } := by
  have hlt : toUlong x < 18446744073709551616 := by unfold toUlong; omega
  have hone : toInt32 1 = 1 := by decide
  have hset : ∀ q, (p.aio.reqs.set 0 q).get? 0 = some q := fun q => Heap.get?_set_self h.req
  have hset₂ : ∀ q q', ((p.aio.reqs.set 0 q).set 0 q').get? 0 = some q' := fun q q' =>
    Heap.get?_set_self (hset q)
  have hnext : p.aio.iocbs.next = 1 := h.iocbs
  have hrun : ∃ u : Prog, exec Prog.step p'
    ([.checkDone, .lockRequest, .readSize, .unlockRequest, .writeSize, .writeOne 4, .writeSubmit 1,
      .unlockFlush,
      .complete (writeBlock x buf) (toUlong x), .lockFlush,
      .getEvents [⟨writeBlock x buf, toUlong x⟩]].map Label.aio) = some u ∧
      Returned u.aio (writeBlock x buf) { reading x buf with dstFd := 4, state := 2 } := by
    simp [Prog.step, Prog.aioStep, h.ended, AioState.loopStep, h.mgr, hlt, readBlock, writeBlock,
      hp', AioState.finishRead,
      AioState.checkDone, AioState.stopTest, h.reqCount, AioState.lockRequest, AioState.readSize,
      AioState.chooseReadSize,
      AioState.startWrite, AioState.writeOne, AioState.submit, AioState.accepted,
      AioState.ioPrepPwrite, h.flight,
      AioState.completeStep, AioState.unlockRequest, AioState.writeSize, AioState.chooseWriteSize,
      AioState.unlockFlush, AioState.lockFlush,
      AioState.getEvents, Op.pending, IoEvent.op, h.openFds, IoEvent.data, hset, hone, reading,
      queued, hnext]
    exact ⟨rfl, hset₂ _ _, by simp [hnext], rfl, rfl, rfl, rfl, rfl⟩
  obtain ⟨u, hu, hret⟩ := hrun
  refine ⟨u, reaches_of_exec_mem (fun l hl s => ?_) hu, hret⟩
  obtain ⟨act, hact, rfl⟩ := List.mem_map.mp hl
  cases act with
  | complete c res =>
    obtain ⟨rfl, rfl⟩ : c = writeBlock x buf ∧ res = toUlong x := by simpa using hact
    exact hres
  | _ => trivial

/-- Unless the length is zero or too long, `mmap` may succeed. -/
lemma exists_mmapAnswer (hx : x < 2 ^ 31) : ∃ buf, MmapAnswer [] (toUlong x) buf ∧ buf ≠ 0 := by
  rcases lt_or_ge 0 x with hpos | hneg
  · refine ⟨pageSize, Or.inr ⟨?_, by decide, dvd_rfl, ?_, by simp⟩, by decide⟩
    · unfold toUlong
      omega
    · unfold toUlong pageSize addressLimit
      omega
  · exact ⟨mapFailed, Or.inl rfl, by decide⟩

/-- Otherwise a copy is cut off, or takes an error code for success. -/
lemma not_sizeSound (hn : n < 2 ^ 63) (hlarge : 2 ^ 31 ≤ n) (hx : -maxErrno ≤ toInt32 n) :
    ¬ SizeSound n := by
  intro hsound
  have hrange := toInt32_range n
  obtain ⟨p, hp, hfirst⟩ := exists_readsFirst
  generalize hxn : toInt32 n = x at hx hrange
  obtain ⟨buf, hbuf, hbuf0⟩ := exists_mmapAnswer hrange.2
  have hres : KernelResult (toUlong x) (toUlong x) := by
    unfold maxErrno at hx
    unfold KernelResult maxErrno toUlong
    omega
  obtain ⟨u, hu, hret⟩ : ∃ u : Prog, Reaches Prog.step Prog.Reports (opening p n buf) u ∧
      Returned u.aio (readBlock x buf) (reading x buf) := hfirst.reads hxn hres
  obtain ⟨u', hpasses, hnext⟩ := hret.passes rfl rfl
  have hopens := hfirst.opens hn (hxn ▸ hbuf) hbuf0
  rcases lt_or_ge x 0 with hneg | hpos
  · have hle := hsound.noError hp hopens hu hpasses rfl
    rw [readBlock, toInt64_toUlong hrange] at hle
    omega
  · obtain ⟨v, hv, hret'⟩ := hret.writes hres (hnext rfl)
    obtain ⟨v', hpasses', -⟩ := hret'.passes rfl rfl
    have heq := (hsound.exact hp hopens hu hpasses rfl rfl hv hpasses' rfl rfl).1
    rw [readBlock, toInt64_toUlong hrange] at heq
    omega

end

/-- **When the checks are right**: the size fits into an `int`, or the number that it is cut off
to is no result of a transfer. -/
theorem sizeSound_iff (n : ℕ) (hn : n < 2 ^ 63) :
    SizeSound n ↔ n < 2 ^ 31 ∨ toInt32 n < -maxErrno := by
  constructor
  · intro hsound
    by_contra hcon
    obtain ⟨hlarge, hx⟩ := not_or.mp hcon
    exact not_sizeSound hn (not_lt.mp hlarge) (not_lt.mp hx) hsound
  · exact SizeSound.of_lt

/-- The condition for 4 GiB and 5 bytes. -/
theorem sizeSound_iff_of_cut : 2 ^ 32 + 5 < 2 ^ 63 ∧
    (SizeSound (2 ^ 32 + 5) ↔ 2 ^ 32 + 5 < 2 ^ 31 ∨ toInt32 ((2 ^ 32 + 5 : ℕ) : ℤ) < -maxErrno) :=
  ⟨by decide, sizeSound_iff (2 ^ 32 + 5) (by decide)⟩

/-- Five bytes are copied of a file of 4 GiB and 5 bytes, and both checks pass. -/
theorem not_sizeSound_of_cut : ¬ ∀ n : ℕ, n < 2 ^ 63 → SizeSound n := fun hall =>
  not_sizeSound (n := 2 ^ 32 + 5) (by decide) (by decide) (by decide)
    (hall (2 ^ 32 + 5) (by decide))

end Cpr
