/-
# What a step does to the requests

In a state of a run, most steps leave the requests, their control blocks and their buffers
alone.  `Moves` lists the others, with everything the invariant knows about them; every
later invariant about requests is proved by cases on it.
-/
import Cpr.Manager.Safety

namespace Cpr

/-- What a step of a run does to the requests. -/
inductive Moves (a : AioState) : Act → AioState → Prop
  /-- Nothing. -/
  | same {act : Act} {a' : AioState} (requests : SameRequests a a') (iocbs : a'.iocbs = a.iocbs)
      (maps : a'.maps = a.maps) (openFds : a'.ended = none → a'.openFds = a.openFds) :
      Moves a act a'
  | reap (events : List IoEvent) (hpc : a.pc = .getEvents)
      (hsub : (events.map IoEvent.op).Subperm a.flight) :
      Moves a (.getEvents events)
        { a with
          flight := a.flight.diff (events.map IoEvent.op)
          pc := .handle events
          log := (events.map fun e => .reaped e.obj e.res).reverse ++ a.log }
  | finishRead (e : IoEvent) (rest : List IoEvent) (q : CopyRequest)
      (hpc : a.pc = .handle (e :: rest)) (hq : a.reqs.get? e.data = some q)
      (hop : e.obj.opcode = .pread) (hst : q.state = 1) (hres : e.res = toUlong q.fsize) :
      Moves a .handleEvent (a.finishRead e q rest)
  | finishWrite (e : IoEvent) (rest : List IoEvent) (q : CopyRequest)
      (hpc : a.pc = .handle (e :: rest)) (hq : a.reqs.get? e.data = some q)
      (hop : e.obj.opcode = .pwrite) (hst : q.state = 2) (hres : e.res = toUlong q.fsize) :
      Moves a .handleEvent (a.finishWrite e q rest)
  | startRead (o : AioState.ReadAnswer) (size : ℤ) (cs : List Iocb) (r : ReqId)
      (curr : CopyRequest) (stSize : ℕ) (hpc : a.pc = .readLoop size cs)
      (hhead : a.mgr.readHead = some r) (hcurr : a.reqs.get? r = some curr)
      (hst : curr.state = 0) (hposs : o.Possible a) (hfd : 0 ≤ o.fd)
      (hstSize : o.stSize = some stSize) (hbuf : o.buf ≠ 0) :
      Moves a (.readOne o) (a.startRead r curr o.fd stSize o.buf size cs)
  | submit {act : Act} {a' : AioState} (cs ds : List Iocb) (taken : a.pc.taken = cs ++ ds)
      (taken' : a'.pc.taken = ds) (accepted : a'.ended = none → ds = [])
      (events : a.pc.events = []) (events' : a'.pc.events = [])
      (flight : a'.flight = cs.map Op.pending ++ a.flight)
      (log : a'.log = (cs.map Obs.submitted).reverse ++ a.log)
      (mainReq : a'.mainReq = a.mainReq) (reqs : a'.reqs = a.reqs) (mgr : a'.mgr = a.mgr)
      (iocbs : a'.iocbs = a.iocbs) (maps : a'.maps = a.maps) (openFds : a'.openFds = a.openFds) :
      Moves a act a'
  | startWrite (fd size : ℤ) (cs : List Iocb) (r : ReqId) (curr : CopyRequest)
      (hpc : a.pc = .writeLoop size cs) (hhead : a.mgr.writeHead = some r)
      (hcurr : a.reqs.get? r = some curr) (hst : curr.state = 1) (hfd : 0 ≤ fd)
      (hfresh : fd ∉ a.openFds) :
      Moves a (.writeOne fd) (a.startWrite r curr fd size cs)
  | complete (c : Iocb) (res : ℕ) (hmem : .pending c ∈ a.flight) (hres : res < 2 ^ 64) :
      Moves a (.complete c res) { a with flight := ⟨c, some res⟩ :: a.flight.erase (.pending c) }
  | newRequest (srcName dstName : CStr) :
      Moves a (.newRequest srcName dstName) (a.newRequest srcName dstName)
  | linkIn (r : ReqId) (q : CopyRequest) (hr : a.mainReq = some r)
      (hq : a.reqs.get? r = some q) : Moves a (.addCopyReq r) (a.linkIn r q)

namespace Moves

variable {a a' : AioState} {act : Act} {xs ys : List ReqId} {b : Belt Stage ReqId}

/-- A step that changes only `pc`, between places with no control block, or `ended`. -/
lemma of_quiet (e : SameRequests a a') (iocbs : a'.iocbs = a.iocbs) (maps : a'.maps = a.maps)
    (openFds : a'.openFds = a.openFds) : Moves a act a' :=
  .same e iocbs maps fun _ => openFds

lemma handleEvent (h : Inv a xs ys b) {e : IoEvent} {rest : List IoEvent}
    (hpc : a.pc = .handle (e :: rest)) : Moves a .handleEvent (a.handleEvent e rest) := by
  have hmem : e.obj ∈ a.refs := by simp [AioState.refs, hpc]
  obtain ⟨q, hq, -⟩ := h.refRec e.obj hmem
  have hq' : a.reqs.get? e.data = some q := hq
  rw [AioState.handleEvent, hq']
  by_cases hres : e.res ≠ toUlong q.fsize
  · simp only [if_pos hres]
    exact of_quiet ⟨rfl, rfl, rfl, rfl, rfl, rfl, rfl, rfl, rfl, rfl, rfl, rfl⟩ rfl rfl rfl
  · simp only [if_neg hres]
    rcases h.opcode_of_state hmem hq with ⟨hst, hop⟩ | ⟨hst, hop⟩
    · rw [if_pos hst]
      exact .finishRead e rest q hpc hq' hop hst (not_not.mp hres)
    · rw [if_neg (by omega), if_pos hst]
      exact .finishWrite e rest q hpc hq' hop hst (not_not.mp hres)

lemma readOne (h : Inv a xs ys b) (hl : LoopInv a xs ys) {o : AioState.ReadAnswer} {size : ℤ}
    {cs : List Iocb} (hpc : a.pc = .readLoop size cs) (hended : a.ended = none)
    (hlt : (cs.length : ℤ) < size) (hposs : o.Possible a) :
    Moves a (.readOne o) (a.readOne o size cs) := by
  obtain ⟨r, tl, q, rfl, hhead, hq, hst⟩ := Good.readHead h hl hpc hended hlt
  simp only [AioState.readOne, hhead, hq]
  by_cases hfd : o.fd < 0
  · rw [if_pos hfd]
    exact of_quiet ⟨rfl, rfl, rfl, rfl, rfl, rfl, rfl, rfl, rfl, rfl, rfl, rfl⟩ rfl rfl rfl
  · rw [if_neg hfd]
    cases hsize : o.stSize with
    | none =>
      exact .same ⟨rfl, rfl, rfl, rfl, rfl, rfl, rfl, rfl, rfl, rfl, rfl, rfl⟩ rfl rfl
        (by simp [AioState.exit])
    | some stSize =>
      dsimp only
      split_ifs with hbuf
      · exact .same ⟨rfl, rfl, rfl, rfl, rfl, rfl, rfl, rfl, rfl, rfl, rfl, rfl⟩ rfl rfl
          (by simp [AioState.exit])
      · exact .startRead o size cs r q stSize hpc hhead hq hst hposs (not_lt.mp hfd) hsize hbuf

lemma writeOne (h : Inv a xs ys b) (hl : LoopInv a xs ys) {fd size : ℤ} {cs : List Iocb}
    (hpc : a.pc = .writeLoop size cs) (hended : a.ended = none)
    (hlt : (cs.length : ℤ) < size) (hfresh : 0 ≤ fd → fd ∉ a.openFds) :
    Moves a (.writeOne fd) (a.writeOne fd size cs) := by
  obtain ⟨r, tl, q, rfl, hhead, hq, hst⟩ := Good.writeHead h hl hpc hended hlt
  simp only [AioState.writeOne, hhead, hq]
  by_cases hfd : fd < 0
  · rw [if_pos hfd]
    exact of_quiet ⟨rfl, rfl, rfl, rfl, rfl, rfl, rfl, rfl, rfl, rfl, rfl, rfl⟩ rfl rfl rfl
  · rw [if_neg hfd]
    exact .startWrite fd size cs r q hpc hhead hq hst (not_lt.mp hfd) (hfresh (not_lt.mp hfd))

/-- Submission, for either loop: `stop` is the loop itself. -/
lemma of_submit {ret size : ℤ} {cs : List Iocb} {next : AioPc} {stop : List Iocb → AioPc}
    (htaken : a.pc.taken = cs) (hevents : a.pc.events = []) (hlen : (cs.length : ℤ) ≤ size)
    (hge : size ≤ cs.length) (hnext : next.taken = [] ∧ next.events = [])
    (hstop : ∀ ds, (stop ds).taken = ds ∧ (stop ds).events = []) :
    Moves a act (a.submit ret size cs next stop) := by
  have hsplit : a.pc.taken = AioState.accepted ret cs ++ cs.drop ret.toNat := by
    rw [htaken]
    exact (List.take_append_drop _ _).symm
  by_cases hret : ret ≠ size
  · rw [AioState.submit, if_pos hret]
    exact .submit _ _ hsplit (hstop _).1 (by simp [AioState.exit]) hevents (hstop _).2 rfl rfl rfl
      rfl rfl rfl rfl rfl
  · rw [AioState.submit, if_neg hret]
    have hdrop := (Good.accepted_of_eq hge hlen (not_not.mp hret)).2
    exact .submit _ _ hsplit (hnext.1.trans hdrop.symm) (fun _ => hdrop) hevents hnext.2 rfl rfl
      rfl rfl rfl rfl rfl rfl

end Moves

/-- **What a step of a run does to the requests.** -/
theorem Good.moves {a a' : AioState} {act : Act} (hgood : Good a)
    (hstep : a.step act = some a') : Moves a act a' := by
  obtain ⟨xs, ys, b, h, hl⟩ := hgood
  obtain ⟨hended, hfires⟩ := AioState.fires_of_step hstep
  cases hfires with
  | lockFlush hpc | unlockBreak hpc | lockRequest hpc | unlockRequest hpc | unlockFlush hpc
  | startThread hpc =>
    refine .of_quiet ⟨rfl, rfl, rfl, rfl, rfl, rfl, rfl, rfl, ?_, ?_, rfl, rfl⟩ rfl rfl rfl <;>
    · rw [hpc]
      rfl
  | getEvents events hpc hten hsub => exact .reap events hpc hsub
  | handleEvent e rest hpc => exact .handleEvent h hpc
  | checkDone hpc =>
    refine .of_quiet ⟨rfl, rfl, rfl, rfl, rfl, rfl, rfl, rfl, ?_, ?_, rfl, rfl⟩ rfl rfl rfl <;>
    · simp only [AioState.checkDone, hpc]
      split_ifs <;> rfl
  | readSize hpc =>
    refine .of_quiet ⟨rfl, rfl, rfl, rfl, rfl, rfl, rfl, rfl, ?_, ?_, rfl, rfl⟩ rfl rfl rfl <;>
    · simp only [AioState.readSize, hpc]
      split_ifs <;> rfl
  | readOne o size cs hpc hlt hposs => exact .readOne h hl hpc hended hlt hposs
  | readSubmit ret size cs hpc hge =>
    exact .of_submit (by rw [hpc]; rfl) (by rw [hpc]; rfl)
      ((hl.readLoop size cs hpc).2 hended).1 hge
      ⟨rfl, rfl⟩ fun _ => ⟨rfl, rfl⟩
  | writeSize hpc =>
    refine .of_quiet ⟨rfl, rfl, rfl, rfl, rfl, rfl, rfl, rfl, ?_, ?_, rfl, rfl⟩ rfl rfl rfl <;>
    · simp only [AioState.writeSize, hpc]
      split_ifs <;> rfl
  | writeOne fd size cs hpc hlt hfd => exact .writeOne h hl hpc hended hlt hfd
  | writeSubmit ret size cs hpc hge =>
    exact .of_submit (by rw [hpc]; rfl) (by rw [hpc]; rfl)
      ((hl.writeLoop size cs hpc).2 hended).1 hge
      ⟨rfl, rfl⟩ fun _ => ⟨rfl, rfl⟩
  | complete c res hmem hres => exact .complete c res hmem hres
  | newRequest srcName dstName => exact .newRequest srcName dstName
  | addCopyReq r hheld hr =>
    obtain ⟨q, hq, hlink⟩ := h.addCopyReq_eq hr
    rw [hlink]
    exact .linkIn r q hr hq
  | clientLockRequest | clientUnlockRequest | clientLockFlush | clientUnlockFlush
  | bumpReqCount | setFlush | exit =>
    exact .of_quiet ⟨rfl, rfl, rfl, rfl, rfl, rfl, rfl, rfl, rfl, rfl, rfl, rfl⟩ rfl rfl rfl

end Cpr
