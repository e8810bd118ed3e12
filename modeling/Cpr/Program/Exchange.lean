/-
# Steps of `aio_loop` that can be exchanged with steps of `add_copy_req`

While the main thread holds `request_mutex`, `aio_loop` and the kernel do not notice it, nor
that a request is linked into the read list: what they do then they can do before, with the
same result.  Only the history has the two steps in the other order.
-/
import Cpr.Program.Refine

namespace Cpr

namespace AioState

variable (a : AioState)

/-- The state with another history. -/
def relog (log : Log) : AioState := { a with log := log }

lemma relog_handleEvent (log : Log) (e : IoEvent) (rest : List IoEvent) :
    ∃ log', (a.relog log).handleEvent e rest = (a.handleEvent e rest).relog log' := by
  have hreqs : (a.relog log).reqs = a.reqs := rfl
  rw [handleEvent, handleEvent, hreqs]
  cases a.reqs.get? e.data with
  | none => exact ⟨_, rfl⟩
  | some req =>
    dsimp only
    split_ifs <;> exact ⟨_, rfl⟩

lemma relog_readOne (log : Log) (o : ReadAnswer) (size : ℤ) (cs : List Iocb) :
    ∃ log', (a.relog log).readOne o size cs = (a.readOne o size cs).relog log' := by
  have hhead : (a.relog log).mgr.readHead = a.mgr.readHead := rfl
  have hreqs : (a.relog log).reqs = a.reqs := rfl
  rw [readOne, readOne, hhead, hreqs]
  cases a.mgr.readHead with
  | none => exact ⟨_, rfl⟩
  | some r =>
    dsimp only
    cases a.reqs.get? r with
    | none => exact ⟨_, rfl⟩
    | some curr =>
      cases o.stSize <;> dsimp only <;> split_ifs <;> exact ⟨_, rfl⟩

lemma relog_writeOne (log : Log) (fd size : ℤ) (cs : List Iocb) :
    ∃ log', (a.relog log).writeOne fd size cs = (a.writeOne fd size cs).relog log' := by
  have hhead : (a.relog log).mgr.writeHead = a.mgr.writeHead := rfl
  have hreqs : (a.relog log).reqs = a.reqs := rfl
  rw [writeOne, writeOne, hhead, hreqs]
  cases a.mgr.writeHead with
  | none => exact ⟨_, rfl⟩
  | some r =>
    dsimp only
    cases a.reqs.get? r with
    | none => exact ⟨_, rfl⟩
    | some curr =>
      dsimp only
      split_ifs <;> exact ⟨_, rfl⟩

lemma relog_submit (log : Log) (ret size : ℤ) (cs : List Iocb) (next : AioPc)
    (stop : List Iocb → AioPc) : ∃ log', (a.relog log).submit ret size cs next stop =
      (a.submit ret size cs next stop).relog log' := by
  rw [submit, submit]
  split_ifs <;> exact ⟨_, rfl⟩

variable {a} {b : AioState} {act : Act}

lemma aioStep_of_fires (h : Fires a act b) (hact : act.ofClient = false) :
    Prog.aioStep a act = some b := by
  cases h with
  | startThread | bumpReqCount | newRequest | clientLockRequest | addCopyReq
  | clientUnlockRequest | clientLockFlush | setFlush | clientUnlockFlush | exit =>
    simp [Act.ofClient] at hact
  | lockFlush hpc hfree => simp [Prog.aioStep, loopStep, AioState.lockFlush, hpc, hfree]
  | getEvents events hpc hten hsub =>
    simp [Prog.aioStep, loopStep, AioState.getEvents, hpc, hten, hsub]
  | handleEvent e rest hpc => simp [Prog.aioStep, loopStep, hpc]
  | checkDone hpc => simp [Prog.aioStep, loopStep, hpc]
  | unlockBreak hpc => simp [Prog.aioStep, loopStep, hpc, AioState.unlockFlush]
  | lockRequest hpc hfree => simp [Prog.aioStep, loopStep, AioState.lockRequest, hpc, hfree]
  | readSize hpc => simp [Prog.aioStep, loopStep, hpc]
  | readOne o size cs hpc hlt hposs => simp [Prog.aioStep, loopStep, hpc, hlt, hposs]
  | readSubmit ret size cs hpc hge hret => simp [Prog.aioStep, loopStep, hpc, hge, hret]
  | unlockRequest hpc => simp [Prog.aioStep, loopStep, hpc, AioState.unlockRequest]
  | writeSize hpc => simp [Prog.aioStep, loopStep, hpc]
  | writeOne fd size cs hpc hlt hfd => 
    simp only [Prog.aioStep, loopStep, hpc]
    exact if_pos ⟨hlt, hfd⟩
  | writeSubmit ret size cs hpc hge hret => simp [Prog.aioStep, loopStep, hpc, hge, hret]
  | unlockFlush hpc => simp [Prog.aioStep, loopStep, hpc, AioState.unlockFlush]
  | complete c res hmem hres => exact if_pos ⟨hmem, hres⟩

/-- No step of `aio_loop` or of the kernel reads the history. -/
lemma Fires.relog (h : Fires a act b) (hact : act.ofClient = false) (log : Log) :
    ∃ log', Fires (a.relog log) act (b.relog log') := by
  cases h with
  | startThread | bumpReqCount | newRequest | clientLockRequest | addCopyReq
  | clientUnlockRequest | clientLockFlush | setFlush | clientUnlockFlush | exit =>
    simp [Act.ofClient] at hact
  | lockFlush hpc hfree => exact ⟨log, .lockFlush hpc hfree⟩
  | getEvents events hpc hten hsub => exact ⟨_, .getEvents events hpc hten hsub⟩
  | handleEvent e rest hpc =>
    obtain ⟨log', heq⟩ := a.relog_handleEvent log e rest
    exact ⟨log', heq ▸ .handleEvent e rest hpc⟩
  | checkDone hpc => exact ⟨log, .checkDone hpc⟩
  | unlockBreak hpc => exact ⟨log, .unlockBreak hpc⟩
  | lockRequest hpc hfree => exact ⟨log, .lockRequest hpc hfree⟩
  | readSize hpc => exact ⟨log, .readSize hpc⟩
  | readOne o size cs hpc hlt hposs =>
    obtain ⟨log', heq⟩ := a.relog_readOne log o size cs
    exact ⟨log', heq ▸ .readOne o size cs hpc hlt hposs⟩
  | readSubmit ret size cs hpc hge hret =>
    obtain ⟨log', heq⟩ := a.relog_submit log ret size cs .unlockRequest (.readLoop size)
    exact ⟨log', heq ▸ .readSubmit ret size cs hpc hge hret⟩
  | unlockRequest hpc => exact ⟨log, .unlockRequest hpc⟩
  | writeSize hpc => exact ⟨log, .writeSize hpc⟩
  | writeOne fd size cs hpc hlt hfd =>
    obtain ⟨log', heq⟩ := a.relog_writeOne log fd size cs
    exact ⟨log', heq ▸ .writeOne fd size cs hpc hlt hfd⟩
  | writeSubmit ret size cs hpc hge hret =>
    obtain ⟨log', heq⟩ := a.relog_submit log ret size cs .unlockFlush (.writeLoop size)
    exact ⟨log', heq ▸ .writeSubmit ret size cs hpc hge hret⟩
  | unlockFlush hpc => exact ⟨log, .unlockFlush hpc⟩
  | complete c res hmem hres => exact ⟨log, .complete c res hmem hres⟩

end AioState

namespace AioState

variable {a b : AioState} {act : Act}

/-! ## Exchanging a step of `aio_loop` with a step of `add_copy_req` -/

/-- The main thread takes `request_mutex`. -/
def hold (a : AioState) : AioState :=
  { a with mgr := { a.mgr with requestMutex := some .main } }

lemma hold_handleEvent (e : IoEvent) (rest : List IoEvent) :
    a.hold.handleEvent e rest = (a.handleEvent e rest).hold := by
  have hreqs : a.hold.reqs = a.reqs := rfl
  rw [handleEvent, handleEvent, hreqs]
  cases a.reqs.get? e.data with
  | none => rfl
  | some req =>
    dsimp only
    split_ifs <;> rfl

lemma hold_writeOne (fd size : ℤ) (cs : List Iocb) :
    a.hold.writeOne fd size cs = (a.writeOne fd size cs).hold := by
  have hhead : a.hold.mgr.writeHead = a.mgr.writeHead := rfl
  have hreqs : a.hold.reqs = a.reqs := rfl
  rw [writeOne, writeOne, hhead, hreqs]
  cases a.mgr.writeHead with
  | none => rfl
  | some r =>
    dsimp only
    cases a.reqs.get? r with
    | none => rfl
    | some curr =>
      dsimp only
      split_ifs <;> rfl

lemma hold_submit (ret size : ℤ) (cs : List Iocb) (next : AioPc) (stop : List Iocb → AioPc) :
    a.hold.submit ret size cs next stop = (a.submit ret size cs next stop).hold := by
  rw [submit, submit]
  split_ifs <;> rfl

/-- What `aio_loop` and the kernel do while the main thread has just taken `request_mutex`,
they can do before. -/
lemma Fires.of_hold (h : Fires a.hold act b) (hact : act.ofClient = false)
    (hpc : a.pc.holdsRequest = false) :
    ∃ b', Fires a act b' ∧ b'.mgr.requestMutex = a.mgr.requestMutex ∧ b = b'.hold := by
  cases h with
  | startThread | bumpReqCount | newRequest | clientLockRequest | addCopyReq
  | clientUnlockRequest | clientLockFlush | setFlush | clientUnlockFlush | exit =>
    simp [Act.ofClient] at hact
  | readSize hat | readOne _ _ _ hat | readSubmit _ _ _ hat | unlockRequest hat =>
    rw [show a.pc = _ from hat] at hpc
    simp [AioPc.holdsRequest] at hpc
  | lockRequest hat hfree => exact absurd hfree (by simp [hold])
  | lockFlush hat hfree => exact ⟨_, .lockFlush hat hfree, rfl, rfl⟩
  | getEvents events hat hten hsub => exact ⟨_, .getEvents events hat hten hsub, rfl, rfl⟩
  | handleEvent e rest hat =>
    exact ⟨_, .handleEvent e rest hat, (a.handleEvent_facts e rest).2.1, hold_handleEvent e rest⟩
  | checkDone hat => exact ⟨_, .checkDone hat, rfl, rfl⟩
  | unlockBreak hat => exact ⟨_, .unlockBreak hat, rfl, rfl⟩
  | writeSize hat => exact ⟨_, .writeSize hat, rfl, rfl⟩
  | writeOne fd size cs hat hlt hfd =>
    exact ⟨_, .writeOne fd size cs hat hlt hfd, (a.writeOne_facts fd size cs).2.1,
      hold_writeOne fd size cs⟩
  | writeSubmit ret size cs hat hge hret =>
    exact ⟨_, .writeSubmit ret size cs hat hge hret,
      congrArg AioManager.requestMutex (a.submit_facts ret size cs _ _).1,
      hold_submit ret size cs _ _⟩
  | unlockFlush hat => exact ⟨_, .unlockFlush hat, rfl, rfl⟩
  | complete c res hmem hres => exact ⟨_, .complete c res hmem hres, rfl, rfl⟩

/-! ### Linking the request in -/

variable {r : ReqId} {q : CopyRequest}

lemma linkIn_handleEvent {e : IoEvent} (rest : List IoEvent) (hne : e.data ≠ r)
    (hq : a.reqs.get? r = some q) : (a.handleEvent e rest).reqs.get? r = some q ∧
      ∃ log, (a.linkIn r q).handleEvent e rest = ((a.handleEvent e rest).linkIn r q).relog log := by
  have hreqs : (a.linkIn r q).reqs.get? e.data = a.reqs.get? e.data := Heap.get?_set_of_ne hne
  rw [handleEvent, handleEvent, hreqs]
  cases a.reqs.get? e.data with
  | none => exact ⟨hq, _, rfl⟩
  | some req =>
    dsimp only
    split_ifs
    · exact ⟨hq, _, rfl⟩
    · refine ⟨by simpa [finishRead, Heap.get?_set_of_ne hne.symm] using hq,
        .accepted r :: a.log, ?_⟩
      simp only [finishRead, linkIn, relog, Heap.set_set_comm hne]
    · refine ⟨by simpa [finishWrite, Heap.get?_free_of_ne hne.symm] using hq,
        .finished e.data :: .accepted r :: a.log, ?_⟩
      simp only [finishWrite, linkIn, relog, Heap.free_set_comm hne]
    · exact ⟨hq, _, rfl⟩

lemma linkIn_writeOne (fd size : ℤ) (cs : List Iocb) (hne : ∀ w ∈ a.mgr.writeHead, w ≠ r)
    (hq : a.reqs.get? r = some q) : (a.writeOne fd size cs).reqs.get? r = some q ∧
      ∃ log, (a.linkIn r q).writeOne fd size cs =
        ((a.writeOne fd size cs).linkIn r q).relog log := by
  have hhead : (a.linkIn r q).mgr.writeHead = a.mgr.writeHead := rfl
  rw [writeOne, writeOne, hhead]
  cases hw : a.mgr.writeHead with
  | none => exact ⟨hq, _, rfl⟩
  | some w =>
    have hwr : w ≠ r := hne w hw
    have hreqs : (a.linkIn r q).reqs.get? w = a.reqs.get? w := Heap.get?_set_of_ne hwr
    dsimp only
    rw [hreqs]
    cases a.reqs.get? w with
    | none => exact ⟨hq, _, rfl⟩
    | some curr =>
      dsimp only
      split_ifs
      · exact ⟨hq, _, rfl⟩
      · refine ⟨by simpa [startWrite, Heap.get?_set_of_ne hwr.symm] using hq,
          .accepted r :: a.log, ?_⟩
        simp only [startWrite, linkIn, relog, Heap.set_set_comm hwr]

lemma linkIn_submit (ret size : ℤ) (cs : List Iocb) (next : AioPc) (stop : List Iocb → AioPc) :
    (a.submit ret size cs next stop).reqs = a.reqs ∧
      ∃ log, (a.linkIn r q).submit ret size cs next stop =
        ((a.submit ret size cs next stop).linkIn r q).relog log := by
  rw [submit, submit]
  split_ifs <;> exact ⟨rfl, _, rfl⟩

/-- The request of the main thread is not in the write list. -/
lemma writeHead_ne_mainReq (hgood : Good a) (hr : a.mainReq = some r) :
    ∀ w ∈ a.mgr.writeHead, w ≠ r := by
  obtain ⟨xs, ys, belt, hinv, -⟩ := hgood
  rintro w hw rfl
  obtain ⟨tl, rfl⟩ := (hw ▸ hinv.writeList).cons_of_some
  exact (hinv.mainReq w hr).1 (hinv.mem_accepted_of_holds .toWrite (by simp [hinv.toWrite]))

/-- What `aio_loop` and the kernel do after the main thread has linked its request in, they can
do before. -/
lemma Fires.of_linkIn (h : Fires (a.linkIn r q) act b) (hact : act.ofClient = false)
    (hpc : a.pc.holdsRequest = false) (hheld : a.mgr.requestMutex = some .main) (hgood : Good a)
    (hr : a.mainReq = some r) (hq : a.reqs.get? r = some q) :
    ∃ b' log, Fires a act b' ∧ b'.reqs.get? r = some q ∧ b = (b'.linkIn r q).relog log := by
  cases h with
  | startThread | bumpReqCount | newRequest | clientLockRequest | addCopyReq
  | clientUnlockRequest | clientLockFlush | setFlush | clientUnlockFlush | exit =>
    simp [Act.ofClient] at hact
  | readSize hat | readOne _ _ _ hat | readSubmit _ _ _ hat | unlockRequest hat =>
    rw [show a.pc = _ from hat] at hpc
    simp [AioPc.holdsRequest] at hpc
  | lockRequest hat hfree => exact absurd (hheld.symm.trans hfree) (by simp)
  | lockFlush hat hfree => exact ⟨_, _, .lockFlush hat hfree, hq, rfl⟩
  | getEvents events hat hten hsub => exact ⟨_, _, .getEvents events hat hten hsub, hq, rfl⟩
  | handleEvent e rest hat =>
    have hne : e.data ≠ r := by
      obtain ⟨xs, ys, belt, hinv, -⟩ := hgood
      have hmem : e.obj ∈ a.refs := by
        rw [refs, show a.pc = .handle (e :: rest) from hat]
        simp
      rintro rfl
      exact (hinv.mainReq _ hr).1
        (hinv.mem_accepted_of_holds _ (hinv.mem_holds_of_mem_refs hmem))
    obtain ⟨hq', log, heq⟩ := linkIn_handleEvent rest hne hq
    exact ⟨_, log, .handleEvent e rest hat, hq', heq⟩
  | checkDone hat => exact ⟨_, _, .checkDone hat, hq, rfl⟩
  | unlockBreak hat => exact ⟨_, _, .unlockBreak hat, hq, rfl⟩
  | writeSize hat => exact ⟨_, _, .writeSize hat, hq, rfl⟩
  | writeOne fd size cs hat hlt hfd =>
    obtain ⟨hq', log, heq⟩ := linkIn_writeOne fd size cs (writeHead_ne_mainReq hgood hr) hq
    exact ⟨_, log, .writeOne fd size cs hat hlt hfd, hq', heq⟩
  | writeSubmit ret size cs hat hge hret =>
    obtain ⟨hreqs, log, heq⟩ := linkIn_submit ret size cs .unlockFlush (.writeLoop size)
    exact ⟨_, log, .writeSubmit ret size cs hat hge hret, by rw [hreqs, hq], heq⟩
  | unlockFlush hat => exact ⟨_, _, .unlockFlush hat, hq, rfl⟩
  | complete c res hmem hres => exact ⟨_, _, .complete c res hmem hres, hq, rfl⟩

/-! ## Setting `flush` -/

/-- While the main thread holds `flush_mutex`, only the kernel moves. -/
lemma Fires.eq_complete (h : Fires a act b) (hact : act.ofClient = false)
    (hheld : a.mgr.flushMutex = some .main) (hpc : a.pc.holdsFlush = false) :
    ∃ c res, act = .complete c res ∧ Op.pending c ∈ a.flight ∧ res < 2 ^ 64 ∧
      b = { a with flight := ⟨c, some res⟩ :: a.flight.erase (.pending c) } := by
  cases h with
  | startThread | bumpReqCount | newRequest | clientLockRequest | addCopyReq
  | clientUnlockRequest | clientLockFlush | setFlush | clientUnlockFlush | exit =>
    simp [Act.ofClient] at hact
  | lockFlush _ hfree => simp [hheld] at hfree
  | getEvents _ hat | handleEvent _ _ hat | checkDone hat | unlockBreak hat | lockRequest hat
  | readSize hat | readOne _ _ _ hat | readSubmit _ _ _ hat | unlockRequest hat | writeSize hat
  | writeOne _ _ _ hat | writeSubmit _ _ _ hat | unlockFlush hat =>
    simp [hat, AioPc.holdsFlush] at hpc
  | complete c res hmem hres => exact ⟨c, res, rfl, hmem, hres, rfl⟩

end AioState

end Cpr
