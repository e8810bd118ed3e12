/-
# The two mutexes

Which thread holds which mutex is a function of where the two threads are.  From this
invariant follow: the program never deadlocks, every unlock is done by the holder, no
thread waits for `flush_mutex` while it holds `request_mutex`, and both mutexes are free
when they are destroyed.  It also makes every step of the program a step of the manager.
-/
import Cpr.Manager.Safety
import Cpr.Program.Step

namespace Cpr

open Transition

/-- `aio_loop` holds `flush_mutex` here. -/
def AioPc.holdsFlush : AioPc → Bool
  | .notStarted | .lockFlush | .returned => false
  | _ => true

/-- `aio_loop` holds `request_mutex` here. -/
def AioPc.holdsRequest : AioPc → Bool
  | .readSize | .readLoop _ _ | .unlockRequest => true
  | _ => false

/-- The main thread holds `flush_mutex` here. -/
def MainPc.holdsFlush : MainPc → Bool
  | .waitSet | .waitUnlock => true
  | _ => false

/-- The main thread holds `request_mutex` here. -/
def MainPc.holdsRequest : MainPc → Bool
  | .addLink | .addUnlock => true
  | _ => false

/-- The thread does not exist yet. -/
def MainPc.beforeStart : MainPc → Bool
  | .initManager | .startThread => true
  | _ => false

/-- The main thread is inside the body of the loop of `copy_internal`. -/
def MainPc.inBody : MainPc → Bool
  | .mkdir | .opendir | .readdir | .closedir | .bumpReqCount | .copyReg | .addLock | .addLink
  | .addUnlock => true
  | _ => false

/-- An action of the client. -/
def Act.ofClient : Act → Bool
  | .startThread | .bumpReqCount | .newRequest _ _ | .clientLockRequest | .addCopyReq _
  | .clientUnlockRequest | .clientLockFlush | .setFlush | .clientUnlockFlush | .exit _ => true
  | _ => false

/-- Which thread holds which mutex. -/
structure Locks (p : Prog) : Prop where
  aioFlush : p.aio.mgr.flushMutex = some .aio ↔ p.aio.pc.holdsFlush = true
  aioRequest : p.aio.mgr.requestMutex = some .aio ↔ p.aio.pc.holdsRequest = true
  mainFlush : p.aio.mgr.flushMutex = some .main ↔ p.pc.holdsFlush = true
  mainRequest : p.aio.mgr.requestMutex = some .main ↔ p.pc.holdsRequest = true
  started : p.aio.pc = .notStarted ↔ p.pc.beforeStart = true
  inBody : p.pc.inBody = true → p.queue ≠ []
  mainReq : p.pc = .addLock ∨ p.pc = .addLink → p.aio.mainReq.isSome
  joined : p.pc = .destroy → p.aio.pc = .returned

namespace Prog

variable {p p' : Prog} {a a' : AioState} {act : Act} {l : Label}

/-- A step of `aio_loop` or of the kernel is a step of the manager, and not of its client. -/
lemma step_of_aioStep (hended : a.ended = none) (h : aioStep a act = some a') :
    a.step act = some a' ∧ act.ofClient = false := by
  unfold AioState.step
  rw [if_neg (by simp [hended])]
  cases act with
  | complete c res => exact ⟨h, rfl⟩
  | startThread | bumpReqCount | newRequest | clientLockRequest | addCopyReq
  | clientUnlockRequest | clientLockFlush | setFlush | clientUnlockFlush | exit =>
    simp [aioStep, AioState.loopStep] at h
  | _ =>
    simp only [aioStep] at h
    exact ⟨by simp only [h, Option.some_or], rfl⟩

end Prog

/-! ## The steps of `aio_loop` -/

section AioSteps

variable {a a' : AioState} {act : Act}

lemma AioState.handleEvent_facts (e : IoEvent) (rest : List IoEvent) :
    (a.handleEvent e rest).mgr.flushMutex = a.mgr.flushMutex ∧
      (a.handleEvent e rest).mgr.requestMutex = a.mgr.requestMutex ∧
      (a.handleEvent e rest).mainReq = a.mainReq ∧
      ((a.handleEvent e rest).pc = a.pc ∨ (a.handleEvent e rest).pc = .handle rest) := by
  unfold AioState.handleEvent
  cases a.reqs.get? e.data with
  | none => exact ⟨rfl, rfl, rfl, Or.inl rfl⟩
  | some q =>
    dsimp only
    split_ifs
    · exact ⟨rfl, rfl, rfl, Or.inl rfl⟩
    · exact ⟨rfl, rfl, rfl, Or.inr rfl⟩
    · exact ⟨rfl, rfl, rfl, Or.inr rfl⟩
    · exact ⟨rfl, rfl, rfl, Or.inr rfl⟩

lemma AioState.readOne_facts (o : AioState.ReadAnswer) (size : ℤ) (cs : List Iocb) :
    (a.readOne o size cs).mgr.flushMutex = a.mgr.flushMutex ∧
      (a.readOne o size cs).mgr.requestMutex = a.mgr.requestMutex ∧
      (a.readOne o size cs).mainReq = a.mainReq ∧
      ((a.readOne o size cs).pc = a.pc ∨ ∃ ds, (a.readOne o size cs).pc = .readLoop size ds) := by
  unfold AioState.readOne
  cases a.mgr.readHead with
  | none => exact ⟨rfl, rfl, rfl, Or.inl rfl⟩
  | some r =>
    cases hr : a.reqs.get? r with
    | none =>
      simp only [hr]
      exact ⟨rfl, rfl, rfl, Or.inl rfl⟩
    | some curr =>
      simp only [hr]
      by_cases hfd : o.fd < 0
      · rw [if_pos hfd]
        exact ⟨rfl, rfl, rfl, Or.inl rfl⟩
      · rw [if_neg hfd]
        cases o.stSize with
        | none => exact ⟨rfl, rfl, rfl, Or.inl rfl⟩
        | some n =>
          dsimp only
          split_ifs
          · exact ⟨rfl, rfl, rfl, Or.inl rfl⟩
          · exact ⟨rfl, rfl, rfl, Or.inr ⟨_, rfl⟩⟩

lemma AioState.writeOne_facts (fd size : ℤ) (cs : List Iocb) :
    (a.writeOne fd size cs).mgr.flushMutex = a.mgr.flushMutex ∧
      (a.writeOne fd size cs).mgr.requestMutex = a.mgr.requestMutex ∧
      (a.writeOne fd size cs).mainReq = a.mainReq ∧
      ((a.writeOne fd size cs).pc = a.pc ∨
        ∃ ds, (a.writeOne fd size cs).pc = .writeLoop size ds) := by
  unfold AioState.writeOne
  cases a.mgr.writeHead with
  | none => exact ⟨rfl, rfl, rfl, Or.inl rfl⟩
  | some r =>
    cases hr : a.reqs.get? r with
    | none =>
      simp only [hr]
      exact ⟨rfl, rfl, rfl, Or.inl rfl⟩
    | some curr =>
      simp only [hr]
      split_ifs
      · exact ⟨rfl, rfl, rfl, Or.inl rfl⟩
      · exact ⟨rfl, rfl, rfl, Or.inr ⟨_, rfl⟩⟩

lemma AioState.submit_facts (ret size : ℤ) (cs : List Iocb) (next : AioPc)
    (stop : List Iocb → AioPc) :
    (a.submit ret size cs next stop).mgr = a.mgr ∧
      (a.submit ret size cs next stop).mainReq = a.mainReq ∧
      ((a.submit ret size cs next stop).pc = next ∨
        ∃ ds, (a.submit ret size cs next stop).pc = stop ds) := by
  unfold AioState.submit
  split_ifs
  · exact ⟨rfl, rfl, Or.inr ⟨_, rfl⟩⟩
  · exact ⟨rfl, rfl, Or.inl rfl⟩

/-- What a step of `aio_loop`, or of the kernel, means for the mutexes. -/
structure AioLocks (a a' : AioState) : Prop where
  flush : a'.mgr.flushMutex = some .aio ↔ a'.pc.holdsFlush = true
  request : a'.mgr.requestMutex = some .aio ↔ a'.pc.holdsRequest = true
  mainFlush : a'.mgr.flushMutex = some .main ↔ a.mgr.flushMutex = some .main
  mainRequest : a'.mgr.requestMutex = some .main ↔ a.mgr.requestMutex = some .main
  started : a'.pc = .notStarted ↔ a.pc = .notStarted
  mainReq : a'.mainReq = a.mainReq

/-- A step that leaves the mutexes alone and moves between places that hold the same. -/
lemma AioLocks.of_same (hflush : a.mgr.flushMutex = some .aio ↔ a.pc.holdsFlush = true)
    (hrequest : a.mgr.requestMutex = some .aio ↔ a.pc.holdsRequest = true)
    (hmflush : a'.mgr.flushMutex = a.mgr.flushMutex)
    (hmrequest : a'.mgr.requestMutex = a.mgr.requestMutex) (hmainReq : a'.mainReq = a.mainReq)
    (hpc : a'.pc.holdsFlush = a.pc.holdsFlush ∧ a'.pc.holdsRequest = a.pc.holdsRequest ∧
      (a'.pc = .notStarted ↔ a.pc = .notStarted)) : AioLocks a a' where
  flush := by rw [hmflush, hpc.1]; exact hflush
  request := by rw [hmrequest, hpc.2.1]; exact hrequest
  mainFlush := by rw [hmflush]
  mainRequest := by rw [hmrequest]
  started := hpc.2.2
  mainReq := hmainReq

lemma aioLocks_of_fires (h : AioState.Fires a act a') (hact : act.ofClient = false)
    (hflush : a.mgr.flushMutex = some .aio ↔ a.pc.holdsFlush = true)
    (hrequest : a.mgr.requestMutex = some .aio ↔ a.pc.holdsRequest = true) : AioLocks a a' := by
  cases h with
  | startThread | bumpReqCount | newRequest | clientLockRequest | addCopyReq
  | clientUnlockRequest | clientLockFlush | setFlush | clientUnlockFlush | exit =>
    simp [Act.ofClient] at hact
  | lockFlush hpc hfree =>
    exact ⟨by simp [AioPc.holdsFlush], by simpa [hpc, AioPc.holdsRequest] using hrequest,
      by simp [hfree], Iff.rfl, by simp [hpc], rfl⟩
  | unlockBreak hpc =>
    have hheld : a.mgr.flushMutex = some .aio := hflush.mpr (by rw [hpc]; rfl)
    exact ⟨by simp [AioPc.holdsFlush], by simpa [hpc, AioPc.holdsRequest] using hrequest,
      by simp [hheld], Iff.rfl, by simp [hpc], rfl⟩
  | unlockFlush hpc =>
    have hheld : a.mgr.flushMutex = some .aio := hflush.mpr (by rw [hpc]; rfl)
    exact ⟨by simp [AioPc.holdsFlush], by simpa [hpc, AioPc.holdsRequest] using hrequest,
      by simp [hheld], Iff.rfl, by simp [hpc], rfl⟩
  | lockRequest hpc hfree =>
    exact ⟨by simpa [hpc, AioPc.holdsFlush] using hflush, by simp [AioPc.holdsRequest],
      Iff.rfl, by simp [hfree], by simp [hpc], rfl⟩
  | unlockRequest hpc =>
    have hheld : a.mgr.requestMutex = some .aio := hrequest.mpr (by rw [hpc]; rfl)
    exact ⟨by simpa [hpc, AioPc.holdsFlush] using hflush, by simp [AioPc.holdsRequest],
      Iff.rfl, by simp [hheld], by simp [hpc], rfl⟩
  | getEvents events hpc =>
    exact .of_same hflush hrequest rfl rfl rfl (by rw [hpc]; simp [AioPc.holdsFlush,
      AioPc.holdsRequest])
  | complete => exact .of_same hflush hrequest rfl rfl rfl ⟨rfl, rfl, Iff.rfl⟩
  | checkDone hpc =>
    refine .of_same hflush hrequest rfl rfl rfl ?_
    rw [hpc, AioState.checkDone]
    split_ifs <;> simp [AioPc.holdsFlush, AioPc.holdsRequest]
  | readSize hpc =>
    refine .of_same hflush hrequest rfl rfl rfl ?_
    rw [hpc, AioState.readSize]
    split_ifs <;> simp [AioPc.holdsFlush, AioPc.holdsRequest]
  | writeSize hpc =>
    refine .of_same hflush hrequest rfl rfl rfl ?_
    rw [hpc, AioState.writeSize]
    split_ifs <;> simp [AioPc.holdsFlush, AioPc.holdsRequest]
  | handleEvent e rest hpc =>
    obtain ⟨h₁, h₂, h₃, h₄⟩ := a.handleEvent_facts e rest
    refine .of_same hflush hrequest h₁ h₂ h₃ ?_
    rcases h₄ with h₄ | h₄ <;> simp [h₄, hpc, AioPc.holdsFlush, AioPc.holdsRequest]
  | readOne o size cs hpc =>
    obtain ⟨h₁, h₂, h₃, h₄⟩ := a.readOne_facts o size cs
    refine .of_same hflush hrequest h₁ h₂ h₃ ?_
    rcases h₄ with h₄ | ⟨ds, h₄⟩ <;> simp [h₄, hpc, AioPc.holdsFlush, AioPc.holdsRequest]
  | writeOne fd size cs hpc =>
    obtain ⟨h₁, h₂, h₃, h₄⟩ := a.writeOne_facts fd size cs
    refine .of_same hflush hrequest h₁ h₂ h₃ ?_
    rcases h₄ with h₄ | ⟨ds, h₄⟩ <;> simp [h₄, hpc, AioPc.holdsFlush, AioPc.holdsRequest]
  | readSubmit ret size cs hpc =>
    obtain ⟨h₁, h₂, h₃⟩ := a.submit_facts ret size cs .unlockRequest (.readLoop size)
    refine .of_same hflush hrequest (by rw [h₁]) (by rw [h₁]) h₂ ?_
    rcases h₃ with h₃ | ⟨ds, h₃⟩ <;> simp [h₃, hpc, AioPc.holdsFlush, AioPc.holdsRequest]
  | writeSubmit ret size cs hpc =>
    obtain ⟨h₁, h₂, h₃⟩ := a.submit_facts ret size cs .unlockFlush (.writeLoop size)
    refine .of_same hflush hrequest (by rw [h₁]) (by rw [h₁]) h₂ ?_
    rcases h₃ with h₃ | ⟨ds, h₃⟩ <;> simp [h₃, hpc, AioPc.holdsFlush, AioPc.holdsRequest]

/-- `aio_loop` does nothing after its return. -/
lemma returned_of_fires (h : AioState.Fires a act a') (hact : act.ofClient = false)
    (hret : a.pc = .returned) : a'.pc = .returned := by
  cases h with
  | complete => exact hret
  | startThread | bumpReqCount | newRequest | clientLockRequest | addCopyReq
  | clientUnlockRequest | clientLockFlush | setFlush | clientUnlockFlush | exit =>
    simp [Act.ofClient] at hact
  | lockFlush hpc | getEvents _ hpc | handleEvent _ _ hpc | checkDone hpc | unlockBreak hpc
  | lockRequest hpc | readSize hpc | readOne _ _ _ hpc | readSubmit _ _ _ hpc
  | unlockRequest hpc | writeSize hpc | writeOne _ _ _ hpc | writeSubmit _ _ _ hpc
  | unlockFlush hpc =>
    simp [hret] at hpc

end AioSteps

/-! ## The invariant -/

namespace Locks

variable {p p' : Prog} {l : Label}

lemma init (srcName dstName : CStr) (batchSize : ℤ) :
    Locks (Prog.init srcName dstName batchSize) := by
  constructor <;> simp [Prog.init, AioState.init, AioPc.holdsFlush, AioPc.holdsRequest,
    MainPc.holdsFlush, MainPc.holdsRequest, MainPc.beforeStart, MainPc.inBody]

/-- A step of the main thread that takes and releases nothing. -/
lemma of_main (h : Locks p) (haio : p'.aio.pc = p.aio.pc)
    (hflush : p'.aio.mgr.flushMutex = p.aio.mgr.flushMutex)
    (hrequest : p'.aio.mgr.requestMutex = p.aio.mgr.requestMutex)
    (hpc : p'.pc.holdsFlush = p.pc.holdsFlush ∧ p'.pc.holdsRequest = p.pc.holdsRequest ∧
      p'.pc.beforeStart = p.pc.beforeStart)
    (hbody : p'.pc.inBody = true → p'.queue ≠ [])
    (hreq : p'.pc = .addLock ∨ p'.pc = .addLink → p'.aio.mainReq.isSome)
    (hjoin : p'.pc = .destroy → p'.aio.pc = .returned) : Locks p' where
  aioFlush := by rw [haio, hflush]; exact h.aioFlush
  aioRequest := by rw [haio, hrequest]; exact h.aioRequest
  mainFlush := by rw [hflush, hpc.1]; exact h.mainFlush
  mainRequest := by rw [hrequest, hpc.2.1]; exact h.mainRequest
  started := by rw [haio, hpc.2.2]; exact h.started
  inBody := hbody
  mainReq := hreq
  joined := hjoin

lemma step (h : Locks p) (hstep : p.step l = some p') : Locks p' := by
  obtain ⟨hended, hfires⟩ := Prog.fires_of_step hstep
  cases hfires with
  | aio act a ha =>
    obtain ⟨hact, hclient⟩ := Prog.step_of_aioStep hended ha
    have ha' := aioLocks_of_fires (AioState.fires_of_step hact).2 hclient h.aioFlush h.aioRequest
    exact
      { aioFlush := ha'.flush
        aioRequest := ha'.request
        mainFlush := ha'.mainFlush.trans h.mainFlush
        mainRequest := ha'.mainRequest.trans h.mainRequest
        started := ha'.started.trans h.started
        inBody := h.inBody
        mainReq := fun hpc => by rw [ha'.mainReq]; exact h.mainReq hpc
        joined := fun hpc =>
          returned_of_fires (AioState.fires_of_step hact).2 hclient (h.joined hpc) }
  | fail | readdirSkip | readdirExit =>
    exact h.of_main rfl rfl rfl ⟨rfl, rfl, rfl⟩ h.inBody h.mainReq h.joined
  | initManager hpc | walkEnd hpc =>
    refine h.of_main rfl rfl rfl ?_ ?_ ?_ ?_ <;>
    simp [hpc, MainPc.holdsFlush, MainPc.holdsRequest, MainPc.beforeStart, MainPc.inBody]
  | join hpc hret =>
    refine h.of_main rfl rfl rfl ?_ ?_ ?_ (fun _ => hret) <;>
    simp [hpc, MainPc.holdsFlush, MainPc.holdsRequest, MainPc.beforeStart, MainPc.inBody]
  | destroy hpc =>
    refine h.of_main rfl rfl rfl ?_ ?_ ?_ (fun _ => h.joined hpc) <;>
    simp [hpc, MainPc.holdsFlush, MainPc.holdsRequest, MainPc.beforeStart, MainPc.inBody]
  | startThread hpc =>
    -- the new thread starts in front of its first lock
    have hns : p.aio.pc = .notStarted := h.started.mpr (by rw [hpc]; rfl)
    exact
      { aioFlush := by simpa [hns, AioPc.holdsFlush] using h.aioFlush
        aioRequest := by simpa [hns, AioPc.holdsRequest] using h.aioRequest
        mainFlush := by simpa [hpc, MainPc.holdsFlush] using h.mainFlush
        mainRequest := by simpa [hpc, MainPc.holdsRequest] using h.mainRequest
        started := by simp [MainPc.beforeStart]
        inBody := by simp [MainPc.inBody]
        mainReq := by simp
        joined := by simp }
  | statDir curr rest hpc hqueue | statReg curr rest hpc hqueue =>
    refine h.of_main rfl rfl rfl ?_ (fun _ => by simp [hqueue]) (by simp) (by simp)
    simp [hpc, MainPc.holdsFlush, MainPc.holdsRequest, MainPc.beforeStart]
  | statOther curr rest k hpc hqueue =>
    exact h.of_main rfl rfl rfl ⟨rfl, rfl, rfl⟩ (by simp [hpc, MainPc.inBody]) (by simp [hpc])
      (by simp [hpc])
  | mkdir hpc | opendir hpc | readdirEnd hpc =>
    have hqueue : p.queue ≠ [] := h.inBody (by rw [hpc]; rfl)
    refine h.of_main rfl rfl rfl ?_ (fun _ => hqueue) (by simp) (by simp)
    simp [hpc, MainPc.holdsFlush, MainPc.holdsRequest, MainPc.beforeStart]
  | readdirEnqueue curr rest name dtype hpc =>
    exact h.of_main rfl rfl rfl ⟨rfl, rfl, rfl⟩ (by simp) (by simp [hpc]) (by simp [hpc])
  | closedir hpc =>
    refine h.of_main rfl rfl rfl ?_ (by simp [Prog.next, MainPc.inBody]) (by simp [Prog.next])
      (by simp [Prog.next])
    simp [hpc, Prog.next, MainPc.holdsFlush, MainPc.holdsRequest, MainPc.beforeStart]
  | bumpReqCount hpc =>
    have hqueue : p.queue ≠ [] := h.inBody (by rw [hpc]; rfl)
    refine h.of_main rfl rfl rfl ?_ (fun _ => hqueue) (by simp) (by simp)
    simp [hpc, MainPc.holdsFlush, MainPc.holdsRequest, MainPc.beforeStart]
  | copyReg curr rest hpc hqueue =>
    refine h.of_main rfl rfl rfl ?_ (fun _ => by simp [hqueue]) (by simp [AioState.newRequest])
      (by simp)
    simp [hpc, MainPc.holdsFlush, MainPc.holdsRequest, MainPc.beforeStart]
  | addLock hpc hfree =>
    have hqueue : p.queue ≠ [] := h.inBody (by rw [hpc]; rfl)
    exact
      { aioFlush := h.aioFlush
        aioRequest := by simpa [hfree] using h.aioRequest
        mainFlush := by simpa [hpc, MainPc.holdsFlush] using h.mainFlush
        mainRequest := by simp [MainPc.holdsRequest]
        started := by simpa [hpc, MainPc.beforeStart] using h.started
        inBody := fun _ => hqueue
        mainReq := fun _ => h.mainReq (Or.inl hpc)
        joined := by simp }
  | addLink r hpc hr =>
    have hqueue : p.queue ≠ [] := h.inBody (by rw [hpc]; rfl)
    -- a freed request would crash here, and still neither mutex would change hands
    have hfacts : (p.aio.addCopyReq r).pc = p.aio.pc ∧
        (p.aio.addCopyReq r).mgr.flushMutex = p.aio.mgr.flushMutex ∧
        (p.aio.addCopyReq r).mgr.requestMutex = p.aio.mgr.requestMutex := by
      unfold AioState.addCopyReq
      cases p.aio.reqs.get? r <;> exact ⟨rfl, rfl, rfl⟩
    refine h.of_main hfacts.1 hfacts.2.1 hfacts.2.2 ?_ (fun _ => hqueue) (by simp) (by simp)
    simp [hpc, MainPc.holdsFlush, MainPc.holdsRequest, MainPc.beforeStart]
  | addUnlock hpc =>
    have hheld : p.aio.mgr.requestMutex = some .main := h.mainRequest.mpr (by rw [hpc]; rfl)
    exact
      { aioFlush := h.aioFlush
        aioRequest := by simpa [AioState.unlockRequest, hheld] using h.aioRequest
        mainFlush := by
          simpa [hpc, Prog.next, AioState.unlockRequest, MainPc.holdsFlush] using h.mainFlush
        mainRequest := by simp [AioState.unlockRequest, Prog.next, MainPc.holdsRequest]
        started := by
          simpa [hpc, Prog.next, AioState.unlockRequest, MainPc.beforeStart] using h.started
        inBody := by simp [Prog.next, MainPc.inBody]
        mainReq := by simp [Prog.next]
        joined := by simp [Prog.next] }
  | waitLock hpc hfree =>
    exact
      { aioFlush := by simpa [hfree] using h.aioFlush
        aioRequest := h.aioRequest
        mainFlush := by simp [MainPc.holdsFlush]
        mainRequest := by simpa [hpc, MainPc.holdsRequest] using h.mainRequest
        started := by simpa [hpc, MainPc.beforeStart] using h.started
        inBody := by simp [MainPc.inBody]
        mainReq := by simp
        joined := by simp }
  | waitSet hpc =>
    refine h.of_main rfl rfl rfl ?_ (by simp [MainPc.inBody]) (by simp) (by simp)
    simp [hpc, MainPc.holdsFlush, MainPc.holdsRequest, MainPc.beforeStart]
  | waitUnlock hpc =>
    have hheld : p.aio.mgr.flushMutex = some .main := h.mainFlush.mpr (by rw [hpc]; rfl)
    exact
      { aioFlush := by simpa [AioState.unlockFlush, hheld] using h.aioFlush
        aioRequest := h.aioRequest
        mainFlush := by simp [AioState.unlockFlush, MainPc.holdsFlush]
        mainRequest := by
          simpa [hpc, AioState.unlockFlush, MainPc.holdsRequest] using h.mainRequest
        started := by simpa [hpc, AioState.unlockFlush, MainPc.beforeStart] using h.started
        inBody := by simp [MainPc.inBody]
        mainReq := by simp
        joined := by simp }

theorem of_reaches {srcName dstName : CStr} {batchSize : ℤ}
    (h : Reaches Prog.step anyLabel (Prog.init srcName dstName batchSize) p) : Locks p :=
  h.invariant (fun hs _ hstep => hs.step hstep) (init _ _ _)

end Locks

end Cpr
