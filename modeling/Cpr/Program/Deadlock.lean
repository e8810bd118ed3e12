/-
# No deadlock, and mutexes that are free when they are destroyed
-/
import Cpr.Program.Locks

namespace Cpr

open Transition Unix

/-- A step of one of the two threads, in which the mutex operations and `pthread_join`
succeed. -/
def Label.ofThread : Label → Bool
  | .aio (.complete _ _) => false
  | .addLock ok | .addUnlock ok | .waitLock ok | .waitUnlock ok | .join ok => ok
  | _ => true

/-- One of the two threads can take a step. -/
def Prog.Live (p : Prog) : Prop := ∃ l : Label, l.ofThread = true ∧ (p.step l).isSome

/-- What the program never does wrong with its mutexes. -/
structure LockSafe (p : Prog) : Prop where
  live : p.aio.ended = none → p.Live
  aioWaits : p.aio.pc = .lockFlush → p.aio.mgr.requestMutex ≠ some .aio
  mainWaits : p.pc = .waitLock → p.aio.mgr.requestMutex ≠ some .main
  unlockFlush : p.aio.pc = .unlockFlush ∨ p.aio.pc = .unlockBreak →
    p.aio.mgr.flushMutex = some .aio
  unlockRequest : p.aio.pc = .unlockRequest → p.aio.mgr.requestMutex = some .aio
  addUnlock : p.pc = .addUnlock → p.aio.mgr.requestMutex = some .main
  waitUnlock : p.pc = .waitUnlock → p.aio.mgr.flushMutex = some .main
  joined : p.pc = .destroy →
    p.aio.pc = .returned ∧ p.aio.mgr.flushMutex = none ∧ p.aio.mgr.requestMutex = none

namespace Locks

variable {p : Prog}

lemma isSome_step_aio (hended : p.aio.ended = none) {act : Act}
    (h : (Prog.aioStep p.aio act).isSome) : (p.step (.aio act)).isSome := by
  rw [Prog.step, if_neg (by simp [hended])]
  simpa using h

lemma isSome_step_main (hended : p.aio.ended = none) {l : Label} (hl : ∀ act, l ≠ .aio act)
    (h : (p.mainStep l).isSome) : (p.step l).isSome := by
  unfold Prog.step
  rw [if_neg (by simp [hended])]
  cases l with
  | aio act => exact absurd rfl (hl act)
  | _ => exact h

/-- A mutex that is not free is held by one of the two threads. -/
lemma holder_cases (m : Option Thread) : m = none ∨ m = some .main ∨ m = some .aio := by
  cases m with
  | none => exact Or.inl rfl
  | some t => cases t <;> simp

/-- `aio_loop` can take a step unless it does not run or waits for the main thread. -/
lemma aio_live (h : Locks p) (hended : p.aio.ended = none) :
    p.Live ∨ p.aio.pc = .notStarted ∨ p.aio.pc = .returned ∨
      (p.aio.pc = .lockFlush ∧ p.aio.mgr.flushMutex = some .main) ∨
      (p.aio.pc = .lockRequest ∧ p.aio.mgr.requestMutex = some .main) := by
  have hlive : ∀ act, (∀ c res, act ≠ .complete c res) → (Prog.aioStep p.aio act).isSome →
      p.Live := by
    intro act hact hsome
    refine ⟨.aio act, ?_, isSome_step_aio hended hsome⟩
    cases act with
    | complete c res => exact absurd rfl (hact c res)
    | _ => rfl
  cases hpc : p.aio.pc with
  | notStarted => exact Or.inr (Or.inl rfl)
  | returned => exact Or.inr (Or.inr (Or.inl rfl))
  | lockFlush =>
    rcases holder_cases p.aio.mgr.flushMutex with hm | hm | hm
    · exact Or.inl (hlive .lockFlush (by simp)
        (by simp [Prog.aioStep, AioState.loopStep, AioState.lockFlush, hpc, hm]))
    · exact Or.inr (Or.inr (Or.inr (Or.inl ⟨rfl, hm⟩)))
    · have := h.aioFlush.mp hm
      simp [hpc, AioPc.holdsFlush] at this
  | lockRequest =>
    rcases holder_cases p.aio.mgr.requestMutex with hm | hm | hm
    · exact Or.inl (hlive .lockRequest (by simp)
        (by simp [Prog.aioStep, AioState.loopStep, AioState.lockRequest, hpc, hm]))
    · exact Or.inr (Or.inr (Or.inr (Or.inr ⟨rfl, hm⟩)))
    · have := h.aioRequest.mp hm
      simp [hpc, AioPc.holdsRequest] at this
  | getEvents =>
    exact Or.inl (hlive (.getEvents []) (by simp)
      (by simp [Prog.aioStep, AioState.loopStep, AioState.getEvents, hpc]))
  | handle events =>
    refine Or.inl ?_
    cases events with
    | nil => exact hlive .checkDone (by simp) (by simp [Prog.aioStep, AioState.loopStep, hpc])
    | cons e rest =>
      exact hlive .handleEvent (by simp) (by simp [Prog.aioStep, AioState.loopStep, hpc])
  | unlockBreak =>
    exact Or.inl (hlive .unlockBreak (by simp) (by simp [Prog.aioStep, AioState.loopStep, hpc]))
  | readSize =>
    exact Or.inl (hlive .readSize (by simp) (by simp [Prog.aioStep, AioState.loopStep, hpc]))
  | readLoop size cs =>
    refine Or.inl ?_
    by_cases hlt : (cs.length : ℤ) < size
    -- a call that fails is an answer too
    · exact hlive (.readOne ⟨-1, none, 0⟩) (by simp)
        (by simp [Prog.aioStep, AioState.loopStep, AioState.ReadAnswer.Possible, hpc, hlt])
    · exact hlive (.readSubmit cs.length) (by simp)
        (by simp [Prog.aioStep, AioState.loopStep, hpc, not_lt.mp hlt])
  | unlockRequest =>
    exact Or.inl (hlive .unlockRequest (by simp) (by simp [Prog.aioStep, AioState.loopStep, hpc]))
  | writeSize =>
    exact Or.inl (hlive .writeSize (by simp) (by simp [Prog.aioStep, AioState.loopStep, hpc]))
  | writeLoop size cs =>
    refine Or.inl ?_
    by_cases hlt : (cs.length : ℤ) < size
    · exact hlive (.writeOne (-1)) (by simp)
        (by simp [Prog.aioStep, AioState.loopStep, hpc, hlt])
    · exact hlive (.writeSubmit cs.length) (by simp)
        (by simp [Prog.aioStep, AioState.loopStep, hpc, not_lt.mp hlt])
  | unlockFlush =>
    exact Or.inl (hlive .unlockFlush (by simp) (by simp [Prog.aioStep, AioState.loopStep, hpc]))

/-- The main thread can take a step unless it waits for the other one. -/
lemma main_live (h : Locks p) (hended : p.aio.ended = none) :
    p.Live ∨ (p.pc = .addLock ∧ p.aio.mgr.requestMutex = some .aio) ∨
      (p.pc = .waitLock ∧ p.aio.mgr.flushMutex = some .aio) ∨
      (p.pc = .join ∧ p.aio.pc ≠ .returned) := by
  have hlive : ∀ l : Label, (∀ act, l ≠ .aio act) → l.ofThread = true →
      (p.mainStep l).isSome → p.Live := fun l hl hthread hsome =>
    ⟨l, hthread, isSome_step_main hended hl hsome⟩
  have hqueue : p.pc.inBody = true → ∃ curr rest, p.queue = curr :: rest := fun hbody =>
    List.exists_cons_of_ne_nil (h.inBody hbody)
  cases hpc : p.pc with
  | initManager =>
    exact Or.inl (hlive (.initManager true) (by simp) rfl (by simp [Prog.mainStep, hpc]))
  | startThread =>
    exact Or.inl (hlive (.startThread true) (by simp) rfl (by simp [Prog.mainStep, hpc]))
  | walk =>
    refine Or.inl ?_
    by_cases hnil : p.queue = []
    · exact hlive .walkEnd (by simp) rfl (by simp [Prog.mainStep, hpc, hnil])
    -- the calls of the walk return, with one answer or another
    · exact hlive (.stat (some .reg)) (by simp) rfl (by simp [Prog.mainStep, hpc, hnil])
  | mkdir => exact Or.inl (hlive (.mkdir true) (by simp) rfl (by simp [Prog.mainStep, hpc]))
  | opendir => exact Or.inl (hlive (.opendir true) (by simp) rfl (by simp [Prog.mainStep, hpc]))
  | readdir =>
    obtain ⟨curr, rest, hcurr⟩ := hqueue (by rw [hpc]; rfl)
    exact Or.inl (hlive (.readdir .finished) (by simp) rfl (by simp [Prog.mainStep, hpc, hcurr]))
  | closedir =>
    exact Or.inl (hlive (.closedir true) (by simp) rfl (by simp [Prog.mainStep, hpc]))
  | bumpReqCount =>
    exact Or.inl (hlive .bumpReqCount (by simp) rfl (by simp [Prog.mainStep, hpc]))
  | copyReg =>
    obtain ⟨curr, rest, hcurr⟩ := hqueue (by rw [hpc]; rfl)
    exact Or.inl (hlive .copyReg (by simp) rfl (by simp [Prog.mainStep, hpc, hcurr]))
  | addLock =>
    rcases holder_cases p.aio.mgr.requestMutex with hm | hm | hm
    · exact Or.inl (hlive (.addLock true) (by simp) rfl
        (by simp [Prog.mainStep, AioState.lockRequest, hpc, hm]))
    · have := h.mainRequest.mp hm
      simp [hpc, MainPc.holdsRequest] at this
    · exact Or.inr (Or.inl ⟨rfl, hm⟩)
  | addLink =>
    obtain ⟨r, hr⟩ := Option.isSome_iff_exists.mp (h.mainReq (Or.inr hpc))
    exact Or.inl (hlive .addLink (by simp) rfl (by simp [Prog.mainStep, hpc, hr]))
  | addUnlock =>
    exact Or.inl (hlive (.addUnlock true) (by simp) rfl (by simp [Prog.mainStep, hpc]))
  | waitLock =>
    rcases holder_cases p.aio.mgr.flushMutex with hm | hm | hm
    · exact Or.inl (hlive (.waitLock true) (by simp) rfl
        (by simp [Prog.mainStep, AioState.lockFlush, hpc, hm]))
    · have := h.mainFlush.mp hm
      simp [hpc, MainPc.holdsFlush] at this
    · exact Or.inr (Or.inr (Or.inl ⟨rfl, hm⟩))
  | waitSet => exact Or.inl (hlive .waitSet (by simp) rfl (by simp [Prog.mainStep, hpc]))
  | waitUnlock =>
    exact Or.inl (hlive (.waitUnlock true) (by simp) rfl (by simp [Prog.mainStep, hpc]))
  | join =>
    by_cases hret : p.aio.pc = .returned
    · exact Or.inl (hlive (.join true) (by simp) rfl (by simp [Prog.mainStep, hpc, hret]))
    · exact Or.inr (Or.inr (Or.inr ⟨rfl, hret⟩))
  | destroy => exact Or.inl (hlive (.destroy true) (by simp) rfl (by simp [Prog.mainStep, hpc]))

/-- When one thread waits for the other, the other one can go on. -/
lemma live (h : Locks p) (hended : p.aio.ended = none) : p.Live := by
  rcases h.aio_live hended with hlive | hns | hret | ⟨hpc, hm⟩ | ⟨hpc, hm⟩
  · exact hlive
  · -- before `pthread_create` the main thread waits for nothing
    have hbefore := h.started.mp hns
    rcases h.main_live hended with hlive | ⟨hpc, -⟩ | ⟨hpc, -⟩ | ⟨hpc, -⟩
    · exact hlive
    all_goals simp [hpc, MainPc.beforeStart] at hbefore
  · -- after its return, `aio_loop` holds nothing
    rcases h.main_live hended with hlive | ⟨-, hm⟩ | ⟨-, hm⟩ | ⟨-, hne⟩
    · exact hlive
    · have := h.aioRequest.mp hm
      simp [hret, AioPc.holdsRequest] at this
    · have := h.aioFlush.mp hm
      simp [hret, AioPc.holdsFlush] at this
    · exact absurd hret hne
  · -- the main thread holds `flush_mutex`
    have hholds := h.mainFlush.mp hm
    rcases h.main_live hended with hlive | ⟨hpc', -⟩ | ⟨hpc', -⟩ | ⟨hpc', -⟩
    · exact hlive
    all_goals simp [hpc', MainPc.holdsFlush] at hholds
  · -- the main thread holds `request_mutex`
    have hholds := h.mainRequest.mp hm
    rcases h.main_live hended with hlive | ⟨hpc', -⟩ | ⟨hpc', -⟩ | ⟨hpc', -⟩
    · exact hlive
    all_goals simp [hpc', MainPc.holdsRequest] at hholds

end Locks

section

variable {p : Prog} {srcName dstName : CStr} {batchSize : ℤ}

/-- **Deadlock freedom and clean release**, in every reachable state. -/
theorem lockSafe_of_reaches
    (h : Reaches Prog.step anyLabel (Prog.init srcName dstName batchSize) p) : LockSafe p := by
  have hl := Locks.of_reaches h
  refine
    { live := hl.live
      aioWaits := fun hpc hm => ?_
      mainWaits := fun hpc hm => ?_
      unlockFlush := fun hpc => hl.aioFlush.mpr ?_
      unlockRequest := fun hpc => hl.aioRequest.mpr (by rw [hpc]; rfl)
      addUnlock := fun hpc => hl.mainRequest.mpr (by rw [hpc]; rfl)
      waitUnlock := fun hpc => hl.mainFlush.mpr (by rw [hpc]; rfl)
      joined := fun hpc => ⟨hl.joined hpc, ?_, ?_⟩ }
  · have := hl.aioRequest.mp hm
    simp [hpc, AioPc.holdsRequest] at this
  · have := hl.mainRequest.mp hm
    simp [hpc, MainPc.holdsRequest] at this
  · rcases hpc with hpc | hpc <;>
    · rw [hpc]
      rfl
  · rcases Locks.holder_cases p.aio.mgr.flushMutex with hm | hm | hm
    · exact hm
    · have := hl.mainFlush.mp hm
      simp [hpc, MainPc.holdsFlush] at this
    · have := hl.aioFlush.mp hm
      simp [hl.joined hpc, AioPc.holdsFlush] at this
  · rcases Locks.holder_cases p.aio.mgr.requestMutex with hm | hm | hm
    · exact hm
    · have := hl.mainRequest.mp hm
      simp [hpc, MainPc.holdsRequest] at this
    · have := hl.aioRequest.mp hm
      simp [hl.joined hpc, AioPc.holdsRequest] at this

/-- A run in which a file is requested and copied, up to after `pthread_join`. -/
theorem lockSafe_of_reaches_joined : ∃ p : Prog,
    Reaches Prog.step anyLabel (Prog.init ['a'] ['b'] 8) p ∧ p.pc = .destroy ∧
      p.aio.pc = .returned ∧ p.aio.log.finished = [0] ∧ LockSafe p := by
  have hrun : (exec Prog.step (Prog.init ['a'] ['b'] 8)
      [.initManager true, .startThread true, .stat (some .reg), .bumpReqCount, .copyReg,
        .addLock true, .addLink, .addUnlock true, .walkEnd, .waitLock true, .waitSet,
        .waitUnlock true, .aio .lockFlush, .aio (.getEvents []), .aio .checkDone,
        .aio .lockRequest, .aio .readSize, .aio (.readOne ⟨3, some 3, 4096⟩),
        .aio (.readSubmit 1), .aio .unlockRequest, .aio .writeSize, .aio .unlockFlush,
        .aio (.complete ⟨0, .pread, 3, 4096, 3, 0, 0⟩ 3), .aio .lockFlush,
        .aio (.getEvents [⟨⟨0, .pread, 3, 4096, 3, 0, 0⟩, 3⟩]), .aio .handleEvent,
        .aio .checkDone, .aio .lockRequest, .aio .readSize, .aio .unlockRequest,
        .aio .writeSize, .aio (.writeOne 4), .aio (.writeSubmit 1), .aio .unlockFlush,
        .aio (.complete ⟨1, .pwrite, 4, 4096, 3, 0, 0⟩ 3), .aio .lockFlush,
        .aio (.getEvents [⟨⟨1, .pwrite, 4, 4096, 3, 0, 0⟩, 3⟩]), .aio .handleEvent,
        .aio .checkDone, .aio .unlockBreak, .join true]).map
        (fun p => (p.pc, p.aio.pc, p.aio.log.finished)) = some (.destroy, .returned, [0]) := by
    decide +kernel
  obtain ⟨p, hp, hfacts⟩ := Option.map_eq_some_iff.mp hrun
  obtain ⟨hpc, hfacts⟩ := Prod.mk.inj hfacts
  obtain ⟨hret, hfinished⟩ := Prod.mk.inj hfacts
  have hreach : Reaches Prog.step anyLabel (Prog.init ['a'] ['b'] 8) p :=
    reaches_of_exec (fun _ _ => trivial) hp
  exact ⟨p, hreach, hpc, hret, hfinished, lockSafe_of_reaches hreach⟩

end

end Cpr
