/-
# The program is a client of the manager

Every step of the program is a step of the manager, or leaves the manager alone; so what
holds of every run of the manager holds of every run of the program.  On top of that,
`req_count` is the number of accepted requests, plus one between `req_count += 1` and the
end of `add_copy_req`, and `flush` is set only after the walk.
-/
import Cpr.Manager.History
import Cpr.Program.Locks

namespace Cpr

open Transition Unix

namespace Prog

variable {p p' : Prog} {l : Label} {srcName dstName : CStr} {batchSize : ℤ}

/-- A step of the main thread, seen from the manager: nothing, or an action of the client. -/
lemma client_step (hl : Locks p) (hended : p.aio.ended = none) (hfires : Fires p l p')
    (haio : ∀ act, l ≠ .aio act) :
    p'.aio = p.aio ∨ ∃ act, act.ofClient = true ∧ p.aio.step act = some p'.aio := by
  have hstep : ∀ {act : Act} {a : AioState}, act.ofClient = true → p.aio.clientStep act = some a →
      p.aio.step act = some a := by
    intro act a hact ha
    unfold AioState.step
    rw [if_neg (by simp [hended])]
    cases act <;> simp [Act.ofClient] at hact <;> exact ha
  cases hfires with
  | aio act => exact absurd rfl (haio act)
  | initManager | statDir | statReg | statOther | walkEnd | mkdir | opendir | readdirSkip
  | readdirEnqueue | readdirEnd | closedir | join => exact Or.inl rfl
  | fail => exact Or.inr ⟨.exit (-1), rfl, hstep rfl rfl⟩
  | readdirExit => exact Or.inr ⟨.exit 1, rfl, hstep rfl rfl⟩
  | destroy => exact Or.inr ⟨.exit 0, rfl, hstep rfl rfl⟩
  | startThread hpc =>
    have hns := hl.started.mpr (by rw [hpc]; rfl)
    exact Or.inr ⟨.startThread, rfl, hstep rfl (if_pos hns)⟩
  | bumpReqCount => exact Or.inr ⟨.bumpReqCount, rfl, hstep rfl rfl⟩
  | copyReg curr => exact Or.inr ⟨.newRequest curr.srcName curr.dstName, rfl, hstep rfl rfl⟩
  | addLock _ hfree => exact Or.inr ⟨.clientLockRequest, rfl, hstep rfl (if_pos hfree)⟩
  | addLink r hpc hr =>
    have hheld := hl.mainRequest.mpr (by rw [hpc]; rfl)
    exact Or.inr ⟨.addCopyReq r, rfl, hstep rfl (if_pos ⟨hheld, hr⟩)⟩
  | addUnlock hpc =>
    have hheld := hl.mainRequest.mpr (by rw [hpc]; rfl)
    exact Or.inr ⟨.clientUnlockRequest, rfl, hstep rfl (if_pos hheld)⟩
  | waitLock _ hfree => exact Or.inr ⟨.clientLockFlush, rfl, hstep rfl (if_pos hfree)⟩
  | waitSet hpc =>
    have hheld := hl.mainFlush.mpr (by rw [hpc]; rfl)
    exact Or.inr ⟨.setFlush, rfl, hstep rfl (if_pos hheld)⟩
  | waitUnlock hpc =>
    have hheld := hl.mainFlush.mpr (by rw [hpc]; rfl)
    exact Or.inr ⟨.clientUnlockFlush, rfl, hstep rfl (if_pos hheld)⟩

/-- The label of `aio_loop` or of the kernel changes the manager only. -/
lemma aio_fires {act : Act} (hended : p.aio.ended = none) (h : Fires p (.aio act) p') :
    ∃ a, AioState.Fires p.aio act a ∧ p' = { p with aio := a } := by
  cases h with
  | aio act a ha => exact ⟨a, (AioState.fires_of_step (step_of_aioStep hended ha).1).2, rfl⟩
  | fail _ hl => exact absurd rfl (hl act)

/-- A step of `aio_loop` or of the kernel. -/
lemma aio_step {act : Act} (h : p.step (.aio act) = some p') :
    p.aio.step act = some p'.aio ∧ act.ofClient = false ∧ p'.pc = p.pc ∧ p'.queue = p.queue := by
  obtain ⟨hended, hfires⟩ := fires_of_step h
  cases hfires with
  | aio act a ha =>
    obtain ⟨hstep, hact⟩ := step_of_aioStep hended ha
    exact ⟨hstep, hact, rfl, rfl⟩
  | fail _ hl => exact absurd rfl (hl act)

/-- What a step of the program is for the manager. -/
lemma manager_step (hl : Locks p) (h : p.step l = some p') : p'.aio = p.aio ∨
    ∃ act, p.aio.step act = some p'.aio ∧ (act.ofClient = true ∨ l = .aio act) := by
  by_cases haio : ∃ act, l = .aio act
  · obtain ⟨act, rfl⟩ := haio
    exact Or.inr ⟨act, (aio_step h).1, Or.inr rfl⟩
  · obtain ⟨hended, hfires⟩ := fires_of_step h
    exact (client_step hl hended hfires (not_exists.mp haio)).imp_right
      fun ⟨act, hact, ha⟩ => ⟨act, ha, Or.inl hact⟩

/-- **Every run of the program is a run of the manager**, for any restriction of the labels
of the manager that allows every action of the client. -/
theorem manager_reaches {ok : Prog → Label → Prop} {okA : AioState → Act → Prop}
    (hok : ∀ p act, ok p (.aio act) → okA p.aio act)
    (hclient : ∀ a act, act.ofClient = true → okA a act)
    (h : Reaches Prog.step ok (Prog.init srcName dstName batchSize) p) :
    Reaches AioState.step okA (AioState.init batchSize batchSize) p.aio := by
  refine h.invariant_of (J := Locks)
    (I := fun p => Reaches AioState.step okA (AioState.init batchSize batchSize) p.aio)
    (fun _ hr => Locks.of_reaches (hr.weaken fun _ _ _ => trivial))
    (fun {t l u} hlocks _ hreach hl hstep => ?_) Reaches.refl
  rcases manager_step hlocks hstep with heq | ⟨act, ha, hact | rfl⟩
  · rwa [heq]
  · exact hreach.tail (hclient _ _ hact) ha
  · exact hreach.tail (hok _ _ hl) ha

lemma manager_reaches_any
    (h : Reaches Prog.step anyLabel (Prog.init srcName dstName batchSize) p) :
    Reaches AioState.step anyLabel (AioState.init batchSize batchSize) p.aio :=
  manager_reaches (fun _ _ _ => trivial) (fun _ _ _ => trivial) h

lemma good_of_reaches (h : Reaches Prog.step anyLabel (Prog.init srcName dstName batchSize) p) :
    Good p.aio := Good.of_reaches (manager_reaches_any h)

lemma history_of_reaches
    (h : Reaches Prog.step anyLabel (Prog.init srcName dstName batchSize) p) : History p.aio :=
  History.of_reaches (manager_reaches_any h)

end Prog

/-! ## What only the main thread changes -/

/-- What `aio_loop` and the kernel leave alone. -/
structure AioFrame (a a' : AioState) : Prop where
  reqCount : a'.reqCount = a.reqCount
  flush : a'.mgr.flush = a.mgr.flush
  mainReq : a'.mainReq = a.mainReq
  accepted : a'.log.accepted = a.log.accepted
  next : a'.reqs.next = a.reqs.next
  /-- The process goes on, or it ends in failure. -/
  ended : a'.ended = a.ended ∨ a'.ended = some .crashed ∨ a'.ended = some (.exited 1)

section AioFrame

variable {a a' : AioState} {act : Act}

lemma aioFrame_handleEvent (e : IoEvent) (rest : List IoEvent) :
    AioFrame a (a.handleEvent e rest) := by
  unfold AioState.handleEvent
  cases a.reqs.get? e.data with
  | none => exact ⟨rfl, rfl, rfl, rfl, rfl, Or.inr (Or.inl rfl)⟩
  | some q =>
    dsimp only
    split_ifs
    · exact ⟨rfl, rfl, rfl, rfl, rfl, Or.inr (Or.inr rfl)⟩
    all_goals exact ⟨rfl, rfl, rfl, rfl, rfl, Or.inl rfl⟩

lemma aioFrame_readOne (o : AioState.ReadAnswer) (size : ℤ) (cs : List Iocb) :
    AioFrame a (a.readOne o size cs) := by
  unfold AioState.readOne
  cases a.mgr.readHead with
  | none => exact ⟨rfl, rfl, rfl, rfl, rfl, Or.inr (Or.inl rfl)⟩
  | some r =>
    cases hr : a.reqs.get? r with
    | none =>
      simp only [hr]
      exact ⟨rfl, rfl, rfl, rfl, rfl, Or.inr (Or.inl rfl)⟩
    | some curr =>
      simp only [hr]
      by_cases hfd : o.fd < 0
      · rw [if_pos hfd]
        exact ⟨rfl, rfl, rfl, rfl, rfl, Or.inr (Or.inr rfl)⟩
      · rw [if_neg hfd]
        cases o.stSize with
        | none => exact ⟨rfl, rfl, rfl, rfl, rfl, Or.inr (Or.inr rfl)⟩
        | some n =>
          dsimp only
          split_ifs
          · exact ⟨rfl, rfl, rfl, rfl, rfl, Or.inr (Or.inr rfl)⟩
          · exact ⟨rfl, rfl, rfl, rfl, rfl, Or.inl rfl⟩

lemma aioFrame_writeOne (fd size : ℤ) (cs : List Iocb) :
    AioFrame a (a.writeOne fd size cs) := by
  unfold AioState.writeOne
  cases a.mgr.writeHead with
  | none => exact ⟨rfl, rfl, rfl, rfl, rfl, Or.inr (Or.inl rfl)⟩
  | some r =>
    cases hr : a.reqs.get? r with
    | none =>
      simp only [hr]
      exact ⟨rfl, rfl, rfl, rfl, rfl, Or.inr (Or.inl rfl)⟩
    | some curr =>
      simp only [hr]
      split_ifs
      · exact ⟨rfl, rfl, rfl, rfl, rfl, Or.inr (Or.inr rfl)⟩
      · exact ⟨rfl, rfl, rfl, rfl, rfl, Or.inl rfl⟩

lemma aioFrame_submit (ret size : ℤ) (cs : List Iocb) (next : AioPc) (stop : List Iocb → AioPc) :
    AioFrame a (a.submit ret size cs next stop) := by
  unfold AioState.submit
  split_ifs
  · exact ⟨rfl, rfl, rfl, Log.accepted_submit _, rfl, Or.inr (Or.inr rfl)⟩
  · exact ⟨rfl, rfl, rfl, Log.accepted_submit _, rfl, Or.inl rfl⟩

lemma aioFrame_of_fires (h : AioState.Fires a act a') (hact : act.ofClient = false) :
    AioFrame a a' := by
  cases h with
  | startThread | bumpReqCount | newRequest | clientLockRequest | addCopyReq
  | clientUnlockRequest | clientLockFlush | setFlush | clientUnlockFlush | exit =>
    simp [Act.ofClient] at hact
  | lockFlush | unlockBreak | unlockFlush | lockRequest | unlockRequest | complete | checkDone
  | readSize | writeSize => exact ⟨rfl, rfl, rfl, rfl, rfl, Or.inl rfl⟩
  | getEvents events => exact ⟨rfl, rfl, rfl, Log.accepted_reap _, rfl, Or.inl rfl⟩
  | handleEvent e rest => exact aioFrame_handleEvent e rest
  | readOne o size cs => exact aioFrame_readOne o size cs
  | writeOne fd size cs => exact aioFrame_writeOne fd size cs
  | readSubmit ret size cs => exact aioFrame_submit ret size cs _ _
  | writeSubmit ret size cs => exact aioFrame_submit ret size cs _ _

lemma aioFrame_of_aioStep (hended : a.ended = none) (h : Prog.aioStep a act = some a') :
    AioFrame a a' := by
  obtain ⟨hact, hclient⟩ := Prog.step_of_aioStep hended h
  exact aioFrame_of_fires (AioState.fires_of_step hact).2 hclient

end AioFrame

/-- A request is counted in `req_count` and not accepted yet. -/
def MainPc.counted : MainPc → Bool
  | .copyReg | .addLock | .addLink => true
  | _ => false

/-- The walk is over. -/
def MainPc.afterWalk : MainPc → Bool
  | .waitLock | .waitSet | .waitUnlock | .join | .destroy => true
  | _ => false

/-- `flush` was set. -/
def MainPc.afterFlush : MainPc → Bool
  | .waitUnlock | .join | .destroy => true
  | _ => false

/-- A request is allocated and not accepted yet. -/
def MainPc.allocated : MainPc → Bool
  | .addLock | .addLink => true
  | _ => false

/-- What `req_count` and `flush` say. -/
structure Counting (p : Prog) : Prop where
  reqCount : p.aio.reqCount =
    toInt32 (p.aio.log.accepted.length + (if p.pc.counted then 1 else 0))
  flush : p.aio.mgr.flush = p.pc.afterFlush
  queue : p.pc.afterWalk = true → p.queue = []
  /-- Every request that `copy_reg` made was accepted, or is about to be. -/
  allocated : ∀ r, r < p.aio.reqs.next → r ∈ p.aio.log.accepted ∨
    (p.pc.allocated = true ∧ p.aio.mainReq = some r)
  success : p.aio.ended = some (.exited 0) → p.pc = .destroy

namespace Counting

variable {p p' : Prog} {l : Label} {srcName dstName : CStr} {batchSize : ℤ}

lemma init : Counting (Prog.init srcName dstName batchSize) := by
  constructor <;> simp [Prog.init, AioState.init, Heap.empty, MainPc.counted, MainPc.afterWalk,
    MainPc.afterFlush]

/-- A step that leaves the counters of the manager alone and does not end the process. -/
lemma of_same (h : Counting p) (hended : p'.aio.ended = none)
    (hcount : p'.aio.reqCount = p.aio.reqCount)
    (hacc : p'.aio.log.accepted = p.aio.log.accepted) (hflush : p'.aio.mgr.flush = p.aio.mgr.flush)
    (hnext : p'.aio.reqs.next = p.aio.reqs.next) (hmain : p'.aio.mainReq = p.aio.mainReq)
    (hpc : p'.pc.counted = p.pc.counted ∧ p'.pc.afterFlush = p.pc.afterFlush ∧
      p'.pc.allocated = p.pc.allocated)
    (hqueue : p'.pc.afterWalk = true → p'.queue = []) : Counting p' where
  reqCount := by rw [hcount, hacc, hpc.1]; exact h.reqCount
  flush := by rw [hflush, hpc.2.1]; exact h.flush
  queue := hqueue
  allocated := by rw [hnext, hacc, hmain, hpc.2.2]; exact h.allocated
  success := by simp [hended]

/-- The process ends, with a failure. -/
lemma of_ended (h : Counting p) (hended : p'.aio.ended ≠ some (.exited 0)) (hpc : p'.pc = p.pc)
    (hqueue : p'.queue = p.queue) (hcount : p'.aio.reqCount = p.aio.reqCount)
    (hacc : p'.aio.log.accepted = p.aio.log.accepted) (hflush : p'.aio.mgr.flush = p.aio.mgr.flush)
    (hnext : p'.aio.reqs.next = p.aio.reqs.next) (hmain : p'.aio.mainReq = p.aio.mainReq) :
    Counting p' where
  reqCount := by rw [hcount, hacc, hpc]; exact h.reqCount
  flush := by rw [hflush, hpc]; exact h.flush
  queue := by rw [hpc, hqueue]; exact h.queue
  allocated := by rw [hnext, hacc, hmain, hpc]; exact h.allocated
  success hexit := absurd hexit hended

lemma step (h : Counting p) (hgood : Good p.aio) (hstep : p.step l = some p') : Counting p' := by
  obtain ⟨hended, hfires⟩ := Prog.fires_of_step hstep
  cases hfires with
  | aio act a ha =>
    have hf := aioFrame_of_aioStep hended ha
    refine h.of_ended ?_ rfl rfl hf.reqCount hf.accepted hf.flush hf.next hf.mainReq
    rcases hf.ended with he | he | he <;> simp [he, hended]
  | fail | readdirExit =>
    exact h.of_ended (by simp [Prog.fail, AioState.exit]) rfl rfl rfl rfl rfl rfl rfl
  | readdirSkip => exact h
  | initManager hpc | startThread hpc | statDir _ _ hpc | statReg _ _ hpc | mkdir hpc
  | opendir hpc | readdirEnd hpc =>
    refine h.of_same hended rfl rfl rfl rfl rfl ?_ ?_ <;>
    simp [hpc, MainPc.counted, MainPc.afterFlush, MainPc.afterWalk, MainPc.allocated]
  | statOther _ _ _ hpc | readdirEnqueue _ _ _ _ hpc =>
    exact h.of_same hended rfl rfl rfl rfl rfl ⟨rfl, rfl, rfl⟩ (by simp [hpc, MainPc.afterWalk])
  | closedir hpc =>
    refine h.of_same hended rfl rfl rfl rfl rfl ?_ ?_ <;>
    simp [hpc, Prog.next, MainPc.counted, MainPc.afterFlush, MainPc.afterWalk, MainPc.allocated]
  | walkEnd hpc hqueue =>
    refine h.of_same hended rfl rfl rfl rfl rfl ?_ (fun _ => hqueue)
    simp [hpc, MainPc.counted, MainPc.afterFlush, MainPc.allocated]
  | join hpc | waitLock hpc | waitUnlock hpc =>
    have hqueue : p.queue = [] := h.queue (by rw [hpc]; rfl)
    refine h.of_same hended rfl rfl rfl rfl rfl ?_ (fun _ => hqueue)
    simp [hpc, MainPc.counted, MainPc.afterFlush, MainPc.allocated]
  | destroy hpc =>
    exact ⟨h.reqCount, h.flush, h.queue, h.allocated, fun _ => hpc⟩
  | waitSet hpc =>
    have hqueue : p.queue = [] := h.queue (by rw [hpc]; rfl)
    have hcount := h.reqCount
    have halloc := h.allocated
    rw [hpc] at hcount halloc
    exact ⟨hcount, rfl, fun _ => hqueue, halloc, by simp [AioState.setFlush, hended]⟩
  | bumpReqCount hpc =>
    have hcount := h.reqCount
    have hflush := h.flush
    have halloc := h.allocated
    rw [hpc] at hcount hflush halloc
    refine ⟨?_, hflush, by simp [MainPc.afterWalk], halloc,
      by simp [AioState.bumpReqCount, hended]⟩
    -- counted before the request exists: `req_count` is one ahead of the manager
    simp only [AioState.bumpReqCount, hcount, toInt32_add_toInt32]
    simp [MainPc.counted]
  | copyReg _ _ hpc =>
    have hcount := h.reqCount
    have hflush := h.flush
    have halloc := h.allocated
    rw [hpc] at hcount hflush halloc
    refine ⟨hcount, hflush, by simp [MainPc.afterWalk], fun r hr => ?_,
      by simp [AioState.newRequest, hended]⟩
    -- the new request is the one that is allocated and not accepted
    rcases Nat.lt_succ_iff_lt_or_eq.mp hr with hr | rfl
    · exact Or.inl ((halloc r hr).resolve_right (by simp [MainPc.allocated]))
    · exact Or.inr ⟨rfl, rfl⟩
  | addLock hpc =>
    refine h.of_same hended rfl rfl rfl rfl rfl ?_ ?_ <;>
    simp [hpc, MainPc.counted, MainPc.afterFlush, MainPc.afterWalk, MainPc.allocated]
  | addLink r hpc hr =>
    -- the request is accepted, and the counts agree again
    obtain ⟨q, -, heq⟩ := hgood.addCopyReq_eq hr
    have hcount := h.reqCount
    have hflush := h.flush
    rw [hpc] at hcount hflush
    refine ⟨?_, ?_, by simp [MainPc.afterWalk], fun s hs => ?_, ?_⟩
    · simp only [heq, AioState.linkIn, hcount, MainPc.counted, Log.accepted_cons_accepted,
        List.length_cons]
      congr 1
    · rw [heq]
      exact hflush
    · rw [heq] at hs ⊢
      rcases h.allocated s hs with hacc | ⟨-, hmain⟩
      · exact Or.inl (List.mem_cons_of_mem _ hacc)
      · obtain rfl : r = s := Option.some.inj (hr.symm.trans hmain)
        exact Or.inl List.mem_cons_self
    · simp [heq, AioState.linkIn, hended]
  | addUnlock hpc =>
    refine h.of_same hended rfl rfl rfl rfl rfl ?_ ?_ <;>
    simp [hpc, Prog.next, MainPc.counted, MainPc.afterFlush, MainPc.afterWalk, MainPc.allocated]

theorem of_reaches
    (h : Reaches Prog.step anyLabel (Prog.init srcName dstName batchSize) p) : Counting p :=
  h.invariant_of (J := fun p => Good p.aio) (fun _ hr => Prog.good_of_reaches hr)
    (fun hgood _ hs _ hstep => hs.step hgood hstep) init

end Counting

end Cpr
