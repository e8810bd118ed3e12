/-
# Progress of `aio_loop`

At each of its places `aio_loop` has a step that it can take, unless a mutex keeps it there;
a rank of the places, with what is left of the loops, goes down with every step but those
around the top of the loop.  So it gets around: infinitely often to the place where it asks
for events, and to the one where it has submitted all it can.
-/
import Cpr.Program.Drain
import Mathlib.Data.Prod.Lex

namespace Cpr

open Transition Unix

/-- The thread that takes a step; the completion of an operation is a step of the kernel. -/
def Label.thread : Label → Option Thread
  | .aio (.complete _ _) => none
  | .aio _ => some .aio
  | _ => some .main

/-- A step that `aio_loop` can take at a place, with the answers of calls that fail. -/
def AioPc.act : AioPc → Option Act
  | .notStarted | .returned => none
  | .lockFlush => some .lockFlush
  | .getEvents => some (.getEvents [])
  | .handle [] => some .checkDone
  | .handle (_ :: _) => some .handleEvent
  | .unlockBreak => some .unlockBreak
  | .lockRequest => some .lockRequest
  | .readSize => some .readSize
  | .readLoop size cs =>
    some (if (cs.length : ℤ) < size then .readOne ⟨-1, none, 0⟩ else .readSubmit cs.length)
  | .unlockRequest => some .unlockRequest
  | .writeSize => some .writeSize
  | .writeLoop size cs =>
    some (if (cs.length : ℤ) < size then .writeOne (-1) else .writeSubmit cs.length)
  | .unlockFlush => some .unlockFlush

/-- How far the end of the iteration is; the top of the loop is `top` places away. -/
def AioPc.rank (top : ℕ) : AioPc → ℕ ×ₗ ℕ
  | .lockFlush => toLex (top, 0)
  | .getEvents => toLex (11, 0)
  | .handle events => toLex (10, events.length)
  | .lockRequest => toLex (9, 0)
  | .readSize => toLex (8, 0)
  | .readLoop size cs => toLex (7, (size - cs.length).toNat)
  | .unlockRequest => toLex (6, 0)
  | .writeSize => toLex (5, 0)
  | .writeLoop size cs => toLex (4, (size - cs.length).toNat)
  | .unlockFlush => toLex (3, 0)
  | .unlockBreak => toLex (2, 0)
  | .notStarted | .returned => toLex (0, 0)

lemma rank_lt_of_fst {a b : ℕ} (h : a < b) (x y : ℕ) : toLex (a, x) < toLex (b, y) :=
  Prod.Lex.toLex_lt_toLex.mpr (Or.inl h)

lemma rank_lt_of_snd (a : ℕ) {x y : ℕ} (h : x < y) : toLex (a, x) < toLex (a, y) :=
  Prod.Lex.toLex_lt_toLex.mpr (Or.inr ⟨rfl, h⟩)

namespace AioState

variable {a a' : AioState} {act : Act}

/-- `aio_loop` can go on unless it waits for a mutex. -/
lemma isSome_loopStep (hact : a.pc.act = some act)
    (hflush : a.pc = .lockFlush → a.mgr.flushMutex = none)
    (hrequest : a.pc = .lockRequest → a.mgr.requestMutex = none) :
    (a.loopStep act).isSome := by
  cases hpc : a.pc with
  | notStarted | returned => simp [hpc, AioPc.act] at hact
  | lockFlush =>
    obtain rfl : Act.lockFlush = act := by simpa [hpc, AioPc.act] using hact
    simp [loopStep, lockFlush, hpc, hflush hpc]
  | lockRequest =>
    obtain rfl : Act.lockRequest = act := by simpa [hpc, AioPc.act] using hact
    simp [loopStep, lockRequest, hpc, hrequest hpc]
  | getEvents =>
    obtain rfl : Act.getEvents [] = act := by simpa [hpc, AioPc.act] using hact
    simp [loopStep, getEvents, hpc]
  | handle events =>
    cases events with
    | nil =>
      obtain rfl : Act.checkDone = act := by simpa [hpc, AioPc.act] using hact
      simp [loopStep, hpc]
    | cons e rest =>
      obtain rfl : Act.handleEvent = act := by simpa [hpc, AioPc.act] using hact
      simp [loopStep, hpc]
  | readLoop size cs =>
    by_cases hlt : (cs.length : ℤ) < size
    · obtain rfl : Act.readOne ⟨-1, none, 0⟩ = act := by simpa [hpc, AioPc.act, hlt] using hact
      simp [loopStep, ReadAnswer.Possible, hpc, hlt]
    · obtain rfl : Act.readSubmit cs.length = act := by simpa [hpc, AioPc.act, hlt] using hact
      simp [loopStep, hpc, not_lt.mp hlt]
  | writeLoop size cs =>
    by_cases hlt : (cs.length : ℤ) < size
    · obtain rfl : Act.writeOne (-1) = act := by simpa [hpc, AioPc.act, hlt] using hact
      simp [loopStep, hpc, hlt]
    · obtain rfl : Act.writeSubmit cs.length = act := by simpa [hpc, AioPc.act, hlt] using hact
      simp [loopStep, hpc, not_lt.mp hlt]
  | unlockBreak | readSize | unlockRequest | writeSize | unlockFlush =>
    rw [hpc] at hact
    obtain rfl := Option.some.inj hact
    simp [loopStep, hpc]

lemma ne_complete_of_act {pc : AioPc} (h : pc.act = some act) (c : Iocb) (res : ℕ) :
    act ≠ .complete c res := by
  rintro rfl
  cases pc with
  | handle events => cases events <;> simp [AioPc.act] at h
  | readLoop size cs =>
    simp only [AioPc.act, Option.some.injEq] at h
    split_ifs at h
  | writeLoop size cs =>
    simp only [AioPc.act, Option.some.injEq] at h
    split_ifs at h
  | _ => simp [AioPc.act] at h

/-! Where a step of a loop leads that does not end the process. -/

lemma pc_handleEvent {e : IoEvent} {rest : List IoEvent}
    (hended : (a.handleEvent e rest).ended = none) : (a.handleEvent e rest).pc = .handle rest := by
  revert hended
  unfold handleEvent
  cases a.reqs.get? e.data with
  | none => exact fun h => nomatch h
  | some q =>
    dsimp only
    split_ifs
    · exact fun h => nomatch h
    all_goals exact fun _ => rfl

lemma pc_readOne {o : ReadAnswer} {size : ℤ} {cs : List Iocb}
    (hended : (a.readOne o size cs).ended = none) :
    ∃ c, (a.readOne o size cs).pc = .readLoop size (cs ++ [c]) := by
  revert hended
  unfold readOne
  cases a.mgr.readHead with
  | none => exact fun h => nomatch h
  | some r =>
    dsimp only
    cases a.reqs.get? r with
    | none => exact fun h => nomatch h
    | some curr =>
      dsimp only
      by_cases hfd : o.fd < 0
      · rw [if_pos hfd]
        exact fun h => nomatch h
      rw [if_neg hfd]
      cases o.stSize with
      | none => exact fun h => nomatch h
      | some stSize =>
        dsimp only
        split_ifs
        · exact fun h => nomatch h
        · exact fun _ => ⟨_, rfl⟩

lemma pc_writeOne {fd size : ℤ} {cs : List Iocb} (hended : (a.writeOne fd size cs).ended = none) :
    ∃ c, (a.writeOne fd size cs).pc = .writeLoop size (cs ++ [c]) := by
  revert hended
  unfold writeOne
  cases a.mgr.writeHead with
  | none => exact fun h => nomatch h
  | some r =>
    dsimp only
    cases a.reqs.get? r with
    | none => exact fun h => nomatch h
    | some curr =>
      dsimp only
      split_ifs
      · exact fun h => nomatch h
      · exact fun _ => ⟨_, rfl⟩

lemma pc_submit {ret size : ℤ} {cs : List Iocb} {next : AioPc} {stop : List Iocb → AioPc}
    (hended : (a.submit ret size cs next stop).ended = none) :
    (a.submit ret size cs next stop).pc = next := by
  revert hended
  unfold submit
  split_ifs
  · exact fun h => nomatch h
  · exact fun _ => rfl

/-- **A step of `aio_loop` brings the end of the iteration closer**, except where it begins
and ends one. -/
theorem Fires.rank_lt (h : Fires a act a') (hclient : act.ofClient = false)
    (hact : ∀ c res, act ≠ .complete c res) (hended : a'.ended = none) (top : ℕ)
    (htop : a.pc ≠ .lockFlush) (hend : a.pc ≠ .unlockFlush) :
    a'.pc.rank top < a.pc.rank top := by
  cases h with
  | startThread | bumpReqCount | newRequest | clientLockRequest | addCopyReq
  | clientUnlockRequest | clientLockFlush | setFlush | clientUnlockFlush | exit =>
    simp [Act.ofClient] at hclient
  | complete c res => exact absurd rfl (hact c res)
  | lockFlush hpc => exact absurd hpc htop
  | unlockFlush hpc => exact absurd hpc hend
  | getEvents _ hpc | unlockBreak hpc | lockRequest hpc | unlockRequest hpc =>
    rw [hpc]
    exact rank_lt_of_fst (by decide) _ _
  | checkDone hpc =>
    rw [hpc, AioState.checkDone]
    split_ifs <;> exact rank_lt_of_fst (by decide) _ _
  | readSize hpc =>
    rw [hpc, AioState.readSize]
    split_ifs <;> exact rank_lt_of_fst (by decide) _ _
  | writeSize hpc =>
    rw [hpc, AioState.writeSize]
    split_ifs <;> exact rank_lt_of_fst (by decide) _ _
  | handleEvent e rest hpc =>
    rw [hpc, pc_handleEvent hended]
    exact rank_lt_of_snd _ (Nat.lt_succ_self _)
  | readOne o size cs hpc hlt =>
    obtain ⟨c, hpc'⟩ := pc_readOne hended
    rw [hpc, hpc']
    refine rank_lt_of_snd _ ?_
    rw [List.length_append, List.length_singleton]
    omega
  | writeOne fd size cs hpc hlt =>
    obtain ⟨c, hpc'⟩ := pc_writeOne hended
    rw [hpc, hpc']
    refine rank_lt_of_snd _ ?_
    rw [List.length_append, List.length_singleton]
    omega
  | readSubmit ret size cs hpc | writeSubmit ret size cs hpc =>
    rw [hpc, pc_submit hended]
    exact rank_lt_of_fst (by decide) _ _

/-- The step from the top of the loop. -/
lemma Fires.of_top (h : Fires a act a') (hclient : act.ofClient = false)
    (hact : ∀ c res, act ≠ .complete c res) (hpc : a.pc = .lockFlush) : a'.pc = .getEvents := by
  cases h with
  | lockFlush => rfl
  | complete c res => exact absurd rfl (hact c res)
  | startThread | bumpReqCount | newRequest | clientLockRequest | addCopyReq
  | clientUnlockRequest | clientLockFlush | setFlush | clientUnlockFlush | exit =>
    simp [Act.ofClient] at hclient
  | _ => simp_all

/-- The step from the end of an iteration. -/
lemma Fires.of_end (h : Fires a act a') (hclient : act.ofClient = false)
    (hact : ∀ c res, act ≠ .complete c res) (hpc : a.pc = .unlockFlush) :
    act = .unlockFlush ∧ a'.pc = .lockFlush := by
  cases h with
  | unlockFlush => exact ⟨rfl, rfl⟩
  | complete c res => exact absurd rfl (hact c res)
  | startThread | bumpReqCount | newRequest | clientLockRequest | addCopyReq
  | clientUnlockRequest | clientLockFlush | setFlush | clientUnlockFlush | exit =>
    simp [Act.ofClient] at hclient
  | _ => simp_all

/-- `io_getevents` returns, and reaps what it returns. -/
lemma Fires.of_getEvents (h : Fires a act a') (hclient : act.ofClient = false)
    (hact : ∀ c res, act ≠ .complete c res) (hpc : a.pc = .getEvents) :
    ∃ events, act = .getEvents events ∧ (events ≠ [] → a.work < a'.work) := by
  cases h with
  | getEvents events =>
    refine ⟨events, rfl, fun hne => ?_⟩
    obtain ⟨e, rest, rfl⟩ := List.exists_cons_of_ne_nil hne
    simp [work, Log.reaped, Log.submitted]
    omega
  | complete c res => exact absurd rfl (hact c res)
  | startThread | bumpReqCount | newRequest | clientLockRequest | addCopyReq
  | clientUnlockRequest | clientLockFlush | setFlush | clientUnlockFlush | exit =>
    simp [Act.ofClient] at hclient
  | _ => simp_all

/-! ### Operations that are completed -/

/-- `io_getevents` has something to return. -/
def HasResult (a : AioState) : Prop := ∃ op ∈ a.flight, op.result ≠ none

instance (a : AioState) : Decidable a.HasResult :=
  inferInstanceAs (Decidable (∃ op ∈ a.flight, op.result ≠ none))

/-- A step that neither submits nor reaps leaves the operations in flight, but for the result
of one. -/
lemma flight_of_work (hgood : Good a) (hstep : a.step act = some a') (hwork : a'.work = a.work) :
    a'.flight = a.flight ∨ ∃ c res, act = .complete c res ∧ .pending c ∈ a.flight ∧
      a'.flight = ⟨c, some res⟩ :: a.flight.erase (.pending c) := by
  cases hgood.moves hstep with
  | same e => exact Or.inl e.flight
  | reap events =>
    cases events with
    | nil => exact Or.inl (by simp)
    | cons e rest =>
      simp [work, Log.reaped, Log.submitted] at hwork
      omega
  | submit cs ds _ _ _ _ _ flight log =>
    cases cs with
    | nil => exact Or.inl (by simpa using flight)
    | cons c cs =>
      rw [work, log] at hwork
      simp [work, Log.reaped, Log.submitted] at hwork
      omega
  | complete c res hmem => exact Or.inr ⟨c, res, rfl, hmem, rfl⟩
  | finishRead | finishWrite | startRead | startWrite | newRequest | linkIn => exact Or.inl rfl

/-- What is completed stays so until it is reaped. -/
lemma HasResult.step (h : a.HasResult) (hgood : Good a) (hstep : a.step act = some a')
    (hwork : a'.work = a.work) : a'.HasResult := by
  obtain ⟨op, hop, hres⟩ := h
  rcases flight_of_work hgood hstep hwork with hflight | ⟨c, res, -, -, hflight⟩
  · exact ⟨op, hflight ▸ hop, hres⟩
  · refine ⟨op, ?_, hres⟩
    rw [hflight]
    refine List.mem_cons_of_mem _ ((List.mem_erase_of_ne ?_).mpr hop)
    rintro rfl
    exact hres rfl

/-- A pending operation is pending until it is completed. -/
lemma pending_or_hasResult {c : Iocb} (hmem : .pending c ∈ a.flight) (hgood : Good a)
    (hstep : a.step act = some a') (hwork : a'.work = a.work) :
    .pending c ∈ a'.flight ∨ a'.HasResult := by
  rcases flight_of_work hgood hstep hwork with hflight | ⟨c', res, -, -, hflight⟩
  · exact Or.inl (hflight ▸ hmem)
  · refine Or.inr ⟨⟨c', some res⟩, ?_, by simp⟩
    rw [hflight]
    exact List.mem_cons_self

end AioState

/-- The work is bounded by the number of requests. -/
lemma Inv.work_le {a : AioState} {xs ys : List ReqId} {b : Belt Stage ReqId} (h : Inv a xs ys b) :
    a.work ≤ 4 * a.log.accepted.length := by
  have hcounts := h.counts
  have hlen := h.lengths
  have hsub := length_reqsOf a.log.submitted
  have hreap := length_reqsOf a.log.reaped
  rw [AioState.work]
  omega

namespace Prog

variable {p p' : Prog} {l : Label}

/-- The history only grows. -/
lemma log_suffix (hl : Locks p) (hgood : Good p.aio) (hstep : p.step l = some p') :
    p.aio.log <:+ p'.aio.log := by
  rcases manager_step hl hstep with heq | ⟨act, ha, -⟩
  · rw [heq]
  · exact hgood.log_suffix ha

/-- A step that is none of the main thread's is one of the manager's. -/
lemma aio_of_thread (hl : l.thread ≠ some .main) : ∃ act, l = .aio act := by
  cases l with
  | aio act => exact ⟨act, rfl⟩
  | _ => exact absurd rfl hl

end Prog

end Cpr
