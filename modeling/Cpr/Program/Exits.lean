/-
# How the process ends

A step ends the process in the places where the code says so and nowhere else.  `main`
returns 0 after `destroy_aio_manager`, and -1 when one of its calls failed; `copy_dir` exits
with 1 at an entry that it cannot copy; `aio_loop` exits with 1 when an operation did not
move all bytes, or one of its calls failed.  No null or dangling pointer to a request is
followed.
-/
import Cpr.Program.Refine

namespace Cpr

open Transition Unix

/-- What `aio_loop` exits on.  The answer `NULL` of `mmap`, for which it has a test, is not
among them: `mmap` never gives it. -/
inductive AioState.Stops (a : AioState) : Act → Prop
  /-- An operation did not move as many bytes as its request has. -/
  | event (e : IoEvent) (rest : List IoEvent) (q : CopyRequest) (hpc : a.pc = .handle (e :: rest))
      (hq : a.reqs.get? e.data = some q) (hres : e.res ≠ toUlong q.fsize) : Stops a .handleEvent
  | openSrc (o : ReadAnswer) (hfd : o.fd < 0) : Stops a (.readOne o)
  | fstat (o : ReadAnswer) (hfd : 0 ≤ o.fd) (hsize : o.stSize = none) : Stops a (.readOne o)
  | readSubmit (ret size : ℤ) (iocbs : List Iocb) (hpc : a.pc = .readLoop size iocbs)
      (hret : ret ≠ size) : Stops a (.readSubmit ret)
  | openDst (fd : ℤ) (hfd : fd < 0) : Stops a (.writeOne fd)
  | writeSubmit (ret size : ℤ) (iocbs : List Iocb) (hpc : a.pc = .writeLoop size iocbs)
      (hret : ret ≠ size) : Stops a (.writeSubmit ret)

/-- The steps that end the process, with the exit status. -/
inductive Prog.Ends (p : Prog) : Label → ℤ → Prop
  | destroy : Ends p (.destroy true) 0
  | fails (l : Label) (hfails : l.Fails) : Ends p l (-1)
  | special (name : Name) (dtype : DType) (hname : ¬ (name = dot ∨ name = dotdot))
      (htype : ¬ (dtype = .dir ∨ dtype = .reg ∨ dtype = .unknown)) :
      Ends p (.readdir (.entry name dtype)) 1
  | aio (act : Act) (hstops : p.aio.Stops act) : Ends p (.aio act) 1

/-- `aio_loop` goes on, or it stops with status 1. -/
structure AioState.EndsLike (a : AioState) (act : Act) (a' : AioState) : Prop where
  stops : a.Stops act → a'.ended = some (.exited 1)
  runs : ¬ a.Stops act → a'.ended = none

section

variable {a a' : AioState} {act : Act}

namespace AioState.EndsLike

lemma of_stops (h : a.Stops act) (hended : a'.ended = some (.exited 1)) : a.EndsLike act a' :=
  ⟨fun _ => hended, fun hnot => absurd h hnot⟩

lemma of_not (h : ¬ a.Stops act) (hended : a'.ended = none) : a.EndsLike act a' :=
  ⟨fun hs => absurd hs h, fun _ => hended⟩

lemma handleEvent (hgood : Good a) (hended : a.ended = none) {e : IoEvent} {rest : List IoEvent}
    (hpc : a.pc = .handle (e :: rest)) : a.EndsLike .handleEvent (a.handleEvent e rest) := by
  obtain ⟨xs, ys, b, h, -⟩ := hgood
  obtain ⟨q, hq, -⟩ := h.refRec e.obj (by simp [AioState.refs, hpc])
  have hdata : a.reqs.get? e.data = some q := hq
  by_cases hres : e.res ≠ toUlong q.fsize
  · refine of_stops (.event e rest q hpc hdata hres) ?_
    simp only [AioState.handleEvent, hdata, if_pos hres, AioState.exit]
  · refine of_not (fun hs => ?_) ?_
    · cases hs with
      | event e' rest' q' hpc' hq' hres' =>
        obtain ⟨rfl, rfl⟩ : e' = e ∧ rest' = rest := by
          rw [hpc] at hpc'
          injection hpc' with hcons
          exact ⟨(List.cons.inj hcons).1.symm, (List.cons.inj hcons).2.symm⟩
        obtain rfl := Option.some.inj (hdata.symm.trans hq')
        exact hres hres'
    · simp only [AioState.handleEvent, hdata, if_neg hres]
      split_ifs <;> exact hended

lemma readOne (hgood : Good a) (hended : a.ended = none) {o : AioState.ReadAnswer} {size : ℤ}
    {cs : List Iocb} (hpc : a.pc = .readLoop size cs) (hlt : (cs.length : ℤ) < size)
    (hposs : o.Possible a) : a.EndsLike (.readOne o) (a.readOne o size cs) := by
  obtain ⟨xs, ys, b, h, hl⟩ := hgood
  obtain ⟨r, tl, q, -, hhead, hq, -⟩ := Good.readHead h hl hpc hended hlt
  by_cases hfd : o.fd < 0
  · refine of_stops (.openSrc o hfd) ?_
    simp only [AioState.readOne, hhead, hq, if_pos hfd, AioState.exit]
  cases hsize : o.stSize with
  | none =>
    refine of_stops (.fstat o (not_lt.mp hfd) hsize) ?_
    simp only [AioState.readOne, hhead, hq, if_neg hfd, hsize, AioState.exit]
  | some stSize =>
    refine of_not (fun hs => ?_) ?_
    · cases hs with
      | openSrc _ hneg => exact hfd hneg
      | fstat _ _ hnone => simp [hsize] at hnone
    · -- the test for `NULL` fails
      have hbuf : o.buf ≠ 0 := by
        rcases (hposs.2 stSize hsize).2 with hfail | ⟨-, hpos, -⟩
        · rw [hfail]
          decide
        · omega
      simp only [AioState.readOne, hhead, hq, if_neg hfd, hsize, if_neg hbuf]
      exact hended

lemma writeOne (hgood : Good a) (hended : a.ended = none) {fd size : ℤ} {cs : List Iocb}
    (hpc : a.pc = .writeLoop size cs) (hlt : (cs.length : ℤ) < size) :
    a.EndsLike (.writeOne fd) (a.writeOne fd size cs) := by
  obtain ⟨xs, ys, b, h, hl⟩ := hgood
  obtain ⟨r, tl, q, -, hhead, hq, -⟩ := Good.writeHead h hl hpc hended hlt
  by_cases hfd : fd < 0
  · refine of_stops (.openDst fd hfd) ?_
    simp only [AioState.writeOne, hhead, hq, if_pos hfd, AioState.exit]
  · refine of_not (fun hs => ?_) ?_
    · cases hs with
      | openDst _ hneg => exact hfd hneg
    · simp only [AioState.writeOne, hhead, hq, if_neg hfd]
      exact hended

lemma submit (hended : a.ended = none) {ret size : ℤ} {cs : List Iocb} {next : AioPc}
    {stop : List Iocb → AioPc} (hstops : a.Stops act ↔ ret ≠ size) :
    a.EndsLike act (a.submit ret size cs next stop) := by
  by_cases hret : ret ≠ size
  · refine of_stops (hstops.mpr hret) ?_
    simp only [AioState.submit, if_pos hret, AioState.exit]
  · refine of_not (fun hs => hret (hstops.mp hs)) ?_
    simp only [AioState.submit, if_neg hret]
    exact hended

/-- **A step of `aio_loop` or of the kernel ends the process exactly when it stops it.** -/
theorem of_fires (hgood : Good a) (hended : a.ended = none) (hfires : AioState.Fires a act a')
    (hact : act.ofClient = false) : a.EndsLike act a' := by
  cases hfires with
  | startThread | bumpReqCount | newRequest | clientLockRequest | addCopyReq
  | clientUnlockRequest | clientLockFlush | setFlush | clientUnlockFlush | exit =>
    simp [Act.ofClient] at hact
  | lockFlush | getEvents | checkDone | unlockBreak | lockRequest | readSize | unlockRequest
  | writeSize | unlockFlush | complete => exact of_not (by rintro ⟨⟩) hended
  | handleEvent e rest hpc => exact handleEvent hgood hended hpc
  | readOne o size cs hpc hlt hposs => exact readOne hgood hended hpc hlt hposs
  | writeOne fd size cs hpc hlt => exact writeOne hgood hended hpc hlt
  | readSubmit ret size cs hpc =>
    refine submit hended ⟨fun hs => ?_, fun hret => .readSubmit ret size cs hpc hret⟩
    cases hs with
    | readSubmit _ size' cs' hpc' hret =>
      rw [hpc] at hpc'
      injection hpc' with hsize
      exact hsize ▸ hret
  | writeSubmit ret size cs hpc =>
    refine submit hended ⟨fun hs => ?_, fun hret => .writeSubmit ret size cs hpc hret⟩
    cases hs with
    | writeSubmit _ size' cs' hpc' hret =>
      rw [hpc] at hpc'
      injection hpc' with hsize
      exact hsize ▸ hret

end AioState.EndsLike

end

namespace Prog

variable {p p' : Prog} {l : Label} {srcName dstName : CStr} {batchSize : ℤ}

/-- How a step ends the process, if it does. -/
lemma ended_cases (hgood : Good p.aio) (hstep : p.step l = some p') :
    (∃ code, p.Ends l code ∧ p'.aio.ended = some (.exited code)) ∨
      ((∀ code, ¬ p.Ends l code) ∧ p'.aio.ended = none) := by
  obtain ⟨hended, hfires⟩ := fires_of_step hstep
  cases hfires with
  | aio act a ha =>
    obtain ⟨hact, hclient⟩ := step_of_aioStep hended ha
    have hlike : p.aio.EndsLike act a :=
      .of_fires hgood hended (AioState.fires_of_step hact).2 hclient
    by_cases hstops : p.aio.Stops act
    · exact Or.inl ⟨1, .aio act hstops, hlike.stops hstops⟩
    · refine Or.inr ⟨?_, hlike.runs hstops⟩
      rintro code (_ | ⟨_, hfails⟩ | _ | ⟨_, hs⟩)
      · exact hfails
      · exact hstops hs
  | fail _ _ hfails => exact Or.inl ⟨-1, .fails l hfails, rfl⟩
  | readdirExit name dtype _ hname htype =>
    exact Or.inl ⟨1, .special name dtype hname htype, rfl⟩
  | destroy => exact Or.inl ⟨0, .destroy, rfl⟩
  | addLink r _ hr =>
    obtain ⟨q, -, hlink⟩ := hgood.addCopyReq_eq hr
    rw [hlink]
    refine Or.inr ⟨?_, hended⟩
    rintro code (_ | ⟨_, hfails⟩)
    exact hfails
  | readdirSkip name dtype _ hname =>
    refine Or.inr ⟨?_, hended⟩
    rintro code (_ | ⟨_, hfails⟩ | ⟨_, _, hnot, -⟩)
    · cases hfails
    · exact hnot hname
  | readdirEnqueue _ _ name dtype _ _ _ htype =>
    refine Or.inr ⟨?_, hended⟩
    rintro code (_ | ⟨_, hfails⟩ | ⟨_, _, -, hnot⟩)
    · cases hfails
    · exact hnot htype
  | _ =>
    refine Or.inr ⟨?_, hended⟩
    rintro code (_ | ⟨_, hfails⟩)
    cases hfails

/-- The statuses of the process. -/
lemma status_of_reaches
    (h : Reaches Prog.step anyLabel (Prog.init srcName dstName batchSize) p) {x : Exit}
    (hended : p.aio.ended = some x) :
    ∃ code, x = .exited code ∧ (code = 0 ∨ code = 1 ∨ code = -1) := by
  refine h.invariant_of (J := fun p => Good p.aio) (I := fun p => ∀ x, p.aio.ended = some x →
    ∃ code, x = .exited code ∧ (code = 0 ∨ code = 1 ∨ code = -1))
    (fun _ hr => good_of_reaches (hr.weaken fun _ _ _ => trivial))
    (fun {p l p'} hgood _ _ _ hstep x hx => ?_) (fun x hx => by cases hx) x hended
  rcases ended_cases hgood hstep with ⟨code, hends, hcode⟩ | ⟨-, hnone⟩
  · refine ⟨code, Option.some.inj (hx.symm.trans hcode), ?_⟩
    cases hends <;> decide
  · rw [hnone] at hx
    cases hx

/-- **Every end of the process is one of these**, whatever the kernel and the schedule do: a
step ends the process if and only if it is one of the exits of the code, and then with the
status of that exit.  In particular it follows no null or dangling pointer to a request; the
memory that `malloc` and the stack may lack is not in the model. -/
theorem ended_iff_of_reaches
    (h : Reaches Prog.step anyLabel (Prog.init srcName dstName batchSize) p)
    (hstep : p.step l = some p') (x : Exit) :
    p'.aio.ended = some x ↔ ∃ code, x = .exited code ∧ p.Ends l code := by
  have hgood := good_of_reaches h
  rcases ended_cases hgood hstep with ⟨code, hends, hcode⟩ | ⟨hnot, hnone⟩
  · rw [hcode, Option.some.injEq]
    constructor
    · rintro rfl
      exact ⟨code, rfl, hends⟩
    · rintro ⟨code', rfl, hends'⟩
      have hsame : code = code' := by
        cases hends <;> cases hends' <;> first | rfl | (rename_i hfails; cases hfails)
      rw [hsame]
  · rw [hnone]
    constructor
    · exact fun hx => nomatch hx
    · rintro ⟨code, -, hends⟩
      exact absurd hends (hnot code)

/-- One regular file is queued, and `aio_loop` takes it and calls `read_size`. -/
def oneQueued : List Label :=
  [.initManager true, .startThread true, .stat (some .reg), .bumpReqCount, .copyReg,
    .addLock true, .addLink, .addUnlock true, .aio .lockFlush, .aio (.getEvents []),
    .aio .checkDone, .aio .lockRequest, .aio .readSize]

/-- `open` fails in `aio_loop`, and the process exits with status 1. -/
theorem ended_iff_of_reaches_oneQueued : ∃ p p' : Prog,
    p.step (.aio (.readOne ⟨-1, none, 0⟩)) = some p' ∧
      (p'.aio.ended = some (.exited 1) ↔
        ∃ code, Exit.exited 1 = .exited code ∧ p.Ends (.aio (.readOne ⟨-1, none, 0⟩)) code) := by
  have hrun : (exec Prog.step (Prog.init ['s'] ['d'] 1) oneQueued).bind
      (fun p => (p.step (.aio (.readOne ⟨-1, none, 0⟩))).map fun p' => p'.aio.ended) =
        some (some (Exit.exited 1)) := by
    decide +kernel
  obtain ⟨p, hp, hlast⟩ := Option.bind_eq_some_iff.mp hrun
  obtain ⟨p', hp', -⟩ := Option.map_eq_some_iff.mp hlast
  exact ⟨p, p', hp', ended_iff_of_reaches (reaches_of_exec (fun _ _ => trivial) hp) hp' _⟩

end Prog

end Cpr
