/-
# The drain ends and is never stuck

After `flush` is set, each iteration of `aio_loop` submits everything it can: at its end
both lists are empty, and unless it was the last one something is in flight.  The weights
4, 3, 2 and 1 of the four places of an unfinished request make every submission and every
reaped event count one, so no iteration increases the weighted sum, and only a bounded
number of iterations does anything at all.
-/
import Cpr.Program.Phase

namespace Cpr

open Transition Unix

/-- Every label but the one with which `aio_loop` begins an iteration. -/
def InIteration (_ : Prog) (l : Label) : Prop := l ≠ .aio .lockFlush

/-- `aio_loop` gets to the end of the iteration it is in, if any, and begins no other. -/
def Segment (s t : Prog) : Prop :=
  Reaches Prog.step InIteration s t ∧ (t.aio.pc = .lockFlush ∨ t.aio.pc = .returned)

/-- One iteration of `aio_loop`, together with what the main thread and the kernel do in
the meantime. -/
def Iteration (s t : Prog) : Prop := ∃ s₁, s.step (.aio .lockFlush) = some s₁ ∧ Segment s₁ t

/-- Something was submitted or reaped between `s` and `t`. -/
def Active (s t : Prog) : Prop := s.aio.work < t.aio.work

instance (s t : Prog) : Decidable (Active s t) := inferInstanceAs (Decidable (_ < _))

/-- From `s` the rest of the current iteration, and then any number of iterations, lead to
`t`; `n` of them submitted or reaped something. -/
inductive Drain (s : Prog) : ℕ → Prog → Prop
  | start {t : Prog} (seg : Segment s t) : Drain s (if Active s t then 1 else 0) t
  | next {n : ℕ} {t u : Prog} (before : Drain s n t) (iter : Iteration t u) :
      Drain s (if Active t u then n + 1 else n) u

/-- No iteration increases the measure, and one that does anything decreases it. -/
structure Decreasing (s : Prog) : Prop where
  measure_le : ∀ t, Iteration s t → t.aio.measure ≤ s.aio.measure
  measure_lt : ∀ t, Iteration s t → Active s t → t.aio.measure < s.aio.measure

/-- The drain from a state with `flush` set. -/
structure DrainLaw (s : Prog) : Prop extends Decreasing s where
  breaks : s.aio.pc = .handle [] → (s.aio.checkDone.pc = .unlockBreak ↔
    s.aio.readList = [] ∧ s.aio.inFlight .pread = [] ∧ s.aio.writeList = [] ∧
      s.aio.inFlight .pwrite = [])
  returned : ∀ t, Iteration s t → (t.aio.pc = .returned ↔ t.aio.measure = 0)
  waits : ∀ t, Iteration s t → t.aio.pc = .lockFlush →
    t.aio.readList = [] ∧ t.aio.writeList = [] ∧ t.aio.flight ≠ []
  bound : ∀ n t, Drain s n t → n ≤ 2 * s.aio.unfinished + 1

/-! ## Steps with `flush` set -/

namespace Prog

variable {p p' s t : Prog} {l : Label} {srcName dstName : CStr} {batchSize : ℤ}

/-- A step with `flush` set is one of the other thread or of the kernel, or leaves the
requests alone. -/
lemma step_of_flush (hc : Counting p) (hflush : p.aio.mgr.flush = true)
    (hstep : p.step l = some p') :
    (∃ act, l = .aio act ∧ AioState.Fires p.aio act p'.aio ∧ act.ofClient = false ∧
      p.aio.step act = some p'.aio) ∨
    (p'.aio.reqs = p.aio.reqs ∧ p'.aio.mgr.readHead = p.aio.mgr.readHead ∧
      p'.aio.mgr.writeHead = p.aio.mgr.writeHead ∧ p'.aio.log = p.aio.log ∧
      p'.aio.pc = p.aio.pc ∧ p'.aio.mgr.flush = true ∧
      (p'.aio.ended = none → p.aio.ended = none)) := by
  have hafter : p.pc.afterFlush = true := hc.flush.symm.trans hflush
  obtain ⟨hended, hfires⟩ := fires_of_step hstep
  cases hfires with
  | aio act a ha =>
    obtain ⟨hact, hclient⟩ := step_of_aioStep hended ha
    exact Or.inl ⟨act, rfl, (AioState.fires_of_step hact).2, hclient, hact⟩
  | fail | waitUnlock | join | destroy | closedir =>
    exact Or.inr ⟨rfl, rfl, rfl, rfl, rfl, hflush, fun _ => hended⟩
  | initManager hpc | startThread hpc | statDir _ _ hpc | statReg _ _ hpc
  | statOther _ _ _ hpc | walkEnd hpc | mkdir hpc | opendir hpc | readdirSkip _ _ hpc
  | readdirEnqueue _ _ _ _ hpc | readdirExit _ _ hpc | readdirEnd hpc | bumpReqCount hpc
  | copyReg _ _ hpc | addLock hpc | addLink _ hpc | addUnlock hpc | waitLock hpc
  | waitSet hpc =>
    rw [hpc] at hafter
    simp [MainPc.afterFlush] at hafter

end Prog

namespace Phase

variable {a a' : AioState} {act : Act}

/-- The phase does not depend on the main thread's mutex, nor on the end of the process. -/
lemma frame (hp : Phase a) (hreqs : a'.reqs = a.reqs)
    (hread : a'.mgr.readHead = a.mgr.readHead) (hwrite : a'.mgr.writeHead = a.mgr.writeHead)
    (hlog : a'.log = a.log) (hpc : a'.pc = a.pc) (hended : a'.ended = none → a.ended = none) :
    Phase a' := by
  obtain ⟨h₁, h₂, h₃⟩ := lists_eq hreqs hread hwrite (by rw [hlog]) (by rw [hlog])
  unfold Phase at hp ⊢
  rw [hpc, h₁, h₂, h₃]
  cases hpc' : a.pc with
  | readLoop size cs =>
    simp only [hpc'] at hp
    exact ⟨hp.1, fun he => hp.2 (hended he)⟩
  | writeLoop size cs =>
    simp only [hpc'] at hp
    exact ⟨hp.1, hp.2.1, fun he => hp.2.2 (hended he)⟩
  | _ =>
    simp only [hpc'] at hp
    exact hp

end Phase

/-- Requests are finished only while events are handled. -/
lemma Good.finished_cases {a a' : AioState} {act : Act} (hgood : Good a)
    (hstep : a.step act = some a') :
    a'.log.finished = a.log.finished ∨ ∃ rest, a'.pc = .handle rest := by
  cases hgood.moves hstep with
  | same e => exact Or.inl (by rw [e.log])
  | reap => exact Or.inl (Log.finished_reap _)
  | finishWrite e rest => exact Or.inr ⟨rest, rfl⟩
  | submit cs ds _ _ _ _ _ _ log => exact Or.inl (by rw [log, Log.finished_submit])
  | finishRead | startRead | startWrite | complete | newRequest => exact Or.inl rfl
  | linkIn => exact Or.inl rfl

/-- The history only grows. -/
lemma Good.log_suffix {a a' : AioState} {act : Act} (hgood : Good a)
    (hstep : a.step act = some a') : a.log <:+ a'.log := by
  cases hgood.moves hstep with
  | same e => rw [e.log]
  | reap => exact List.suffix_append _ _
  | finishWrite | linkIn => exact List.suffix_cons _ _
  | submit cs ds _ _ _ _ _ _ log =>
    rw [log]
    exact List.suffix_append _ _
  | finishRead | startRead | startWrite | complete | newRequest => exact List.suffix_rfl

/-- From the top of the loop, without beginning an iteration, `aio_loop` does nothing. -/
lemma AioState.Fires.of_lockFlush {a a' : AioState} {act : Act} (h : a.Fires act a')
    (hact : act.ofClient = false) (hpc : a.pc = .lockFlush) :
    (a'.pc = .lockFlush ∧ a'.log = a.log) ∨ (act = .lockFlush ∧ a'.pc = .getEvents) := by
  cases h with
  | lockFlush => exact Or.inr ⟨rfl, rfl⟩
  | complete => exact Or.inl ⟨hpc, rfl⟩
  | startThread | bumpReqCount | newRequest | clientLockRequest | addCopyReq
  | clientUnlockRequest | clientLockFlush | setFlush | clientUnlockFlush | exit =>
    simp [Act.ofClient] at hact
  | getEvents _ hpc' | handleEvent _ _ hpc' | checkDone hpc' | unlockBreak hpc'
  | lockRequest hpc' | readSize hpc' | readOne _ _ _ hpc' | readSubmit _ _ _ hpc'
  | unlockRequest hpc' | writeSize hpc' | writeOne _ _ _ hpc' | writeSubmit _ _ _ hpc'
  | unlockFlush hpc' =>
    simp [hpc] at hpc'

/-! ## The invariant of the drain -/

/-- With `flush` set, `aio_loop` is at the top of its loop or in a phase. -/
def Draining (p : Prog) : Prop := p.aio.mgr.flush = true → p.aio.unfinished < 2 ^ 31 →
  p.aio.pc = .lockFlush ∨ Phase p.aio

namespace Draining

variable {p p' : Prog} {l : Label} {srcName dstName : CStr} {batchSize : ℤ}

/-- The counter of requests, with `flush` set. -/
lemma reqCount_of_flush (hc : Counting p) (hflush : p.aio.mgr.flush = true) :
    p.aio.reqCount = toInt32 p.aio.log.accepted.length := by
  have hafter : p.pc.afterFlush = true := hc.flush.symm.trans hflush
  have hcounted : p.pc.counted = false := by
    revert hafter
    cases p.pc <;> simp [MainPc.afterFlush, MainPc.counted]
  have hreq := hc.reqCount
  rw [hcounted] at hreq
  simpa using hreq

/-- A step of `aio_loop` or of the kernel, with `flush` set. -/
lemma aio (hd : Draining p) (hc : Counting p) (hgood : Good p.aio) {a : AioState} {act : Act}
    (hended : p.aio.ended = none) (hfires : AioState.Fires p.aio act a)
    (hstep : p.aio.step act = some a) (hact : act.ofClient = false)
    (hflush : p.aio.mgr.flush = true) (hN : a.unfinished < 2 ^ 31) :
    a.pc = .lockFlush ∨ Phase a := by
  by_cases hN' : p.aio.unfinished < 2 ^ 31
  · rcases hd hflush hN' with hpc | hp
    · rcases hfires.of_lockFlush hact hpc with ⟨hpc', -⟩ | ⟨-, hpc'⟩
      · exact Or.inl hpc'
      · right
        rw [Phase, hpc']
        trivial
    · exact Or.inr (hp.step hgood hended hfires hact hflush (reqCount_of_flush hc hflush) hN)
  · rcases hgood.finished_cases hstep with hfin | ⟨rest, hpc⟩
    · have hacc := (aioFrame_of_fires hfires hact).accepted
      rw [AioState.unfinished, hfin, hacc] at hN
      exact absurd hN hN'
    · exact Or.inr (.of_handle hpc)

lemma step (hd : Draining p) (hc : Counting p) (hl : Locks p) (hs : Stopped p)
    (hgood : Good p.aio) (hstep : p.step l = some p') : Draining p' := by
  intro hflush' hN
  by_cases hflush : p.aio.mgr.flush = true
  · rcases Prog.step_of_flush hc hflush hstep with
      ⟨act, rfl, hfires, hact, ha⟩ | ⟨hreqs, hread, hwrite, hlog, hpc, -, hended⟩
    · exact hd.aio hc hgood (Prog.fires_of_step hstep).1 hfires ha hact hflush hN
    · have hunf := (Phase.lists_eq hreqs hread hwrite (by rw [hlog]) (by rw [hlog])).2.2
      rw [hunf] at hN
      rcases hd hflush hN with hpc' | hp
      · exact Or.inl (hpc.trans hpc')
      · exact Or.inr (hp.frame hreqs hread hwrite hlog hpc hended)
  · -- `flush` is set in this step: the main thread holds the mutex, so `aio_loop` is at its top
    obtain ⟨hended, hfires⟩ := Prog.fires_of_step hstep
    cases hfires with
    | waitSet hpc =>
      left
      have hheld := hl.mainFlush.mpr (by rw [hpc]; rfl)
      change p.aio.pc = .lockFlush
      cases hapc : p.aio.pc with
      | lockFlush => rfl
      | notStarted =>
        have hbefore := hl.started.mp hapc
        simp [hpc, MainPc.beforeStart] at hbefore
      | returned => exact absurd (hs (Or.inr hapc)).1 hflush
      | _ =>
        have hheld' := hl.aioFlush.mpr (by rw [hapc]; rfl)
        simp [hheld] at hheld'
    | aio act a ha =>
      rw [(aioFrame_of_aioStep hended ha).flush] at hflush'
      exact absurd hflush' hflush
    | addLink r =>
      have hsame : (p.aio.addCopyReq r).mgr.flush = p.aio.mgr.flush := by
        unfold AioState.addCopyReq
        cases p.aio.reqs.get? r <;> rfl
      exact absurd (hsame.symm.trans hflush') hflush
    | _ => exact absurd hflush' hflush

theorem of_reaches (h : Reaches Prog.step anyLabel (Prog.init srcName dstName batchSize) p) :
    Draining p :=
  h.invariant_of (J := fun p => Counting p ∧ Locks p ∧ Stopped p ∧ Good p.aio)
    (fun _ hr => ⟨Counting.of_reaches hr, Locks.of_reaches hr, Stopped.of_reaches hr,
      Prog.good_of_reaches hr⟩)
    (fun hj _ hd _ hstep => hd.step hj.1 hj.2.1 hj.2.2.1 hj.2.2.2 hstep)
    fun hflush => by simp [Prog.init, AioState.init] at hflush

end Draining

/-! ## Runs with `flush` set -/

/-- A state of a run with `flush` set. -/
structure FlushSet (s : Prog) : Prop where
  reachable : ∃ srcName dstName batchSize,
    Reaches Prog.step anyLabel (Prog.init srcName dstName batchSize) s
  flush : s.aio.mgr.flush = true

namespace FlushSet

variable {s t : Prog} {l : Label}

lemma good (hs : FlushSet s) : Good s.aio := by
  obtain ⟨_, _, _, h⟩ := hs.reachable
  exact Prog.good_of_reaches h

lemma counting (hs : FlushSet s) : Counting s := by
  obtain ⟨_, _, _, h⟩ := hs.reachable
  exact Counting.of_reaches h

/-- What a step keeps, and that the history only grows. -/
lemma step (hs : FlushSet s) (hstep : s.step l = some t) :
    FlushSet t ∧ t.aio.log.accepted = s.aio.log.accepted ∧ s.aio.log <:+ t.aio.log := by
  have hkeep : t.aio.log.accepted = s.aio.log.accepted ∧ s.aio.log <:+ t.aio.log ∧
      t.aio.mgr.flush = true := by
    rcases Prog.step_of_flush hs.counting hs.flush hstep with
      ⟨act, rfl, hfires, hact, ha⟩ | ⟨-, -, -, hlog, -, hflush, -⟩
    · have hf := aioFrame_of_fires hfires hact
      exact ⟨hf.accepted, hs.good.log_suffix ha, hf.flush.trans hs.flush⟩
    · rw [hlog]
      exact ⟨rfl, List.suffix_rfl, hflush⟩
  obtain ⟨hacc, hlog, hflush⟩ := hkeep
  obtain ⟨srcName, dstName, batchSize, h⟩ := hs.reachable
  exact ⟨⟨⟨srcName, dstName, batchSize, h.tail trivial hstep⟩, hflush⟩, hacc, hlog⟩

lemma reaches {ok : Prog → Label → Prop} (hs : FlushSet s) (h : Reaches Prog.step ok s t) :
    FlushSet t ∧ t.aio.log.accepted = s.aio.log.accepted ∧ s.aio.log <:+ t.aio.log := by
  refine h.invariant (I := fun t => FlushSet t ∧
    t.aio.log.accepted = s.aio.log.accepted ∧ s.aio.log <:+ t.aio.log)
    (fun ⟨ht, hacc, hlog⟩ _ hstep => ?_) ⟨hs, rfl, List.suffix_rfl⟩
  obtain ⟨hu, hacc', hlog'⟩ := ht.step hstep
  exact ⟨hu, hacc'.trans hacc, hlog.trans hlog'⟩

lemma atBoundary (hpc : t.aio.pc = .lockFlush ∨ t.aio.pc = .returned) : t.aio.AtBoundary := by
  unfold AioState.AtBoundary
  rcases hpc with hpc | hpc <;> rw [hpc] <;> exact ⟨rfl, rfl⟩

lemma measure_add_work (hs : FlushSet s) (hpc : s.aio.pc = .lockFlush ∨ s.aio.pc = .returned) :
    s.aio.measure + s.aio.work = 4 * s.aio.log.accepted.length := by
  obtain ⟨xs, ys, b, h, -⟩ := hs.good
  exact h.measure_add_work (atBoundary hpc)

/-- What an iteration starts from and where it ends. -/
lemma iteration (hs : FlushSet s) (h : Iteration s t) :
    s.aio.pc = .lockFlush ∧ FlushSet t ∧ (t.aio.pc = .lockFlush ∨ t.aio.pc = .returned) ∧
      t.aio.log.accepted = s.aio.log.accepted ∧ s.aio.log <:+ t.aio.log := by
  obtain ⟨s₁, hstep, hseg⟩ := h
  obtain ⟨hs₁, hacc, hlog⟩ := hs.step hstep
  obtain ⟨ht, hacc', hlog'⟩ := hs₁.reaches hseg.1
  obtain ⟨hended, hfires⟩ := Prog.fires_of_step hstep
  obtain ⟨a, hact, rfl⟩ := Prog.aio_fires hended hfires
  cases hact with
  | lockFlush hpc => exact ⟨hpc, ht, hseg.2, hacc'.trans hacc, hlog.trans hlog'⟩

lemma work_le (h : s.aio.log <:+ t.aio.log) : s.aio.work ≤ t.aio.work :=
  Nat.add_le_add (h.filterMap _).length_le (h.filterMap _).length_le

/-- What an iteration does is what the measure loses. -/
theorem decreasing (hs : FlushSet s) : Decreasing s := by
  have hsum {t : Prog} (iter : Iteration s t) :
      s.aio.measure + s.aio.work = t.aio.measure + t.aio.work := by
    obtain ⟨hpc, ht, hpc', hacc, -⟩ := hs.iteration iter
    rw [hs.measure_add_work (Or.inl hpc), ht.measure_add_work hpc', hacc]
  refine ⟨fun t iter => ?_, fun t iter hact => ?_⟩
  · have hwork := work_le (hs.iteration iter).2.2.2.2
    have := hsum iter
    omega
  · have := hsum iter
    unfold Active at hact
    omega

end FlushSet

/-- A state of a run with `flush` set and fewer than `2 ^ 31` unfinished requests. -/
structure Flushing (s : Prog) : Prop extends FlushSet s where
  unfinished : s.aio.unfinished < 2 ^ 31

namespace Flushing

variable {s t u : Prog} {l : Label}

lemma draining (hs : Flushing s) : s.aio.pc = .lockFlush ∨ Phase s.aio := by
  obtain ⟨_, _, _, h⟩ := hs.reachable
  exact Draining.of_reaches h hs.flush hs.unfinished

/-- What a run keeps, and that the history only grows. -/
lemma reaches {ok : Prog → Label → Prop} (hs : Flushing s) (h : Reaches Prog.step ok s t) :
    Flushing t ∧ t.aio.log.accepted = s.aio.log.accepted ∧ s.aio.log <:+ t.aio.log := by
  obtain ⟨ht, hacc, hlog⟩ := hs.toFlushSet.reaches h
  refine ⟨⟨ht, ?_⟩, hacc, hlog⟩
  have hfin : s.aio.log.finished.length ≤ t.aio.log.finished.length :=
    (hlog.filterMap _).length_le
  have hN := hs.unfinished
  unfold AioState.unfinished at hN ⊢
  rw [hacc]
  omega

/-- The phases along a run that begins no iteration. -/
lemma phase (hs : Flushing s) (hp : Phase s.aio) (h : Reaches Prog.step InIteration s t) :
    Phase t.aio := by
  refine h.invariant_of (J := Flushing) (fun _ hr => (hs.reaches hr).1)
    (I := fun t => Phase t.aio) (fun {v _ w} hv hw hp _ hstep => ?_) hp
  rcases Prog.step_of_flush hv.counting hv.flush hstep with
    ⟨act, rfl, hfires, hact, ha⟩ | ⟨hreqs, hread, hwrite, hlog, hpc, -, hended⟩
  · exact hp.step hv.good (Prog.fires_of_step hstep).1 hfires hact hv.flush
      (Draining.reqCount_of_flush hv.counting hv.flush) hw.unfinished
  · exact hp.frame hreqs hread hwrite hlog hpc hended

/-- From the top of the loop, a run that begins no iteration does nothing. -/
lemma idle (hs : Flushing s) (hpc : s.aio.pc = .lockFlush)
    (h : Reaches Prog.step InIteration s t) :
    t.aio.pc = .lockFlush ∧ t.aio.log = s.aio.log := by
  refine h.invariant_of (J := Flushing) (fun _ hr => (hs.reaches hr).1)
    (I := fun t => t.aio.pc = .lockFlush ∧ t.aio.log = s.aio.log)
    (fun {v _ w} hv _ ⟨hvpc, hvlog⟩ hin hstep => ?_) ⟨hpc, rfl⟩
  rcases Prog.step_of_flush hv.counting hv.flush hstep with
    ⟨act, rfl, hfires, hact, ha⟩ | ⟨-, -, -, hlog, hpc', -, -⟩
  · rcases hfires.of_lockFlush hact hvpc with ⟨hpc', hlog⟩ | ⟨rfl, -⟩
    · exact ⟨hpc', hlog.trans hvlog⟩
    · exact absurd rfl hin
  · exact ⟨hpc'.trans hvpc, hlog.trans hvlog⟩

end Flushing

/-- The end of an iteration. -/
structure AtTop (t : Prog) : Prop where
  pc : t.aio.pc = .lockFlush ∨ t.aio.pc = .returned
  phase : Phase t.aio

namespace AtTop

variable {s t u : Prog}

/-- At the end of an iteration both lists are empty. -/
lemma lists (ht : AtTop t) (hgood : Good t.aio) : t.aio.readList = [] ∧ t.aio.writeList = [] := by
  have hp := ht.phase
  unfold Phase at hp
  rcases ht.pc with hpc | hpc
  · simp only [hpc] at hp
    exact hp.2
  · simp only [hpc] at hp
    obtain ⟨xs, ys, b, h, -⟩ := hgood
    have hlen := h.lengths
    rw [h.readList_eq, h.writeList_eq]
    unfold AioState.unfinished at hp
    exact ⟨List.length_eq_zero_iff.mp (by omega), List.length_eq_zero_iff.mp (by omega)⟩

/-- At the end of an iteration the loop was left, or something is in flight. -/
lemma measure_eq_zero (ht : AtTop t) (hgood : Good t.aio) :
    t.aio.pc = .returned ↔ t.aio.measure = 0 := by
  obtain ⟨hread, hwrite⟩ := ht.lists hgood
  have hp := ht.phase
  obtain ⟨xs, ys, b, h, -⟩ := id hgood
  have hlen := h.lengths
  rw [Inv.running_of_atBoundary (FlushSet.atBoundary ht.pc),
    Inv.running_of_atBoundary (FlushSet.atBoundary ht.pc), ← h.readList_eq, ← h.writeList_eq,
    hread, hwrite] at hlen
  unfold AioState.measure
  rw [hread, hwrite]
  unfold Phase AioState.unfinished at hp
  simp only [List.length_nil] at hlen ⊢
  rcases ht.pc with hpc | hpc
  · simp only [hpc] at hp ⊢
    simp only [reduceCtorEq, false_iff]
    omega
  · simp only [hpc] at hp ⊢
    simp only [true_iff]
    omega

lemma flight_ne_nil (ht : AtTop t) (hgood : Good t.aio) (hpc : t.aio.pc = .lockFlush) :
    t.aio.flight ≠ [] := by
  intro hnil
  have hzero : t.aio.measure = 0 := by
    obtain ⟨hread, hwrite⟩ := ht.lists hgood
    simp [AioState.measure, hread, hwrite, AioState.inFlight, hnil]
  have := (ht.measure_eq_zero hgood).mpr hzero
  simp [hpc] at this

/-- After an iteration, an iteration that does anything reaps something. -/
lemma reaped_lt (hs : Flushing s) (ht : AtTop s) (hu : AtTop u) (hgood : Good u.aio)
    (hacc : u.aio.log.accepted = s.aio.log.accepted) (hlog : s.aio.log <:+ u.aio.log)
    (hact : Active s u) : s.aio.log.reaped.length < u.aio.log.reaped.length := by
  obtain ⟨hread, hwrite⟩ := ht.lists hs.good
  obtain ⟨hread', hwrite'⟩ := hu.lists hgood
  obtain ⟨xs, ys, b, h, -⟩ := hs.good
  obtain ⟨xs', ys', b', h', -⟩ := id hgood
  have hb := FlushSet.atBoundary ht.pc
  have hb' := FlushSet.atBoundary hu.pc
  have hc := h.counts_of_atBoundary hb
  have hc' := h'.counts_of_atBoundary hb'
  have hlen := h.lengths
  have hlen' := h'.lengths
  rw [Inv.running_of_atBoundary hb, Inv.running_of_atBoundary hb] at hlen
  rw [Inv.running_of_atBoundary hb', Inv.running_of_atBoundary hb'] at hlen'
  rw [h.readList_eq] at hread
  rw [h.writeList_eq] at hwrite
  rw [h'.readList_eq] at hread'
  rw [h'.writeList_eq] at hwrite'
  subst hread hwrite hread' hwrite'
  have hfin : s.aio.log.finished.length ≤ u.aio.log.finished.length :=
    (hlog.filterMap _).length_le
  have hsum := Inv.length_reqsOf s.aio.log.submitted
  have hsum' := Inv.length_reqsOf u.aio.log.submitted
  have hreap := Inv.length_reqsOf s.aio.log.reaped
  have hreap' := Inv.length_reqsOf u.aio.log.reaped
  unfold Active AioState.work at hact
  rw [hacc] at hc' hlen'
  simp only [List.length_nil] at hc hc' hlen hlen'
  omega

end AtTop

namespace Flushing

variable {s t u : Prog} {n : ℕ}

/-- The end of the current iteration, if there is one, is the end of an iteration. -/
lemma segment (hs : Flushing s) (hp : Phase s.aio) (h : Segment s t) : AtTop t :=
  ⟨h.2, hs.phase hp h.1⟩

/-- What an iteration starts from and where it ends. -/
lemma iteration (hs : Flushing s) (h : Iteration s t) :
    Flushing t ∧ AtTop t ∧ t.aio.log.accepted = s.aio.log.accepted ∧ s.aio.log <:+ t.aio.log := by
  obtain ⟨s₁, hstep, hseg⟩ := h
  have hfirst : Reaches Prog.step anyLabel s s₁ := Reaches.refl.tail trivial hstep
  obtain ⟨hs₁, hacc, hlog⟩ := hs.reaches hfirst
  obtain ⟨ht, hacc', hlog'⟩ := hs₁.reaches hseg.1
  obtain ⟨hended, hfires⟩ := Prog.fires_of_step hstep
  obtain ⟨a, hact, rfl⟩ := Prog.aio_fires hended hfires
  cases hact with
  | lockFlush =>
    refine ⟨ht, hs₁.segment ?_ hseg, hacc'.trans hacc, hlog.trans hlog'⟩
    simp only [Phase]

/-- The stop test, after the reap phase. -/
lemma breaks (hs : Flushing s) (hpc : s.aio.pc = .handle []) :
    s.aio.checkDone.pc = .unlockBreak ↔
      s.aio.readList = [] ∧ s.aio.inFlight .pread = [] ∧ s.aio.writeList = [] ∧
        s.aio.inFlight .pwrite = [] := by
  obtain ⟨xs, ys, b, h, -⟩ := hs.good
  have hb : s.aio.AtBoundary := by
    unfold AioState.AtBoundary
    rw [hpc]
    exact ⟨rfl, rfl⟩
  have hlen := h.lengths
  rw [Inv.running_of_atBoundary hb, Inv.running_of_atBoundary hb] at hlen
  have hphase := Phase.checkDone h hs.flush (Draining.reqCount_of_flush hs.counting hs.flush)
    hs.unfinished
  have hunf : s.aio.checkDone.unfinished = s.aio.unfinished := rfl
  have hstop : s.aio.checkDone.pc = .unlockBreak ↔ s.aio.unfinished = 0 := by
    by_cases htest : s.aio.stopTest = true
    · have hpc' : s.aio.checkDone.pc = .unlockBreak := by simp [AioState.checkDone, htest]
      simp only [Phase, hpc', hunf] at hphase
      simp [hpc', hphase]
    · have hpc' : s.aio.checkDone.pc = .lockRequest := by simp [AioState.checkDone, htest]
      simp only [Phase, hpc', hunf] at hphase
      simp [hpc', hphase.ne']
  rw [hstop, h.readList_eq, h.writeList_eq, ← List.length_eq_zero_iff, ← List.length_eq_zero_iff,
    ← List.length_eq_zero_iff, ← List.length_eq_zero_iff, AioState.unfinished]
  omega

/-- What a drain keeps: after the first active iteration, every active iteration reaps
something. -/
lemma drain (hs : Flushing s) (h : Drain s n t) :
    (Flushing t ∧ t.aio.log.accepted = s.aio.log.accepted ∧ s.aio.log <:+ t.aio.log) ∧
      (n = 0 ∨ AtTop t) ∧ n + s.aio.log.reaped.length ≤ 1 + t.aio.log.reaped.length := by
  induction h with
  | @start t seg =>
    have hkeep := hs.reaches seg.1
    have hmono : s.aio.log.reaped.length ≤ t.aio.log.reaped.length :=
      (hkeep.2.2.filterMap _).length_le
    refine ⟨hkeep, ?_, by split_ifs <;> omega⟩
    rcases hs.draining with hpc | hp
    · left
      rw [if_neg]
      rw [Active, AioState.work, AioState.work, (hs.idle hpc seg.1).2]
      exact lt_irrefl _
    · exact Or.inr (hs.segment hp seg)
  | @next n t u _ iter ih =>
    obtain ⟨⟨ht, hacc, hlog⟩, htop, hle⟩ := ih
    obtain ⟨hu, hutop, hacc', hlog'⟩ := ht.iteration iter
    refine ⟨⟨hu, hacc'.trans hacc, hlog.trans hlog'⟩, Or.inr hutop, ?_⟩
    have hmono : t.aio.log.reaped.length ≤ u.aio.log.reaped.length :=
      (hlog'.filterMap _).length_le
    have hmono' : s.aio.log.reaped.length ≤ t.aio.log.reaped.length :=
      (hlog.filterMap _).length_le
    split_ifs with hact
    · rcases htop with rfl | htop
      · omega
      · have := htop.reaped_lt ht hutop hu.good hacc' hlog' hact
        omega
    · omega

end Flushing

section

variable {s : Prog} {srcName dstName : CStr} {batchSize : ℤ}

/-- **The drain ends and is never stuck**, for every kernel and schedule, and for fewer than
`2 ^ 31` unfinished requests; the measure decreases for any number of them. -/
theorem drains_of_reaches
    (h : Reaches Prog.step anyLabel (Prog.init srcName dstName batchSize) s)
    (hflush : s.aio.mgr.flush = true) :
    Decreasing s ∧ (s.aio.unfinished < 2 ^ 31 → DrainLaw s) := by
  have hflushed : FlushSet s := ⟨⟨_, _, _, h⟩, hflush⟩
  refine ⟨hflushed.decreasing, fun hlt => ?_⟩
  have hs : Flushing s := ⟨hflushed, hlt⟩
  refine
    { hflushed.decreasing with
      breaks := hs.breaks
      returned := fun t iter => ?_
      waits := fun t iter hpc => ?_
      bound := fun n t hd => ?_ }
  · obtain ⟨ht, htop, -⟩ := hs.iteration iter
    exact htop.measure_eq_zero ht.good
  · obtain ⟨ht, htop, -⟩ := hs.iteration iter
    obtain ⟨hread, hwrite⟩ := htop.lists ht.good
    exact ⟨hread, hwrite, htop.flight_ne_nil ht.good hpc⟩
  · obtain ⟨⟨ht, hacc, -⟩, -, hle⟩ := hs.drain hd
    obtain ⟨xs, ys, b, hinv, -⟩ := hs.good
    obtain ⟨xs', ys', b', hinv', -⟩ := ht.good
    have hlow := hinv.reaped_bounds.1
    have hhigh := hinv'.reaped_bounds.2
    have hlen := hinv.lengths
    rw [hacc] at hhigh
    unfold AioState.unfinished
    omega

/-- A run in which `flush` is set while the only request is still in the read list. -/
theorem drains_of_reaches_one : ∃ s : Prog,
    Reaches Prog.step anyLabel (Prog.init ['a'] ['b'] 8) s ∧ s.aio.unfinished = 1 ∧ DrainLaw s := by
  have hrun : (exec Prog.step (Prog.init ['a'] ['b'] 8)
      [.initManager true, .startThread true, .stat (some .reg), .bumpReqCount, .copyReg,
        .addLock true, .addLink, .addUnlock true, .walkEnd, .waitLock true, .waitSet,
        .waitUnlock true]).map (fun s => (s.aio.mgr.flush, s.aio.unfinished)) = some (true, 1) := by
    decide +kernel
  obtain ⟨s, hs, hfacts⟩ := Option.map_eq_some_iff.mp hrun
  simp only [Prod.mk.injEq] at hfacts
  obtain ⟨hflush, hone⟩ := hfacts
  have hreach : Reaches Prog.step anyLabel (Prog.init ['a'] ['b'] 8) s :=
    reaches_of_exec (fun _ _ => trivial) hs
  exact ⟨s, hreach, hone, (drains_of_reaches hreach hflush).2 (by rw [hone]; decide)⟩

/-- With a negative `read_len`, an iteration submits nothing and comes back to its top. -/
lemma iteration_of_neg {x : ℤ} (hneg : x < 0) (hread : s.aio.mgr.readLen = x)
    (hreq : s.aio.reqCount = x) (hwrite : s.aio.mgr.writeLen = 0)
    (hfin : s.aio.mgr.finishedCount = 0) (hflush : s.aio.mgr.flush = true)
    (hflight : s.aio.flight = []) (hreqMutex : s.aio.mgr.requestMutex = none)
    (hflushMutex : s.aio.mgr.flushMutex = none) (hpc : s.aio.pc = .lockFlush)
    (hended : s.aio.ended = none) :
    ∃ t, Iteration s t ∧ t.aio.pc = .lockFlush ∧ t.aio.flight = [] := by
  have hrun : ∃ t, exec Prog.step s
      [.aio .lockFlush, .aio (.getEvents []), .aio .checkDone, .aio .lockRequest, .aio .readSize,
        .aio .unlockRequest, .aio .writeSize, .aio .unlockFlush] = some t ∧
        t.aio.pc = .lockFlush ∧ t.aio.flight = [] := by
    simp [Prog.step, Prog.aioStep, AioState.loopStep, AioState.lockFlush, AioState.getEvents,
      AioState.checkDone, AioState.stopTest, AioState.lockRequest, AioState.readSize,
      AioState.chooseReadSize, AioState.unlockRequest, AioState.writeSize, AioState.chooseWriteSize,
      AioState.unlockFlush, hflush, hended, hpc, hflight, hfin, hflushMutex, hreqMutex, hwrite,
      hreq,
      hread, hneg.ne, hneg.not_gt]
  obtain ⟨t, ht, hpc, hflight⟩ := hrun
  rw [exec_cons] at ht
  obtain ⟨s₁, hlock, hrest⟩ := Option.bind_eq_some_iff.mp ht
  refine ⟨t, ⟨s₁, hlock, ?_, Or.inl hpc⟩, hpc, hflight⟩
  exact reaches_of_exec_mem (by simp [InIteration]) hrest

/-- With `2 ^ 31` files, `read_len` is negative, and the iterations after `flush` is set have
nothing in flight to wait for. -/
theorem not_drains_of_overflow : ¬ ∀ (srcName dstName : CStr) (batchSize : ℤ) (s : Prog),
    Reaches Prog.step anyLabel (Prog.init srcName dstName batchSize) s →
      s.aio.mgr.flush = true → DrainLaw s := by
  intro hall
  obtain ⟨n, hneg⟩ : ∃ n : ℕ, toInt32 n < 0 := ⟨2 ^ 31, by decide⟩
  obtain ⟨s, hs, h⟩ := flat.reaches_flushed n 1
  obtain ⟨t, hiter, hpc, hflight⟩ := iteration_of_neg hneg h.backlog.readLen h.backlog.reqCount
    h.backlog.writeLen h.backlog.finishedCount h.flush h.backlog.flight h.backlog.requestMutex
    h.backlog.flushMutex h.backlog.pc h.backlog.ended
  have hlaw := hall _ _ _ _ (Sys.prog_reaches_any hs) h.flush
  exact (hlaw.waits t hiter hpc).2.2 hflight

end

end Cpr
