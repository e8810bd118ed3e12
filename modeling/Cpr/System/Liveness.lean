/-
# Every fair run ends

Whatever the kernel answers: if both threads go on as long as they are not held up, every
operation in flight is completed some time, and `io_getevents` returns what is completed,
then the process ends.  The walk takes boundedly many steps, so from some time on the main
thread waits; it cannot wait for a mutex for good, since `aio_loop` gets around its loop
infinitely often; and while it waits for the end of `aio_loop`, each way around finds
something in flight, so that something more is submitted or reaped: but that, too, is bounded.
-/
import Cpr.Lib.Fair
import Cpr.Program.Exits
import Cpr.Program.Progress
import Cpr.System.Copy
import Cpr.System.Termination

namespace Cpr

open Filter Transition Unix

/-- `io_getevents` returns something if an operation is completed. -/
def Sys.Prompt (s : Sys) : Label → Prop
  | .aio (.getEvents []) => ¬ s.prog.aio.HasResult
  | _ => True

instance (s : Sys) (l : Label) : Decidable (s.Prompt l) := by
  induction l using Label.casesOn with
  | aio act =>
    induction act using Act.casesOn with
    | getEvents events =>
      induction events using List.casesOn <;> (unfold Sys.Prompt; infer_instance)
    | _ => unfold Sys.Prompt; infer_instance
  | _ => unfold Sys.Prompt; infer_instance

/-- `readdir` returns no name twice, and `io_getevents` returns something if it can. -/
def Sys.Regular (s : Sys) (l : Label) : Prop := s.ListsOnce l ∧ s.Prompt l

instance (s : Sys) (l : Label) : Decidable (s.Regular l) := inferInstanceAs (Decidable (_ ∧ _))

/-- The two threads go on, and the kernel completes its operations. -/
structure FairRun {ok : Sys → Label → Prop} {s : Sys} (path : Path Sys.step ok s) : Prop where
  main : path.Fair fun l => l.thread = some .main
  aio : path.Fair fun l => l.thread = some .aio
  kernel : ∀ n c, .pending c ∈ (path.state n).prog.aio.flight →
    ∃ m ≥ n, .pending c ∉ (path.state m).prog.aio.flight ∨ (path.state m).prog.aio.ended ≠ none

/-! ## The main thread stops -/

/-- How far the main thread is; the walk is one place. -/
def MainPc.order : MainPc → ℕ
  | .initManager => 0
  | .startThread => 1
  | .waitLock => 3
  | .waitSet => 4
  | .waitUnlock => 5
  | .join => 6
  | .destroy => 7
  | _ => 2

lemma MainPc.order_le (pc : MainPc) : pc.order ≤ 7 := by
  cases pc <;> simp [order]

/-- A step of the main thread is one of the walk, or leads to a later place. -/
lemma Prog.Fires.order_le {p p' : Prog} {l : Label} (h : Prog.Fires p l p')
    (hended : p'.aio.ended = none) :
    p.pc.order + (if l.thread = some .main then 1 else 0) ≤
      p'.pc.order + if l.ofWalk then 1 else 0 := by
  cases h with
  | aio act => cases act <;> simp [Label.thread, Label.ofWalk]
  | fail | readdirExit | destroy => simp [Prog.fail, AioState.exit] at hended
  | initManager hpc | startThread hpc | waitLock hpc | waitSet hpc | waitUnlock hpc | join hpc =>
    simp [hpc, Label.thread, Label.ofWalk, MainPc.order]
  | statDir _ _ hpc | statReg _ _ hpc | statOther _ _ _ hpc | walkEnd hpc | mkdir hpc | opendir hpc
  | readdirSkip _ _ hpc | readdirEnqueue _ _ _ _ hpc | readdirEnd hpc | closedir hpc
  | bumpReqCount hpc | copyReg _ _ hpc | addLock hpc | addLink _ hpc | addUnlock hpc =>
    simp [hpc, Label.thread, Label.ofWalk, MainPc.order, Prog.next]

section

variable {t : Setting} {batchSize : ℤ} {ok : Sys → Label → Prop}
  {path : Path Sys.step ok (t.init batchSize)}

/-- The steps of the main thread. -/
lemma length_main_le (hrun : ∀ n, (path.state n).prog.aio.ended = none) (n : ℕ) :
    ((path.labels n).filter fun l => l.thread = some .main).length ≤
      ((path.labels n).filter Label.ofWalk).length + (path.state n).prog.pc.order := by
  induction n with
  | zero => exact Nat.zero_le _
  | succ n ih =>
    rw [Path.labels_succ, List.filter_append, List.filter_append, List.length_append,
      List.length_append]
    cases hl : path.label n with
    | none =>
      rw [path.idles n hl]
      simpa using ih
    | some l =>
      obtain ⟨-, hfires, -⟩ := Sys.fires_of_step (path.moves n l hl).2
      have horder := hfires.order_le (hrun (n + 1))
      have hmain : ([l].filter fun l => l.thread = some .main).length =
          if l.thread = some .main then 1 else 0 := by
        by_cases hm : l.thread = some .main <;> simp [hm]
      have hwalk : ([l].filter Label.ofWalk).length = if l.ofWalk then 1 else 0 := by
        cases hw : l.ofWalk <;> simp [hw]
      rw [Option.toList_some, hmain, hwalk]
      omega

/-- **From some time on the main thread does not move.** -/
theorem eventually_not_main (hok : ∀ s l, ok s l → s.ListsOnce l)
    (hrun : ∀ n, (path.state n).prog.aio.ended = none) :
    ∀ᶠ n in atTop, ¬ path.Moves (fun l => l.thread = some .main) n := by
  refine Path.eventually_not_moves (B := 8 * t.fs.dom.card + 17) fun n => ?_
  have hexec : execOk Sys.step Sys.ListsOnce (t.init batchSize) (path.labels n) =
      some (path.state n) := (path.weaken hok).execOk_labels n
  have hwalk := t.steps_le hexec
  have hmain := length_main_le hrun n
  have horder := (path.state n).prog.pc.order_le
  omega

end

/-! ## What the threads wait for -/

/-- The main thread waits for a mutex that `aio_loop` holds, or for its end. -/
def Sys.MainWaits (s : Sys) : Prop :=
  (s.prog.pc = .addLock ∧ s.prog.aio.pc.holdsRequest = true) ∨
    (s.prog.pc = .waitLock ∧ s.prog.aio.pc.holdsFlush = true) ∨
    (s.prog.pc = .join ∧ s.prog.aio.pc ≠ .returned)

namespace Sys

variable {s : Sys}

lemma thread_of_walk {l : Label} (h : l.ofWalk = true) : l.thread = some .main := by
  cases l <;> simp [Label.ofWalk] at h <;> rfl

/-- The main thread goes on unless it waits. -/
lemma mainWaits_of_not (h : Locks s.prog) (hended : s.prog.aio.ended = none)
    (hnot : ∀ l : Label, l.thread = some .main → s.step l = none) : s.MainWaits := by
  have hstuck : ∀ l : Label, l.thread = some .main → s.world.after s.prog l = some s.world →
      ¬ (s.prog.mainStep l).isSome := by
    intro l hl hafter hsome
    have hmain : ∀ act, l ≠ .aio act := by
      rintro act rfl
      cases act <;> cases hl
    obtain ⟨p, hp⟩ := Option.isSome_iff_exists.mp (Locks.isSome_step_main hended hmain hsome)
    have hnone := hnot l hl
    simp [Sys.step, hp, hafter] at hnone
  by_cases hwalk : s.prog.pc.ofWalk = true
  · rcases Sys.walk_live h hended hwalk with ⟨l, hl, -, hsome⟩ | ⟨hpc, hm⟩
    · rw [hnot l (thread_of_walk hl)] at hsome
      cases hsome
    · exact Or.inl ⟨hpc, h.aioRequest.mp hm⟩
  cases hpc : s.prog.pc with
  | initManager => exact absurd (by simp [Prog.mainStep, hpc]) (hstuck (.initManager true) rfl rfl)
  | startThread => exact absurd (by simp [Prog.mainStep, hpc]) (hstuck (.startThread true) rfl rfl)
  | waitLock =>
    rcases Locks.holder_cases s.prog.aio.mgr.flushMutex with hm | hm | hm
    · exact absurd (by simp [Prog.mainStep, AioState.lockFlush, hpc, hm])
        (hstuck (.waitLock true) rfl rfl)
    · have := h.mainFlush.mp hm
      simp [hpc, MainPc.holdsFlush] at this
    · exact Or.inr (Or.inl ⟨hpc, h.aioFlush.mp hm⟩)
  | waitSet => exact absurd (by simp [Prog.mainStep, hpc]) (hstuck .waitSet rfl rfl)
  | waitUnlock => exact absurd (by simp [Prog.mainStep, hpc]) (hstuck (.waitUnlock true) rfl rfl)
  | join =>
    refine Or.inr (Or.inr ⟨hpc, fun hret => ?_⟩)
    exact absurd (by simp [Prog.mainStep, hpc, hret]) (hstuck (.join true) rfl rfl)
  | destroy => exact absurd (by simp [Prog.mainStep, hpc]) (hstuck (.destroy true) rfl rfl)
  | _ => simp [hpc, MainPc.ofWalk, MainPc.inBody] at hwalk

namespace MainWaits

/-- While the main thread waits, `aio_loop` runs. -/
lemma running (hw : s.MainWaits) (h : Locks s.prog) :
    s.prog.aio.pc ≠ .returned ∧ s.prog.aio.pc ≠ .notStarted := by
  refine ⟨fun hret => ?_, fun hns => ?_⟩
  · rcases hw with ⟨-, hheld⟩ | ⟨-, hheld⟩ | ⟨-, hne⟩
    · simp [hret, AioPc.holdsRequest] at hheld
    · simp [hret, AioPc.holdsFlush] at hheld
    · exact hne hret
  · have hbefore := h.started.mp hns
    rcases hw with ⟨hpc, -⟩ | ⟨hpc, -⟩ | ⟨hpc, -⟩ <;> simp [hpc, MainPc.beforeStart] at hbefore

/-- While the main thread waits, it holds no mutex. -/
lemma free (hw : s.MainWaits) (h : Locks s.prog) :
    (s.prog.aio.pc.holdsFlush = false → s.prog.aio.mgr.flushMutex = none) ∧
      (s.prog.aio.pc.holdsRequest = false → s.prog.aio.mgr.requestMutex = none) := by
  have hmain : s.prog.pc.holdsFlush = false ∧ s.prog.pc.holdsRequest = false := by
    rcases hw with ⟨hpc, -⟩ | ⟨hpc, -⟩ | ⟨hpc, -⟩ <;> rw [hpc] <;> exact ⟨rfl, rfl⟩
  constructor
  · intro hno
    rcases Locks.holder_cases s.prog.aio.mgr.flushMutex with hm | hm | hm
    · exact hm
    · have := h.mainFlush.mp hm
      simp [hmain.1] at this
    · have := h.aioFlush.mp hm
      simp [hno] at this
  · intro hno
    rcases Locks.holder_cases s.prog.aio.mgr.requestMutex with hm | hm | hm
    · exact hm
    · have := h.mainRequest.mp hm
      simp [hmain.2] at this
    · have := h.aioRequest.mp hm
      simp [hno] at this

/-- While the main thread waits, `aio_loop` can go on. -/
lemma aio_canMove (hw : s.MainWaits) (h : Locks s.prog) (hended : s.prog.aio.ended = none) :
    ∃ l : Label, l.thread = some .aio ∧ (s.step l).isSome := by
  obtain ⟨hret, hns⟩ := hw.running h
  obtain ⟨hflush, hrequest⟩ := hw.free h
  obtain ⟨act, hact⟩ : ∃ act, s.prog.aio.pc.act = some act := by
    cases hpc : s.prog.aio.pc with
    | returned => exact absurd hpc hret
    | notStarted => exact absurd hpc hns
    | handle events => cases events <;> exact ⟨_, rfl⟩
    | _ => exact ⟨_, rfl⟩
  have hloop := AioState.isSome_loopStep hact (fun hpc => hflush (by rw [hpc]; rfl))
    fun hpc => hrequest (by rw [hpc]; rfl)
  have hstep : (Prog.aioStep s.prog.aio act).isSome := by
    cases act with
    | complete c res => exact absurd rfl (AioState.ne_complete_of_act hact c res)
    | _ => exact hloop
  have hafter : s.world.after s.prog (.aio act) = some s.world := by
    show s.world.afterAio s.prog.aio act = some s.world
    cases hpc : s.prog.aio.pc with
    | readLoop size cs =>
      simp only [hpc, AioPc.act, Option.some.injEq] at hact
      split_ifs at hact <;> rw [← hact] <;> rfl
    | writeLoop size cs =>
      simp only [hpc, AioPc.act, Option.some.injEq] at hact
      split_ifs at hact <;> rw [← hact] <;> rfl
    | handle events => cases events <;> simp [hpc, AioPc.act] at hact <;> rw [← hact] <;> rfl
    | _ => simp [hpc, AioPc.act] at hact <;> rw [← hact] <;> rfl
  refine ⟨.aio act, ?_, ?_⟩
  · cases act with
    | complete c res => exact absurd rfl (AioState.ne_complete_of_act hact c res)
    | _ => rfl
  · obtain ⟨p, hp⟩ := Option.isSome_iff_exists.mp (Locks.isSome_step_aio hended hstep)
    simp [Sys.step, hp, hafter]

end MainWaits

end Sys

/-! ## `aio_loop` gets around -/

/-- A path on which the process runs, the main thread waits for good, and `aio_loop` moves
infinitely often. -/
structure Waiting {ok : Sys → Label → Prop} {s : Sys} (path : Path Sys.step ok s) (N : ℕ) :
    Prop where
  running : ∀ n, (path.state n).prog.aio.ended = none
  locks : ∀ n, Locks (path.state n).prog
  good : ∀ n, Good (path.state n).prog.aio
  still : ∀ n, N ≤ n → ¬ path.Moves (fun l => l.thread = some .main) n
  waits : ∀ n, N ≤ n → (path.state n).MainWaits
  aio : ∃ᶠ n in atTop, path.Moves (fun l => l.thread = some .aio) n

namespace Waiting

variable {ok : Sys → Label → Prop} {s : Sys} {path : Path Sys.step ok s} {N n : ℕ}

/-- What happens at an instant: nothing, or a step of `aio_loop` or of the kernel. -/
lemma step_cases (h : Waiting path N) (hn : N ≤ n) :
    path.state (n + 1) = path.state n ∨ ∃ act, path.label n = some (.aio act) ∧
      act.ofClient = false ∧ ok (path.state n) (.aio act) ∧
      (path.state n).prog.aio.step act = some (path.state (n + 1)).prog.aio ∧
      (path.state (n + 1)).prog.pc = (path.state n).prog.pc := by
  cases hl : path.label n with
  | none => exact Or.inl (path.idles n hl)
  | some l =>
    obtain ⟨act, rfl⟩ := Prog.aio_of_thread fun hmain => h.still n hn ⟨l, hl, hmain⟩
    obtain ⟨hok, hstep⟩ := path.moves n _ hl
    obtain ⟨hact, hclient, hpc, -⟩ := Prog.aio_step (Sys.prog_step hstep)
    exact Or.inr ⟨act, rfl, hclient, hok, hact, hpc⟩

/-- Only `aio_loop` moves itself. -/
lemma pc_eq (h : Waiting path N) (hn : N ≤ n)
    (hnot : ¬ path.Moves (fun l => l.thread = some .aio) n) :
    (path.state (n + 1)).prog.aio.pc = (path.state n).prog.aio.pc := by
  rcases h.step_cases hn with heq | ⟨act, hl, -, -, hact, -⟩
  · rw [heq]
  · cases act with
    | complete c res =>
      generalize (path.state (n + 1)).prog.aio = a' at hact
      cases (AioState.fires_of_step hact).2
      rfl
    | _ => exact absurd ⟨_, hl, rfl⟩ hnot

/-- A move of `aio_loop`. -/
lemma fires (_ : Waiting path N)
    (hmove : path.Moves (fun l => l.thread = some .aio) n) :
    ∃ act, path.label n = some (.aio act) ∧ act.ofClient = false ∧
      (∀ c res, act ≠ .complete c res) ∧ ok (path.state n) (.aio act) ∧
      (path.state n).prog.aio.Fires act (path.state (n + 1)).prog.aio := by
  obtain ⟨l, hl, hthread⟩ := hmove
  obtain ⟨act, rfl⟩ := Prog.aio_of_thread (l := l) (by rw [hthread]; simp)
  obtain ⟨hok, hstep⟩ := path.moves n _ hl
  obtain ⟨hact, hclient, -⟩ := Prog.aio_step (Sys.prog_step hstep)
  refine ⟨act, hl, hclient, ?_, hok, (AioState.fires_of_step hact).2⟩
  rintro c res rfl
  cases hthread

/-- From a place, `aio_loop` moves on some time. -/
lemma exists_fires (h : Waiting path N) (hn : N ≤ n) : ∃ m, n ≤ m ∧
    (path.state m).prog.aio.pc = (path.state n).prog.aio.pc ∧
    ∃ act, act.ofClient = false ∧ (∀ c res, act ≠ .complete c res) ∧
      ok (path.state m) (.aio act) ∧
      (path.state m).prog.aio.Fires act (path.state (m + 1)).prog.aio := by
  obtain ⟨m, hm, hpc, hmove⟩ := Path.exists_moves
    (Q := fun u => u.prog.aio.pc = (path.state n).prog.aio.pc) h.aio
    (fun k hk hnot hpc => (h.pc_eq (hn.trans hk) hnot).trans hpc) rfl
  obtain ⟨act, -, hclient, hact, hok, hfires⟩ := h.fires hmove
  exact ⟨m, hm, hpc, act, hclient, hact, hok, hfires⟩

/-- `aio_loop` gets infinitely often to the place where it has submitted all it can. -/
lemma frequently_unlockFlush (h : Waiting path N) :
    ∃ᶠ n in atTop, (path.state n).prog.aio.pc = .unlockFlush := by
  refine Path.frequently_of_rank (Q := fun u => u.prog.aio.pc = .unlockFlush) wellFounded_lt
    (fun u => u.prog.aio.pc.rank 12) h.aio
    (fun n hn hnot => congrArg (AioPc.rank 12) (h.pc_eq hn hnot)) fun n hn hmove hend => ?_
  obtain ⟨act, -, hclient, hact, -, hfires⟩ := h.fires hmove
  refine Or.inr ?_
  by_cases htop : (path.state n).prog.aio.pc = .lockFlush
  · show AioPc.rank 12 _ < AioPc.rank 12 _
    rw [htop, hfires.of_top hclient hact htop]
    exact rank_lt_of_fst (by decide) _ _
  · exact hfires.rank_lt hclient hact (h.running (n + 1)) 12 htop hend

/-- `aio_loop` asks for events infinitely often. -/
lemma frequently_getEvents (h : Waiting path N) :
    ∃ᶠ n in atTop, (path.state n).prog.aio.pc = .getEvents := by
  refine Path.frequently_of_rank (Q := fun u => u.prog.aio.pc = .getEvents) wellFounded_lt
    (fun u => u.prog.aio.pc.rank 1) h.aio
    (fun n hn hnot => congrArg (AioPc.rank 1) (h.pc_eq hn hnot)) fun n hn hmove _ => ?_
  obtain ⟨act, -, hclient, hact, -, hfires⟩ := h.fires hmove
  by_cases htop : (path.state n).prog.aio.pc = .lockFlush
  · exact Or.inl (hfires.of_top hclient hact htop)
  refine Or.inr ?_
  by_cases hend : (path.state n).prog.aio.pc = .unlockFlush
  · show AioPc.rank 1 _ < AioPc.rank 1 _
    rw [hend, (hfires.of_end hclient hact hend).2]
    exact rank_lt_of_fst (by decide) _ _
  · exact hfires.rank_lt hclient hact (h.running (n + 1)) 1 htop hend

/-- An instant at which `aio_loop` ends an iteration, after any other. -/
lemma exists_end (h : Waiting path N) (M : ℕ) : ∃ m, M ≤ m ∧ N ≤ m ∧
    (path.state m).prog.aio.pc = .unlockFlush ∧ (path.state (m + 1)).prog.aio.pc = .lockFlush ∧
    (path.state m).prog.aio.Fires .unlockFlush (path.state (m + 1)).prog.aio := by
  obtain ⟨n, hn, hpc⟩ := frequently_atTop.mp h.frequently_unlockFlush (max M N)
  obtain ⟨m, hm, hpc', act, hclient, hact, -, hfires⟩ := h.exists_fires (by omega : N ≤ n)
  obtain ⟨rfl, hnext⟩ := hfires.of_end hclient hact (hpc'.trans hpc)
  exact ⟨m, by omega, by omega, hpc'.trans hpc, hnext, hfires⟩

/-- The main thread waits for the end of `aio_loop`: it gets every mutex. -/
lemma pc_main (h : Waiting path N) (hn : N ≤ n) : (path.state n).prog.pc = .join := by
  have hconst : ∀ k, (path.state (n + k)).prog.pc = (path.state n).prog.pc := by
    intro k
    induction k with
    | zero => rfl
    | succ k ih =>
      rcases h.step_cases (by omega : N ≤ n + k) with heq | ⟨_, _, _, _, _, hpc⟩
      · rw [← Nat.add_assoc, heq, ih]
      · rw [← Nat.add_assoc, hpc, ih]
  obtain ⟨m, hm, -, -, hpc, -⟩ := h.exists_end n
  have hsame : (path.state (m + 1)).prog.pc = (path.state n).prog.pc := by
    rw [← hconst (m + 1 - n), Nat.add_sub_cancel' (by omega)]
  rcases h.waits (m + 1) (by omega) with ⟨-, hheld⟩ | ⟨-, hheld⟩ | ⟨hjoin, -⟩
  · simp [hpc, AioPc.holdsRequest] at hheld
  · simp [hpc, AioPc.holdsFlush] at hheld
  · exact hsame.symm.trans hjoin

/-- The work that is done by an instant. -/
lemma work_le (h : Waiting path N) (n : ℕ) :
    (path.state n).prog.aio.work ≤ (path.state (n + 1)).prog.aio.work := by
  cases hl : path.label n with
  | none => rw [path.idles n hl]
  | some l =>
    have hstep := Sys.prog_step (path.moves n l hl).2
    exact FlushSet.work_le (Prog.log_suffix (h.locks n) (h.good n) hstep)

variable {M : ℕ}

/-- The work has come to an end: nothing is submitted or reaped any more. -/
structure Idle (path : Path Sys.step ok s) (N M : ℕ) : Prop extends Waiting path N where
  le : N ≤ M
  work : ∀ n, M ≤ n → (path.state n).prog.aio.work = (path.state M).prog.aio.work

namespace Idle

/-- An operation in flight stays there, or something is completed. -/
lemma step (h : Idle path N M) (hn : M ≤ n) :
    (∀ c, .pending c ∈ (path.state n).prog.aio.flight →
      .pending c ∈ (path.state (n + 1)).prog.aio.flight ∨
        (path.state (n + 1)).prog.aio.HasResult) ∧
      ((path.state n).prog.aio.HasResult → (path.state (n + 1)).prog.aio.HasResult) := by
  rcases h.step_cases (h.le.trans hn) with heq | ⟨act, -, -, -, hact, -⟩
  · rw [heq]
    exact ⟨fun c hc => Or.inl hc, id⟩
  · have hsame := (h.work (n + 1) (by omega)).trans (h.work n hn).symm
    exact ⟨fun c hc => AioState.pending_or_hasResult hc (h.good n) hact hsame,
      fun hres => hres.step (h.good n) hact hsame⟩

lemma hasResult_add (h : Idle path N M) (hn : M ≤ n) (hres : (path.state n).prog.aio.HasResult)
    (k : ℕ) : (path.state (n + k)).prog.aio.HasResult := by
  induction k with
  | zero => exact hres
  | succ k ih => exact (h.step (by omega : M ≤ n + k)).2 ih

/-- What is in flight is completed some time. -/
lemma exists_hasResult (h : Idle path N M) (hfair : FairRun path) (hn : M ≤ n)
    (hne : (path.state n).prog.aio.flight ≠ []) :
    ∃ m, n ≤ m ∧ (path.state m).prog.aio.HasResult := by
  obtain ⟨⟨c, result⟩, rest, hflight⟩ := List.exists_cons_of_ne_nil hne
  cases result with
  | some res => exact ⟨n, le_rfl, ⟨c, some res⟩, by simp [hflight], by simp⟩
  | none =>
    have hmem : .pending c ∈ (path.state n).prog.aio.flight := by
      rw [hflight]
      exact List.mem_cons_self
    obtain ⟨m, hm, hgone⟩ := hfair.kernel n c hmem
    have hkeep : ∀ k, .pending c ∈ (path.state (n + k)).prog.aio.flight ∨
        (path.state (n + k)).prog.aio.HasResult := by
      intro k
      induction k with
      | zero => exact Or.inl hmem
      | succ k ih =>
        obtain ⟨hpending, hres⟩ := h.step (by omega : M ≤ n + k)
        exact ih.elim (hpending c) fun hr => Or.inr (hres hr)
    have hm' := hkeep (m - n)
    rw [Nat.add_sub_cancel' hm] at hm'
    exact ⟨m, hm, hm'.resolve_left (hgone.resolve_right (by simp [h.running m]))⟩

/-- Nothing is in flight, since `io_getevents` would return it. -/
lemma flight_eq_nil (h : Idle path N M) (hfair : FairRun path)
    (hprompt : ∀ s l, ok s l → s.Prompt l) (hn : M ≤ n) :
    (path.state n).prog.aio.flight = [] := by
  by_contra hne
  obtain ⟨m, hm, hres⟩ := h.exists_hasResult hfair hn hne
  obtain ⟨j, hj, hpc⟩ := frequently_atTop.mp h.frequently_getEvents m
  obtain ⟨k, hk, hpc', act, hclient, hact, hok, hfires⟩ :=
    h.exists_fires (h.le.trans (by omega : M ≤ j))
  obtain ⟨events, rfl, hwork⟩ := hfires.of_getEvents hclient hact (hpc'.trans hpc)
  cases events with
  | nil =>
    have hthere := h.hasResult_add (by omega : M ≤ m) hres (k - m)
    rw [Nat.add_sub_cancel' (by omega)] at hthere
    exact hprompt _ _ hok hthere
  | cons e rest =>
    have hlt := hwork (by simp)
    rw [h.work k (by omega), h.work (k + 1) (by omega)] at hlt
    exact lt_irrefl _ hlt

end Idle

/-- The end of an iteration finds something in flight. -/
lemma flight_ne_nil (h : Waiting path N) (hflushing : ∀ n, N ≤ n → Flushing (path.state n).prog)
    (k : ℕ) : ∃ n, k ≤ n ∧ (path.state n).prog.aio.flight ≠ [] := by
  obtain ⟨m, hk, hm, hpc, hnext, hfires⟩ := h.exists_end k
  have hs := hflushing m hm
  have hs' := hflushing (m + 1) (by omega)
  have hphase : Phase (path.state m).prog.aio :=
    hs.draining.resolve_left (by simp [hpc])
  have hphase' := hphase.step hs.good (h.running m) hfires rfl hs.flush
    (Draining.reqCount_of_flush hs.counting hs.flush) hs'.unfinished
  exact ⟨m + 1, by omega, AtTop.flight_ne_nil ⟨Or.inl hnext, hphase'⟩ hs'.good hnext⟩

/-- So the main thread does not wait for good. -/
theorem false (h : Waiting path N) (hfair : FairRun path) (hprompt : ∀ s l, ok s l → s.Prompt l)
    (hflushing : ∀ n, N ≤ n → Flushing (path.state n).prog) {B : ℕ}
    (hB : ∀ n, (path.state n).prog.aio.work ≤ B) : False := by
  obtain ⟨M, hM, hwork⟩ := Path.eventually_eq_of_bounded (fun n (_ : N ≤ n) => h.work_le n)
    fun n _ => hB n
  have hidle : Idle path N M := { h with le := hM, work := hwork }
  obtain ⟨n, hn, hne⟩ := h.flight_ne_nil hflushing M
  exact hne (hidle.flight_eq_nil hfair hprompt hn)

end Waiting

/-! ## The end -/

section

variable {t : Setting} {batchSize : ℤ} {ok : Sys → Label → Prop}
  {path : Path Sys.step ok (t.init batchSize)}

/-- **Every fair run ends.** -/
theorem FairRun.exists_ended (hfair : FairRun path) (hok : ∀ s l, ok s l → s.Regular l)
    (hfiles : t.regularFiles.card < 2 ^ 31) : ∃ n x, (path.state n).prog.aio.ended = some x := by
  by_contra hnot
  have hrun : ∀ n, (path.state n).prog.aio.ended = none := by
    intro n
    cases he : (path.state n).prog.aio.ended with
    | none => rfl
    | some x => exact absurd ⟨n, x, he⟩ hnot
  have hprog := fun n => Sys.prog_reaches_any (path.reaches n)
  have hlocks : ∀ n, Locks (path.state n).prog := fun n => .of_reaches (hprog n)
  have hgood : ∀ n, Good (path.state n).prog.aio := fun n => Prog.good_of_reaches (hprog n)
  -- the main thread stops, so it waits
  have hstill := eventually_not_main (fun s l h => (hok s l h).1) hrun
  have hcannot : ∀ᶠ n in atTop, ¬ path.CanMove (fun l => l.thread = some .main) n := by
    by_contra hcan
    exact hfair.main hcan hstill
  obtain ⟨N, hN⟩ := eventually_atTop.mp (hstill.and hcannot)
  have hwaits : ∀ n, N ≤ n → (path.state n).MainWaits := by
    intro n hn
    refine Sys.mainWaits_of_not (hlocks n) (hrun n) fun l hl => ?_
    by_contra hstep
    exact (hN n hn).2 ⟨l, hl, Option.isSome_iff_ne_none.mpr hstep⟩
  have haio : ∃ᶠ n in atTop, path.Moves (fun l => l.thread = some .aio) n := by
    refine hfair.aio (frequently_atTop.mpr fun n => ⟨max n N, le_max_left _ _, ?_⟩)
    exact (hwaits _ (le_max_right _ _)).aio_canMove (hlocks _) (hrun _)
  have h : Waiting path N := ⟨hrun, hlocks, hgood, fun n hn => (hN n hn).1, hwaits, haio⟩
  -- few requests, and little work
  have haccepted : ∀ n, (path.state n).prog.aio.log.accepted.length ≤ t.regularFiles.card :=
    fun n => (hgood n).accepted_le.trans (Setting.next_le_of_reaches (path.reaches n))
  refine h.false hfair (fun s l hl => (hok s l hl).2) (fun n hn => ?_)
    (B := 4 * t.regularFiles.card) fun n => ?_
  · refine ⟨⟨⟨_, _, _, hprog n⟩, ?_⟩, ?_⟩
    · rw [(Counting.of_reaches (hprog n)).flush, h.pc_main hn]
      rfl
    · have hle := haccepted n
      unfold AioState.unfinished
      omega
  · obtain ⟨xs, ys, b, hinv, -⟩ := hgood n
    exact hinv.work_le.trans (Nat.mul_le_mul_left 4 (haccepted n))

/-- **The program terminates** with one of its three statuses in every fair run, for any
answers of the kernel, any batch size and order of listing, and for fewer than `2 ^ 31`
regular files. -/
theorem exists_ended_of_fair (hok : ∀ s l, ok s l → s.Regular l)
    (hfiles : t.regularFiles.card < 2 ^ 31) (hfair : FairRun path) :
    ∃ n code, (path.state n).prog.aio.ended = some (.exited code) ∧
      (code = 0 ∨ code = 1 ∨ code = -1) := by
  obtain ⟨n, x, hended⟩ := hfair.exists_ended hok hfiles
  obtain ⟨code, rfl, hcode⟩ :=
    Prog.status_of_reaches (Sys.prog_reaches_any (path.reaches n)) hended
  exact ⟨n, code, hended, hcode⟩

/-- **Total correctness of the copy**: every fair run in which no system call fails ends with
status 0, and then the copy is there. -/
theorem copied_of_fair {t : Task} {path : Path Sys.step ok (t.init batchSize)}
    (hok : ∀ s l, ok s l → s.Regular l ∧ s.Faultless l)
    (hsmall : ∀ rel, (t.content rel).length < 2 ^ 31) (hfiles : t.regularFiles.card < 2 ^ 31)
    (hfair : FairRun path) :
    ∃ n, (path.state n).prog.aio.ended = some (.exited 0) ∧ Copied t (path.state n) := by
  obtain ⟨n, x, hended⟩ := hfair.exists_ended (fun s l h => (hok s l h).1) hfiles
  have hreach : Reaches Sys.step Sys.Faultless (t.init batchSize) (path.state n) :=
    (path.reaches n).weaken fun s l h => (hok s l h).2
  obtain ⟨rfl, d, hcopy, hsame⟩ := copyOf_of_reaches (by omega) hreach hended
  have hconf : Confined t.toSetting (path.state n) := hcopy.tree.toConfined
  refine ⟨n, hended, fun rel => ?_, fun rel => hconf.source, hconf.frame⟩
  rw [hsame rel, Setting.copyOf_of_lt (hsmall rel)]

end

/-- A run that ended, and idling after it, is fair. -/
lemma FairRun.ofExec {ok : Sys → Label → Prop} [∀ s l, Decidable (ok s l)] {s s' : Sys}
    {ls : List Label} (h : execOk Sys.step ok s ls = some s') (hended : s'.prog.aio.ended ≠ none) :
    FairRun (Path.ofExec ls (by rw [h]; rfl) : Path Sys.step ok s) := by
  have hstuck : ∀ P : Label → Prop, ∀ᶠ n in atTop,
      ¬ (Path.ofExec ls (by rw [h]; rfl) : Path Sys.step ok s).CanMove P n := by
    refine fun P => eventually_atTop.mpr ⟨ls.length, ?_⟩
    rintro n hn ⟨l, -, hsome⟩
    rw [Path.ofExec_state h hn] at hsome
    obtain ⟨u, hu⟩ := Option.isSome_iff_exists.mp hsome
    exact hended (Sys.fires_of_step hu).1
  refine ⟨Path.fair_of_not_canMove (hstuck _), Path.fair_of_not_canMove (hstuck _), ?_⟩
  intro n c _
  refine ⟨max n ls.length, le_max_left _ _, Or.inr ?_⟩
  rw [Path.ofExec_state h (le_max_right _ _)]
  exact hended

/-- The failing copy of a directory ends. -/
theorem exists_ended_of_fair_oneFile :
    ∃ path : Path Sys.step Sys.Regular (oneFileTask.init 1), FairRun path ∧
      ∃ n code, (path.state n).prog.aio.ended = some (.exited code) ∧
        (code = 0 ∨ code = 1 ∨ code = -1) := by
  have hrun : (execOk Sys.step Sys.Regular (oneFileTask.init 1)
      (oneFileWalk ++ [.waitLock false])).map (fun s => s.prog.aio.ended) =
        some (some (.exited (-1))) := by
    decide +kernel
  obtain ⟨s, hs, hended⟩ := Option.map_eq_some_iff.mp hrun
  have hfair := FairRun.ofExec hs (by simp [hended])
  have hfiles : oneFileTask.regularFiles.card < 2 ^ 31 := by decide +kernel
  exact ⟨_, hfair, exists_ended_of_fair (fun _ _ h => h) hfiles hfair⟩

lemma oneFileTask_content (rel : Loc) : (oneFileTask.content rel).length < 2 ^ 31 := by
  have hall : ∀ l ∈ oneFile.dom, (oneFile.content l).length < 2 ^ 31 := by decide +kernel
  by_cases hmem : rel ++ oneFileTask.root ∈ oneFile.dom
  · exact hall _ hmem
  · rw [oneFile.mem_dom] at hmem
    have hnone : oneFile.entry (rel ++ oneFileTask.root) = none := by simpa using hmem
    rw [Setting.content, Fs.content, show oneFileTask.fs = oneFile from rfl, hnone]
    decide

/-- The copy of a directory ends, and is there. -/
theorem copied_of_fair_oneFile :
    ∃ path : Path Sys.step (fun s l => s.Regular l ∧ s.Faultless l) (oneFileTask.init 1),
      FairRun path ∧ ∃ n, (path.state n).prog.aio.ended = some (.exited 0) ∧
        Copied oneFileTask (path.state n) := by
  have hrun : (execOk Sys.step (fun s l => s.Regular l ∧ s.Faultless l) (oneFileTask.init 1)
      (oneFileWalk ++ oneFileDrain)).map (fun s => s.prog.aio.ended) = some (some (.exited 0)) := by
    decide +kernel
  obtain ⟨s, hs, hended⟩ := Option.map_eq_some_iff.mp hrun
  have hfair := FairRun.ofExec hs (by simp [hended])
  have hfiles : oneFileTask.regularFiles.card < 2 ^ 31 := by decide +kernel
  exact ⟨_, hfair, copied_of_fair (fun _ _ h => h) oneFileTask_content hfiles hfair⟩

end Cpr
