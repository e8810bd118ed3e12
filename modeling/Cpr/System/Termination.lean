/-
# The walk ends

`copy_internal` changes the file system that it walks over: it makes a directory, and then
lists the source.  When the destination is not inside the source, the walk meets only what
was there at the start, each place once, and takes at most seven steps for a place.  When
the destination is inside the source, the walk finds its own directories.
-/
import Cpr.Program.Deadlock
import Cpr.System.Parents
import Cpr.System.Tree

namespace Cpr

open Transition Unix

/-- A step of `copy_internal`. -/
def Label.ofWalk : Label → Bool
  | .stat _ | .walkEnd | .mkdir _ | .opendir _ | .readdir _ | .closedir _ | .bumpReqCount
  | .copyReg | .addLock _ | .addLink | .addUnlock _ => true
  | _ => false

/-- The main thread is in `copy_internal`. -/
def MainPc.ofWalk (pc : MainPc) : Bool := pc.inBody || pc == .walk

/-- `readdir` returns no name of a directory twice: not `.` and `..` either. -/
def Sys.ListsOnce (s : Sys) : Label → Prop
  | .readdir (.entry name _) => name ∉ s.world.dir.seen
  | _ => True

instance (s : Sys) (l : Label) : Decidable (s.ListsOnce l) := by
  induction l using Label.casesOn with
  | readdir answer =>
    induction answer using ReaddirAnswer.casesOn <;> (unfold Sys.ListsOnce; infer_instance)
  | _ => unfold Sys.ListsOnce; infer_instance

/-- The walk ends, and takes from its queue only what was below the source at the start. -/
structure WalkEnds (fs : Fs) (root : Loc) (s₀ : Sys) : Prop where
  /-- The steps of `copy_internal` are bounded, over all runs. -/
  bounded : ∃ n, ∀ ls s, execOk Sys.step Sys.ListsOnce s₀ ls = some s →
    (ls.filter Label.ofWalk).length ≤ n
  /-- It waits for nothing but the mutex of the requests. -/
  live : ∀ ls s, execOk Sys.step Sys.ListsOnce s₀ ls = some s → s.prog.aio.ended = none →
    s.prog.pc.ofWalk = true → (∃ l, l.ofWalk = true ∧ s.ListsOnce l ∧ (s.step l).isSome) ∨
      (s.prog.pc = .addLock ∧ s.prog.aio.mgr.requestMutex = some .aio)
  existed : ∀ ls s, execOk Sys.step Sys.ListsOnce s₀ ls = some s → s.prog.aio.ended = none →
    ∀ curr ∈ s.prog.queue.head?, ∃ rel, curr = s₀.prog.argv.below rel ∧
      (fs.entry (rel ++ root)).isSome

/-! ## The steps of a walk -/

/-- How many steps the walk has taken for the node it works on, apart from the entries that
it has listed. -/
def MainPc.stage : MainPc → ℕ
  | .mkdir | .bumpReqCount => 1
  | .opendir | .copyReg => 2
  | .readdir | .addLock => 3
  | .addLink => 4
  | .addUnlock => 5
  | .closedir => 6
  | _ => 0

/-- The names `.` and `..` in a list. -/
def dots (names : List Name) : List Name := names.filter fun n => n = dot ∨ n = dotdot

lemma length_dots_le {names : List Name} (h : names.Nodup) : (dots names).length ≤ 2 := by
  have hsub : dots names ⊆ [dot, dotdot] := by
    intro n hn
    have hdot := (List.mem_filter.mp hn).2
    simpa using hdot
  exact ((h.filter _).subperm hsub).length_le

/-- The steps that a state accounts for: seven for each place that is done, one for each place
that was met, and those for the node that the walk works on. -/
def Sys.budget (s : Sys) (d : Places) : ℕ :=
  7 * d.done.length + d.met.length + s.prog.pc.stage +
    (if s.prog.pc = .readdir then (dots s.world.dir.seen).length else 0) +
    if s.prog.pc.afterWalk then 1 else 0

/-- The state accounts for the steps so far. -/
structure Counted (ls : List Label) (s : Sys) (d : Places) : Prop where
  seen : s.world.dir.seen.Nodup
  steps : (ls.filter Label.ofWalk).length ≤ s.budget d
  start : s.prog.pc.beforeStart = true → d = ⟨[], []⟩

namespace Counted

variable {fs : Fs} {root rel : Loc} {s s' : Sys} {l : Label} {ls : List Label} {d d' : Places}
  {done todo : List Loc}

/-- A step of the walk, or of something else. -/
lemma advance (h : Counted ls s d) (hseen : s'.world.dir.seen.Nodup)
    (hstart : s'.prog.pc.beforeStart = true → d' = ⟨[], []⟩)
    (hbudget : s.budget d + (if l.ofWalk then 1 else 0) ≤ s'.budget d') :
    Counted (ls ++ [l]) s' d' where
  seen := hseen
  start := hstart
  steps := by
    have hsteps := h.steps
    have hlen : ((ls ++ [l]).filter Label.ofWalk).length =
        (ls.filter Label.ofWalk).length + if l.ofWalk then 1 else 0 := by
      rw [List.filter_append, List.length_append]
      cases hl : l.ofWalk <;> simp [hl]
    omega

/-- The first place of the queue is done. -/
lemma budget_finish (hpc : s.prog.pc.stage ≤ 6) (hread : s.prog.pc ≠ .readdir)
    (hafter : s.prog.pc.afterWalk = false) (hpc' : s'.prog.pc = .walk) :
    s.budget ⟨done, rel :: todo⟩ + 1 ≤ s'.budget ⟨rel :: done, todo⟩ := by
  have hbudget : s.budget ⟨done, rel :: todo⟩ =
      7 * done.length + (done.length + (todo.length + 1)) + s.prog.pc.stage := by
    simp [Sys.budget, Places.met, hread, hafter]
  have hbudget' : s'.budget ⟨rel :: done, todo⟩ =
      7 * (done.length + 1) + (done.length + 1 + todo.length) := by
    simp [Sys.budget, Places.met, hpc', MainPc.stage, MainPc.afterWalk]
    omega
  omega

theorem step (h : Counted ls s d) (hw : Walk fs root s d) (hr : Walk.Ready fs root s)
    (honce : s.ListsOnce l) (hstep : s.step l = some s')
    (hended : s'.prog.aio.ended = none ∨ s'.prog.aio.ended = some (.exited 0)) :
    Counted (ls ++ [l]) s' (d.after l) := by
  obtain ⟨hrun, hfires, hperm⟩ := Sys.fires_of_step hstep
  obtain ⟨p', w'⟩ := s'
  dsimp only at hfires hperm hended
  cases hfires with
  | fail | readdirExit => simp [Prog.fail, AioState.exit] at hended
  | aio act a ha =>
    have hdir := hperm.dir_eq (by simp) (by simp)
    refine h.advance (hdir ▸ h.seen) h.start ?_
    simp [Sys.budget, hdir, Label.ofWalk, Places.after]
  | startThread hpc =>
    have hdir := hperm.dir_eq (by simp) (by simp)
    have hd := h.start (by rw [hpc]; rfl)
    refine h.advance (hdir ▸ h.seen) (by simp [MainPc.beforeStart]) ?_
    simp [Sys.budget, hd, hpc, MainPc.stage, MainPc.afterWalk, Label.ofWalk, Places.after,
      Places.met]
  | initManager hpc =>
    have hdir := hperm.dir_eq (by simp) (by simp)
    have hd := h.start (by rw [hpc]; rfl)
    refine h.advance (hdir ▸ h.seen) (fun _ => hd) ?_
    simp [Sys.budget, hpc, MainPc.stage, MainPc.afterWalk, Label.ofWalk, Places.after]
  | waitLock hpc | waitSet hpc | waitUnlock hpc | join hpc | destroy hpc =>
    have hdir := hperm.dir_eq (by simp) (by simp)
    refine h.advance (hdir ▸ h.seen) (by simp [hpc, MainPc.beforeStart]) ?_
    simp [Sys.budget, hpc, MainPc.stage, MainPc.afterWalk, Label.ofWalk, Places.after]
  | statDir _ _ hpc | statReg _ _ hpc | mkdir hpc | bumpReqCount hpc | copyReg _ _ hpc
  | addLock hpc | addLink _ hpc | walkEnd hpc =>
    have hdir := hperm.dir_eq (by simp) (by simp)
    refine h.advance (hdir ▸ h.seen) (by simp [MainPc.beforeStart]) ?_
    simp [Sys.budget, hpc, MainPc.stage, MainPc.afterWalk, Label.ofWalk, Places.after]
  | statOther curr rest k hpc hqueue hdir' hreg =>
    have hdir := hperm.dir_eq (by simp) (by simp)
    obtain ⟨rel, todo, hd, -⟩ := hw.exists_head hqueue
    rw [Places.after, if_neg (not_or.mpr ⟨hdir', hreg⟩)]
    rw [hd] at h ⊢
    refine h.advance (hdir ▸ h.seen) (by simp [hpc, MainPc.beforeStart]) ?_
    exact budget_finish (by simp [hpc, MainPc.stage]) (by simp [hpc]) (by rw [hpc]; rfl) hpc
  | closedir hpc | addUnlock hpc =>
    have hdir := hperm.dir_eq (by simp) (by simp)
    obtain ⟨rel, todo, hd⟩ := hw.exists_head_of_inBody hr (by rw [hpc]; rfl)
    rw [hd] at h ⊢
    refine h.advance (hdir ▸ h.seen) (by simp [Prog.next, MainPc.beforeStart]) ?_
    exact budget_finish (by simp [hpc, MainPc.stage]) (by simp [hpc]) (by rw [hpc]; rfl) rfl
  | opendir hpc =>
    cases hperm with
    | opendir curr rest loc =>
      refine h.advance List.nodup_nil (by simp [MainPc.beforeStart]) ?_
      simp [Sys.budget, hpc, MainPc.stage, MainPc.afterWalk, Label.ofWalk, Places.after, dots]
    | other _ _ _ hopendir => exact absurd rfl hopendir
  | readdirSkip name dtype hpc hname =>
    cases hperm with
    | entry =>
      refine h.advance (List.nodup_cons.mpr ⟨honce, h.seen⟩) (by simp [hpc, MainPc.beforeStart]) ?_
      -- `.` and `..` are paid for by the stream, not by a place
      have hdots : (dots (name :: s.world.dir.seen)).length =
          (dots s.world.dir.seen).length + 1 := by
        simp [dots, hname]
      rw [Places.after, if_pos hname]
      simp only [Sys.budget, hpc, hdots, Label.ofWalk, if_true]
      omega
    | other _ _ _ _ hentry => exact absurd rfl (hentry _ _)
  | readdirEnqueue curr rest name dtype hpc hqueue hname =>
    cases hperm with
    | entry =>
      refine h.advance (List.nodup_cons.mpr ⟨honce, h.seen⟩) (by simp [hpc, MainPc.beforeStart]) ?_
      have hdots : dots (name :: s.world.dir.seen) = dots s.world.dir.seen := by
        simp [dots, hname]
      rw [Places.after, if_neg hname]
      simp only [Sys.budget, hpc, hdots, Label.ofWalk, if_true, Places.met, List.length_append,
        List.length_singleton]
      omega
    | other _ _ _ _ hentry => exact absurd rfl (hentry _ _)
  | readdirEnd hpc =>
    -- each of the two names was listed at most once
    have hdots := length_dots_le h.seen
    cases hperm with
    | finished =>
      refine h.advance h.seen (by simp [MainPc.beforeStart]) ?_
      have hstage : MainPc.readdir.stage = 3 ∧ MainPc.closedir.stage = 6 := ⟨rfl, rfl⟩
      simp only [Sys.budget, hpc, hstage, Label.ofWalk, Places.after, MainPc.afterWalk, if_true,
        if_false, reduceCtorEq]
      omega
    | other _ _ _ _ _ hfinished => exact absurd rfl hfinished

end Counted

/-- The main thread can make a step. -/
lemma Sys.isSome_step {s : Sys} {l : Label} (hended : s.prog.aio.ended = none)
    (hmain : ∀ act, l ≠ .aio act) (hworld : (s.world.after s.prog l).isSome)
    (hstep : (s.prog.mainStep l).isSome) : (s.step l).isSome := by
  obtain ⟨p, hp⟩ := Option.isSome_iff_exists.mp (Locks.isSome_step_main hended hmain hstep)
  obtain ⟨w, hw⟩ := Option.isSome_iff_exists.mp hworld
  simp [Sys.step, hp, hw]

/-- The walk is in no call whose success depends on the file system. -/
def MainPc.free : MainPc → Bool
  | .closedir | .bumpReqCount | .copyReg | .addLock | .addLink | .addUnlock => true
  | _ => false

/-- The rest of the walk waits for nothing but `request_mutex`. -/
lemma Sys.free_live {s : Sys} (h : Locks s.prog) (hended : s.prog.aio.ended = none)
    (hpc : s.prog.pc.free = true) : (∃ l, l.ofWalk = true ∧ ¬ l.Fails ∧
      (∀ answer, l ≠ .readdir answer) ∧ (s.step l).isSome) ∨
      (s.prog.pc = .addLock ∧ s.prog.aio.mgr.requestMutex = some .aio) := by
  cases hpc' : s.prog.pc with
  | closedir =>
    exact Or.inl ⟨.closedir true, rfl, by simp [Label.Fails], by simp,
      isSome_step hended (by simp) rfl (by simp [Prog.mainStep, hpc'])⟩
  | bumpReqCount =>
    exact Or.inl ⟨.bumpReqCount, rfl, by simp [Label.Fails], by simp,
      isSome_step hended (by simp) rfl (by simp [Prog.mainStep, hpc'])⟩
  | copyReg =>
    obtain ⟨curr, rest, hcurr⟩ := List.exists_cons_of_ne_nil (h.inBody (by rw [hpc']; rfl))
    exact Or.inl ⟨.copyReg, rfl, by simp [Label.Fails], by simp,
      isSome_step hended (by simp) rfl (by simp [Prog.mainStep, hpc', hcurr])⟩
  | addLock =>
    rcases Locks.holder_cases s.prog.aio.mgr.requestMutex with hm | hm | hm
    · exact Or.inl ⟨.addLock true, rfl, by simp [Label.Fails], by simp,
        isSome_step hended (by simp) rfl (by simp [Prog.mainStep, AioState.lockRequest, hpc', hm])⟩
    · have := h.mainRequest.mp hm
      simp [hpc', MainPc.holdsRequest] at this
    · exact Or.inr ⟨rfl, hm⟩
  | addLink =>
    obtain ⟨r, hr⟩ := Option.isSome_iff_exists.mp (h.mainReq (Or.inr hpc'))
    exact Or.inl ⟨.addLink, rfl, by simp [Label.Fails], by simp,
      isSome_step hended (by simp) rfl (by simp [Prog.mainStep, hpc', hr])⟩
  | addUnlock =>
    exact Or.inl ⟨.addUnlock true, rfl, by simp [Label.Fails], by simp,
      isSome_step hended (by simp) rfl (by simp [Prog.mainStep, hpc'])⟩
  | _ => simp [hpc', MainPc.free] at hpc

/-- The calls of the walk return, and it waits for nothing else but `request_mutex`. -/
lemma Sys.walk_live {s : Sys} (h : Locks s.prog) (hended : s.prog.aio.ended = none)
    (hpc : s.prog.pc.ofWalk = true) : (∃ l, l.ofWalk = true ∧ s.ListsOnce l ∧ (s.step l).isSome) ∨
      (s.prog.pc = .addLock ∧ s.prog.aio.mgr.requestMutex = some .aio) := by
  by_cases hfree : s.prog.pc.free = true
  · refine (Sys.free_live h hended hfree).imp_left fun ⟨l, hl, _, hread, hsome⟩ => ?_
    refine ⟨l, hl, ?_, hsome⟩
    cases l with
    | readdir answer => exact absurd rfl (hread answer)
    | _ => trivial
  refine Or.inl ?_
  -- the other calls can fail
  cases hpc' : s.prog.pc with
  | walk =>
    by_cases hnil : s.prog.queue = []
    · exact ⟨.walkEnd, rfl, trivial,
        isSome_step hended (by simp) rfl (by simp [Prog.mainStep, hpc', hnil])⟩
    · exact ⟨.stat none, rfl, trivial,
        isSome_step hended (by simp) rfl (by simp [Prog.mainStep, hpc', hnil])⟩
  | mkdir =>
    exact ⟨.mkdir false, rfl, trivial,
      isSome_step hended (by simp) rfl (by simp [Prog.mainStep, hpc'])⟩
  | opendir =>
    exact ⟨.opendir false, rfl, trivial,
      isSome_step hended (by simp) rfl (by simp [Prog.mainStep, hpc'])⟩
  | readdir =>
    obtain ⟨curr, rest, hcurr⟩ := List.exists_cons_of_ne_nil (h.inBody (by rw [hpc']; rfl))
    exact ⟨.readdir .failed, rfl, trivial,
      isSome_step hended (by simp) rfl (by simp [Prog.mainStep, hpc', hcurr])⟩
  | closedir | bumpReqCount | copyReg | addLock | addLink | addUnlock =>
    exact absurd (by rw [hpc']; rfl) hfree
  | _ => simp [hpc', MainPc.ofWalk, MainPc.inBody] at hpc

/-- Places met once, all of them in the file system. -/
lemma Places.length_met_le {fs : Fs} {root : Loc} {d : Places} (hnd : d.met.Nodup)
    (hreal : ∀ rel ∈ d.met, (fs.entry (rel ++ root)).isSome) : d.met.length ≤ fs.dom.card := by
  rw [← List.toFinset_card_of_nodup hnd]
  refine Finset.card_le_card_of_injOn (· ++ root) (fun rel hrel => ?_) fun rel _ rel' _ heq =>
    List.append_cancel_right heq
  exact (fs.mem_dom _).mpr (hreal rel (List.mem_toFinset.mp hrel))

lemma Sys.budget_le {s : Sys} {d : Places} {n : ℕ} (hmet : d.met.length ≤ n)
    (hseen : s.world.dir.seen.Nodup) : s.budget d ≤ 8 * n + 9 := by
  have hdone : d.met.length = d.done.length + d.todo.length := List.length_append
  have hstage : s.prog.pc.stage ≤ 6 := by
    cases s.prog.pc <;> simp [MainPc.stage]
  have hdots := length_dots_le hseen
  unfold Sys.budget
  split_ifs <;> omega

section

variable {t : Setting} {s : Sys} {ls : List Label} {d : Places} {batchSize : ℤ}

lemma Copying.budget_le (h : Copying t s d) (hseen : s.world.dir.seen.Nodup) :
    s.budget d ≤ 8 * t.fs.dom.card + 9 :=
  Sys.budget_le (Places.length_met_le h.tidy.nodup fun rel hrel => by
    simpa [Setting.kind] using h.tree.real rel hrel) hseen

/-- **The places of a run**, with its steps. -/
theorem Copying.of_execOk (h : execOk Sys.step Sys.ListsOnce (t.init batchSize) ls = some s)
    (hended : s.prog.aio.ended = none ∨ s.prog.aio.ended = some (.exited 0)) :
    ∃ d, Copying t s d ∧ Counted ls s d := by
  refine execOk_invariant (I := fun ls s => s.prog.aio.ended = none ∨
    s.prog.aio.ended = some (.exited 0) → ∃ d, Copying t s d ∧ Counted ls s d)
    (fun {as u l s'} hu hd honce hstep hended => ?_) h (fun _ => ?_) hended
  · obtain ⟨d, hcopy, hcount⟩ := hd (Or.inl (Sys.fires_of_step hstep).1)
    have hr : t.Run u := .of_reaches (reaches_of_execOk hu)
    have hr' : t.Run s' := .of_reaches ((reaches_of_execOk hu).tail honce hstep)
    exact ⟨_, hcopy.step hr hr' hstep hended,
      hcount.step hcopy.walk hr.ready honce hstep hended⟩
  · exact ⟨_, .init, List.nodup_nil, Nat.zero_le _, fun _ => rfl⟩

/-- **The steps of the walk are bounded**, over all runs. -/
theorem Setting.steps_le (h : execOk Sys.step Sys.ListsOnce (t.init batchSize) ls = some s) :
    (ls.filter Label.ofWalk).length ≤ 8 * t.fs.dom.card + 10 := by
  induction ls using List.reverseRecOn with
  | nil => exact Nat.zero_le _
  | append_singleton as l =>
    -- the process had not ended before the last step
    obtain ⟨u, hu, -, hstep⟩ := execOk_concat.mp h
    obtain ⟨d, hcopy, hcount⟩ := Copying.of_execOk hu (Or.inl (Sys.fires_of_step hstep).1)
    have hle := hcount.steps.trans (hcopy.budget_le hcount.seen)
    have hlast : ([l].filter Label.ofWalk).length ≤ 1 := List.length_filter_le _ _
    rw [List.filter_append, List.length_append]
    omega

/-- **The walk of a copy to a place outside the source ends**, and finds only the source. -/
theorem walkEnds_of_outside (t : Setting) (batchSize : ℤ) :
    WalkEnds t.fs t.root (t.init batchSize) where
  bounded := ⟨8 * t.fs.dom.card + 10, fun _ _ h => t.steps_le h⟩
  live ls s h hended hpc :=
    have hlocks := (Setting.Run.of_reaches (reaches_of_execOk h)).locks
    Sys.walk_live hlocks hended hpc
  existed ls s h hended curr hcurr := by
    obtain ⟨d, hcopy, -⟩ := Copying.of_execOk h (Or.inl hended)
    obtain ⟨rest, hqueue⟩ : ∃ rest, s.prog.queue = curr :: rest := by
      cases hq : s.prog.queue with
      | nil => simp [hq] at hcurr
      | cons node rest =>
        rw [hq] at hcurr
        exact ⟨rest, by rw [Option.some.inj hcurr]⟩
    obtain ⟨rel, todo, hd, hbelow, -⟩ := hcopy.walk.exists_head hqueue
    have hmet : rel ∈ d.met := Places.mem_met_of_head (by rw [hd]; rfl)
    have hargv : s.prog.argv = (t.init batchSize).prog.argv := Sys.argv_eq (reaches_of_execOk h)
    refine ⟨rel, hargv ▸ hbelow, ?_⟩
    simpa [Setting.kind] using hcopy.tree.real rel hmet

end

/-- The copy of `s` to `s/d` finds `s/d` in `s`, which `mkdir` has just made. -/
theorem not_walkEnds_of_inside : ¬ ∀ (fs : Fs) (cwd root parent : Loc) (name : Name)
    (srcName dstName : CStr) (batchSize : ℤ), (∀ l p, fs.entry l ≠ some (.lnk p)) →
      fs.resolve true cwd srcName = .here root → fs.entry root = some .dir →
      fs.resolveLast cwd dstName = .missing parent name →
      WalkEnds fs root (.init fs cwd srcName dstName batchSize) := by
  intro hall
  have hentry : ∀ l ∈ emptyDir.dom, emptyDir.entry l = some .dir := by decide +kernel
  have hlinks : ∀ l p, emptyDir.entry l ≠ some (.lnk p) := by
    intro l p hl
    have hdir := hentry l ((emptyDir.mem_dom l).mpr (by rw [hl]; rfl))
    simp [hl] at hdir
  have hends := hall emptyDir [] [['s']] [['s']] ['d'] ['s'] ['s', '/', 'd'] 1 hlinks
    (by decide +kernel) (by decide +kernel) (by decide +kernel)
  have hrun : (execOk Sys.step Sys.ListsOnce (.init emptyDir [] ['s'] ['s', '/', 'd'] 1)
      [.initManager true, .startThread true, .stat (some .dir), .mkdir true, .opendir true,
        .readdir (.entry ['d'] .dir), .readdir .finished, .closedir true]).map
      (fun s => (s.prog.aio.ended, s.prog.queue)) =
        some (none, [⟨['s', '/', 'd'], ['s', '/', 'd', '/', 'd']⟩]) := by
    decide +kernel
  obtain ⟨s, hs, hfacts⟩ := Option.map_eq_some_iff.mp hrun
  obtain ⟨hended, hqueue⟩ := Prod.mk.inj hfacts
  obtain ⟨rel, hrel, hsome⟩ := hends.existed _ s hs hended _ (by rw [hqueue]; rfl)
  have hroot : ∀ l ∈ emptyDir.dom, l.length ≤ 1 := by decide +kernel
  have hlen := hroot _ ((emptyDir.mem_dom _).mpr hsome)
  obtain rfl : rel = [] := by
    rw [List.length_append, List.length_singleton] at hlen
    exact List.length_eq_zero_iff.mp (by omega)
  simp [Node.below, Sys.init, Prog.init] at hrel

end Cpr
