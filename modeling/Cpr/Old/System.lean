/-
# The old program in its environment

The parent and its children have the file system and the working directory in common; the
descriptors and the memory are those of the process.  The environment restricts the answers
of the system calls as it does for `cpr.c`.
-/
import Cpr.Old.Report
import Cpr.System.Task

namespace Cpr

open Transition Unix

/-- What a process has to itself: the files behind its descriptors, and its memory. -/
structure Proc where
  files : ℤ → Option Loc
  mem : Memory

/-- The environment of the parent, and the processes of the children. -/
structure OldWorld where
  main : World
  procs : ℕ → Proc

namespace World

variable (w : World)

/-- The environment of a child after one of its steps. -/
def afterChild (c : Child) : ChildAct → Option World
  | .openSrc o =>
    if o.fd < 0 then some w
    else
      match w.fs.openRead w.cwd c.node.srcName with
      | none => none
      | some l =>
        if ∀ n ∈ o.stSize, n = (w.fs.content l).length then some (w.openFile o.fd l) else none
  | .openDst fd =>
    if fd < 0 then some w
    else
      match w.fs.openCreate w.cwd c.node.dstName with
      | .error _ => none
      | .ok (l, fs') => some { w.openFile fd l with fs := fs' }
  | .complete op res => some (w.transfer op res)
  | _ => some w

/-- The environment of the parent after one of its steps. -/
def afterParent (p : OldProg) : OldLabel → Option World
  | .stat (some k) =>
    match p.queue with
    | [] => none
    | curr :: _ => if w.fs.stat w.cwd curr.srcName = some k then some w else none
  | .mkdir true =>
    match p.queue with
    | [] => none
    | curr :: _ =>
      match w.fs.mkdir w.cwd curr.dstName with
      | .error _ => none
      | .ok fs' => some { w with fs := fs' }
  | .opendir true =>
    match p.queue with
    | [] => none
    | curr :: _ =>
      match w.fs.fileAt w.cwd curr.srcName with
      | none => none
      | some l =>
        if w.fs.entry l = some .dir then some { w with dir := ⟨l, w.fs.names l, []⟩ } else none
  | .readdir (.entry name dtype) =>
    if w.Lists name dtype then some { w with dir := { w.dir with seen := name :: w.dir.seen } }
    else none
  | .readdir .finished => if ∀ n ∈ w.dir.due, n ∈ w.dir.seen then some w else none
  | _ => some w

end World

namespace OldWorld

variable (w : OldWorld)

/-- The environment of the child `i`. -/
def ofChild (i : ℕ) : World :=
  { w.main with files := (w.procs i).files, mem := (w.procs i).mem }

/-- The child `i` leaves its environment so: the others see the file system. -/
def setChild (i : ℕ) (v : World) : OldWorld where
  main := { w.main with fs := v.fs }
  procs j := if j = i then ⟨v.files, v.mem⟩ else w.procs j

/-- The environment after a step, if it permits the answer. -/
def after (p : OldProg) : OldLabel → Option OldWorld
  | .child i act =>
    match p.children[i]? with
    | none => none
    | some c => ((w.ofChild i).afterChild c act).map (w.setChild i)
  | l => (w.main.afterParent p l).map fun v => { w with main := v }

end OldWorld

/-- The old program and its environment. -/
structure OldSys where
  prog : OldProg
  world : OldWorld

namespace OldSys

/-- The state when `main` starts. -/
def init (fs : Fs) (cwd : Loc) (srcName dstName : CStr) : OldSys where
  prog := .init srcName dstName
  world :=
    { main :=
        { fs := fs, cwd := cwd, dir := ⟨[], ∅, []⟩, files := fun _ => none, mem := fun _ => 0 }
      procs := fun _ => ⟨fun _ => none, fun _ => 0⟩ }

/-- One step of the program in its environment. -/
def step (s : OldSys) (l : OldLabel) : Option OldSys :=
  (s.prog.step l).bind fun p => (s.world.after s.prog l).map fun w => ⟨p, w⟩

end OldSys

/-- The state when `main` starts. -/
def Setting.oldInit (t : Setting) : OldSys := .init t.fs t.cwd t.srcName t.dstName

/-! ## Runs without faults -/

/-- A call whose failure the child does not see. -/
def ChildAct.Faultless : ChildAct → Prop
  | .openSrc o => o.stSize = some 0 ∨ o.buf ≠ mapFailed
  | .ioDestroy ok => ok = true
  | _ => True

instance (act : ChildAct) : Decidable act.Faultless := by
  induction act using ChildAct.casesOn <;> (unfold ChildAct.Faultless; infer_instance)

/-- Every system call succeeds, in all processes, and `readdir` reports the types. -/
def OldSys.Faultless (s : OldSys) : OldLabel → Prop
  | .child i act => act.Faultless ∧ ∀ c ∈ s.prog.children[i]?, c.Succeeds act
  | .stat answer => answer ≠ none
  | .mkdir ok | .opendir ok | .closedir ok | .fork ok => ok = true
  | .readdir .failed => False
  | .readdir (.entry _ dtype) => dtype ≠ .unknown
  | _ => True

instance (s : OldSys) (l : OldLabel) : Decidable (s.Faultless l) := by
  induction l using OldLabel.casesOn with
  | readdir answer =>
    induction answer using ReaddirAnswer.casesOn <;> (unfold OldSys.Faultless; infer_instance)
  | _ => unfold OldSys.Faultless; infer_instance

/-! ## Inversion -/

namespace World

/-- What the environment asks of the answer to a child's step, and what it becomes. -/
inductive PermitsChild (w : World) (c : Child) : ChildAct → World → Prop
  | openSrc (o : AioState.ReadAnswer) (loc : Loc) (hfd : 0 ≤ o.fd)
      (hopen : w.fs.openRead w.cwd c.node.srcName = some loc)
      (hsize : ∀ n ∈ o.stSize, n = (w.fs.content loc).length) :
      PermitsChild w c (.openSrc o) (w.openFile o.fd loc)
  | noSrc (o : AioState.ReadAnswer) (hfd : o.fd < 0) : PermitsChild w c (.openSrc o) w
  | openDst (fd : ℤ) (loc : Loc) (fs' : Fs) (hfd : 0 ≤ fd)
      (hopen : w.fs.openCreate w.cwd c.node.dstName = .ok (loc, fs')) :
      PermitsChild w c (.openDst fd) { w.openFile fd loc with fs := fs' }
  | noDst (fd : ℤ) (hfd : fd < 0) : PermitsChild w c (.openDst fd) w
  | complete (op : Iocb) (res : ℕ) : PermitsChild w c (.complete op res) (w.transfer op res)
  /-- A step that the environment has no part in. -/
  | other (act : ChildAct) (hsrc : ∀ o, act ≠ .openSrc o) (hdst : ∀ fd, act ≠ .openDst fd)
      (hcomplete : ∀ op n, act ≠ .complete op n) : PermitsChild w c act w

variable {w w' : World} {c : Child} {act : ChildAct}

lemma permitsChild_of_afterChild (h : w.afterChild c act = some w') : PermitsChild w c act w' := by
  cases act with
  | openSrc o =>
    rw [afterChild] at h
    split_ifs at h with hfd
    · obtain rfl := Option.some.inj h
      exact .noSrc o hfd
    · cases hopen : w.fs.openRead w.cwd c.node.srcName with
      | none => simp [hopen] at h
      | some loc =>
        simp only [hopen] at h
        obtain ⟨hsize, rfl⟩ := Option.ite_none_right_eq_some.mp h |>.imp_right Option.some.inj
        exact .openSrc o loc (not_lt.mp hfd) hopen hsize
  | openDst fd =>
    rw [afterChild] at h
    split_ifs at h with hfd
    · obtain rfl := Option.some.inj h
      exact .noDst fd hfd
    · cases hopen : w.fs.openCreate w.cwd c.node.dstName with
      | error e => simp [hopen] at h
      | ok r =>
        obtain ⟨loc, fs'⟩ := r
        simp only [hopen, Option.some.injEq] at h
        exact h ▸ .openDst fd loc fs' (not_lt.mp hfd) hopen
  | complete op res =>
    obtain rfl := Option.some.inj h
    exact .complete op res
  | _ =>
    obtain rfl := Option.some.inj h
    exact .other _ (by simp) (by simp) (by simp)

/-- The parent makes directories, and changes nothing else in the file system. -/
lemma grows_of_afterParent {p : OldProg} {l : OldLabel} (h : w.afterParent p l = some w') :
    w.fs.Le w'.fs ∧ w.fs.SameContents w'.fs := by
  have hsame : w'.fs = w.fs → w.fs.Le w'.fs ∧ w.fs.SameContents w'.fs := fun heq => by
    rw [heq]
    exact ⟨Fs.Le.refl _, .refl _⟩
  cases l with
  | mkdir ok =>
    cases ok with
    | false => exact hsame (congrArg World.fs (Option.some.inj h).symm)
    | true =>
      rw [afterParent] at h
      split at h
      · cases h
      · split at h
        · cases h
        · rename_i fs' hmkdir
          obtain rfl := Option.some.inj h
          obtain ⟨_, _, _, _, _, hfs, -⟩ := Fs.mkdir_ok hmkdir
          refine ⟨Fs.mkdir_le hmkdir, ?_⟩
          dsimp only
          rw [hfs]
          exact .create (by simp)
  | stat answer =>
    refine hsame ?_
    cases answer with
    | none => exact congrArg World.fs (Option.some.inj h).symm
    | some k =>
      rw [afterParent] at h
      split at h
      · cases h
      · obtain ⟨-, rfl⟩ := Option.ite_none_right_eq_some.mp h |>.imp_right Option.some.inj
        rfl
  | opendir ok =>
    refine hsame ?_
    cases ok with
    | false => exact congrArg World.fs (Option.some.inj h).symm
    | true =>
      rw [afterParent] at h
      split at h
      · cases h
      · split at h
        · cases h
        · obtain ⟨-, rfl⟩ := Option.ite_none_right_eq_some.mp h |>.imp_right Option.some.inj
          rfl
  | readdir answer =>
    refine hsame ?_
    cases answer with
    | failed => exact congrArg World.fs (Option.some.inj h).symm
    | finished | entry =>
      obtain ⟨-, rfl⟩ := Option.ite_none_right_eq_some.mp h |>.imp_right Option.some.inj
      rfl
  | _ => exact hsame (congrArg World.fs (Option.some.inj h).symm)

end World

namespace OldWorld

variable {w w' : OldWorld} {p : OldProg} {l : OldLabel} {i : ℕ} {act : ChildAct}

@[simp] lemma setChild_fs (v : World) : (w.setChild i v).main.fs = v.fs := rfl

/-- A child changes the file system, and what is its own. -/
lemma after_child (h : w.after p (.child i act) = some w') : ∃ c v, p.children[i]? = some c ∧
    World.PermitsChild (w.ofChild i) c act v ∧ w' = w.setChild i v := by
  rw [after] at h
  split at h
  · cases h
  · rename_i c hc
    obtain ⟨v, hv, rfl⟩ := Option.map_eq_some_iff.mp h
    exact ⟨c, v, hc, World.permitsChild_of_afterChild hv, rfl⟩

/-- The parent changes its own environment. -/
lemma after_parent (h : w.after p l = some w') (hl : ∀ i act, l ≠ .child i act) :
    w.main.afterParent p l = some w'.main ∧ w'.procs = w.procs := by
  have hmap : (w.main.afterParent p l).map (fun v => { w with main := v }) = some w' := by
    cases l with
    | child i act => exact absurd rfl (hl i act)
    | _ => exact h
  obtain ⟨v, hv, rfl⟩ := Option.map_eq_some_iff.mp hmap
  exact ⟨hv, rfl⟩

end OldWorld

namespace OldSys

variable {s s' : OldSys} {l : OldLabel} {fs : Fs} {cwd : Loc} {srcName dstName : CStr}

/-- Inversion of a step. -/
theorem fires_of_step (h : s.step l = some s') :
    s.prog.step l = some s'.prog ∧ s.prog.Fires l s'.prog ∧
      s.world.after s.prog l = some s'.world := by
  obtain ⟨p, hp, hw⟩ := Option.bind_eq_some_iff.mp h
  obtain ⟨w, hafter, rfl⟩ := Option.map_eq_some_iff.mp hw
  exact ⟨hp, OldProg.fires_of_step hp, hafter⟩

lemma Faultless.not_fails (h : s.Faultless l) : ¬ l.Fails := by
  cases l with
  | stat answer => exact h
  | mkdir ok | opendir ok =>
    obtain rfl : ok = true := h
    simp [OldLabel.Fails]
  | _ => exact id

lemma Faultless.childrenSucceed (h : s.Faultless l) : s.prog.ChildrenSucceed l := by
  cases l with
  | fork ok => exact h
  | child i act => exact h.2
  | _ => trivial

/-- **Every run of the system is a run of the old program**, in which nothing fails. -/
theorem prog_reaches (h : Reaches OldSys.step OldSys.Faultless (init fs cwd srcName dstName) s) :
    Reaches OldProg.step OldProg.ChildrenSucceed (.init srcName dstName) s.prog :=
  h.simulate OldSys.prog fun hok hstep =>
    Reaches.single hok.childrenSucceed (fires_of_step hstep).1

end OldSys

end Cpr
