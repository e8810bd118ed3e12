/-
# The walk of the old program

`copy_internal` and `copy_dir` are the same in both programs, but for what `copy_reg` does
with a regular file.  The walk of the old program is a walk of `cpr.c` in which `aio_loop`
does not move and others change the file system: so what holds of the walk of `cpr.c` holds
of it.
-/
import Cpr.Old.System
import Cpr.System.Tree

namespace Cpr

open Transition Unix

/-! ## A walk among others -/

/-- A state of `cpr.c` in a setting, in a file system that others may change, too. -/
structure Tour (t : Setting) (u : Sys) (d : Places) : Prop where
  prog : Reaches Prog.step anyLabel (Prog.init t.srcName t.dstName 1) u.prog
  le : t.fs.Le u.world.fs
  cwd : u.world.cwd = t.cwd
  copying : Copying t u d
  running : u.prog.aio.ended = none

namespace Tour

variable {t : Setting} {u u' : Sys} {d : Places} {l : Label}

lemma run (h : Tour t u d) : t.Run u := .of_prog h.prog h.le h.cwd

theorem step (h : Tour t u d) (hstep : u.step l = some u') (hended : u'.prog.aio.ended = none) :
    Tour t u' (d.after l) := by
  have hperm := (Sys.fires_of_step hstep).2.2
  have hprog := h.prog.tail trivial (Sys.prog_step hstep)
  have hle := h.le.trans hperm.le
  have hcwd := hperm.cwd.trans h.cwd
  exact ⟨hprog, hle, hcwd,
    h.copying.step h.run (.of_prog hprog hle hcwd) hstep (Or.inl hended), hended⟩

/-- Several steps. -/
theorem exec {ls : List Label} (h : Tour t u d) (hrun : exec Sys.step u ls = some u')
    (hended : u'.prog.aio.ended = none) : Tour t u' (ls.foldl Places.after d) := by
  induction ls generalizing u d with
  | nil =>
    obtain rfl : u = u' := by simpa using hrun
    exact h
  | cons l ls ih =>
    obtain ⟨v, hv, hrest⟩ := Option.bind_eq_some_iff.mp hrun
    refine ih (h.step hv ?_) hrest
    -- a process that moves has not ended
    cases ls with
    | nil =>
      obtain rfl : v = u' := by simpa using hrest
      exact hended
    | cons l' ls =>
      obtain ⟨w, hw, -⟩ := Option.bind_eq_some_iff.mp hrest
      exact (Sys.fires_of_step hw).1

/-- Somebody else changes the file system, as the source asks. -/
theorem change (h : Tour t u d) {fs' : Fs} (hle : u.world.fs.Le fs')
    (hc : t.Change u.world.fs fs') :
    Tour t { u with world := { u.world with fs := fs' } } d := by
  have g : Sys.Grows u { u with world := { u.world with fs := fs' } } := ⟨hle, rfl, rfl, .refl _⟩
  refine ⟨h.prog, h.le.trans hle, h.cwd, ⟨h.copying.walk.keep_same g rfl rfl rfl, ?_, ?_⟩,
    h.running⟩
  · exact h.copying.tidy.keep h.copying.walk g rfl id id fun hpc =>
      Or.inr ⟨hpc, List.Subset.refl _⟩
  · refine ⟨h.copying.tree.toConfined.change hc, h.copying.tree.toMirror.keep hle id,
      fun r q hq => ?_, fun hended c hmem => ?_⟩
    · exact (h.copying.tree.requests r q hq).imp fun rel hfor => hfor.mono g hfor.met
    · obtain ⟨rel, hfor, hfile, hreg⟩ := h.copying.tree.files hended c hmem
      exact ⟨rel, hfor.mono g hfor.met, hfile, hle.kind hreg⟩

end Tour

/-! ## The simulation -/

/-- The place of the parent in `cpr.c`. -/
def OldPc.call : OldPc → MainPc
  | .walk => .walk
  | .mkdir => .mkdir
  | .opendir => .opendir
  | .readdir => .readdir
  | .closedir => .closedir
  | .fork => .bumpReqCount
  | .wait => .waitLock

/-- The steps of `cpr.c` for a step of the parent. -/
def OldLabel.calls : OldLabel → List Label
  | .stat answer => [.stat answer]
  | .walkEnd => [.walkEnd]
  | .mkdir ok => [.mkdir ok]
  | .opendir ok => [.opendir ok]
  | .readdir answer => [.readdir answer]
  | .closedir ok => [.closedir ok]
  | .fork _ => [.bumpReqCount, .copyReg, .addLock true, .addLink, .addUnlock true]
  | .wait _ | .waitEnd | .child _ _ => []

/-- The parent is where `cpr.c` is, and there is a child for every request. -/
structure Shadow (t : Setting) (o : OldSys) (u : Sys) (d : Places) : Prop extends Tour t u d where
  world : u.world = o.world.main
  queue : u.prog.queue = o.prog.queue
  pc : u.prog.pc = o.prog.pc.call
  free : u.prog.aio.mgr.requestMutex = none
  forked : ∀ r q, u.prog.aio.reqs.last? r = some q → ∃ c ∈ o.prog.children, q.For c.node
  places : ∀ c ∈ o.prog.children, ∃ rel ∈ d.met, t.kind rel = some .reg ∧
    c.node = u.prog.argv.below rel

lemma Places.mem_met_foldl {d : Places} {ls : List Label} {rel : Loc}
    (hls : .startThread true ∉ ls) (hrel : rel ∈ d.met) : rel ∈ (ls.foldl Places.after d).met := by
  induction ls generalizing d with
  | nil => exact hrel
  | cons l ls ih =>
    rw [List.mem_cons, not_or] at hls
    exact ih hls.2 (Places.mem_met_after (Ne.symm hls.1) hrel)

/-- The environment does not know which of the programs asks. -/
lemma World.after_call {w : World} {p : OldProg} {q : Prog} {l : OldLabel} {call : Label}
    (hqueue : q.queue = p.queue) (hcall : l.calls = [call]) :
    w.after q call = w.afterParent p l := by
  cases l with
  | stat answer =>
    obtain rfl := (List.singleton_inj.mp hcall).symm
    cases answer with
    | none => rfl
    | some k =>
      rw [after, hqueue]
      rfl
  | mkdir ok =>
    obtain rfl := (List.singleton_inj.mp hcall).symm
    cases ok with
    | false => rfl
    | true =>
      rw [after, hqueue]
      rfl
  | opendir ok =>
    obtain rfl := (List.singleton_inj.mp hcall).symm
    cases ok with
    | false => rfl
    | true =>
      rw [after, hqueue]
      rfl
  | readdir answer =>
    obtain rfl := (List.singleton_inj.mp hcall).symm
    cases answer <;> rfl
  | walkEnd | closedir ok =>
    obtain rfl := (List.singleton_inj.mp hcall).symm
    rfl
  | _ => simp [OldLabel.calls] at hcall

namespace Shadow

variable {t : Setting} {o o' : OldSys} {u : Sys} {d : Places} {l : OldLabel} {call : Label}

/-- `main` of `cpr.c` has started its thread when the old program starts. -/
lemma init (t : Setting) : ∃ u, Shadow t t.oldInit u ⟨[], [[]]⟩ := by
  have hstart : Tour t (t.init 1) ⟨[], []⟩ :=
    ⟨Reaches.refl, Fs.Le.refl _, rfl, .init, rfl⟩
  have hrun : Transition.exec Sys.step (t.init 1) [.initManager true, .startThread true] = some
      ⟨⟨{ AioState.init 1 1 with pc := .lockFlush }, .walk, [⟨t.srcName, t.dstName⟩],
        ⟨t.srcName, t.dstName⟩⟩, (t.init 1).world⟩ := rfl
  refine ⟨_, hstart.exec hrun rfl, rfl, rfl, rfl, rfl, fun r q hq => ?_, fun c hc => ?_⟩
  · have hnone : (AioState.init 1 1).reqs.last? r = none :=
      Heap.last?_eq_none_of_le (Nat.zero_le r)
    exact absurd (hnone.symm.trans hq) (by simp)
  · exact absurd hc List.not_mem_nil

/-- A step of the parent that is one of `cpr.c`. -/
lemma walked (h : Shadow t o u d) (hcall : l.calls = [call])
    (hafter : o.world.after o.prog l = some o'.world) (hl : call ≠ .startThread true)
    (hprog : u.prog.step call =
      some { u.prog with pc := o'.prog.pc.call, queue := o'.prog.queue })
    (hkids : o'.prog.children = o.prog.children) :
    ∃ u', Transition.exec Sys.step u l.calls = some u' ∧
      Shadow t o' u' (l.calls.foldl Places.after d) := by
  have hchild : ∀ i act, l ≠ .child i act := by
    rintro i act rfl
    simp [OldLabel.calls] at hcall
  have hworld : u.world.after u.prog call = some o'.world.main := by
    rw [World.after_call h.queue hcall, h.world]
    exact (OldWorld.after_parent hafter hchild).1
  have hstep := Sys.step_of hprog hworld
  rw [hcall]
  refine ⟨_, by rw [exec_cons, hstep]; rfl, h.toTour.step hstep h.running, rfl, rfl, rfl, h.free,
    ?_, ?_⟩
  · rw [hkids]
    exact h.forked
  · rw [hkids]
    intro c hc
    obtain ⟨rel, hrel, hreg⟩ := h.places c hc
    exact ⟨rel, Places.mem_met_after hl hrel, hreg⟩

/-- A step that leaves the walk alone, and may change the file system. -/
lemma change (h : Shadow t o u d) {fs' : Fs} (hle : o.world.main.fs.Le fs')
    (hc : t.Change o.world.main.fs fs') (hmain : o'.world.main = { o.world.main with fs := fs' })
    (hqueue : o'.prog.queue = o.prog.queue) (hpc : o'.prog.pc = o.prog.pc)
    (hnodes : o'.prog.children.map Child.node = o.prog.children.map Child.node) :
    Shadow t o' { u with world := { u.world with fs := fs' } } d := by
  refine ⟨h.toTour.change (h.world ▸ hle) (h.world ▸ hc), by rw [hmain, h.world],
    h.queue.trans hqueue.symm, by rw [hpc, ← h.pc], h.free, fun r q hq => ?_, fun c hc => ?_⟩
  · obtain ⟨c, hc, hfor⟩ := h.forked r q hq
    have hnode : c.node ∈ o'.prog.children.map Child.node := hnodes ▸ List.mem_map_of_mem hc
    obtain ⟨c', hc', heq⟩ := List.mem_map.mp hnode
    exact ⟨c', hc', heq ▸ hfor⟩
  · have hnode : c.node ∈ o.prog.children.map Child.node := hnodes ▸ List.mem_map_of_mem hc
    obtain ⟨c', hc', heq⟩ := List.mem_map.mp hnode
    exact heq ▸ h.places c' hc'

/-- `fork` is `copy_reg` of `cpr.c`. -/
lemma fork (h : Shadow t o u d) {curr : Node} {rest : List Node} (hpc : o.prog.pc = .fork)
    (hqueue : o.prog.queue = curr :: rest) (hprog : o'.prog = o.prog.copyReg curr true)
    (hmain : o'.world.main = o.world.main) :
    ∃ u', Transition.exec Sys.step u (OldLabel.calls (.fork true)) = some u' ∧
      Shadow t o' u' ((OldLabel.calls (.fork true)).foldl Places.after d) := by
  have hpc' : u.prog.pc = .bumpReqCount := by rw [h.pc, hpc]; rfl
  have hqueue' : u.prog.queue = curr :: rest := h.queue.trans hqueue
  have hrun : Transition.exec Sys.step u (OldLabel.calls (.fork true)) = some
      ⟨{ u.prog with aio := u.prog.aio.receive curr, pc := .walk, queue := rest }, u.world⟩ := by
    rw [AioState.receive_eq]
    simp [OldLabel.calls, Sys.step, Prog.step, Prog.mainStep, Prog.proceed, Prog.next, World.after,
      hpc', hqueue', h.running, h.free, AioState.bumpReqCount, AioState.newRequest,
      AioState.lockRequest, AioState.addCopyReq, AioState.linkIn, AioState.unlockRequest]
  have htour := h.toTour.exec hrun (by rw [AioState.receive_eq]; exact h.running)
  have hmet : ∀ {rel}, rel ∈ d.met →
      rel ∈ ((OldLabel.calls (.fork true)).foldl Places.after d).met :=
    Places.mem_met_foldl (by simp [OldLabel.calls])
  have hkids : o'.prog.children = o.prog.children ++ [.new curr] := by rw [hprog]; rfl
  refine ⟨_, hrun, htour, by rw [hmain, ← h.world], ?_, by rw [hprog]; rfl, ?_, fun r q hq => ?_,
    fun c hc => ?_⟩
  · rw [hprog, OldProg.copyReg, OldProg.next, hqueue]
    rfl
  · rw [AioState.receive_eq]
  · rw [AioState.receive_eq] at hq
    dsimp only at hq
    by_cases hr : r = u.prog.aio.reqs.next
    · subst hr
      rw [Heap.last?_of_get? (Heap.get?_set_self Heap.get?_alloc_self)] at hq
      obtain rfl := Option.some.inj hq
      exact ⟨.new curr, by simp [hkids], rfl, rfl⟩
    · rw [Heap.last?_set_of_ne hr, Heap.last?_alloc_of_ne hr] at hq
      obtain ⟨c, hc, hfor⟩ := h.forked r q hq
      exact ⟨c, hkids ▸ List.mem_append_left _ hc, hfor⟩
  · rw [hkids] at hc
    rcases List.mem_append.mp hc with hc | hc
    · obtain ⟨rel, hrel, hreg⟩ := h.places c hc
      exact ⟨rel, hmet hrel, hreg⟩
    · obtain rfl := List.mem_singleton.mp hc
      -- the node of the child is the one that the walk is at
      obtain ⟨rel, todo, hd, hcurr, -⟩ := h.copying.walk.exists_head hqueue'
      have hrel : rel ∈ d.todo.head? := by rw [hd]; rfl
      exact ⟨rel, hmet (Places.mem_met_of_head hrel),
        h.copying.tree.kind_head h.copying.walk h.run hrel (by rw [hpc']; rfl), hcurr⟩

/-- With true types, every name of the source is that of a directory or a regular file. -/
lemma dtype_of_lists {t : Task} (h : Shadow t.toSetting o u d) (hpc : o.prog.pc = .readdir)
    {name : Name} {dtype : DType} (htrue : dtype ≠ .unknown)
    (hlists : o.world.main.Lists name dtype) (hname : ¬ (name = dot ∨ name = dotdot)) :
    dtype = .dir ∨ dtype = .reg := by
  have hpc' : u.prog.pc = .readdir := by rw [h.pc, hpc]; rfl
  have hcopy := h.copying
  obtain ⟨rel, todo, hd⟩ := hcopy.walk.exists_head_of_inBody h.run.ready (by rw [hpc']; rfl)
  rw [hd] at hcopy
  obtain ⟨e, he, hdtype⟩ := hcopy.tree.source_of_lists hcopy.tree.toConfined hcopy.walk h.run hpc'
    (h.world ▸ hlists) hname
  rw [hdtype.resolve_left htrue]
  rcases t.kinds _ e he with hdir | hreg
  · rw [hdir]
    exact Or.inl rfl
  · rw [hreg]
    exact Or.inr rfl

/-- **A step of the parent's walk** is answered by steps of `cpr.c`. -/
theorem parent_exec {t : Task} (h : Shadow t.toSetting o u d) (hok : o.Faultless l)
    (hwalk : l.calls ≠ []) (hstep : o.step l = some o') :
    ∃ u', Transition.exec Sys.step u l.calls = some u' ∧
      Shadow t.toSetting o' u' (l.calls.foldl Places.after d) := by
  have hl : ∀ i act, l ≠ .child i act := by
    rintro i act rfl
    exact hwalk rfl
  obtain ⟨-, hfires, hafter⟩ := OldSys.fires_of_step hstep
  obtain ⟨p', w'⟩ := o'
  dsimp only at hfires hafter
  cases hfires with
  | child i act => exact absurd rfl (hl i act)
  | fail _ _ hfails => exact absurd hfails hok.not_fails
  | statDir curr rest hended hpc hqueue =>
    refine h.walked rfl hafter (by simp) ?_ rfl
    simp [Prog.step, Prog.mainStep, Prog.branch, OldPc.call, h.running, h.pc, hpc, h.queue, hqueue]
  | statReg curr rest hended hpc hqueue =>
    refine h.walked rfl hafter (by simp) ?_ rfl
    simp [Prog.step, Prog.mainStep, Prog.branch, OldPc.call, h.running, h.pc, hpc, h.queue, hqueue]
  | statOther curr rest k hended hpc hqueue hdir hreg =>
    refine h.walked rfl hafter (by simp) ?_ rfl
    cases k <;>
    simp_all [Prog.step, Prog.mainStep, Prog.branch, Prog.next, OldPc.call, h.running, h.pc,
      h.queue]
  | walkEnd hended hpc hqueue =>
    refine h.walked rfl hafter (by simp) ?_ rfl
    simp [Prog.step, Prog.mainStep, OldPc.call, h.running, h.pc, hpc, h.queue, hqueue]
  | mkdir hended hpc =>
    refine h.walked rfl hafter (by simp) ?_ rfl
    simp [Prog.step, Prog.mainStep, Prog.proceed, OldPc.call, h.running, h.pc, hpc, h.queue]
  | opendir hended hpc =>
    refine h.walked rfl hafter (by simp) ?_ rfl
    simp [Prog.step, Prog.mainStep, Prog.proceed, OldPc.call, h.running, h.pc, hpc, h.queue]
  | readdirSkip name dtype hended hpc hskip =>
    obtain ⟨hlists, -⟩ := Option.ite_none_right_eq_some.mp (OldWorld.after_parent hafter hl).1
    have hname : name = dot ∨ name = dotdot := by
      by_contra hname
      exact (hskip.resolve_left hname) (h.dtype_of_lists hpc hok hlists hname)
    obtain ⟨curr, rest, hqueue⟩ :=
      List.exists_cons_of_ne_nil (h.run.ready.inBody (by rw [h.pc, hpc]; rfl))
    have hstays : u.prog = { u.prog with pc := o.prog.pc.call, queue := o.prog.queue } := by
      rw [← h.pc, ← h.queue]
    refine h.walked rfl hafter (by simp) (Eq.trans ?_ (congrArg some hstays)) rfl
    simp [Prog.step, Prog.mainStep, Prog.readdirStep, OldPc.call, h.running, h.pc, hpc, hqueue,
      hname]
  | readdirEnqueue curr rest name dtype hended hpc hqueue hname htype =>
    have htype' : dtype = .dir ∨ dtype = .reg ∨ dtype = .unknown := htype.imp_right Or.inl
    refine h.walked rfl hafter (by simp) ?_ rfl
    simp [Prog.step, Prog.mainStep, Prog.readdirStep, OldPc.call, h.running, h.pc, hpc, h.queue,
      hqueue, hname, htype']
  | readdirEnd answer hended hpc hanswer =>
    obtain rfl : answer = .finished := hanswer.resolve_right fun heq => by
      subst heq
      exact hok
    obtain ⟨curr, rest, hqueue⟩ :=
      List.exists_cons_of_ne_nil (h.run.ready.inBody (by rw [h.pc, hpc]; rfl))
    refine h.walked rfl hafter (by simp) ?_ rfl
    simp [Prog.step, Prog.mainStep, Prog.readdirStep, OldPc.call, h.running, h.pc, hpc, hqueue,
      ← h.queue]
  | closedir ok hended hpc =>
    obtain rfl : ok = true := hok
    refine h.walked rfl hafter (by simp) ?_ rfl
    simp [Prog.step, Prog.mainStep, Prog.proceed, Prog.next, OldProg.next, OldPc.call, h.running,
      h.pc, hpc, h.queue]
  | fork curr rest ok hended hpc hqueue =>
    obtain rfl : ok = true := hok
    exact h.fork hpc hqueue rfl (Option.some.inj (OldWorld.after_parent hafter hl).1).symm
  | wait | waitEnd => exact absurd rfl hwalk

/-- A step of the parent after its walk. -/
lemma idle (h : Shadow t o u d) (hidle : l.calls = []) (hok : o.Faultless l)
    (hl : ∀ i act, l ≠ .child i act) (hstep : o.step l = some o') : ∃ u', Shadow t o' u' d := by
  obtain ⟨-, hfires, hafter⟩ := OldSys.fires_of_step hstep
  obtain ⟨p', w'⟩ := o'
  dsimp only at hfires hafter
  have hmain (hnone : o.world.main.afterParent o.prog l = some o.world.main) :
      w'.main = o.world.main :=
    Option.some.inj ((OldWorld.after_parent hafter hl).1.symm.trans hnone)
  cases hfires with
  | child i act => exact absurd rfl (hl i act)
  | fail _ _ hfails => exact absurd hfails hok.not_fails
  | wait | waitEnd => exact ⟨_, h.change (Fs.Le.refl _) (.refl _) (hmain rfl) rfl rfl rfl⟩
  | _ => simp [OldLabel.calls] at hidle

/-- A step of the parent, in the walk or after it. -/
theorem parent {t : Task} (h : Shadow t.toSetting o u d) (hok : o.Faultless l)
    (hl : ∀ i act, l ≠ .child i act) (hstep : o.step l = some o') :
    ∃ u', Shadow t.toSetting o' u' (l.calls.foldl Places.after d) := by
  by_cases hidle : l.calls = []
  · rw [hidle]
    exact h.idle hidle hok hl hstep
  · obtain ⟨u', -, h'⟩ := h.parent_exec hok hidle hstep
    exact ⟨u', h'⟩

end Shadow

end Cpr
