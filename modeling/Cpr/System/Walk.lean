/-
# The walk

The nodes that `copy_internal` takes from its queue are named by places below the
arguments.  `done` are the places whose nodes were taken from it, `todo` those in the
queue; the first of `todo` is the one the main thread works on.  The two lists follow the
labels of the run.

A place that is done was copied, unless it is neither a directory nor a regular file.  Every
entry of the source tree is in one of the two lists as soon as its directory is done: so all
of it is done when the queue is empty.
-/
import Cpr.System.Parents

namespace Cpr

open Transition Unix

/-- The node for the place `rel` below the arguments. -/
def Node.below (argv : Node) (rel : Loc) : Node :=
  ⟨extend argv.srcName rel, extend argv.dstName rel⟩

/-- The places of the nodes that were taken from the queue, and of those in it. -/
structure Places where
  done : List Loc
  todo : List Loc

namespace Places

/-- All places that the walk has met. -/
def met (d : Places) : List Loc := d.done ++ d.todo

/-- The places after a step of the walk. -/
def after (d : Places) : Label → Places
  | .startThread true => ⟨[], [[]]⟩
  | .readdir (.entry name _) =>
    if name = dot ∨ name = dotdot then d
    else { d with todo := d.todo ++ [name :: d.todo.headD []] }
  | .closedir true | .addUnlock true => ⟨d.todo.headD [] :: d.done, d.todo.tail⟩
  | .stat (some k) =>
    if k = .dir ∨ k = .reg then d else ⟨d.todo.headD [] :: d.done, d.todo.tail⟩
  | _ => d

/-- The places after the first of the queue is done are the same. -/
lemma mem_met_finish {done todo : List Loc} {rel r : Loc} :
    r ∈ met ⟨rel :: done, todo⟩ ↔ r ∈ met ⟨done, rel :: todo⟩ := by
  simp only [met, List.mem_append, List.mem_cons]
  tauto

lemma mem_met_of_head {d : Places} {rel : Loc} (hrel : rel ∈ d.todo.head?) : rel ∈ d.met :=
  List.mem_append_right _ (List.mem_of_mem_head? hrel)

end Places

/-- `stat` of the source path of a place. -/
def Sys.srcStat (s : Sys) (rel : Loc) : Option Kind :=
  s.world.fs.stat s.world.cwd (s.prog.argv.below rel).srcName

/-- `stat` of the destination path of a place. -/
def Sys.dstStat (s : Sys) (rel : Loc) : Option Kind :=
  s.world.fs.stat s.world.cwd (s.prog.argv.below rel).dstName

/-- The request is for the files of a node. -/
structure CopyRequest.For (q : CopyRequest) (node : Node) : Prop where
  srcName : q.srcName = node.srcName
  dstName : q.dstName = node.dstName

/-- `copy_reg` made a request for a place. -/
def Sys.Requested (s : Sys) (rel : Loc) : Prop :=
  ∃ r q, s.prog.aio.reqs.last? r = some q ∧ q.For (s.prog.argv.below rel)

/-- The directory of a place was made. -/
def Sys.DirMade (s : Sys) (rel : Loc) : Prop :=
  s.srcStat rel = some .dir ∧ s.dstStat rel = some .dir

/-- The place was copied, or its request was made. -/
def Sys.Made (s : Sys) (rel : Loc) : Prop :=
  s.DirMade rel ∨ (s.srcStat rel = some .reg ∧ s.Requested rel)

/-- The place is neither a directory nor a regular file. -/
def Sys.Dropped (s : Sys) (rel : Loc) : Prop := ∃ k, s.srcStat rel = some k ∧ k ≠ .dir ∧ k ≠ .reg

/-- What is known about the place that the main thread works on. -/
def Working (fs : Fs) (root : Loc) (s : Sys) (todo : List Loc) (rel : Loc) : Prop :=
  match s.prog.pc with
  | .mkdir => s.srcStat rel = some .dir
  | .opendir => s.DirMade rel
  | .readdir => s.DirMade rel ∧
      s.world.fs.resolve true s.world.cwd (s.prog.argv.below rel).srcName = .here s.world.dir.loc ∧
      (∀ n ∈ s.world.dir.seen, LegalName n → n :: rel ∈ todo) ∧
      ∀ n, (fs.entry (n :: s.world.dir.loc)).isSome → n ∈ s.world.dir.due
  | .closedir => s.DirMade rel ∧
      ∀ n, (fs.entry (n :: rel ++ root)).isSome → n :: rel ∈ todo
  | .bumpReqCount | .copyReg => s.srcStat rel = some .reg
  | .addLock | .addLink | .addUnlock => s.srcStat rel = some .reg ∧ s.Requested rel
  | _ => True

/-- The kind of the file that the main thread is copying. -/
def MainPc.kind : MainPc → Option Kind
  | .mkdir | .opendir | .readdir | .closedir => some .dir
  | .bumpReqCount | .copyReg | .addLock | .addLink | .addUnlock => some .reg
  | _ => none

lemma Working.srcStat {fs : Fs} {root : Loc} {s : Sys} {todo : List Loc} {rel : Loc} {k : Kind}
    (h : Working fs root s todo rel) (hk : s.prog.pc.kind = some k) :
    s.srcStat rel = some k := by
  unfold Working at h
  revert h hk
  cases s.prog.pc <;> simp +contextual [MainPc.kind, Sys.DirMade]

/-- The places describe the walk over the tree below `root`. -/
structure Walk (fs : Fs) (root : Loc) (s : Sys) (d : Places) : Prop where
  queue : s.prog.queue = d.todo.map s.prog.argv.below
  top : s.prog.pc.beforeStart = false → [] ∈ d.met
  made : ∀ rel ∈ d.done, s.Made rel ∨ s.Dropped rel
  children : ∀ rel ∈ d.done, ∀ n, (fs.entry (n :: rel ++ root)).isSome → n :: rel ∈ d.met
  working : ∀ rel ∈ d.todo.head?, Working fs root s d.todo rel

lemma below_cons (argv : Node) (n : Name) (rel : Loc) :
    argv.below (n :: rel) = Prog.child (argv.below rel) n := rfl

lemma SameNames.for {q q' : CopyRequest} {node : Node} (names : SameNames q q')
    (h : q.For node) : q'.For node :=
  ⟨names.srcName.trans h.srcName, names.dstName.trans h.dstName⟩

/-- A request is for one node. -/
lemma CopyRequest.For.node_eq {q : CopyRequest} {node node' : Node} (h : q.For node)
    (h' : q.For node') : node = node' := by
  cases node
  cases node'
  rw [Node.mk.injEq]
  exact ⟨h.srcName.symm.trans h'.srcName, h.dstName.symm.trans h'.dstName⟩

/-! ## What stays -/

namespace Sys

variable {s s' : Sys} {l : Label} {rel : Loc} {k : Kind}

/-- What every step keeps. -/
structure Grows (s s' : Sys) : Prop where
  le : s.world.fs.Le s'.world.fs
  cwd : s'.world.cwd = s.world.cwd
  argv : s'.prog.argv = s.prog.argv
  persist : Persist s.prog.aio.reqs s'.prog.aio.reqs

lemma grows_of_step (hgood : Good s.prog.aio) (hstep : s.step l = some s') : Grows s s' := by
  obtain ⟨hended, hfires, hperm⟩ := fires_of_step hstep
  exact ⟨hperm.le, hperm.cwd, Prog.argv_of_fires hfires,
    Prog.persist_of_fires hgood hended hfires⟩

namespace Grows

lemma srcStat (g : Grows s s') (h : s.srcStat rel = some k) : s'.srcStat rel = some k := by
  rw [Sys.srcStat, g.cwd, g.argv]
  exact Fs.stat_mono h g.le

lemma dstStat (g : Grows s s') (h : s.dstStat rel = some k) : s'.dstStat rel = some k := by
  rw [Sys.dstStat, g.cwd, g.argv]
  exact Fs.stat_mono h g.le

lemma requested (g : Grows s s') (h : s.Requested rel) : s'.Requested rel := by
  obtain ⟨r, q, hq, hfor⟩ := h
  obtain ⟨q', hq', names⟩ := g.persist r q hq
  rw [Sys.Requested, g.argv]
  exact ⟨r, q', hq', names.for hfor⟩

lemma dirMade (g : Grows s s') (h : s.DirMade rel) : s'.DirMade rel :=
  ⟨g.srcStat h.1, g.dstStat h.2⟩

lemma made (g : Grows s s') (h : s.Made rel) : s'.Made rel :=
  h.imp g.dirMade (And.imp g.srcStat g.requested)

lemma dropped (g : Grows s s') (h : s.Dropped rel) : s'.Dropped rel :=
  h.imp fun _ hk => ⟨g.srcStat hk.1, hk.2⟩

lemma made_or_dropped (g : Grows s s') (h : s.Made rel ∨ s.Dropped rel) :
    s'.Made rel ∨ s'.Dropped rel :=
  h.imp g.made g.dropped

end Grows

end Sys

namespace Walk

variable {fs : Fs} {root rel : Loc} {s s' : Sys} {l : Label} {d : Places} {done todo : List Loc}

/-- A step that keeps the queue. -/
lemma keep (h : Walk fs root s d) (g : Sys.Grows s s') (hqueue : s'.prog.queue = s.prog.queue)
    (hstart : s'.prog.pc.beforeStart = s.prog.pc.beforeStart)
    (hworking : ∀ rel ∈ d.todo.head?, Working fs root s d.todo rel →
      Working fs root s' d.todo rel) : Walk fs root s' d where
  queue := by rw [hqueue, g.argv]; exact h.queue
  top := by rw [hstart]; exact h.top
  made rel hrel := g.made_or_dropped (h.made rel hrel)
  children := h.children
  working rel hrel := hworking rel hrel (h.working rel hrel)

/-- A step that leaves the main thread and the directory stream alone. -/
lemma keep_same (h : Walk fs root s d) (g : Sys.Grows s s')
    (hqueue : s'.prog.queue = s.prog.queue) (hpc : s'.prog.pc = s.prog.pc)
    (hdir : s'.world.dir = s.world.dir) : Walk fs root s' d := by
  refine h.keep g hqueue (by rw [hpc]) fun rel _ hw => ?_
  unfold Working at hw ⊢
  rw [hpc, hdir]
  cases hpc' : s.prog.pc with
  | mkdir | bumpReqCount | copyReg =>
    simp only [hpc'] at hw
    exact g.srcStat hw
  | opendir =>
    simp only [hpc'] at hw
    exact g.dirMade hw
  | readdir =>
    simp only [hpc'] at hw
    refine ⟨g.dirMade hw.1, ?_, hw.2.2⟩
    rw [g.cwd, g.argv]
    exact Fs.resolve_mono hw.2.1 g.le
  | closedir =>
    simp only [hpc'] at hw
    exact ⟨g.dirMade hw.1, hw.2⟩
  | addLock | addLink | addUnlock =>
    simp only [hpc'] at hw
    exact ⟨g.srcStat hw.1, g.requested hw.2⟩
  | _ => trivial

/-- The first place of the queue is done. -/
lemma finish (h : Walk fs root s ⟨done, rel :: todo⟩) (g : Sys.Grows s s')
    (hqueue : s'.prog.queue = s.prog.queue.tail) (hpc : s'.prog.pc = .walk)
    (hmade : s'.Made rel ∨ s'.Dropped rel)
    (hchildren : ∀ n, (fs.entry (n :: rel ++ root)).isSome → n :: rel ∈ rel :: todo)
    (hstart : s.prog.pc.beforeStart = false) : Walk fs root s' ⟨rel :: done, todo⟩ := by
  refine ⟨?_, fun _ => Places.mem_met_finish.mpr (h.top hstart), fun r hr => ?_,
    fun r hr n hn => Places.mem_met_finish.mpr ?_, fun r _ => ?_⟩
  · rw [hqueue, g.argv, h.queue]
    rfl
  · rcases List.mem_cons.mp hr with rfl | hr
    · exact hmade
    · exact g.made_or_dropped (h.made r hr)
  · rcases List.mem_cons.mp hr with rfl | hr
    · exact List.mem_append_right _ (hchildren n hn)
    · exact h.children r hr n hn
  · rw [Working, hpc]
    trivial

lemma exists_head (h : Walk fs root s d) {curr : Node} {rest : List Node}
    (hqueue : s.prog.queue = curr :: rest) : ∃ rel todo, d = ⟨d.done, rel :: todo⟩ ∧
      curr = s.prog.argv.below rel ∧ rest = todo.map s.prog.argv.below := by
  obtain ⟨done, todo⟩ := d
  have hmap := h.queue.symm.trans hqueue
  cases todo with
  | nil => simp at hmap
  | cons rel todo =>
    obtain ⟨hcurr, hrest⟩ := List.cons.inj hmap
    exact ⟨rel, todo, rfl, hcurr.symm, hrest.symm⟩

lemma head_below (h : Walk fs root s d) {curr : Node} {rest : List Node}
    (hqueue : s.prog.queue = curr :: rest) (hrel : rel ∈ d.todo.head?) :
    curr = s.prog.argv.below rel := by
  obtain ⟨rel', todo', hd, hcurr, -⟩ := h.exists_head hqueue
  rw [hd] at hrel
  rwa [Option.some.inj hrel] at hcurr

lemma srcStat_head (h : Walk fs root s d) {k : Kind} (hk : s.prog.pc.kind = some k)
    (hrel : rel ∈ d.todo.head?) : s.srcStat rel = some k := (h.working rel hrel).srcStat hk

/-- What `stat` reports to `copy_internal` is about the first place. -/
lemma stat_head (h : Walk fs root s d) {k : Kind} {w' : World}
    (hperm : World.Permits s.world s.prog (.stat (some k)) w') (hrel : rel ∈ d.todo.head?) :
    s.srcStat rel = some k := by
  cases hperm with
  | stat _ curr rest hqueue hstat =>
    rw [h.head_below hqueue hrel] at hstat
    exact hstat
  | other _ hstat => exact absurd rfl (hstat _)

/-- What the steps of the walk need of the whole state. -/
structure Ready (fs : Fs) (root : Loc) (s : Sys) : Prop where
  le : fs.Le s.world.fs
  src : fs.resolve true s.world.cwd s.prog.argv.srcName = .here root
  good : Good s.prog.aio
  inBody : s.prog.pc.inBody = true → s.prog.queue ≠ []

namespace Ready

/-- A place whose entry has entries is a directory, and its source path leads there. -/
lemma dirAt (hr : Ready fs root s) {n : Name} (hn : (fs.entry (n :: rel ++ root)).isSome) :
    s.world.fs.DirAt s.world.cwd (s.prog.argv.below rel).srcName (rel ++ root) :=
  (Fs.DirAt.extend hr.src (fs.parent n (rel ++ root) hn)).mono hr.le

/-- What is not a directory has no entries. -/
lemma not_isSome_of_ne_dir (hr : Ready fs root s) {k : Kind} (hk : s.srcStat rel = some k)
    (hdir : k ≠ .dir) (n : Name) : ¬ (fs.entry (n :: rel ++ root)).isSome := by
  intro hn
  have hstat := Fs.stat_eq_dir.mpr ⟨_, hr.dirAt hn⟩
  exact hdir (Option.some.inj (hk.symm.trans hstat))

/-- The source path of a place leads to its file. -/
lemma src_resolve (hr : Ready fs root s) {e : Entry} (he : fs.entry (rel ++ root) = some e)
    (hlnk : ∀ p, e ≠ .lnk p) :
    s.world.fs.resolve true s.world.cwd (s.prog.argv.below rel).srcName = .here (rel ++ root) :=
  Fs.resolve_mono (Fs.resolve_extend hr.src he hlnk) hr.le

theorem of_reaches {ok : Sys → Label → Prop} {cwd : Loc} {srcName dstName : CStr} {batchSize : ℤ}
    (hsrc : fs.resolve true cwd srcName = .here root)
    (h : Reaches Sys.step ok (Sys.init fs cwd srcName dstName batchSize) s) :
    Ready fs root s := by
  have hprog := Sys.prog_reaches_any h
  refine ⟨Sys.fs_le h, ?_, Prog.good_of_reaches hprog, (Locks.of_reaches hprog).inBody⟩
  rw [Sys.cwd_eq h, Sys.argv_eq h]
  exact hsrc

end Ready

lemma exists_head_of_inBody (h : Walk fs root s d) (hr : Ready fs root s)
    (hpc : s.prog.pc.inBody = true) : ∃ rel todo, d = ⟨d.done, rel :: todo⟩ := by
  obtain ⟨curr, rest, hqueue⟩ := List.exists_cons_of_ne_nil (hr.inBody hpc)
  obtain ⟨rel, todo, hd, -⟩ := h.exists_head hqueue
  exact ⟨rel, todo, hd⟩

/-- `readdir` returned a name: it is seen, and queued if it is legal. -/
lemma entry (h : Walk fs root s ⟨done, rel :: todo⟩) (hpc : s.prog.pc = .readdir) {name : Name}
    (new : List Loc)
    (hprog : s'.prog = { s.prog with queue := s.prog.queue ++ new.map s.prog.argv.below })
    (hworld : s'.world =
      { s.world with dir := { s.world.dir with seen := name :: s.world.dir.seen } })
    (hnew : LegalName name → name :: rel ∈ new) :
    Walk fs root s' ⟨done, rel :: (todo ++ new)⟩ := by
  have hw := h.working rel rfl
  simp only [Working, hpc] at hw
  obtain ⟨hmade, hres, hseen, hdue⟩ := hw
  have hargv : s'.prog.argv = s.prog.argv := by rw [hprog]
  have hsrc : ∀ r k, s.srcStat r = some k → s'.srcStat r = some k := fun r k hk => by
    rw [Sys.srcStat, hworld, hargv]
    exact hk
  have hdst : ∀ r k, s.dstStat r = some k → s'.dstStat r = some k := fun r k hk => by
    rw [Sys.dstStat, hworld, hargv]
    exact hk
  have hmet : ∀ {r : Loc}, r ∈ Places.met ⟨done, rel :: todo⟩ →
      r ∈ Places.met ⟨done, rel :: (todo ++ new)⟩ := by
    intro r hr
    simp only [Places.met, List.mem_append, List.mem_cons] at hr ⊢
    tauto
  refine ⟨?_, fun _ => hmet (h.top (by rw [hpc]; rfl)), fun r hr => ?_, fun r hr n hn =>
    hmet (h.children r hr n hn), fun r hr => ?_⟩
  · rw [hprog, h.queue, ← List.map_append]
    rfl
  · rcases h.made r hr with (hdir | ⟨hreg, hreq⟩) | ⟨k, hk, hother⟩
    · exact Or.inl (Or.inl ⟨hsrc r _ hdir.1, hdst r _ hdir.2⟩)
    · refine Or.inl (Or.inr ⟨hsrc r _ hreg, ?_⟩)
      rw [Sys.Requested, hprog]
      exact hreq
    · exact Or.inr ⟨k, hsrc r k hk, hother⟩
  · obtain rfl : rel = r := Option.some.inj hr
    have hpc' : s'.prog.pc = .readdir := by rw [hprog]; exact hpc
    simp only [Working, hpc']
    refine ⟨⟨hsrc _ _ hmade.1, hdst _ _ hmade.2⟩, ?_, fun n hn hlegal => ?_, ?_⟩
    · rw [hworld, hargv]
      exact hres
    · rw [hworld] at hn
      rw [← List.cons_append, List.mem_append]
      rcases List.mem_cons.mp hn with rfl | hn
      · exact Or.inr (hnew hlegal)
      · exact Or.inl (hseen n hn hlegal)
    · rw [hworld]
      exact hdue

/-- All entries of the directory were returned. -/
lemma readdirEnd (h : Walk fs root s ⟨done, rel :: todo⟩) (hr : Ready fs root s)
    (hpc : s.prog.pc = .readdir) (hdue : ∀ n ∈ s.world.dir.due, n ∈ s.world.dir.seen) :
    ∀ n, (fs.entry (n :: rel ++ root)).isSome → n :: rel ∈ rel :: todo := by
  intro n hn
  have hw := h.working rel rfl
  simp only [Working, hpc] at hw
  obtain ⟨-, hres, hseen, hdue'⟩ := hw
  have hloc : rel ++ root = s.world.dir.loc :=
    Found.here.inj ((hr.dirAt hn).1.symm.trans hres)
  have hn' : (fs.entry (n :: s.world.dir.loc)).isSome := by
    rw [← hloc]
    exact hn
  exact hseen n (hdue n (hdue' n hn')) (fs.legal n _ hn')

/-- **One step of the walk.** -/
theorem step (h : Walk fs root s d) (hr : Ready fs root s) (hstep : s.step l = some s')
    (hended : s'.prog.aio.ended = none ∨ s'.prog.aio.ended = some (.exited 0)) :
    Walk fs root s' (d.after l) := by
  have g := Sys.grows_of_step hr.good hstep
  obtain ⟨-, hfires, hperm⟩ := Sys.fires_of_step hstep
  obtain ⟨p', w'⟩ := s'
  dsimp only at hfires hperm hended
  cases hfires with
  | fail | readdirExit => simp [Prog.fail, AioState.exit] at hended
  | aio | destroy => exact h.keep_same g rfl rfl (hperm.dir_eq (by simp) (by simp))
  | initManager hpc | walkEnd hpc _ | waitLock hpc | waitSet hpc | waitUnlock hpc | join hpc =>
    exact h.keep g rfl (by rw [hpc]; rfl) fun _ _ _ => trivial
  | startThread hpc =>
    refine ⟨rfl, fun _ => List.mem_singleton_self _, by simp [Places.after],
      by simp [Places.after], fun rel _ => ?_⟩
    trivial
  | statDir curr rest hpc hqueue =>
    rw [Places.after, if_pos (Or.inl rfl)]
    refine h.keep g rfl (by rw [hpc]; rfl) fun rel hrel _ => ?_
    exact g.srcStat (h.stat_head hperm hrel)
  | statReg curr rest hpc hqueue =>
    rw [Places.after, if_pos (Or.inr rfl)]
    refine h.keep g rfl (by rw [hpc]; rfl) fun rel hrel _ => ?_
    exact g.srcStat (h.stat_head hperm hrel)
  | statOther curr rest k hpc hqueue hdir hreg =>
    obtain ⟨rel, todo, hd, -⟩ := h.exists_head hqueue
    rw [Places.after, if_neg (not_or.mpr ⟨hdir, hreg⟩)]
    -- neither branch of the `if` is taken: the place is dropped without an action
    rw [hd] at h ⊢
    have hk := h.stat_head hperm rfl
    refine h.finish g (by rw [hqueue]; rfl) hpc (Or.inr ⟨k, g.srcStat hk, hdir, hreg⟩)
      (fun n hn => ?_) (by rw [hpc]; rfl)
    exact absurd hn (hr.not_isSome_of_ne_dir hk hdir n)
  | mkdir hpc =>
    refine h.keep g rfl (by rw [hpc]; rfl) fun rel hrel hw => ?_
    simp only [Working, hpc] at hw
    refine ⟨g.srcStat hw, ?_⟩
    cases hperm with
    | mkdir curr rest fs' hqueue hmkdir =>
      rw [h.head_below hqueue hrel] at hmkdir
      obtain ⟨loc, n, -, -, -, -, hdir⟩ := Fs.mkdir_ok hmkdir
      exact Fs.stat_eq_dir.mpr ⟨n :: loc, hdir⟩
    | other _ _ hmkdir => exact absurd rfl hmkdir
  | opendir hpc =>
    refine h.keep g rfl (by rw [hpc]; rfl) fun rel hrel hw => ?_
    simp only [Working, hpc] at hw
    cases hperm with
    | opendir curr rest loc hqueue hdir =>
      rw [h.head_below hqueue hrel] at hdir
      refine ⟨g.dirMade hw, hdir.1, by simp, fun n hn => (Fs.mem_names _).mpr ?_⟩
      obtain ⟨e, he⟩ := Option.isSome_iff_exists.mp hn
      obtain ⟨e', he', -⟩ := Option.map_eq_some_iff.mp (hr.le _ e he)
      rw [he']
      rfl
    | other _ _ _ hopendir => exact absurd rfl hopendir
  | readdirSkip name dtype hpc hname =>
    obtain ⟨rel, todo, hd⟩ := h.exists_head_of_inBody hr (by rw [hpc]; rfl)
    rw [hd] at h ⊢
    cases hperm with
    | entry _ _ hlists =>
      rw [Places.after, if_pos hname, ← List.append_nil todo]
      exact h.entry hpc [] (by simp) rfl
        fun hlegal => absurd hname (not_or.mpr ⟨hlegal.ne_dot, hlegal.ne_dotdot⟩)
    | other _ _ _ _ hentry => exact absurd rfl (hentry _ _)
  | readdirEnqueue curr rest name dtype hpc hqueue hname =>
    obtain ⟨rel, todo, hd, hcurr, -⟩ := h.exists_head hqueue
    rw [hd] at h ⊢
    cases hperm with
    | entry _ _ hlists =>
      -- `build_node` hangs the new name below the place at the head of the queue
      rw [Places.after, if_neg hname]
      refine h.entry hpc [name :: rel] ?_ rfl fun _ => List.mem_singleton_self _
      rw [List.map_singleton, below_cons, ← hcurr, hqueue]
      rfl
    | other _ _ _ _ hentry => exact absurd rfl (hentry _ _)
  | readdirEnd hpc =>
    obtain ⟨rel, todo, hd⟩ := h.exists_head_of_inBody hr (by rw [hpc]; rfl)
    rw [hd] at h ⊢
    cases hperm with
    | finished hdue =>
      refine h.keep g rfl (by rw [hpc]; rfl) fun r hrel hw => ?_
      obtain rfl : rel = r := Option.some.inj hrel
      simp only [Working, hpc] at hw
      exact ⟨g.dirMade hw.1, h.readdirEnd hr hpc hdue⟩
    | other _ _ _ _ _ hfinished => exact absurd rfl hfinished
  | closedir hpc =>
    obtain ⟨rel, todo, hd⟩ := h.exists_head_of_inBody hr (by rw [hpc]; rfl)
    rw [hd] at h ⊢
    have hw := h.working rel rfl
    simp only [Working, hpc] at hw
    exact h.finish g rfl rfl (Or.inl (Or.inl (g.dirMade hw.1))) hw.2 (by rw [hpc]; rfl)
  | bumpReqCount hpc =>
    refine h.keep g rfl (by rw [hpc]; rfl) fun rel hrel hw => ?_
    simp only [Working, hpc] at hw
    exact g.srcStat hw
  | copyReg curr rest hpc hqueue =>
    refine h.keep g rfl (by rw [hpc]; rfl) fun rel hrel hw => ?_
    simp only [Working, hpc] at hw
    -- the new request carries the two paths of the head
    have hcurr := h.head_below hqueue hrel
    refine ⟨g.srcStat hw, s.prog.aio.reqs.next, _, Heap.last?_of_get? Heap.get?_alloc_self, ?_⟩
    exact hcurr ▸ ⟨rfl, rfl⟩
  | addLock hpc | addLink r hpc =>
    refine h.keep g rfl (by rw [hpc]; rfl) fun rel hrel hw => ?_
    simp only [Working, hpc] at hw
    exact ⟨g.srcStat hw.1, g.requested hw.2⟩
  | addUnlock hpc =>
    obtain ⟨rel, todo, hd⟩ := h.exists_head_of_inBody hr (by rw [hpc]; rfl)
    rw [hd] at h ⊢
    have hw := h.working rel rfl
    simp only [Working, hpc] at hw
    refine h.finish g rfl rfl (Or.inl (Or.inr ⟨g.srcStat hw.1, g.requested hw.2⟩)) (fun n hn => ?_)
      (by rw [hpc]; rfl)
    exact absurd hn (hr.not_isSome_of_ne_dir hw.1 (by simp) n)

lemma init {cwd : Loc} {srcName dstName : CStr} {batchSize : ℤ} :
    Walk fs root (Sys.init fs cwd srcName dstName batchSize) ⟨[], []⟩ :=
  ⟨rfl, by simp [Sys.init, Prog.init, MainPc.beforeStart], by simp, by simp, by simp⟩

/-- Where every file is a directory or a regular file, no place is dropped. -/
lemma made_step (h : Walk fs root s d) (hmade : ∀ rel ∈ d.done, s.Made rel) (hr : Ready fs root s)
    (hkind : ∀ k, l = .stat (some k) → k = .dir ∨ k = .reg) (hstep : s.step l = some s')
    (hended : s'.prog.aio.ended = none ∨ s'.prog.aio.ended = some (.exited 0)) :
    ∀ rel ∈ (d.after l).done, s'.Made rel := by
  have g := Sys.grows_of_step hr.good hstep
  intro rel hrel
  rcases (h.step hr hstep hended).made rel hrel with hdone | ⟨k, hk, hdir, hreg⟩
  · exact hdone
  by_cases hold : rel ∈ d.done
  · exact g.made (hmade rel hold)
  -- the place that is newly done was copied
  obtain ⟨-, hfires, -⟩ := Sys.fires_of_step hstep
  obtain ⟨p', w'⟩ := s'
  dsimp only at hfires hended
  cases hfires with
  | fail | readdirExit => simp [Prog.fail, AioState.exit] at hended
  | startThread => simp [Places.after] at hrel
  | statOther _ _ k _ _ hdir hreg => exact absurd (hkind k rfl) (not_or.mpr ⟨hdir, hreg⟩)
  | readdirEnqueue _ _ _ _ _ _ hname =>
    rw [Places.after, if_neg hname] at hrel
    exact absurd hrel hold
  | readdirSkip _ _ _ hname =>
    rw [Places.after, if_pos hname] at hrel
    exact absurd hrel hold
  | closedir hpc =>
    obtain ⟨head, todo, hd⟩ := h.exists_head_of_inBody hr (by rw [hpc]; rfl)
    rw [hd] at h hrel hold
    have hw := h.working head rfl
    simp only [Working, hpc] at hw
    obtain rfl := (List.mem_cons.mp hrel).resolve_right hold
    exact Or.inl (g.dirMade hw.1)
  | addUnlock hpc =>
    obtain ⟨head, todo, hd⟩ := h.exists_head_of_inBody hr (by rw [hpc]; rfl)
    rw [hd] at h hrel hold
    have hw := h.working head rfl
    simp only [Working, hpc] at hw
    obtain rfl := (List.mem_cons.mp hrel).resolve_right hold
    exact Or.inr ⟨g.srcStat hw.1, g.requested hw.2⟩
  | statDir | statReg => simp [Places.after, hold] at hrel
  | _ => exact absurd hrel hold

/-- When the queue is empty, everything in the tree is done. -/
theorem all_done (h : Walk fs root s ⟨done, []⟩) (hstart : s.prog.pc.beforeStart = false)
    (rel : Loc) (hrel : (fs.entry (rel ++ root)).isSome) : rel ∈ done := by
  induction rel with
  | nil => simpa [Places.met] using h.top hstart
  | cons n rel ih =>
    have hdone := ih (by rw [fs.parent n (rel ++ root) hrel]; rfl)
    simpa [Places.met] using h.children rel hdone n hrel

/-- The same for the end of a run. -/
theorem mem_done (h : Walk fs root s d) (hqueue : s.prog.queue = [])
    (hstart : s.prog.pc.beforeStart = false) (rel : Loc)
    (hrel : (fs.entry (rel ++ root)).isSome) : rel ∈ d.done := by
  obtain ⟨done, todo⟩ := d
  have hmap := h.queue
  rw [hqueue] at hmap
  obtain rfl : todo = [] := List.map_eq_nil_iff.mp hmap.symm
  exact h.all_done hstart rel hrel

end Walk

end Cpr
