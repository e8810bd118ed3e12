/-
# What success says about the tree

`copy_internal` does nothing for a file that is neither a directory nor a regular file, and
goes on; and it copies what a symbolic link leads to where `readdir` hides that it is one.
Where it meets no such file, a successful exit means that every entry of the source tree was
recreated, as a file of its own kind.
-/
import Cpr.Program.Success
import Cpr.System.Walk

namespace Cpr

open Transition Unix

/-- Every file that `copy_internal` asks `stat` for is itself a directory or a regular file,
and no destination that is opened is an existing block device or symbolic link. -/
def Sys.CopiesAll (s : Sys) : Label → Prop
  | .stat (some _) => ∀ curr ∈ s.prog.queue.head?,
      s.world.fs.lstat s.world.cwd curr.srcName = some .dir ∨
        s.world.fs.lstat s.world.cwd curr.srcName = some .reg
  | .aio (.writeOne _) => ∀ q ∈ s.prog.aio.mgr.writeHead.bind s.prog.aio.reqs.get?,
      s.world.fs.lstat s.world.cwd q.dstName ≠ some .blk ∧
        s.world.fs.lstat s.world.cwd q.dstName ≠ some .lnk
  | _ => True

instance (s : Sys) (l : Label) : Decidable (s.CopiesAll l) := by
  induction l using Label.casesOn with
  | stat answer =>
    induction answer using Option.casesOn <;> (unfold Sys.CopiesAll; infer_instance)
  | aio act => induction act using Act.casesOn <;> (unfold Sys.CopiesAll; infer_instance)
  | _ => unfold Sys.CopiesAll; infer_instance

/-- What `stat` reports in such a run is the kind of the file itself. -/
lemma Sys.CopiesAll.lstat_of_stat {s : Sys} {k : Kind} {w : World}
    (h : s.CopiesAll (.stat (some k))) (hperm : World.Permits s.world s.prog (.stat (some k)) w) :
    ∃ curr ∈ s.prog.queue.head?, s.world.fs.lstat s.world.cwd curr.srcName = some k ∧
      (k = .dir ∨ k = .reg) := by
  cases hperm with
  | stat _ curr rest hqueue hstat =>
    have hcurr : curr ∈ s.prog.queue.head? := by rw [hqueue]; rfl
    refine ⟨curr, hcurr, ?_⟩
    rcases h curr hcurr with hdir | hreg
    · obtain rfl := Option.some.inj (hstat.symm.trans (Fs.stat_of_lstat hdir (by simp)))
      exact ⟨hdir, Or.inl rfl⟩
    · obtain rfl := Option.some.inj (hstat.symm.trans (Fs.stat_of_lstat hreg (by simp)))
      exact ⟨hreg, Or.inr rfl⟩
  | other _ hstat => exact absurd rfl (hstat _)

lemma Sys.CopiesAll.kind_of_step {s s' : Sys} {l : Label} (h : s.CopiesAll l)
    (hstep : s.step l = some s') (k : Kind) (hl : l = .stat (some k)) : k = .dir ∨ k = .reg := by
  subst hl
  obtain ⟨-, -, -, hk⟩ := h.lstat_of_stat (Sys.fires_of_step hstep).2.2
  exact hk

/-- `lstat` of the source path of a place. -/
def Sys.srcLstat (s : Sys) (rel : Loc) : Option Kind :=
  s.world.fs.lstat s.world.cwd (s.prog.argv.below rel).srcName

/-- `lstat` of the destination path of a place. -/
def Sys.dstLstat (s : Sys) (rel : Loc) : Option Kind :=
  s.world.fs.lstat s.world.cwd (s.prog.argv.below rel).dstName

/-- The source path and the destination path of a place name files of the same kind, where a
symbolic link is a file of its own. -/
def Sys.Recreated (s : Sys) (rel : Loc) : Prop :=
  ∃ k, s.srcLstat rel = some k ∧ s.dstLstat rel = some k

/-! ### The destinations that are opened -/

/-- The destinations that were opened are regular files. -/
def Opened (s : Sys) : Prop := ∀ r q, s.prog.aio.reqs.last? r = some q → q.state = 2 →
  s.world.fs.lstat s.world.cwd q.dstName = some .reg

namespace Opened

variable {s s' : Sys} {l : Label} {fs : Fs} {cwd : Loc} {srcName dstName : CStr} {batchSize : ℤ}

lemma step (ho : Opened s) (hgood : Good s.prog.aio) (hcopies : s.CopiesAll l)
    (hstep : s.step l = some s') : Opened s' := by
  intro r q' hq' hst
  obtain ⟨hended, hfires, hperm⟩ := Sys.fires_of_step hstep
  rw [hperm.cwd]
  cases Prog.descends_of_fires hgood hended hfires hq' with
  | fresh _ _ _ _ _ _ _ _ hzero => omega
  | old q hq names hold =>
    rw [names.dstName]
    exact Fs.lstat_mono (ho r q hq (hold hst)) hperm.le
  | opened q fd hq names hl hfd hhead =>
    subst hl
    have hbind : s.prog.aio.mgr.writeHead.bind s.prog.aio.reqs.get? = some q := by
      rw [hhead]
      exact hq
    rw [names.dstName]
    obtain ⟨p', w'⟩ := s'
    cases hperm with
    | openDst _ q₁ loc fs' _ hhead₁ hopen =>
      obtain rfl := Option.some.inj (hbind.symm.trans hhead₁)
      obtain ⟨hblk, hlnk⟩ := hcopies q hbind
      exact Fs.lstat_of_openCreate hopen hblk hlnk
    | noDst _ hfail =>
      rcases hfail with hneg | hnone
      · omega
      · simp [hnone] at hbind
    | other _ _ _ _ _ _ _ hwrite => exact absurd rfl (hwrite _)

theorem of_reaches
    (h : Reaches Sys.step Sys.CopiesAll (Sys.init fs cwd srcName dstName batchSize) s) :
    Opened s := by
  refine h.invariant_of (J := fun s => Good s.prog.aio)
    (fun _ hr => Prog.good_of_reaches (Sys.prog_reaches_any hr))
    (fun hgood _ ho hcopies hstep => ho.step hgood hcopies hstep) fun r q hq => ?_
  rw [Sys.init, Prog.init, AioState.init, Heap.last?_eq_none_of_le (Nat.zero_le r)] at hq
  cases hq

end Opened

/-! ### The places that are met -/

/-- What the main thread knows about the kinds of the file that it copies. -/
def Unlinked (s : Sys) (rel : Loc) : Prop :=
  match s.prog.pc with
  | .mkdir => s.srcLstat rel = some .dir
  | .opendir | .readdir | .closedir => s.srcLstat rel = some .dir ∧ s.dstLstat rel = some .dir
  | .bumpReqCount | .copyReg | .addLock | .addLink | .addUnlock => s.srcLstat rel = some .reg
  | _ => True

/-- No place was reached through a symbolic link at its end. -/
structure NoLinks (s : Sys) (d : Places) : Prop where
  done : ∀ rel ∈ d.done,
    (s.srcLstat rel = some .dir ∧ s.dstLstat rel = some .dir) ∨ s.srcLstat rel = some .reg
  current : ∀ rel ∈ d.todo.head?, Unlinked s rel

namespace NoLinks

variable {fs : Fs} {root rel : Loc} {s s' : Sys} {l : Label} {d : Places} {done todo : List Loc}
  {k : Kind}

lemma srcLstat (g : Sys.Grows s s') (h : s.srcLstat rel = some k) : s'.srcLstat rel = some k := by
  rw [Sys.srcLstat, g.cwd, g.argv]
  exact Fs.lstat_mono h g.le

lemma dstLstat (g : Sys.Grows s s') (h : s.dstLstat rel = some k) : s'.dstLstat rel = some k := by
  rw [Sys.dstLstat, g.cwd, g.argv]
  exact Fs.lstat_mono h g.le

lemma keep_done (h : NoLinks s d) (g : Sys.Grows s s') : ∀ rel ∈ d.done,
    (s'.srcLstat rel = some .dir ∧ s'.dstLstat rel = some .dir) ∨ s'.srcLstat rel = some .reg :=
  fun rel hrel => (h.done rel hrel).imp
    (fun hdir => ⟨srcLstat g hdir.1, dstLstat g hdir.2⟩) (srcLstat g)

/-- What is known about a file is known afterwards. -/
lemma unlinked (g : Sys.Grows s s') (hpc : s'.prog.pc = s.prog.pc) (h : Unlinked s rel) :
    Unlinked s' rel := by
  unfold Unlinked at h ⊢
  rw [hpc]
  cases hpc' : s.prog.pc with
  | mkdir | bumpReqCount | copyReg | addLock | addLink | addUnlock =>
    simp only [hpc'] at h
    exact srcLstat g h
  | opendir | readdir | closedir =>
    simp only [hpc'] at h
    exact ⟨srcLstat g h.1, dstLstat g h.2⟩
  | _ => trivial

/-- A step that keeps the queue. -/
lemma keep (h : NoLinks s d) (g : Sys.Grows s s')
    (hcurrent : ∀ rel ∈ d.todo.head?, Unlinked s rel → Unlinked s' rel) : NoLinks s' d where
  done := h.keep_done g
  current rel hrel := hcurrent rel hrel (h.current rel hrel)

/-- The first place of the queue is done. -/
lemma finish (h : NoLinks s ⟨done, rel :: todo⟩) (g : Sys.Grows s s')
    (hpc : s'.prog.pc = .walk)
    (hrel : (s.srcLstat rel = some .dir ∧ s.dstLstat rel = some .dir) ∨
      s.srcLstat rel = some .reg) : NoLinks s' ⟨rel :: done, todo⟩ where
  done r hr := by
    rcases List.mem_cons.mp hr with rfl | hr
    · exact hrel.imp (fun hdir => ⟨srcLstat g hdir.1, dstLstat g hdir.2⟩) (srcLstat g)
    · exact h.keep_done g r hr
  current r _ := by
    rw [Unlinked, hpc]
    trivial

/-- **One step of the walk** follows no symbolic link. -/
theorem step (h : NoLinks s d) (hw : Walk fs root s d) (hr : Walk.Ready fs root s)
    (hcopies : s.CopiesAll l) (hstep : s.step l = some s')
    (hended : s'.prog.aio.ended = none ∨ s'.prog.aio.ended = some (.exited 0)) :
    NoLinks s' (d.after l) := by
  have g := Sys.grows_of_step hr.good hstep
  obtain ⟨-, hfires, hperm⟩ := Sys.fires_of_step hstep
  obtain ⟨p', w'⟩ := s'
  dsimp only at hfires hperm hended
  cases hfires with
  | fail | readdirExit => simp [Prog.fail, AioState.exit] at hended
  | aio | destroy => exact h.keep g fun rel _ => unlinked g rfl
  | initManager | startThread | walkEnd | waitLock | waitSet | waitUnlock | join =>
    refine ⟨?_, fun rel _ => trivial⟩
    first | exact h.keep_done g | simp [Places.after]
  | statDir curr rest hpc hqueue | statReg curr rest hpc hqueue =>
    rw [Places.after, if_pos (by simp)]
    refine h.keep g fun rel hrel _ => ?_
    obtain ⟨node, hnode, hlstat, -⟩ := hcopies.lstat_of_stat hperm
    rw [hqueue] at hnode
    obtain rfl : curr = node := Option.some.inj hnode
    rw [hw.head_below hqueue hrel] at hlstat
    exact srcLstat g hlstat
  | statOther curr rest k hpc hqueue hdir hreg =>
    obtain ⟨-, -, -, hk⟩ := hcopies.lstat_of_stat hperm
    exact absurd hk (not_or.mpr ⟨hdir, hreg⟩)
  | mkdir hpc =>
    refine h.keep g fun rel hrel hsrc => ?_
    simp only [Unlinked, hpc] at hsrc
    refine ⟨srcLstat g hsrc, ?_⟩
    cases hperm with
    | mkdir curr rest fs' hqueue hmkdir =>
      rw [hw.head_below hqueue hrel] at hmkdir
      exact Fs.lstat_of_mkdir hmkdir
    | other _ _ hmkdir => exact absurd rfl hmkdir
  | opendir hpc | readdirEnd hpc =>
    refine h.keep g fun rel _ hdirs => ?_
    simp only [Unlinked, hpc] at hdirs
    exact ⟨srcLstat g hdirs.1, dstLstat g hdirs.2⟩
  | readdirSkip name dtype hpc hname =>
    rw [Places.after, if_pos hname]
    exact h.keep g fun rel _ => unlinked g rfl
  | readdirEnqueue curr rest name dtype hpc hqueue hname =>
    obtain ⟨rel, todo, hd, -⟩ := hw.exists_head hqueue
    rw [hd] at h ⊢
    rw [Places.after, if_neg hname]
    refine ⟨h.keep_done g, fun r hr' => ?_⟩
    obtain rfl : rel = r := Option.some.inj hr'
    exact unlinked (s := s) g rfl (h.current rel rfl)
  | bumpReqCount hpc | copyReg _ _ hpc | addLock hpc | addLink _ hpc =>
    refine h.keep g fun rel _ hreg => ?_
    simp only [Unlinked, hpc] at hreg
    exact srcLstat g hreg
  | closedir hpc =>
    obtain ⟨rel, todo, hd⟩ := hw.exists_head_of_inBody hr (by rw [hpc]; rfl)
    rw [hd] at h ⊢
    have hcurrent := h.current rel rfl
    simp only [Unlinked, hpc] at hcurrent
    exact h.finish g rfl (Or.inl hcurrent)
  | addUnlock hpc =>
    obtain ⟨rel, todo, hd⟩ := hw.exists_head_of_inBody hr (by rw [hpc]; rfl)
    rw [hd] at h ⊢
    have hcurrent := h.current rel rfl
    simp only [Unlinked, hpc] at hcurrent
    exact h.finish g rfl (Or.inr hcurrent)

/-- **The whole run**, with the places of the walk. -/
theorem of_reaches {cwd : Loc} {srcName dstName : CStr} {batchSize : ℤ}
    (hsrc : fs.resolve true cwd srcName = .here root)
    (h : Reaches Sys.step Sys.CopiesAll (Sys.init fs cwd srcName dstName batchSize) s)
    (hended : s.prog.aio.ended = none ∨ s.prog.aio.ended = some (.exited 0)) :
    ∃ d, Walk fs root s d ∧ (∀ rel ∈ d.done, s.Made rel) ∧ NoLinks s d := by
  refine h.invariant_of (J := Walk.Ready fs root) (I := fun s => s.prog.aio.ended = none ∨
    s.prog.aio.ended = some (.exited 0) →
      ∃ d, Walk fs root s d ∧ (∀ rel ∈ d.done, s.Made rel) ∧ NoLinks s d)
    (fun _ hreach => .of_reaches hsrc hreach) (fun {t l u} hr _ hw hcopies hstep hended => ?_)
    (fun _ => ⟨_, .init, by simp, by simp, by simp⟩) hended
  obtain ⟨d, hwalk, hmade, hlinks⟩ := hw (Or.inl (Sys.fires_of_step hstep).1)
  exact ⟨_, hwalk.step hr hstep hended,
    hwalk.made_step hmade hr (hcopies.kind_of_step hstep) hstep hended,
    hlinks.step hwalk hr hcopies hstep hended⟩

end NoLinks

section

variable {s : Sys} {fs : Fs} {cwd root : Loc} {srcName dstName : CStr} {batchSize : ℤ}

/-- **Success means that nothing was skipped**, in the runs that meet only directories and
regular files. -/
theorem recreated_of_success (hsrc : fs.resolve true cwd srcName = .here root)
    (h : Reaches Sys.step Sys.CopiesAll (Sys.init fs cwd srcName dstName batchSize) s)
    (hlt : s.prog.aio.log.accepted.length < 2 ^ 32)
    (hexit : s.prog.aio.ended = some (.exited 0)) :
    ∀ rel, (fs.entry (rel ++ root)).isSome → s.Recreated rel := by
  intro rel hrel
  have hprog := Sys.prog_reaches_any h
  have hc := Counting.of_reaches hprog
  have hpc := hc.success hexit
  obtain ⟨d, hwalk, hmade, hlinks⟩ := NoLinks.of_reaches hsrc h (Or.inr hexit)
  have hdone := hwalk.mem_done (hc.queue (by rw [hpc]; rfl)) (by rw [hpc]; rfl) rel hrel
  rcases hlinks.done rel hdone with hdir | hreg
  · exact ⟨.dir, hdir⟩
  -- a regular file has a request, whose destination was opened
  rcases hmade rel hdone with ⟨hdir, -⟩ | ⟨-, r, q, hq, hfor⟩
  · exact absurd (hdir.symm.trans (Fs.stat_of_lstat hreg (by simp))) (by simp)
  · have hst := state_of_success hprog hlt hexit hq
    refine ⟨.reg, hreg, ?_⟩
    rw [Sys.dstLstat, ← hfor.dstName]
    exact Opened.of_reaches h r q hq hst

end

/-- The run of `aio_loop` and of the end of `main` that copies the file of `oneFile`. -/
def oneFileDrain : List Label :=
  [.waitLock true, .waitSet, .waitUnlock true, .aio .lockFlush, .aio (.getEvents []),
    .aio .checkDone, .aio .lockRequest, .aio .readSize, .aio (.readOne ⟨3, some 3, 4096⟩),
    .aio (.readSubmit 1), .aio .unlockRequest, .aio .writeSize, .aio .unlockFlush,
    .aio (.complete ⟨0, .pread, 3, 4096, 3, 0, 0⟩ 3), .aio .lockFlush,
    .aio (.getEvents [⟨⟨0, .pread, 3, 4096, 3, 0, 0⟩, 3⟩]), .aio .handleEvent, .aio .checkDone,
    .aio .lockRequest, .aio .readSize, .aio .unlockRequest, .aio .writeSize, .aio (.writeOne 4),
    .aio (.writeSubmit 1), .aio .unlockFlush, .aio (.complete ⟨1, .pwrite, 4, 4096, 3, 0, 0⟩ 3),
    .aio .lockFlush, .aio (.getEvents [⟨⟨1, .pwrite, 4, 4096, 3, 0, 0⟩, 3⟩]), .aio .handleEvent,
    .aio .checkDone, .aio .unlockBreak, .join true, .destroy true]

/-- A run that copies a directory with one file. -/
theorem recreated_of_success_oneFile : ∃ s : Sys,
    Reaches Sys.step Sys.CopiesAll (Sys.init oneFile [] ['s'] ['d'] 1) s ∧
      s.prog.aio.ended = some (.exited 0) ∧
      ∀ rel, (oneFile.entry (rel ++ [['s']])).isSome → s.Recreated rel := by
  have hrun : (execOk Sys.step Sys.CopiesAll (Sys.init oneFile [] ['s'] ['d'] 1)
      (oneFileWalk ++ oneFileDrain)).map
      (fun s => (s.prog.aio.log.accepted.length, s.prog.aio.ended)) =
        some (1, some (.exited 0)) := by
    decide +kernel
  obtain ⟨s, hs, hfacts⟩ := Option.map_eq_some_iff.mp hrun
  simp only [Prod.mk.injEq] at hfacts
  obtain ⟨hacc, hexit⟩ := hfacts
  have hreach := reaches_of_execOk hs
  exact ⟨s, hreach, hexit, recreated_of_success (by decide +kernel) hreach (by rw [hacc]; decide)
    hexit⟩

/-- A file system with one FIFO `f`. -/
def oneFifo : Fs := Fs.empty.create [] ['f'] .fifo Fs.empty.root rfl legalName_f

/-- The copy of a FIFO succeeds and does nothing. -/
theorem not_recreated_of_fifo : ¬ ∀ (fs : Fs) (cwd root : Loc) (srcName dstName : CStr)
    (batchSize : ℤ) (s : Sys), fs.resolve true cwd srcName = .here root →
      Reaches Sys.step anyLabel (Sys.init fs cwd srcName dstName batchSize) s →
      s.prog.aio.ended = some (.exited 0) →
      ∀ rel, (fs.entry (rel ++ root)).isSome → s.Recreated rel := by
  intro hall
  have hrun : (exec Sys.step (Sys.init oneFifo [] ['f'] ['g'] 1)
      [.initManager true, .startThread true, .stat (some .fifo), .walkEnd, .waitLock true,
        .waitSet, .waitUnlock true, .aio .lockFlush, .aio (.getEvents []), .aio .checkDone,
        .aio .unlockBreak, .join true, .destroy true]).map
      (fun s => (s.prog.aio.ended, s.dstLstat [])) = some (some (.exited 0), none) := by
    decide +kernel
  obtain ⟨s, hs, hfacts⟩ := Option.map_eq_some_iff.mp hrun
  simp only [Prod.mk.injEq] at hfacts
  obtain ⟨hexit, hnone⟩ := hfacts
  obtain ⟨k, -, hk⟩ := hall oneFifo [] [['f']] _ _ _ s (by decide +kernel)
    (reaches_of_exec (fun _ _ => trivial) hs) hexit [] (by decide)
  simp [hnone] at hk

end Cpr
