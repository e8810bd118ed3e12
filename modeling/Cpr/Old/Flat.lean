/-
# The old program on directories with many files

The run over a directory of `n` regular files in which each child copies its file before
the parent goes on: there is one for every `n`.
-/
import Cpr.Old.System
import Cpr.System.Flat

namespace Cpr

open Transition Unix

/-! ## The run of a child -/

/-- A step of a child and its environment. -/
def World.childStep (s : Child × World) (act : ChildAct) : Option (Child × World) :=
  (s.1.step act).bind fun c => (s.2.afterChild s.1 act).map fun w => (c, w)

/-- Every system call of the child succeeds. -/
def World.ChildFaultless (s : Child × World) (act : ChildAct) : Prop :=
  act.Faultless ∧ s.1.Succeeds act

instance (s : Child × World) (act : ChildAct) : Decidable (World.ChildFaultless s act) :=
  inferInstanceAs (Decidable (_ ∧ _))

/-- The control block of a child for one byte. -/
def oneByte (addr : ℕ) (opcode : Opcode) : Iocb := ⟨addr, opcode, 3, 4096, 1, 0, 0⟩

/-- The steps of a child that copies one byte. -/
def copyByte : List ChildAct :=
  [.ioSetup true, .openSrc ⟨3, some 1, 4096⟩, .readSubmit 1, .complete (oneByte 0 .pread) 1,
    .readReap ⟨oneByte 0 .pread, 1⟩ true, .openDst 3, .writeSubmit 1,
    .complete (oneByte 1 .pwrite) 1, .writeReap ⟨oneByte 1 .pwrite, 1⟩ true, .ioDestroy true]

/-- The child of a regular file of one byte. -/
lemma exists_copyByte {w : World} {node : Node} {l l' : Loc} {fs' : Fs}
    (hsrc : w.fs.openRead w.cwd node.srcName = some l) (hlen : (w.fs.content l).length = 1)
    (hdst : w.fs.openCreate w.cwd node.dstName = .ok (l', fs')) :
    ∃ c v, execOk World.childStep World.ChildFaultless (.new node, w) copyByte = some (c, v) ∧
      c.pc = .exited ∧ ∃ bytes, v.fs = fs'.setContent l' bytes := by
  have hsize : toInt32 1 = 1 := by decide
  have hulong : toUlong 1 = 1 := by decide
  have hmmap : MmapAnswer [] 1 4096 := by decide
  simp [execOk, copyByte, World.childStep, World.ChildFaultless, Child.step, Child.new,
    Child.openSrc, Child.Possible, Child.submit, Child.complete, Child.readReap, Child.writeReap,
    Child.openDst, Child.exit, Child.Fills, Child.left, Child.reported, ChildAct.Faultless,
    Child.Succeeds, World.afterChild, World.transfer, World.openFile, Child.readReq,
    Child.writeReq, oneByte, AioState.ioPrepPread, AioState.ioPrepPwrite, Op.pending, IoEvent.op,
    mapFailed, hsrc, hlen, hdst, hsize, hulong, hmmap]

namespace OldWorld

variable {w : OldWorld} {i : ℕ} {v v' : World}

lemma setChild_ofChild : w.setChild i (w.ofChild i) = w := by
  obtain ⟨main, procs⟩ := w
  simp only [setChild, ofChild, OldWorld.mk.injEq, true_and]
  funext j
  by_cases hj : j = i
  · rw [if_pos hj, hj]
  · rw [if_neg hj]

lemma setChild_setChild : (w.setChild i v).setChild i v' = w.setChild i v' := by
  simp only [setChild, OldWorld.mk.injEq, true_and]
  funext j
  by_cases hj : j = i
  · rw [if_pos hj, if_pos hj]
  · rw [if_neg hj, if_neg hj, if_neg hj]

lemma ofChild_setChild (hcwd : v.cwd = w.main.cwd) (hdir : v.dir = w.main.dir) :
    (w.setChild i v).ofChild i = v := by
  simp only [ofChild, setChild, if_true, ← hcwd, ← hdir]

end OldWorld

/-- A child leaves the directory stream and the working directory alone. -/
lemma World.PermitsChild.same {w v : World} {c : Child} {act : ChildAct}
    (h : World.PermitsChild w c act v) : v.cwd = w.cwd ∧ v.dir = w.dir := by
  cases h with
  | complete op res => exact ⟨World.transfer_cwd op res, World.transfer_dir op res⟩
  | _ => exact ⟨rfl, rfl⟩

/-- The steps of a child among the others. -/
lemma OldSys.reaches_child {o : OldSys} {i : ℕ} {acts : List ChildAct} {c c' : Child} {v : World}
    (hc : o.prog.children[i]? = some c)
    (hrun : execOk World.childStep World.ChildFaultless (c, o.world.ofChild i) acts =
      some (c', v)) : Reaches OldSys.step OldSys.Faultless o
      ⟨{ o.prog with children := o.prog.children.set i c' }, o.world.setChild i v⟩ := by
  induction acts generalizing o c with
  | nil =>
    obtain ⟨rfl, rfl⟩ := Prod.mk.inj (Option.some.inj hrun)
    obtain ⟨hi, rfl⟩ := List.getElem?_eq_some_iff.mp hc
    rw [OldWorld.setChild_ofChild, List.set_getElem_self]
    exact Reaches.refl
  | cons act acts ih =>
    obtain ⟨⟨c₁, w₁⟩, hone, hrest⟩ := Option.bind_eq_some_iff.mp hrun
    obtain ⟨hok, hone⟩ := Option.ite_none_right_eq_some.mp hone
    obtain ⟨c₂, hc₂, hw⟩ := Option.bind_eq_some_iff.mp hone
    obtain ⟨w₂, hw₂, heq⟩ := Option.map_eq_some_iff.mp hw
    obtain ⟨rfl, rfl⟩ := Prod.mk.inj heq
    have hstep : o.step (.child i act) = some
        ⟨{ o.prog with children := o.prog.children.set i c₂ }, o.world.setChild i w₂⟩ := by
      simp only [OldSys.step, OldProg.step, OldWorld.after, hc, hc₂, hw₂, Option.map_some,
        Option.bind_some]
    have hok' : o.Faultless (.child i act) := ⟨hok.1, fun d hd => by
      obtain rfl := Option.some.inj (hc.symm.trans hd)
      exact hok.2⟩
    obtain ⟨hcwd, hdir⟩ := (World.permitsChild_of_afterChild hw₂).same
    obtain ⟨hi, -⟩ := List.getElem?_eq_some_iff.mp hc
    have hrest' := ih (o := ⟨{ o.prog with children := o.prog.children.set i c₂ },
      o.world.setChild i w₂⟩) (List.getElem?_set_self hi)
      (by rw [OldWorld.ofChild_setChild hcwd hdir]; exact hrest)
    rw [List.set_set, OldWorld.setChild_setChild] at hrest'
    exact (Reaches.single hok' hstep).trans hrest'

/-! ## The run of the parent -/

namespace OldSys

variable {o : OldSys} {p : OldProg} {w : OldWorld} {l : OldLabel}

lemma step_of (hp : o.prog.step l = some p) (hw : o.world.after o.prog l = some w) :
    o.step l = some ⟨p, w⟩ := by
  simp [step, hp, hw]

/-- The parent reads the names of a directory, one after the other. -/
lemma reaches_readdir {curr : Node} {rest : List Node} (names : List Name)
    (hpc : o.prog.pc = .readdir) (hqueue : o.prog.queue = curr :: rest)
    (hended : o.prog.ended = none) (hnd : (names ++ o.world.main.dir.seen).Nodup)
    (hlegal : ∀ n ∈ names, LegalName n)
    (hreg : ∀ n ∈ names, ∃ bytes,
      o.world.main.fs.entry (n :: o.world.main.dir.loc) = some (.reg bytes)) :
    Reaches OldSys.step OldSys.Faultless o
      ⟨{ o.prog with queue := curr :: (rest ++ names.map (Prog.child curr)) },
        { o.world with main := { o.world.main with
          dir := { o.world.main.dir with seen := names.reverse ++ o.world.main.dir.seen } } }⟩ := by
  induction names generalizing o rest with
  | nil =>
    have ho : o = ⟨{ o.prog with queue := curr :: (rest ++ [].map (Prog.child curr)) },
        { o.world with main := { o.world.main with
          dir := { o.world.main.dir with seen := [].reverse ++ o.world.main.dir.seen } } }⟩ := by
      simp [← hqueue]
    exact ho ▸ Reaches.refl
  | cons n names ih =>
    have hn := hlegal n List.mem_cons_self
    obtain ⟨bytes, hbytes⟩ := hreg n List.mem_cons_self
    have hseen : n ∉ o.world.main.dir.seen := fun hmem =>
      (List.nodup_cons.mp hnd).1 (List.mem_append_right _ hmem)
    have hlists : o.world.main.Lists n .reg := Or.inr (Or.inr ⟨hseen, _, hbytes, Or.inr rfl⟩)
    have hstep : o.step (.readdir (.entry n .reg)) = some
        ⟨{ o.prog with queue := curr :: (rest ++ [Prog.child curr n]) },
          { o.world with main := { o.world.main with
            dir := { o.world.main.dir with seen := n :: o.world.main.dir.seen } } }⟩ := by
      refine step_of ?_ ?_
      · simp [OldProg.step, OldProg.mainStep, OldProg.readdirStep, hended, hqueue, hpc, hn.ne_dot,
          hn.ne_dotdot]
      · rw [OldWorld.after, World.afterParent, if_pos hlists]
        · rfl
        · simp
    refine (Reaches.single (by simp [Faultless]) hstep).trans ?_
    have hrest := ih (o := ⟨{ o.prog with queue := curr :: (rest ++ [Prog.child curr n]) },
      { o.world with main := { o.world.main with
        dir := { o.world.main.dir with seen := n :: o.world.main.dir.seen } } }⟩) hpc rfl hended
      ((List.perm_middle).nodup_iff.mpr hnd) (fun m hm => hlegal m (List.mem_cons_of_mem _ hm))
      (fun m hm => hreg m (List.mem_cons_of_mem _ hm))
    simpa using hrest

/-- The parent waits for its children, in the order of the forks. -/
lemma reaches_waits (hpc : o.prog.pc = .wait) (hended : o.prog.ended = none)
    (hexited : ∀ c ∈ o.prog.children, c.pc = .exited) (hwaited : o.prog.waited = [])
    {k : ℕ} (hk : k ≤ o.prog.children.length) : Reaches OldSys.step OldSys.Faultless o
      ⟨{ o.prog with waited := (List.range k).reverse }, o.world⟩ := by
  induction k with
  | zero =>
    have ho : o = ⟨{ o.prog with waited := (List.range 0).reverse }, o.world⟩ := by
      rw [List.range_zero, List.reverse_nil, ← hwaited]
    exact ho ▸ Reaches.refl
  | succ k ih =>
    refine (ih (by omega)).tail (a := .wait k) trivial (step_of ?_ rfl)
    have hc := List.getElem?_eq_getElem (show k < o.prog.children.length by omega)
    simp [OldProg.step, OldProg.mainStep, hended, hpc, hc, hexited _ (List.getElem_mem _),
      List.range_succ]

end OldSys

namespace flat

/-- The walk when it has opened the directory. -/
def oldOpened (n : ℕ) : OldSys where
  prog := { OldProg.init ['s'] ['d'] with pc := .readdir }
  world :=
    { main := ⟨withTarget n, [], ⟨[['s']], (withTarget n).names [['s']], []⟩, fun _ => none,
        fun _ => 0⟩
      procs := fun _ => ⟨fun _ => none, fun _ => 0⟩ }

lemma reaches_oldOpened (n : ℕ) : Reaches OldSys.step OldSys.Faultless
    (OldSys.init (flat n) [] ['s'] ['d']) (oldOpened n) := by
  have hstat : (flat n).stat [] ['s'] = some .dir := Fs.stat_of_resolve (src_dirAt n).1
  have hfile : (withTarget n).fileAt [] ['s'] = some [['s']] :=
    Fs.fileAt_eq_some.mpr (dirAt_withTarget n).1
  have hrun : execOk OldSys.step OldSys.Faultless (OldSys.init (flat n) [] ['s'] ['d'])
      [.stat (some .dir), .mkdir true, .opendir true] = some (oldOpened n) := by
    simp [execOk, OldSys.Faultless, OldSys.init, OldSys.step, OldProg.init, OldProg.step,
      OldProg.mainStep, OldProg.branch, OldProg.proceed, OldWorld.after, World.afterParent, hstat,
      mkdir_eq, hfile, (dirAt_withTarget n).2, oldOpened]
  exact reaches_of_execOk hrun

/-- The walk when it has read the directory. -/
def oldListed (n : ℕ) : OldSys where
  prog := { OldProg.init ['s'] ['d'] with queue := nodes n }
  world := { (oldOpened n).world with main := { (oldOpened n).world.main with
    dir := { (oldOpened n).world.main.dir with seen := ((List.range n).map fileName).reverse } } }

lemma reaches_oldListed (n : ℕ) : Reaches OldSys.step OldSys.Faultless
    (OldSys.init (flat n) [] ['s'] ['d']) (oldListed n) := by
  have hread := OldSys.reaches_readdir (o := oldOpened n) ((List.range n).map fileName) rfl rfl rfl
    (by simpa [oldOpened] using List.nodup_range.map fileName_injective)
    (fun m hm => by
      obtain ⟨i, -, rfl⟩ := List.mem_map.mp hm
      exact legal_fileName i)
    (fun m hm => by
      obtain ⟨i, hi, rfl⟩ := List.mem_map.mp hm
      exact ⟨_, file_withTarget (List.mem_range.mp hi)⟩)
  have hdue : ∀ m ∈ (withTarget n).names [['s']], ∃ i < n, fileName i = m :=
    fun m hm => exists_fileName hm
  generalize ho : (OldSys.mk _ _ : OldSys) = o at hread
  have hend : execOk OldSys.step OldSys.Faultless o [.readdir .finished, .closedir true] =
      some (oldListed n) := by
    subst ho
    simp [execOk, OldSys.Faultless, OldSys.step, OldProg.init, OldProg.step, OldProg.mainStep,
      OldProg.readdirStep, OldProg.next, OldWorld.after, World.afterParent, oldOpened, oldListed,
      nodes, if_pos hdue]
  exact ((reaches_oldOpened n).trans hread).trans (reaches_of_execOk hend)

/-- The first `k` files are copied. -/
structure Served (n k : ℕ) (o : OldSys) : Prop where
  pc : o.prog.pc = .walk
  ended : o.prog.ended = none
  waited : o.prog.waited = []
  queue : o.prog.queue = (nodes n).drop k
  length : o.prog.children.length = k
  exited : ∀ c ∈ o.prog.children, c.pc = .exited
  cwd : o.world.main.cwd = []
  src : o.world.main.fs.DirAt [] ['s'] [['s']]
  files : ∀ i < n, o.world.main.fs.entry [fileName i, ['s']] = some (.reg [1])
  dst : o.world.main.fs.DirAt [] ['d'] [['d']]
  new : ∀ i, k ≤ i → o.world.main.fs.entry [fileName i, ['d']] = none

lemma served_oldListed (n : ℕ) : Served n 0 (oldListed n) where
  pc := rfl
  ended := rfl
  waited := rfl
  queue := rfl
  length := rfl
  exited := by simp [oldListed, OldProg.init]
  cwd := rfl
  src := dirAt_withTarget n
  files i hi := file_withTarget hi
  dst := dst_dirAt n
  new i _ := no_file_withTarget n i

namespace Served

variable {n k : ℕ} {o : OldSys}

lemma resolve_src (h : Served n k o) (hk : k < n) : o.world.main.fs.resolve true []
    (Prog.child ⟨['s'], ['d']⟩ (fileName k)).srcName = .here [fileName k, ['s']] :=
  h.src.resolve_join_some (h.files k hk) (by simp)

lemma openRead_src (h : Served n k o) (hk : k < n) : o.world.main.fs.openRead []
    (Prog.child ⟨['s'], ['d']⟩ (fileName k)).srcName = some [fileName k, ['s']] :=
  Option.filter_eq_some_iff.mpr
    ⟨Fs.fileAt_eq_some.mpr (h.resolve_src hk), by rw [h.files k hk]; rfl⟩

/-- The child of the next file can copy it, and nothing else changes. -/
lemma exists_child (h : Served n k o) (hk : k < n) (i : ℕ) : ∃ c v,
    execOk World.childStep World.ChildFaultless
      (.new (Prog.child ⟨['s'], ['d']⟩ (fileName k)), o.world.ofChild i) copyByte = some (c, v) ∧
    c.pc = .exited ∧ o.world.main.fs.Le v.fs ∧
    ∀ l, l ≠ [fileName k, ['d']] → v.fs.entry l = o.world.main.fs.entry l := by
  have hcreate := h.dst.openCreate_join_none (legal_fileName k) (h.new k le_rfl)
  have hcwd : (o.world.ofChild i).cwd = [] := h.cwd
  have hlen : (o.world.main.fs.content [fileName k, ['s']]).length = 1 := by
    rw [Fs.content, h.files k hk]
    rfl
  obtain ⟨c, v, hrun, hexited, bytes, hfs⟩ :=
    exists_copyByte (w := o.world.ofChild i) (by rw [hcwd]; exact h.openRead_src hk) hlen
      (by rw [hcwd]; exact hcreate)
  refine ⟨c, v, hrun, hexited, ?_, fun l hl => ?_⟩
  · rw [hfs]
    exact Fs.Le.create.trans Fs.Le.setContent
  · rw [hfs, Fs.entry_setContent_of_ne hl, Fs.entry_create_of_ne hl]

/-- The parent forks a child for the next file. -/
lemma reaches_fork (h : Served n k o) (hk : k < n) : Reaches OldSys.step OldSys.Faultless o
    ⟨{ o.prog with
        queue := (nodes n).drop (k + 1)
        children := o.prog.children ++ [.new (Prog.child ⟨['s'], ['d']⟩ (fileName k))]
        reached := Prog.child ⟨['s'], ['d']⟩ (fileName k) :: o.prog.reached },
      o.world⟩ := by
  have hlen : k < (nodes n).length := by simpa [nodes] using hk
  have hqueue : o.prog.queue =
      Prog.child ⟨['s'], ['d']⟩ (fileName k) :: (nodes n).drop (k + 1) := by
    rw [h.queue, List.drop_eq_getElem_cons hlen]
    simp [nodes]
  have hstat : o.world.main.fs.stat []
      (Prog.child ⟨['s'], ['d']⟩ (fileName k)).srcName = some .reg := by
    rw [Fs.stat_of_resolve (h.resolve_src hk), h.files k hk]
    rfl
  have hrun : execOk OldSys.step OldSys.Faultless o [.stat (some .reg), .fork true] = some
      ⟨{ o.prog with
          queue := (nodes n).drop (k + 1)
          children := o.prog.children ++ [.new (Prog.child ⟨['s'], ['d']⟩ (fileName k))]
          reached := Prog.child ⟨['s'], ['d']⟩ (fileName k) :: o.prog.reached },
        o.world⟩ := by
    simp [execOk, OldSys.Faultless, OldSys.step, OldProg.step, OldProg.mainStep, OldProg.branch,
      OldProg.copyReg, OldProg.next, OldWorld.after, World.afterParent, h.pc, h.ended, h.cwd,
      hqueue,
      hstat]
  exact reaches_of_execOk hrun

/-- The child of the next file copies it as soon as it is there. -/
theorem succ (h : Served n k o) (hk : k < n) :
    ∃ o', Reaches OldSys.step OldSys.Faultless o o' ∧ Served n (k + 1) o' := by
  obtain ⟨c, v, hrun, hexited, hle, hother⟩ := h.exists_child hk k
  have hfork := h.reaches_fork hk
  generalize Prog.child ⟨['s'], ['d']⟩ (fileName k) = curr at hrun hfork
  have hset : (o.prog.children ++ [Child.new curr]).set k c = o.prog.children ++ [c] := by
    rw [List.set_append_right _ _ h.length.le, h.length, Nat.sub_self]
    rfl
  have hcopy := OldSys.reaches_child (i := k) (o := ⟨{ o.prog with
    queue := (nodes n).drop (k + 1)
    children := o.prog.children ++ [.new curr]
    reached := curr :: o.prog.reached }, o.world⟩)
    (by rw [← h.length]; exact List.getElem?_concat_length) hrun
  refine ⟨_, hfork.trans hcopy, ⟨h.pc, h.ended, h.waited, rfl, ?_, ?_, h.cwd, h.src.mono hle,
    fun i hi => ?_, h.dst.mono hle, fun i hi => ?_⟩⟩
  · simp [h.length]
  · rw [hset]
    intro c' hc'
    rcases List.mem_append.mp hc' with hc' | hc'
    · exact h.exited c' hc'
    · rw [List.mem_singleton.mp hc', hexited]
  · rw [OldWorld.setChild_fs, hother _ (by simp)]
    exact h.files i hi
  · have hne : i ≠ k := by omega
    rw [OldWorld.setChild_fs, hother _ (by simpa using fileName_injective.ne hne)]
    exact h.new i (by omega)

/-- Several files. -/
theorem exists_served (n : ℕ) {k : ℕ} (hk : k ≤ n) : ∃ o, Reaches OldSys.step OldSys.Faultless
    (OldSys.init (flat n) [] ['s'] ['d']) o ∧ Served n k o := by
  induction k with
  | zero => exact ⟨_, reaches_oldListed n, served_oldListed n⟩
  | succ k ih =>
    obtain ⟨o, ho, hserved⟩ := ih (by omega)
    obtain ⟨o', ho', hserved'⟩ := hserved.succ hk
    exact ⟨o', ho.trans ho', hserved'⟩

end Served

/-- The old program ends with status 0, for every number of files. -/
theorem exists_oldExit (n : ℕ) : ∃ o, Reaches OldSys.step OldSys.Faultless
    (OldSys.init (flat n) [] ['s'] ['d']) o ∧ o.prog.ended = some 0 := by
  obtain ⟨o, ho, h⟩ := Served.exists_served n le_rfl
  have hqueue : o.prog.queue = [] := by
    rw [h.queue, List.drop_eq_nil_iff]
    simp [nodes]
  have hend : execOk OldSys.step OldSys.Faultless o [.walkEnd] = some
      ⟨{ o.prog with pc := .wait }, o.world⟩ := by
    simp [execOk, OldSys.Faultless, OldSys.step, OldProg.step, OldProg.mainStep, OldWorld.after,
      World.afterParent, h.pc, h.ended, hqueue]
  have hwaits := OldSys.reaches_waits (o := ⟨{ o.prog with pc := .wait }, o.world⟩) rfl h.ended
    h.exited h.waited (k := n) h.length.ge
  have hexit : OldSys.step ⟨{ o.prog with pc := .wait, waited := (List.range n).reverse }, o.world⟩
      .waitEnd = some ⟨{ o.prog with
        pc := .wait
        waited := (List.range n).reverse
        ended := some 0 }, o.world⟩ := by
    simp [OldSys.step, OldProg.step, OldProg.mainStep, OldProg.exit, OldWorld.after,
      World.afterParent, h.ended, h.length]
  exact ⟨_, ((ho.trans (reaches_of_execOk hend)).trans hwaits).tail (a := .waitEnd) trivial hexit,
    rfl⟩

end flat

end Cpr
