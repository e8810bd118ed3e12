/-
# Parents are created before children are opened

The destination directory of a node is made before the entries of its source directory are
queued, and directories stay.  So the directory part of every destination path leads to a
directory, from the moment the node is queued until its request is finished.
-/
import Cpr.System.Steps

namespace Cpr

open Transition Unix

/-- `copy_dir` is reading the first node, whose destination was made. -/
def MainPc.inDir : MainPc → Bool
  | .opendir | .readdir | .closedir => true
  | _ => false

/-- Every destination path that is still to be created has its directory. -/
structure ParentsExist (s : Sys) : Prop where
  queue : ∀ node ∈ s.prog.queue, s.world.fs.HasParent s.world.cwd node.dstName
  requests : ∀ r, s.prog.aio.InReadList r ∨ r ∈ s.prog.aio.inFlight .pread ∨
    s.prog.aio.InWriteList r ∨ r ∈ s.prog.aio.inFlight .pwrite →
      ∃ q, s.prog.aio.reqs.get? r = some q ∧ s.world.fs.HasParent s.world.cwd q.dstName
  mkdir : ∀ curr rest, s.prog.pc = .mkdir → s.prog.queue = curr :: rest →
    ∀ e, s.world.fs.mkdir s.world.cwd curr.dstName = .error e → e = .exist
  /-- Only the destination argument itself can be a symbolic link. -/
  openDst : ∀ r q, s.prog.aio.mgr.writeHead = some r → s.prog.aio.reqs.get? r = some q →
    ∀ e, s.world.fs.openCreate s.world.cwd q.dstName = .error e → e = .isdir ∨ e = .inval ∨
      ∃ l t, s.world.fs.resolveLast s.world.cwd q.dstName = .here l ∧
        s.world.fs.entry l = some (.lnk t)

/-- The invariant behind it. -/
structure Parented (s : Sys) : Prop where
  argv : s.world.fs.HasParent s.world.cwd s.prog.argv.dstName
  queue : ∀ node ∈ s.prog.queue, s.world.fs.HasParent s.world.cwd node.dstName
  current : s.prog.pc.inDir = true → ∀ curr ∈ s.prog.queue.head?,
    ∃ l, s.world.fs.DirAt s.world.cwd curr.dstName l
  requests : ∀ r q, s.prog.aio.reqs.last? r = some q →
    s.world.fs.HasParent s.world.cwd q.dstName

namespace World

variable {w w' : World} {p : Prog} {l : Label} {path : Path}

lemma Permits.hasParent (h : Permits w p l w') (hp : w.fs.HasParent w.cwd path) :
    w'.fs.HasParent w'.cwd path := by
  rw [h.cwd]
  exact hp.mono h.le

lemma Permits.dirAt (h : Permits w p l w') {loc : Loc} (hd : w.fs.DirAt w.cwd path loc) :
    w'.fs.DirAt w'.cwd path loc := by
  rw [h.cwd]
  exact hd.mono h.le

/-- A name that `readdir` returns, other than `.` and `..`, is legal. -/
lemma Lists.legal {name : Name} {dtype : DType} (h : w.Lists name dtype)
    (hname : ¬ (name = dot ∨ name = dotdot)) : LegalName name := by
  rw [not_or] at hname
  obtain ⟨-, e, he, -⟩ := (h.resolve_left hname.1).resolve_left hname.2
  exact w.fs.legal name w.dir.loc (by rw [Option.mem_def.mp he]; rfl)

end World

namespace Parented

variable {s s' : Sys} {l : Label} {fs : Fs} {cwd : Loc} {srcName dstName : CStr} {batchSize : ℤ}

/-- The queue after a step: a new node is an entry of the first one, or the argument. -/
lemma queue_step (hs : Parented s) (hfires : Prog.Fires s.prog l s'.prog)
    (hperm : World.Permits s.world s.prog l s'.world) :
    ∀ node ∈ s'.prog.queue, s'.world.fs.HasParent s'.world.cwd node.dstName := by
  obtain ⟨p', w'⟩ := s'
  dsimp only at hfires hperm ⊢
  have hold : ∀ node ∈ s.prog.queue, w'.fs.HasParent w'.cwd node.dstName := fun node hnode =>
    hperm.hasParent (hs.queue node hnode)
  cases hfires with
  | startThread =>
    intro node hnode
    obtain rfl := List.mem_singleton.mp hnode
    exact hperm.hasParent hs.argv
  | statOther curr rest _ _ hqueue =>
    exact fun node hnode => hold node (by rw [hqueue]; exact List.mem_cons_of_mem _ hnode)
  | closedir | addUnlock => exact fun node hnode => hold node (List.mem_of_mem_tail hnode)
  | readdirEnqueue curr rest name dtype hpc hqueue hname =>
    intro node hnode
    rcases List.mem_cons.mp hnode with rfl | hnode
    · exact hold _ (by rw [hqueue]; exact List.mem_cons_self)
    rcases List.mem_append.mp hnode with hnode | hnode
    · exact hold node (by rw [hqueue]; exact List.mem_cons_of_mem _ hnode)
    · obtain rfl := List.mem_singleton.mp hnode
      obtain ⟨loc, hdir⟩ := hs.current (by rw [hpc]; rfl) curr (by rw [hqueue]; rfl)
      cases hperm with
      | entry _ _ hlists => exact hdir.hasParent_join (hlists.legal hname)
      | other _ _ _ _ hentry => exact absurd rfl (hentry _ _)
  | _ => exact hold

lemma current_step (hs : Parented s) (hfires : Prog.Fires s.prog l s'.prog)
    (hperm : World.Permits s.world s.prog l s'.world) (hpc' : s'.prog.pc.inDir = true) :
    ∀ curr ∈ s'.prog.queue.head?, ∃ loc, s'.world.fs.DirAt s'.world.cwd curr.dstName loc := by
  obtain ⟨p', w'⟩ := s'
  dsimp only at hfires hperm hpc' ⊢
  have hold : s.prog.pc.inDir = true → ∀ curr ∈ s.prog.queue.head?,
      ∃ loc, w'.fs.DirAt w'.cwd curr.dstName loc := fun hpc curr hcurr =>
    (hs.current hpc curr hcurr).imp fun _ hdir => hperm.dirAt hdir
  cases hfires with
  | aio | fail => exact hold hpc'
  | mkdir hpc =>
    intro curr hcurr
    cases hperm with
    | mkdir curr' rest fs' hqueue hmkdir =>
      rw [hqueue] at hcurr
      obtain rfl : curr' = curr := Option.some.inj hcurr
      obtain ⟨loc, n, -, -, -, -, hdir⟩ := Fs.mkdir_ok hmkdir
      exact ⟨n :: loc, hdir⟩
    | other _ _ hmkdir => exact absurd rfl hmkdir
  | opendir hpc | readdirEnd hpc => exact hold (by rw [hpc]; rfl)
  | readdirSkip | readdirExit => exact hold hpc'
  | readdirEnqueue curr rest name dtype hpc hqueue =>
    exact fun node hnode => hold (by rw [hpc]; rfl) node (by rw [hqueue]; exact hnode)
  | statOther _ _ _ hpc | destroy hpc => simp [hpc, MainPc.inDir] at hpc'
  | _ => simp [MainPc.inDir, Prog.next] at hpc'

lemma requests_step (hs : Parented s) (hgood : Good s.prog.aio)
    (hended : s.prog.aio.ended = none) (hfires : Prog.Fires s.prog l s'.prog)
    (hperm : World.Permits s.world s.prog l s'.world) {r : ReqId} {q' : CopyRequest}
    (hq' : s'.prog.aio.reqs.last? r = some q') :
    s'.world.fs.HasParent s'.world.cwd q'.dstName := by
  refine hperm.hasParent ?_
  cases Prog.descends_of_fires hgood hended hfires hq' with
  | fresh curr rest _ _ hqueue _ _ hdst =>
    rw [hdst]
    exact hs.queue curr (by rw [hqueue]; exact List.mem_cons_self)
  | old q hq names =>
    rw [names.dstName]
    exact hs.requests r q hq
  | opened q fd hq names =>
    rw [names.dstName]
    exact hs.requests r q (Heap.last?_of_get? hq)

theorem of_reaches (hdst : fs.HasParent cwd dstName)
    (h : Reaches Sys.step anyLabel (Sys.init fs cwd srcName dstName batchSize) s) :
    Parented s := by
  refine h.invariant_of (J := fun s => Good s.prog.aio)
    (fun _ hr => Prog.good_of_reaches (Sys.prog_reaches_any hr))
    (fun {s l s'} hgood _ hs _ hstep => ?_) ?_
  · obtain ⟨hended, hfires, hperm⟩ := Sys.fires_of_step hstep
    refine ⟨?_, hs.queue_step hfires hperm, hs.current_step hfires hperm, fun r q' hq' =>
      hs.requests_step hgood hended hfires hperm hq'⟩
    rw [Prog.argv_of_fires hfires]
    exact hperm.hasParent hs.argv
  · refine ⟨hdst, by simp [Sys.init, Prog.init], by simp [Sys.init, Prog.init], fun r q hq => ?_⟩
    rw [Sys.init, Prog.init, AioState.init, Heap.last?_eq_none_of_le (Nat.zero_le r)] at hq
    cases hq

end Parented

section

variable {s : Sys} {fs : Fs} {cwd : Loc} {srcName dstName : CStr} {batchSize : ℤ}

/-- **Parents exist before children are opened**, for every source, kernel and schedule. -/
theorem parentsExist_of_reaches (hdst : fs.HasParent cwd dstName)
    (h : Reaches Sys.step anyLabel (Sys.init fs cwd srcName dstName batchSize) s) :
    ParentsExist s := by
  have hs := Parented.of_reaches hdst h
  obtain ⟨xs, ys, b, hinv, -⟩ := Prog.good_of_reaches (Sys.prog_reaches_any h)
  have hrec : ∀ {r q}, s.prog.aio.reqs.get? r = some q →
      ∃ q, s.prog.aio.reqs.get? r = some q ∧ s.world.fs.HasParent s.world.cwd q.dstName :=
    fun {r q} hq => ⟨q, hq, hs.requests r q (Heap.last?_of_get? hq)⟩
  have hflight : ∀ {o r}, r ∈ s.prog.aio.inFlight o → ∃ q, s.prog.aio.reqs.get? r = some q := by
    intro o r hr
    obtain ⟨c, hc, -, rfl⟩ := mem_reqsOf.mp hr
    obtain ⟨q, hq, -⟩ := hinv.refRec c
      (List.mem_append_left _ (List.mem_append_right _ hc))
    exact ⟨q, hq⟩
  refine ⟨hs.queue, ?_, fun curr rest _ hqueue e he => ?_, fun r q _ hq e he => ?_⟩
  · rintro r (hr | hr | hr | hr)
    · obtain ⟨q, hq, -⟩ := hinv.queuedRec r (hinv.inReadList.mp hr)
      exact hrec hq
    · obtain ⟨q, hq⟩ := hflight hr
      exact hrec hq
    · obtain ⟨q, hq, -⟩ := hinv.toWriteRec r (hinv.inWriteList.mp hr)
      exact hrec hq
    · obtain ⟨q, hq⟩ := hflight hr
      exact hrec hq
  · exact (hs.queue curr (by rw [hqueue]; exact List.mem_cons_self)).mkdir_error he
  · exact (hs.requests r q (Heap.last?_of_get? hq)).openCreate_error he

end

lemma legalName_f : LegalName ['f'] := by decide

/-- A file system with one empty directory `s`. -/
def emptyDir : Fs := Fs.empty.create [] ['s'] .dir Fs.empty.root rfl (by decide)

lemma entry_emptyDir : emptyDir.entry [['s']] = some .dir := rfl

/-- A file system with one directory `s`, and in it one file `f` of three bytes. -/
def oneFile : Fs := emptyDir.create [['s']] ['f'] (.reg [1, 2, 3]) entry_emptyDir rfl legalName_f

/-- The walk over `oneFile`, from the start of `main` to the end of `copy_internal`. -/
def oneFileWalk : List Label :=
  [.initManager true, .startThread true, .stat (some .dir), .mkdir true, .opendir true,
    .readdir (.entry ['.'] .dir), .readdir (.entry ['f'] .reg), .readdir .finished, .closedir true,
    .stat (some .reg), .bumpReqCount, .copyReg, .addLock true, .addLink, .addUnlock true, .walkEnd]

/-- A run in which the read of a file in a directory is in flight. -/
theorem parentsExist_of_reaches_reading : ∃ s : Sys,
    Reaches Sys.step anyLabel (Sys.init oneFile [] ['s'] ['d'] 1) s ∧
      s.prog.aio.inFlight .pread = [0] ∧ ParentsExist s := by
  have hrun : (exec Sys.step (Sys.init oneFile [] ['s'] ['d'] 1) (oneFileWalk ++
      [.aio .lockFlush, .aio (.getEvents []), .aio .checkDone, .aio .lockRequest,
        .aio .readSize, .aio (.readOne ⟨3, some 3, 4096⟩), .aio (.readSubmit 1)])).map
      (fun s => s.prog.aio.inFlight .pread) = some [0] := by
    decide +kernel
  obtain ⟨s, hs, hflight⟩ := Option.map_eq_some_iff.mp hrun
  have hreach : Reaches Sys.step anyLabel _ s := reaches_of_exec (fun _ _ => trivial) hs
  have hdst : oneFile.HasParent [] ['d'] := ⟨by decide, [], by decide +kernel, rfl⟩
  exact ⟨s, hreach, hflight, parentsExist_of_reaches hdst hreach⟩

end Cpr
