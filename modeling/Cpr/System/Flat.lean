/-
# Directories with many files

The run over a directory of `n` regular files in which `aio_loop` does not move before the
main thread has set `flush`.  All requests are then in the read list, and every counter
that `main` increments holds the representative of `n` as a 32-bit `int`.
-/
import Cpr.System.Steps

namespace Cpr

open Transition Unix

/-! ## The directory -/

/-- The name of the `i`-th file: `i` in decimal notation. -/
def fileName (i : ℕ) : Name := Nat.toDigits 10 i

lemma fileName_injective : Function.Injective fileName := fun i j h => by
  simpa [fileName] using congrArg (Nat.ofDigitChars 10 · 0) h

lemma legal_fileName (i : ℕ) : LegalName (fileName i) := by
  have hdigit : ∀ c ∈ fileName i, c.isDigit = true := fun c hc =>
    Nat.isDigit_of_mem_toDigits (by decide) (by decide) hc
  refine ⟨Nat.toDigits_ne_nil, fun h => ?_, fun h => ?_, fun h => ?_⟩
  · exact absurd (hdigit '/' h) (by decide)
  · exact absurd (hdigit '.' (by rw [h]; decide)) (by decide)
  · exact absurd (hdigit '.' (by rw [h]; decide)) (by decide)

/-- The entries of `flat`. -/
def flatEntry (n : ℕ) (l : Loc) : Option Entry :=
  if l = [] ∨ l = [['s']] then some .dir
  else if l ∈ (Finset.range n).image (fun i => [fileName i, ['s']]) then some (.reg [1])
  else none

section

variable {n i : ℕ} {l : Loc}

lemma flatEntry_file (hi : i < n) : flatEntry n [fileName i, ['s']] = some (.reg [1]) := by
  rw [flatEntry, if_neg (by simp), if_pos]
  exact Finset.mem_image.mpr ⟨i, Finset.mem_range.mpr hi, rfl⟩

/-- Everything is the root, the directory or one of the files. -/
lemma flatEntry_isSome : (flatEntry n l).isSome ↔
    l = [] ∨ l = [['s']] ∨ ∃ i < n, l = [fileName i, ['s']] := by
  constructor
  · intro h
    unfold flatEntry at h
    by_cases hdir : l = [] ∨ l = [['s']]
    · tauto
    rw [if_neg hdir] at h
    by_cases hfile : l ∈ (Finset.range n).image fun i => [fileName i, ['s']]
    · obtain ⟨i, hi, rfl⟩ := Finset.mem_image.mp hfile
      exact Or.inr (Or.inr ⟨i, Finset.mem_range.mp hi, rfl⟩)
    · rw [if_neg hfile] at h
      cases h
  · rintro (rfl | rfl | ⟨i, hi, rfl⟩)
    · rfl
    · rfl
    · rw [flatEntry_file hi]
      rfl

lemma flatEntry_eq_some {e : Entry} (h : flatEntry n l = some e) : e = .dir ∨ e = .reg [1] := by
  unfold flatEntry at h
  split_ifs at h
  · exact Or.inl (Option.some.inj h).symm
  · exact Or.inr (Option.some.inj h).symm

end

/-- A file system with the directory `s`, and in it `n` regular files of one byte. -/
def flat (n : ℕ) : Fs where
  dom := insert [] (insert [['s']] ((Finset.range n).image fun i => [fileName i, ['s']]))
  entry := flatEntry n
  mem_dom l := by
    simp only [Finset.mem_insert, Finset.mem_image, Finset.mem_range, flatEntry_isSome,
      @eq_comm _ l]
  root := rfl
  parent m l h := by
    obtain h | h | ⟨i, -, h⟩ := flatEntry_isSome.mp h
    · cases h
    · obtain ⟨-, rfl⟩ := List.cons.inj h
      rfl
    · obtain ⟨-, rfl⟩ := List.cons.inj h
      rfl
  legal m l h := by
    obtain h | h | ⟨i, -, h⟩ := flatEntry_isSome.mp h
    · cases h
    · obtain ⟨rfl, -⟩ := List.cons.inj h
      decide
    · obtain ⟨rfl, -⟩ := List.cons.inj h
      exact legal_fileName i

namespace flat

lemma legalName_d : LegalName ['d'] := by decide

variable (n : ℕ)

lemma target_new : (flat n).entry [['d']] = none := by
  change flatEntry n [['d']] = none
  rw [← Option.not_isSome_iff_eq_none]
  intro h
  obtain h | h | ⟨i, -, h⟩ := flatEntry_isSome.mp h
  · cases h
  · exact absurd h (by decide)
  · simp at h

lemma src_dirAt : (flat n).DirAt [] ['s'] [['s']] :=
  ⟨Fs.resolve_of_resolves (by decide) (.down_one rfl (by decide) rfl (by simp)), rfl⟩

lemma dst_missing : (flat n).resolveLast [] ['d'] = .missing [] ['d'] := by
  rw [Fs.resolveLast, if_neg (by decide)]
  exact Fs.resolveFrom_of_resolves (.missing_one rfl (by decide) (target_new n))

/-- The file system once the directory of the destination is there. -/
def withTarget : Fs := (flat n).create [] ['d'] .dir (flat n).root (target_new n) legalName_d

lemma mkdir_eq : (flat n).mkdir [] ['d'] = .ok (withTarget n) := by
  rw [Fs.mkdir, dst_missing]
  exact Fs.createAt_of (flat n).root (target_new n) legalName_d

lemma dirAt_withTarget : (withTarget n).DirAt [] ['s'] [['s']] :=
  (src_dirAt n).mono Fs.Le.create

lemma dst_dirAt : (withTarget n).DirAt [] ['d'] [['d']] :=
  .of_missing (dst_missing n) Fs.Le.create Fs.entry_create_self

lemma file_withTarget {n i : ℕ} (hi : i < n) :
    (withTarget n).entry [fileName i, ['s']] = some (.reg [1]) := by
  rw [withTarget, Fs.entry_create_of_ne (by simp)]
  exact flatEntry_file hi

lemma no_file_withTarget (i : ℕ) : (withTarget n).entry [fileName i, ['d']] = none := by
  rw [withTarget, Fs.entry_create_of_ne (by simp)]
  change flatEntry n _ = none
  rw [← Option.not_isSome_iff_eq_none, flatEntry_isSome]
  simp

lemma exists_fileName {n : ℕ} {m : Name} (hm : m ∈ (withTarget n).names [['s']]) :
    ∃ i < n, fileName i = m := by
  rw [Fs.mem_names, withTarget, Fs.entry_create_of_ne (by simp)] at hm
  obtain h | h | ⟨i, hi, h⟩ := flatEntry_isSome.mp hm
  · cases h
  · simp at h
  · exact ⟨i, hi, (List.cons.inj h).1.symm⟩

/-- The nodes of the files. -/
def nodes : List Node := (List.range n).map fun i => Prog.child ⟨['s'], ['d']⟩ (fileName i)

lemma stat_node {n : ℕ} {curr : Node} (h : curr ∈ nodes n) :
    (withTarget n).stat [] curr.srcName = some .reg := by
  obtain ⟨i, hi, rfl⟩ := List.mem_map.mp h
  exact (dirAt_withTarget n).stat_join (file_withTarget (List.mem_range.mp hi)) (by simp)

lemma openRead_node {n : ℕ} {curr : Node} (h : curr ∈ nodes n) :
    ∃ l, (withTarget n).openRead [] curr.srcName = some l ∧ (withTarget n).content l = [1] := by
  obtain ⟨i, hi, rfl⟩ := List.mem_map.mp h
  have he := file_withTarget (List.mem_range.mp hi)
  refine ⟨[fileName i, ['s']], ?_, by rw [Fs.content, he]⟩
  refine Option.filter_eq_some_iff.mpr ⟨?_, by rw [he]; rfl⟩
  exact Fs.fileAt_eq_some.mpr ((dirAt_withTarget n).resolve_join_some he (by simp))

end flat

/-! ## The run of the main thread -/

/-- Every system call succeeds, and `readdir` keeps to the given order. -/
def Sys.Orderly (order : Loc → List Name) (s : Sys) (l : Label) : Prop :=
  s.Faultless l ∧ s.ListsIn order l

instance (order : Loc → List Name) (s : Sys) (l : Label) : Decidable (s.Orderly order l) :=
  inferInstanceAs (Decidable (_ ∧ _))

lemma Sys.Orderly.faultless {order : Loc → List Name} (s : Sys) (l : Label)
    (h : s.Orderly order l) : s.Faultless l := h.1

/-- The requests of `k` files, all in the read list: `aio_loop` is still at its top, and has
done nothing. -/
structure Backlog (a : AioState) (k : ℕ) : Prop where
  reqCount : a.reqCount = toInt32 k
  readLen : a.mgr.readLen = toInt32 k
  writeLen : a.mgr.writeLen = 0
  finishedCount : a.mgr.finishedCount = 0
  accepted : a.log.accepted.length = k
  finished : a.log.finished = []
  flight : a.flight = []
  requestMutex : a.mgr.requestMutex = none
  flushMutex : a.mgr.flushMutex = none
  pc : a.pc = .lockFlush
  ended : a.ended = none

namespace AioState

/-- `req_count += 1`, `copy_reg` and `add_copy_req`, without the other thread. -/
def receive (a : AioState) (curr : Node) : AioState :=
  let a' := a.bumpReqCount.newRequest curr.srcName curr.dstName
  ({ a' with
    mgr := { a'.mgr with requestMutex := some .main } }.addCopyReq a.reqs.next).unlockRequest

/-- `receive`, with the steps of `add_copy_req` written out. -/
lemma receive_eq (a : AioState) (curr : Node) : a.receive curr =
    { a with
      reqCount := toInt32 (a.reqCount + 1)
      mgr := { a.mgr with
        requestCount := toInt32 (a.mgr.requestCount + 1)
        readLen := toInt32 (a.mgr.readLen + 1)
        readHead := some a.reqs.next
        requestMutex := none }
      reqs := (a.reqs.alloc ⟨curr.srcName, curr.dstName, -1, -1, 0, 0, none, 0⟩).set a.reqs.next
        ⟨curr.srcName, curr.dstName, -1, -1, 0, 0, a.mgr.readHead, 0⟩
      mainReq := none
      log := .accepted a.reqs.next :: a.log } := by
  simp [receive, bumpReqCount, newRequest, addCopyReq, linkIn, unlockRequest]

end AioState

namespace Backlog

variable {a : AioState} {k : ℕ}

lemma receive (h : Backlog a k) (curr : Node) : Backlog (a.receive curr) (k + 1) := by
  rw [AioState.receive_eq]
  refine ⟨?_, ?_, h.writeLen, h.finishedCount, ?_, h.finished, h.flight, rfl, h.flushMutex, h.pc,
    h.ended⟩
  · dsimp only
    rw [h.reqCount, toInt32_add_toInt32]
    norm_num
  · dsimp only
    rw [h.readLen, toInt32_add_toInt32]
    norm_num
  · simp [h.accepted]

end Backlog

namespace Sys

variable {s : Sys} {p : Prog} {w : World} {l : Label}

lemma step_of (hp : s.prog.step l = some p) (hw : s.world.after s.prog l = some w) :
    s.step l = some ⟨p, w⟩ := by
  simp [step, hp, hw]

variable (order : Loc → List Name)

/-- The main thread reads the names of a directory, one after the other. -/
lemma reaches_readdir {curr : Node} {rest : List Node} (names : List Name)
    (hpc : s.prog.pc = .readdir)
    (hqueue : s.prog.queue = curr :: rest) (hended : s.prog.aio.ended = none)
    (hnd : (names ++ s.world.dir.seen).Nodup) (hlegal : ∀ n ∈ names, LegalName n)
    (hreg : ∀ n ∈ names, ∃ bytes, s.world.fs.entry (n :: s.world.dir.loc) = some (.reg bytes))
    (horder : s.world.dir.seen.reverse ++ names <+: order s.world.dir.loc) :
    Reaches Sys.step (Orderly order) s
      ⟨{ s.prog with queue := curr :: (rest ++ names.map (Prog.child curr)) },
        { s.world with
          dir := { s.world.dir with seen := names.reverse ++ s.world.dir.seen } }⟩ := by
  induction names generalizing s rest with
  | nil =>
    have hs : s = ⟨{ s.prog with queue := curr :: (rest ++ [].map (Prog.child curr)) },
        { s.world with dir := { s.world.dir with seen := [].reverse ++ s.world.dir.seen } }⟩ := by
      simp [← hqueue]
    exact hs ▸ Reaches.refl
  | cons n names ih =>
    have hn := hlegal n List.mem_cons_self
    obtain ⟨bytes, hbytes⟩ := hreg n List.mem_cons_self
    have hseen : n ∉ s.world.dir.seen := fun hmem =>
      (List.nodup_cons.mp hnd).1 (List.mem_append_right _ hmem)
    have hlists : s.world.Lists n .reg := Or.inr (Or.inr ⟨hseen, _, hbytes, Or.inr rfl⟩)
    have hstep : s.step (.readdir (.entry n .reg)) = some
        ⟨{ s.prog with queue := curr :: (rest ++ [Prog.child curr n]) },
          { s.world with dir := { s.world.dir with seen := n :: s.world.dir.seen } }⟩ := by
      refine step_of ?_ ?_
      · simp [Prog.step, Prog.mainStep, Prog.readdirStep, hended, hqueue, hpc, hn.ne_dot,
          hn.ne_dotdot]
      · rw [World.after, if_pos hlists]
    have hlist : s.ListsIn order (.readdir (.entry n .reg)) :=
      List.IsPrefix.trans ⟨names, by simp⟩ horder
    refine (Reaches.single ⟨by simp [Faultless, Label.Fails], hlist⟩ hstep).trans ?_
    have hrest := ih (s := ⟨{ s.prog with queue := curr :: (rest ++ [Prog.child curr n]) },
      { s.world with dir := { s.world.dir with seen := n :: s.world.dir.seen } }⟩) hpc rfl hended
      ((List.perm_middle).nodup_iff.mpr hnd) (fun m hm => hlegal m (List.mem_cons_of_mem _ hm))
      (fun m hm => hreg m (List.mem_cons_of_mem _ hm)) (by simpa using horder)
    simpa using hrest

/-- The steps of the main thread for one regular file. -/
lemma reaches_file {curr : Node} {rest : List Node} (hpc : s.prog.pc = .walk)
    (hqueue : s.prog.queue = curr :: rest) (hended : s.prog.aio.ended = none)
    (hfree : s.prog.aio.mgr.requestMutex = none)
    (hstat : s.world.fs.stat s.world.cwd curr.srcName = some .reg) :
    Reaches Sys.step (Orderly order) s
      ⟨{ s.prog with aio := s.prog.aio.receive curr, queue := rest }, s.world⟩ := by
  have hrun : execOk Sys.step (Orderly order) s [.stat (some .reg), .bumpReqCount, .copyReg,
      .addLock true, .addLink, .addUnlock true] = some
      ⟨{ s.prog with aio := s.prog.aio.receive curr, queue := rest }, s.world⟩ := by
    rw [AioState.receive_eq]
    simp [execOk, Orderly, ListsIn, Faultless, Label.Fails, Sys.step, Prog.step, Prog.mainStep,
      Prog.branch, Prog.proceed, Prog.next, World.after, hpc, hqueue, hended, hstat, hfree,
      AioState.bumpReqCount, AioState.newRequest, AioState.lockRequest, AioState.addCopyReq,
      AioState.linkIn, AioState.unlockRequest]
  exact reaches_of_execOk hrun

/-- The main thread makes a request for every file of its queue; `P k` is what holds of the
manager after `k` requests. -/
lemma reaches_files {P : ℕ → AioState → Prop} {k : ℕ}
    (hended : ∀ {j a}, P j a → a.ended = none) (hfree : ∀ {j a}, P j a → a.mgr.requestMutex = none)
    (hreceive : ∀ {j a} (curr : Node), P j a → P (j + 1) (a.receive curr))
    (hpc : s.prog.pc = .walk) (hP : P k s.prog.aio)
    (hstat : ∀ curr ∈ s.prog.queue, s.world.fs.stat s.world.cwd curr.srcName = some .reg) :
    ∃ a, Reaches Sys.step (Orderly order) s ⟨{ s.prog with aio := a, queue := [] }, s.world⟩ ∧
      P (k + s.prog.queue.length) a := by
  generalize hqueue : s.prog.queue = nodes at hstat ⊢
  induction nodes generalizing s k with
  | nil =>
    refine ⟨s.prog.aio, ?_, hP⟩
    rw [← hqueue]
    exact Reaches.refl
  | cons curr rest ih =>
    have hone := reaches_file order hpc hqueue (hended hP) (hfree hP)
      (hstat curr List.mem_cons_self)
    obtain ⟨a, ha, hk⟩ := ih (s := ⟨{ s.prog with aio := s.prog.aio.receive curr, queue := rest },
      s.world⟩) hpc (hreceive curr hP) rfl fun c hc => hstat c (List.mem_cons_of_mem _ hc)
    refine ⟨a, hone.trans ha, ?_⟩
    rwa [List.length_cons, ← Nat.add_assoc, Nat.add_right_comm]

end Sys

namespace flat

/-- The files of the directory in the order of their numbers. -/
def order (n : ℕ) (l : Loc) : List Name := if l = [['s']] then (List.range n).map fileName else []

/-- The walk when it has opened the directory. -/
def opened (n : ℕ) (batchSize : ℤ) : Sys where
  prog := ⟨{ AioState.init batchSize batchSize with pc := .lockFlush }, .readdir,
    [⟨['s'], ['d']⟩], ⟨['s'], ['d']⟩⟩
  world := ⟨withTarget n, [], ⟨[['s']], (withTarget n).names [['s']], []⟩, fun _ => none,
    fun _ => 0⟩

lemma reaches_opened (n : ℕ) (batchSize : ℤ) :
    Reaches Sys.step (Sys.Orderly (order n)) (Sys.init (flat n) [] ['s'] ['d'] batchSize)
      (opened n batchSize) := by
  have hstat : (flat n).stat [] ['s'] = some .dir := Fs.stat_of_resolve (src_dirAt n).1
  have hfile : (withTarget n).fileAt [] ['s'] = some [['s']] :=
    Fs.fileAt_eq_some.mpr (dirAt_withTarget n).1
  have hrun : execOk Sys.step (Sys.Orderly (order n)) (Sys.init (flat n) [] ['s'] ['d'] batchSize)
      [.initManager true, .startThread true, .stat (some .dir), .mkdir true, .opendir true] =
        some (opened n batchSize) := by
    simp [execOk, Sys.Orderly, Sys.ListsIn, Sys.Faultless, Label.Fails, Sys.init, Sys.step,
      Prog.init, Prog.step, Prog.mainStep, Prog.branch, Prog.proceed, World.after, AioState.init,
      hstat, mkdir_eq,
      hfile, (dirAt_withTarget n).2, opened]
  exact reaches_of_execOk hrun

/-- The walk when it has read the directory. -/
def listed (n : ℕ) (batchSize : ℤ) : Sys where
  prog := { (opened n batchSize).prog with pc := .walk, queue := nodes n }
  world := { (opened n batchSize).world with
    dir := { (opened n batchSize).world.dir with seen := ((List.range n).map fileName).reverse } }

lemma reaches_listed (n : ℕ) (batchSize : ℤ) :
    Reaches Sys.step (Sys.Orderly (order n)) (Sys.init (flat n) [] ['s'] ['d'] batchSize)
      (listed n batchSize) := by
  have hread := Sys.reaches_readdir (s := opened n batchSize) (order n)
    ((List.range n).map fileName) rfl rfl rfl
    (by simpa [opened] using List.nodup_range.map fileName_injective)
    (fun m hm => by
      obtain ⟨i, -, rfl⟩ := List.mem_map.mp hm
      exact legal_fileName i)
    (fun m hm => by
      obtain ⟨i, hi, rfl⟩ := List.mem_map.mp hm
      exact ⟨_, file_withTarget (List.mem_range.mp hi)⟩)
    (by simp [opened, order])
  have hdue : ∀ m ∈ (withTarget n).names [['s']], ∃ i < n, fileName i = m :=
    fun m hm => exists_fileName hm
  generalize hs : (Sys.mk _ _ : Sys) = s at hread
  have hend : execOk Sys.step (Sys.Orderly (order n)) s [.readdir .finished, .closedir true] =
      some (listed n batchSize) := by
    subst hs
    simp [execOk, Sys.Orderly, Sys.ListsIn, Sys.Faultless, Label.Fails, Sys.step, Prog.step,
      Prog.mainStep, Prog.readdirStep, Prog.proceed, Prog.next, World.after, AioState.init, opened,
      listed, nodes, order,
      if_pos hdue]
  exact ((reaches_opened n batchSize).trans hread).trans (reaches_of_execOk hend)

/-- All requests are made, and `flush` is set. -/
structure Flushed (n : ℕ) (s : Sys) : Prop where
  backlog : Backlog s.prog.aio n
  flush : s.prog.aio.mgr.flush = true
  pc : s.prog.pc = .join
  fs : s.world.fs = withTarget n

lemma reaches_flushed (n : ℕ) (batchSize : ℤ) : ∃ s,
    Reaches Sys.step (Sys.Orderly (order n)) (Sys.init (flat n) [] ['s'] ['d'] batchSize) s ∧
      Flushed n s := by
  have hstart : Backlog (listed n batchSize).prog.aio 0 := by
    constructor <;> rfl
  obtain ⟨a, ha, hlog⟩ := Sys.reaches_files (P := fun k a => Backlog a k) (order n) Backlog.ended
    Backlog.requestMutex (fun curr h => h.receive curr) rfl hstart fun curr hcurr => stat_node hcurr
  have hlen : (listed n batchSize).prog.queue.length = n := by
    simp [listed, nodes]
  rw [hlen, Nat.zero_add] at hlog
  have hwait : execOk Sys.step (Sys.Orderly (order n))
      ⟨{ (listed n batchSize).prog with aio := a, queue := [] }, (listed n batchSize).world⟩
      [.walkEnd, .waitLock true, .waitSet, .waitUnlock true] = some
      ⟨{ (listed n batchSize).prog with
          aio := { a with mgr := { a.mgr with flush := true } }, pc := .join, queue := [] },
        (listed n batchSize).world⟩ := by
    simp [execOk, Sys.Orderly, Sys.ListsIn, Sys.Faultless, Label.Fails, Sys.step, Prog.step,
      Prog.mainStep, Prog.proceed,
      World.after, AioState.lockFlush, AioState.unlockFlush, AioState.setFlush, listed, hlog.ended,
      ← hlog.flushMutex]
  refine ⟨_, ((reaches_listed n batchSize).trans ha).trans (reaches_of_execOk hwait), ?_, rfl, rfl,
    rfl⟩
  exact ⟨hlog.reqCount, hlog.readLen, hlog.writeLen, hlog.finishedCount, hlog.accepted,
    hlog.finished, hlog.flight, hlog.requestMutex, hlog.flushMutex, hlog.pc, hlog.ended⟩

/-- When the number of files is a multiple of `2 ^ 32`, the stop test succeeds at once. -/
lemma reaches_exit {n : ℕ} (hn : toInt32 n = 0) (batchSize : ℤ) : ∃ s,
    Reaches Sys.step Sys.Faultless (Sys.init (flat n) [] ['s'] ['d'] batchSize) s ∧
      s.prog.aio.ended = some (.exited 0) ∧ s.prog.aio.log.accepted.length = n ∧
      s.prog.aio.log.finished = [] ∧ s.world.fs = withTarget n := by
  obtain ⟨s, hs, h⟩ := reaches_flushed n batchSize
  have hstop : execOk Sys.step Sys.Faultless s [.aio .lockFlush, .aio (.getEvents []),
      .aio .checkDone, .aio .unlockBreak, .join true, .destroy true] = some
      ⟨{ s.prog with
          aio := { s.prog.aio with
            mgr := { s.prog.aio.mgr with flushMutex := none }
            pc := .returned
            ended := some (.exited 0) }
          pc := .destroy },
        s.world⟩ := by
    simp [execOk, Sys.Faultless, Label.Fails, AioState.Faultless, Sys.step, Prog.step,
      Prog.mainStep,
      Prog.proceed, Prog.aioStep, AioState.loopStep, AioState.lockFlush, AioState.unlockFlush,
      AioState.getEvents, AioState.checkDone, AioState.stopTest, AioState.exit, World.after,
      World.afterAio, h.pc, h.flush, h.backlog.ended, h.backlog.pc, h.backlog.flight,
      h.backlog.reqCount, h.backlog.finishedCount, h.backlog.flushMutex, hn]
  exact ⟨_, (hs.weaken Sys.Orderly.faultless).trans (reaches_of_execOk hstop), rfl,
    h.backlog.accepted, h.backlog.finished, h.fs⟩

end flat

end Cpr
