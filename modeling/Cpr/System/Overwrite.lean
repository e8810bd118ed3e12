/-
# A destination that is there already

The source is one regular file, and at the destination there may be a regular file too.  It is
opened without `O_TRUNC`, and written from its start: what lies behind the end of the new
content stays.
-/
import Cpr.System.Data
import Cpr.System.Depth
import Cpr.System.Skipped

namespace Cpr

open Transition Unix

/-- The copy of a regular file to a path at which there is nothing, or a regular file. -/
structure FileTask where
  fs : Fs
  cwd : Loc
  srcName : CStr
  dstName : CStr
  source : Loc
  bytes : List UInt8
  src : fs.resolve true cwd srcName = .here source
  regular : fs.entry source = some (.reg bytes)
  small : bytes.length < 2 ^ 31
  target : Loc
  /-- What is in the file at the destination. -/
  old : Option (List UInt8)
  dst : match old with
    | none => ∃ l n, target = n :: l ∧ fs.resolve true cwd dstName = .missing l n
    | some content => fs.resolve true cwd dstName = .here target ∧
        fs.entry target = some (.reg content)

namespace FileTask

variable (t : FileTask)

/-- The content of the destination before the write. -/
def oldBytes : List UInt8 := t.old.getD []

/-- The content of the destination after the write. -/
def newBytes : List UInt8 := World.overwrite t.oldBytes 0 t.bytes

/-- The state when `main` starts. -/
def init (batchSize : ℤ) : Sys := .init t.fs t.cwd t.srcName t.dstName batchSize

/-- The file that an operation transfers. -/
def fileOf : Opcode → Loc
  | .pread => t.source
  | .pwrite => t.target

variable {t} {s s' : Sys} {l : Label} {r : ReqId} {q q' : CopyRequest} {batchSize : ℤ}

lemma newBytes_eq : t.newBytes = t.bytes ++ t.oldBytes.drop t.bytes.length := by
  simp [newBytes, World.overwrite]

lemma newBytes_eq_bytes : t.newBytes = t.bytes ↔ t.oldBytes.length ≤ t.bytes.length := by
  rw [newBytes_eq, List.append_right_eq_self, List.drop_eq_nil_iff]

/-- A second write would not change anything. -/
lemma overwrite_newBytes : World.overwrite t.newBytes 0 t.bytes = t.newBytes := by
  simp [newBytes_eq, World.overwrite]

/-- A file that is copied to itself stays as it is. -/
lemma newBytes_of_eq (h : t.source = t.target) : t.newBytes = t.bytes := by
  rw [newBytes_eq_bytes, oldBytes]
  have hdst := t.dst
  cases hold : t.old with
  | none => exact Nat.zero_le _
  | some content =>
    rw [hold] at hdst
    have hreg := hdst.2
    rw [← h, t.regular] at hreg
    obtain rfl := Entry.reg.inj (Option.some.inj hreg)
    exact le_rfl

/-- What `open` in the write phase does. -/
lemma openCreate_eq {loc : Loc} {fs' : Fs} (h : t.fs.openCreate t.cwd t.dstName = .ok (loc, fs')) :
    loc = t.target ∧ fs'.entry t.target = some (.reg t.oldBytes) ∧
      fs'.entry t.source = some (.reg t.bytes) := by
  have hdst := t.dst
  unfold Fs.openCreate at h
  split_ifs at h with hslash
  · split at h <;> simp at h
  · cases hold : t.old with
    | none =>
      rw [hold] at hdst
      obtain ⟨k, n, htarget, hmissing⟩ := hdst
      simp only [hmissing] at h
      cases hc : t.fs.createAt k n (.reg []) with
      | error _ => simp [hc, Except.map] at h
      | ok fs'' =>
        simp only [hc, Except.map, Except.ok.injEq, Prod.mk.injEq] at h
        obtain ⟨rfl, rfl⟩ := h
        obtain ⟨hdir, hnew, hn, rfl⟩ := Fs.createAt_ok hc
        refine ⟨htarget.symm, ?_, ?_⟩
        · rw [htarget, Fs.entry_create_self, oldBytes, hold]
          rfl
        · rw [Fs.entry_create_of_ne, t.regular]
          intro heq
          have hreg := t.regular
          rw [heq, hnew] at hreg
          cases hreg
    | some content =>
      rw [hold] at hdst
      simp only [hdst.1, hdst.2, Option.map_some, Entry.kind, Except.ok.injEq, Prod.mk.injEq] at h
      obtain ⟨rfl, rfl⟩ := h
      refine ⟨rfl, ?_, t.regular⟩
      rw [hdst.2, oldBytes, hold]
      rfl

end FileTask

/-! ### One request -/

/-- The walk over a single file: the queue and the number of requests made. -/
def Prog.Single (p : Prog) : Prop :=
  match p.pc with
  | .initManager | .startThread => p.queue = [] ∧ p.aio.reqs.next = 0
  | .walk => (p.queue = [p.argv] ∧ p.aio.reqs.next = 0) ∨ (p.queue = [] ∧ p.aio.reqs.next = 1)
  | .bumpReqCount | .copyReg => p.queue = [p.argv] ∧ p.aio.reqs.next = 0
  | .addLock | .addLink | .addUnlock => p.queue = [p.argv] ∧ p.aio.reqs.next = 1
  | .mkdir | .opendir | .readdir | .closedir => False
  | .waitLock | .waitSet | .waitUnlock | .join | .destroy =>
    p.queue = [] ∧ p.aio.reqs.next = 1

lemma Prog.Single.next_le {p : Prog} (h : p.Single) : p.aio.reqs.next ≤ 1 := by
  unfold Single at h
  split at h
  case h_3 =>
    obtain ⟨-, hnext⟩ | ⟨-, hnext⟩ := h <;> omega
  all_goals first | exact h.elim | exact h.2.le.trans (by decide)

/-- As long as the first node is a regular file. -/
lemma Prog.Single.step {p p' : Prog} {l : Label} (h : p.Single) (hgood : Good p.aio)
    (hreg : ∀ k, l = .stat (some k) → p.queue = [p.argv] → k = .reg) (hstep : p.step l = some p')
    (hended : p'.aio.ended = none ∨ p'.aio.ended = some (.exited 0)) : p'.Single := by
  obtain ⟨hnone, hfires⟩ := Prog.fires_of_step hstep
  unfold Single at h ⊢
  cases hfires with
  | aio act a ha =>
    dsimp only
    rwa [(aioFrame_of_aioStep hnone ha).next]
  | fail | readdirExit => simp [Prog.fail, AioState.exit] at hended
  | addLink r hpc hr =>
    obtain ⟨q, -, hlink⟩ := hgood.addCopyReq_eq hr
    rw [hpc] at h
    rw [hlink]
    exact h
  | statDir curr rest hpc hqueue =>
    rw [hpc, hqueue] at h
    have hone := h.resolve_right (by simp)
    exact absurd (hreg .dir rfl (hqueue.trans hone.1)) (by decide)
  | statReg curr rest hpc hqueue =>
    rw [hpc, hqueue] at h
    rw [hqueue]
    exact h.resolve_right (by simp)
  | statOther curr rest k hpc hqueue _ hne =>
    rw [hpc, hqueue] at h
    have hone := h.resolve_right (by simp)
    exact absurd (hreg k rfl (hqueue.trans hone.1)) hne
  | walkEnd hpc hqueue =>
    rw [hpc, hqueue] at h
    rw [hqueue]
    exact h.resolve_left (by simp)
  | mkdir hpc | opendir hpc | readdirEnqueue _ _ _ _ hpc | readdirEnd hpc | closedir hpc =>
    rw [hpc] at h
    exact h.elim
  | readdirSkip name dtype hpc =>
    rw [hpc] at h
    exact h.elim
  | startThread hpc =>
    rw [hpc] at h
    exact Or.inl ⟨rfl, h.2⟩
  | copyReg curr rest hpc =>
    rw [hpc] at h
    exact ⟨h.1, congrArg (· + 1) h.2⟩
  | addUnlock hpc =>
    rw [hpc] at h
    exact Or.inr ⟨by simp [Prog.next, h.1], h.2⟩
  | destroy => exact h
  | _ hpc =>
    rw [hpc] at h
    exact h

/-! ### The bytes -/

namespace FileTask

variable {t : FileTask} {s s' : Sys} {l : Label} {r : ReqId} {q q' : CopyRequest} {batchSize : ℤ}

/-- How far the transfer of the request got. -/
structure Progress (t : FileTask) (s : Sys) (r : ReqId) (q : CopyRequest) : Prop where
  fsize : q.fsize = t.bytes.length
  loaded : s.prog.aio.Awaits .pread r ∨ s.world.mem.load q.buffer t.bytes.length = t.bytes
  written : q.state = 2 → s.world.fs.entry t.target = some (.reg t.newBytes) ∨
    (s.prog.aio.Awaits .pwrite r ∧ s.world.fs.entry t.target = some (.reg t.oldBytes))

/-- What the request, the memory and the two files contain. -/
structure Saved (t : FileTask) (s : Sys) : Prop where
  names : ∀ r q, s.prog.aio.reqs.last? r = some q → q.For ⟨t.srcName, t.dstName⟩
  source : s.world.fs.entry t.source = some (.reg t.bytes)
  /-- Nothing changes before the destination is opened. -/
  early : (∀ r q, s.prog.aio.reqs.last? r = some q → q.state ≠ 2) → s.world.fs = t.fs
  files : s.prog.aio.ended = none → ∀ c ∈ s.prog.aio.refs,
    s.world.files c.fd = some (t.fileOf c.opcode)
  progress : ∀ r q, s.prog.aio.reqs.last? r = some q → q.state ≠ 0 → Progress t s r q
  results : Results s.prog.aio

/-- What holds in every state of a run. -/
structure Run (t : FileTask) (s : Sys) : Prop where
  good : Good s.prog.aio
  locks : Locks s.prog
  descriptors : Descriptors s.prog.aio
  cwd : s.world.cwd = t.cwd
  argv : s.prog.argv = ⟨t.srcName, t.dstName⟩
  le : t.fs.Le s.world.fs

lemma Run.of_reaches {ok : Sys → Label → Prop} (h : Reaches Sys.step ok (t.init batchSize) s) :
    t.Run s :=
  have hprog := Sys.prog_reaches_any h
  ⟨Prog.good_of_reaches hprog, .of_reaches hprog,
    .of_reaches (Prog.manager_reaches_any hprog),
    Sys.cwd_eq h, Sys.argv_eq h, Sys.fs_le h⟩

/-- There is only one request. -/
lemma eq_zero_of_last? (hsingle : s.prog.Single)
    (hq : s.prog.aio.reqs.last? r = some q) : r = 0 := by
  have hlt : r < s.prog.aio.reqs.next := by
    by_contra hge
    rw [Heap.last?_eq_none_of_le (not_lt.mp hge)] at hq
    cases hq
  exact Nat.lt_one_iff.mp (hlt.trans_le hsingle.next_le)

/-- The source is a regular file. -/
lemma Run.stat_eq (hr : t.Run s) {k : Kind} {w' : World}
    (hperm : World.Permits s.world s.prog (.stat (some k)) w')
    (hqueue : s.prog.queue = [s.prog.argv]) : k = .reg := by
  cases hperm with
  | stat _ curr rest hqueue' hstat =>
    obtain ⟨rfl, -⟩ := List.cons.inj (hqueue'.symm.trans hqueue)
    rw [hr.argv, hr.cwd, Fs.stat_of_resolve (Fs.resolve_mono t.src hr.le),
      hr.le.kind (by rw [t.regular]; rfl)] at hstat
    exact (Option.some.inj hstat).symm
  | other _ hstat => exact absurd rfl (hstat k)

namespace Saved

lemma init : Saved t (t.init batchSize) where
  names r q hq := by
    have hnone : (t.init batchSize).prog.aio.reqs.last? r = none :=
      Heap.last?_eq_none_of_le (Nat.zero_le r)
    simp [hnone] at hq
  source := t.regular
  early _ := rfl
  files _ c hc := by
    simp [FileTask.init, Sys.init, Prog.init, AioState.init, AioState.refs, AioPc.taken,
      AioPc.events] at hc
  progress r q hq := by
    have hnone : (t.init batchSize).prog.aio.reqs.last? r = none :=
      Heap.last?_eq_none_of_le (Nat.zero_le r)
    simp [hnone] at hq
  results := .init _ _

/-- Without faults the process goes on until it exits with status 0. -/
lemma ended_of_faultless (h : Saved t s) (hr : t.Run s) (hsingle : s.prog.Single)
    (hok : s.Faultless l) (hstep : s.step l = some s') : s'.prog.aio.ended = none ∨
      (s'.prog.aio = s.prog.aio.exit 0 ∧ s'.world = s.world) := by
  obtain ⟨hended, hfires, hperm⟩ := Sys.fires_of_step hstep
  obtain ⟨p', w'⟩ := s'
  dsimp only at hfires hperm ⊢
  cases hfires with
  | fail _ _ hfails => exact absurd hfails (Data.not_fails_of_faultless hok)
  | readdirExit name dtype hpc =>
    unfold Prog.Single at hsingle
    rw [hpc] at hsingle
    exact hsingle.elim
  | aio act a ha =>
    obtain ⟨hact, hclient⟩ := Prog.step_of_aioStep hended ha
    refine Or.inl (hr.good.ended_of_faultless h.results hok hact fun code heq => ?_)
    simp [heq, Act.ofClient] at hclient
  | addLink r hpc hr' =>
    obtain ⟨q, -, hlink⟩ := hr.good.addCopyReq_eq hr'
    rw [hlink]
    exact Or.inl hended
  | destroy =>
    cases hperm
    exact Or.inr ⟨rfl, rfl⟩
  | _ => exact Or.inl hended

/-- The destination is opened in the file system of the start. -/
lemma fs_eq (h : Saved t s) (hr : t.Run s) (hsingle : s.prog.Single)
    (hhead : s.prog.aio.mgr.writeHead = some r) : s.world.fs = t.fs := by
  refine h.early fun r' q hq => ?_
  obtain ⟨xs, ys, b, hinv, -⟩ := hr.good
  obtain ⟨tl, rfl⟩ := (hhead ▸ hinv.writeList).cons_of_some
  obtain ⟨q', hq', hst⟩ := hinv.toWriteRec r List.mem_cons_self
  have hlast := Heap.last?_of_get? hq'
  have heq : r' = r := (eq_zero_of_last? hsingle hq).trans (eq_zero_of_last? hsingle hlast).symm
  subst heq
  obtain rfl := Option.some.inj (hq.symm.trans hlast)
  omega

/-- The file that was just opened. -/
lemma file_of_opens (h : Saved t s) (hr : t.Run s) (hsingle : s.prog.Single) {act : Act} {c : Iocb}
    {w' : World} (hperm : World.Permits s.world s.prog (.aio act) w')
    (hopens : c.Opens s.prog.aio act) : w'.files c.fd = some (t.fileOf c.opcode) := by
  cases hop : c.opcode with
  | pread =>
    obtain ⟨q, loc, hq, hopen, rfl⟩ := hperm.src_of_opens hr.good hopens hop
    rw [(h.names _ q (Heap.last?_of_get? hq)).srcName, hr.cwd] at hopen
    obtain ⟨hloc, -⟩ := Option.filter_eq_some_iff.mp hopen
    rw [Fs.fileAt_eq_some, Fs.resolve_mono t.src hr.le] at hloc
    obtain rfl := Found.here.inj hloc
    exact if_pos rfl
  | pwrite =>
    obtain ⟨q, loc, fs', hq, hopen, rfl⟩ := hperm.dst_of_opens hr.good hopens hop
    have hact := hopens.act
    simp only [hop] at hact
    rw [(h.names _ q (Heap.last?_of_get? hq)).dstName, hr.cwd, h.fs_eq hr hsingle hact.1] at hopen
    obtain ⟨rfl, -⟩ := openCreate_eq hopen
    exact if_pos rfl

/-- The files behind the descriptors. -/
lemma files_step (h : Saved t s) (hr : t.Run s) (hsingle : s.prog.Single)
    (hstep : s.step l = some s') :
    s'.prog.aio.ended = none → ∀ c ∈ s'.prog.aio.refs,
      s'.world.files c.fd = some (t.fileOf c.opcode) := by
  intro _ c hcs
  obtain ⟨hended, -, hperm⟩ := Sys.fires_of_step hstep
  rcases Sys.mem_refs_of_step hr.locks hr.good hstep hcs with hold | ⟨act, rfl, hopens⟩
  · rw [Sys.files_of_mem hstep (hr.descriptors.mem_openFds hended hold), h.files hended c hold]
  · exact h.file_of_opens hr hsingle hperm hopens

/-- A step that moves no bytes and does not end the process. -/
lemma progress_of_same_bytes (h : Saved t s) (hr : t.Run s) (hsingle : s.prog.Single)
    (hok : s.Faultless l) (hstep : s.step l = some s') (hl : ∀ c n, l ≠ .aio (.complete c n))
    (hended : s'.prog.aio.ended = none) (hq' : s'.prog.aio.reqs.last? r = some q')
    (hst' : q'.state ≠ 0) : Progress t s' r q' := by
  obtain ⟨-, hfires, hperm⟩ := Sys.fires_of_step hstep
  obtain ⟨hmem, hfs⟩ := hperm.same_bytes hl
  rcases Prog.manager_step hr.locks (Sys.prog_step hstep) with heq | ⟨act, ha, hact⟩
  · rw [heq] at hq'
    have hp := h.progress r q' hq' hst'
    exact ⟨hp.fsize, by rw [hmem]; exact hp.loaded.imp_left fun hw => heq ▸ hw, fun hst =>
      (hp.written hst).imp (hfs.kept _ _) fun hw => ⟨heq ▸ hw.1, hfs.kept _ _ hw.2⟩⟩
  have hcomplete := Sys.ne_complete_of_manager hact hl
  have hawaits : ∀ o, s.prog.aio.Awaits o r → s'.prog.aio.Awaits o r := fun o hw =>
    hw.mono hr.good ha hcomplete hended
  have hprep : ∀ o, s'.prog.aio.Prepared o r → s'.prog.aio.Awaits o r := fun o hw =>
    hw.imp fun c hc => ⟨Or.inl hc.1, hc.2⟩
  cases hr.good.descends ha hq' with
  | fresh _ _ hst => exact absurd hst hst'
  | old q hq _ transfer hst =>
    have hp := h.progress r q hq (hst ▸ hst')
    refine ⟨transfer.fsize.trans hp.fsize, ?_, fun hst₂ => ?_⟩
    · rw [transfer.buffer, hmem]
      exact hp.loaded.imp_left (hawaits _)
    · have hwritten := hp.written (hst ▸ hst₂)
      exact hwritten.imp (hfs.kept _ _) fun hw => ⟨hawaits _ hw.1, hfs.kept _ _ hw.2⟩
  | read q o stSize hq _ hread hfd hhead hstSize hfsize _ hst hnew =>
    subst hread
    obtain rfl := hact.resolve_left (by simp [Act.ofClient])
    have hget := hr.good.get?_readHead hhead
    refine ⟨?_, Or.inl (hprep _ hnew), fun h => by omega⟩
    generalize s'.world = w' at hperm
    cases hperm with
    | openSrc _ q₂ loc _ hhead₂ hopen hsize =>
      rw [hhead, Option.bind_some] at hhead₂
      rw [(h.names _ q₂ (Heap.last?_of_get? hhead₂)).srcName, hr.cwd] at hopen
      obtain ⟨hloc, -⟩ := Option.filter_eq_some_iff.mp hopen
      rw [Fs.fileAt_eq_some, Fs.resolve_mono t.src hr.le] at hloc
      obtain rfl := Found.here.inj hloc
      rw [hfsize, hsize stSize hstSize, Fs.content, h.source]
      exact toInt32_nat t.small
    | noSrc _ hfail =>
      rw [hhead, Option.bind_some, hq] at hfail
      exact absurd hfail (by simp; omega)
    | other _ _ _ _ _ _ hread => exact absurd rfl (hread _)
  | opened q fd hq _ transfer hwrite hfd hhead hst _ hnew =>
    subst hwrite
    -- the destination was just opened, so its old content is still there
    obtain rfl := hact.resolve_left (by simp [Act.ofClient])
    have hlast := Heap.last?_of_get? hq
    have hp := h.progress r q hlast (by omega)
    refine ⟨transfer.fsize.trans hp.fsize, ?_, fun _ => Or.inr ⟨hprep _ hnew, ?_⟩⟩
    · rw [transfer.buffer, hmem]
      exact hp.loaded.imp_left (hawaits _)
    · generalize s'.world = w' at hperm
      cases hperm with
      | openDst _ q₂ loc fs' _ hhead₂ hopen =>
        rw [hhead, Option.bind_some] at hhead₂
        have hnames := h.names _ q₂ (Heap.last?_of_get? hhead₂)
        rw [hnames.dstName, hr.cwd, h.fs_eq hr hsingle hhead] at hopen
        exact (openCreate_eq hopen).2.1
      | noDst _ hfail =>
        rw [hhead, Option.bind_some, hq] at hfail
        exact absurd hfail (by simp; omega)
      | other _ _ _ _ _ _ _ hwrite => exact absurd rfl (hwrite _)

/-- A request whose destination was opened stays so. -/
lemma opened_persists {a a' : AioState} {act : Act} (hgood : Good a) (hstep : a.step act = some a')
    (hq : a.reqs.last? r = some q) (hst : q.state = 2) :
    ∃ q', a'.reqs.last? r = some q' ∧ q'.state = 2 := by
  obtain ⟨q', hq', -⟩ := hgood.persist hstep r q hq
  refine ⟨q', hq', ?_⟩
  cases hgood.descends hstep hq' with
  | fresh _ hnext =>
    rw [hnext, Heap.last?_eq_none_of_le le_rfl] at hq
    cases hq
  | old q₁ hq₁ _ _ hst₁ =>
    obtain rfl := Option.some.inj (hq.symm.trans hq₁)
    exact hst₁.trans hst
  | read q₁ _ _ hq₁ _ _ _ hhead =>
    obtain ⟨xs, ys, b, hinv, -⟩ := hgood
    obtain ⟨tl, rfl⟩ := (hhead ▸ hinv.readList).cons_of_some
    obtain ⟨q₂, hq₂, hzero⟩ := hinv.queuedRec r List.mem_cons_self
    obtain rfl := Option.some.inj (hq.symm.trans (Heap.last?_of_get? hq₂))
    omega
  | opened _ _ _ _ _ _ _ _ _ hst' => exact hst'

/-- As long as the destination was not opened, the file system is the one of the start. -/
lemma early_step (h : Saved t s) (hr : t.Run s) (hsingle : s.prog.Single)
    (hstep : s.step l = some s')
    (hnone : ∀ r q, s'.prog.aio.reqs.last? r = some q → q.state ≠ 2) : s'.world.fs = t.fs := by
  obtain ⟨hended, hfires, hperm⟩ := Sys.fires_of_step hstep
  have hold : ∀ r q, s.prog.aio.reqs.last? r = some q → q.state ≠ 2 := by
    intro r q hq hst
    rcases Prog.manager_step hr.locks (Sys.prog_step hstep) with heq | ⟨act, ha, -⟩
    · exact hnone r q (heq ▸ hq) hst
    · obtain ⟨q', hq', hst'⟩ := opened_persists hr.good ha hq hst
      exact hnone r q' hq' hst'
  have hfs := h.early hold
  obtain ⟨p', w'⟩ := s'
  dsimp only at hfires hperm hnone ⊢
  cases hperm with
  | mkdir =>
    cases hfires with
    | fail _ _ hfails => cases hfails
    | mkdir hpc =>
      -- the source is a file, so no directory is made
      unfold Prog.Single at hsingle
      rw [hpc] at hsingle
      exact hsingle.elim
  | openDst fd q loc fs' hfd hhead =>
    obtain ⟨r, hr', hq⟩ := Option.bind_eq_some_iff.mp hhead
    obtain ⟨a, hact, rfl⟩ := Prog.aio_fires hended hfires
    cases hact with
    | writeOne _ size cs =>
      -- the request gets to state 2
      simp only [AioState.writeOne, hr', hq, if_neg (not_lt.mpr hfd)] at hnone
      exact absurd rfl (hnone r _ (Heap.last?_of_get? (Heap.get?_set_self hq)))
  | complete c res =>
    obtain ⟨a, hact, rfl⟩ := Prog.aio_fires hended hfires
    cases hact with
    | complete _ _ hmem =>
      obtain ⟨xs, ys, b, hinv, -⟩ := hr.good
      have hc : c ∈ s.prog.aio.refs := AioState.mem_refs_of_flight hmem
      obtain ⟨q, hq, -, hdesc⟩ := hinv.refRec c hc
      have hstate := hold _ q (Heap.last?_of_get? hq)
      have hop : c.opcode = .pread := by
        cases hop : c.opcode with
        | pread => rfl
        | pwrite =>
          rw [hdesc.state, hop] at hstate
          exact absurd rfl hstate
      -- a finished read only changes the memory
      simp only [World.transfer, h.files hended c hc, hop]
      exact hfs
  | _ => exact hfs

/-- The request is for the two files. -/
lemma names_step (h : Saved t s) (hr : t.Run s) (hsingle : s.prog.Single)
    (hstep : s.step l = some s') (hq' : s'.prog.aio.reqs.last? r = some q') :
    q'.For ⟨t.srcName, t.dstName⟩ := by
  obtain ⟨hended, hfires, -⟩ := Sys.fires_of_step hstep
  cases Prog.descends_of_fires hr.good hended hfires hq' with
  | fresh curr rest _ hpc hqueue _ hsrc hdst =>
    unfold Prog.Single at hsingle
    rw [hpc, hr.argv] at hsingle
    obtain ⟨rfl, -⟩ := List.cons.inj (hqueue.symm.trans hsingle.1)
    exact ⟨hsrc, hdst⟩
  | old q hq names => exact names.for (h.names r q hq)
  | opened q _ hq names => exact names.for (h.names r q (Heap.last?_of_get? hq))

/-- The file system after the write. -/
lemma entry_setContent (h : Saved t s) {content : List UInt8}
    (htarget : s.world.fs.entry t.target = some (.reg content)) :
    (s.world.fs.setContent t.target t.newBytes).entry t.target = some (.reg t.newBytes) ∧
      (s.world.fs.setContent t.target t.newBytes).entry t.source = some (.reg t.bytes) := by
  have hself : (s.world.fs.setContent t.target t.newBytes).entry t.target =
      some (.reg t.newBytes) := Fs.entry_setContent_self htarget
  refine ⟨hself, ?_⟩
  by_cases heq : t.source = t.target
  -- a file copied to itself
  · rw [heq, hself, newBytes_of_eq heq]
  · rw [Fs.entry_setContent_of_ne heq, h.source]

/-- What a completed transfer does to the memory and the two files. -/
lemma transfer_eq (h : Saved t s) (hr : t.Run s) (hended : s.prog.aio.ended = none) {c : Iocb}
    (hmem : .pending c ∈ s.prog.aio.flight) (hq : s.prog.aio.reqs.last? c.data = some q) :
    (s.world.transfer c c.nbytes).fs.entry t.source = some (.reg t.bytes) ∧
      q.fsize = t.bytes.length ∧
      (s.world.transfer c c.nbytes).mem.load q.buffer t.bytes.length = t.bytes ∧
      (q.state = 2 → (s.world.transfer c c.nbytes).fs.entry t.target = some (.reg t.newBytes)) := by
  obtain ⟨xs, ys, b, hinv, -⟩ := hr.good
  have hc : c ∈ s.prog.aio.refs := AioState.mem_refs_of_flight hmem
  obtain ⟨q₁, hq₁, -, hdesc⟩ := hinv.refRec c hc
  obtain rfl := Option.some.inj (hq.symm.trans (Heap.last?_of_get? hq₁))
  have hst : q.state ≠ 0 := by
    rw [hdesc.state]
    cases c.opcode <;> simp
  have hp := h.progress _ q hq hst
  have hlen : c.nbytes = t.bytes.length := by rw [hdesc.nbytes, hp.fsize, toUlong_nat t.small]
  have hfile := h.files hended c hc
  cases hop : c.opcode with
  | pread =>
    rw [hop] at hfile
    have hstate : q.state = 1 := by rw [hdesc.state, hop]
    have hcontent : s.world.fs.content (t.fileOf .pread) = t.bytes := by
      rw [Fs.content, fileOf, h.source]
    rw [World.transfer_pread hfile hop hdesc.offset, hcontent, hlen, List.take_length, hdesc.buf]
    exact ⟨h.source, hp.fsize, Memory.load_store_self, fun h => by omega⟩
  | pwrite =>
    rw [hop] at hfile
    have hstate : q.state = 2 := by rw [hdesc.state, hop]
    -- the request writes, so its read is complete
    have hload := hp.loaded.resolve_left (hinv.not_awaits hc (by rw [hop]; decide))
    have hbytes : s.world.mem.load c.buf c.nbytes = t.bytes := by rw [hdesc.buf, hlen, hload]
    obtain ⟨content, htarget, hnew⟩ : ∃ content,
        s.world.fs.entry t.target = some (.reg content) ∧
          World.overwrite content 0 t.bytes = t.newBytes := by
      rcases hp.written hstate with hdone | ⟨-, hold⟩
      · exact ⟨_, hdone, overwrite_newBytes⟩
      · exact ⟨_, hold, rfl⟩
    have hcontent : s.world.fs.content t.target = content := by rw [Fs.content, htarget]
    have htransfer : s.world.transfer c c.nbytes =
        { s.world with fs := s.world.fs.setContent t.target t.newBytes } := by
      simp only [World.transfer, hfile, hop, World.moved_nbytes, hbytes, hdesc.offset, fileOf,
        hcontent, hnew]
    obtain ⟨hself, hsource⟩ := h.entry_setContent htarget
    rw [htransfer]
    exact ⟨hsource, hp.fsize, hload, fun _ => hself⟩

lemma step_complete (h : Saved t s) (hr : t.Run s) (hsingle : s.prog.Single) {c : Iocb} {n : ℕ}
    (hok : s.prog.aio.Faultless (.complete c n)) (hstep : s.step (.aio (.complete c n)) = some s') :
    Saved t s' := by
  obtain ⟨hended, hfires, hperm⟩ := Sys.fires_of_step hstep
  have hact := (Prog.aio_step (Sys.prog_step hstep)).1
  have hworld : s'.world = s.world.transfer c n := by
    generalize s'.world = w' at hperm
    cases hperm with
    | complete => rfl
    | other _ _ _ _ _ _ _ _ hcomplete => exact absurd rfl (hcomplete _ _)
  obtain ⟨hreqs, hmem⟩ : s'.prog.aio.reqs = s.prog.aio.reqs ∧ .pending c ∈ s.prog.aio.flight := by
    generalize s'.prog.aio = a' at hact
    cases (AioState.fires_of_step hact).2 with
    | complete _ _ hmem => exact ⟨rfl, hmem⟩
  have hn : n = c.nbytes := hok
  subst hn
  obtain ⟨xs, ys, b, hinv, -⟩ := id hr.good
  obtain ⟨q₀, hq₀, -⟩ := hinv.refRec c
    (AioState.mem_refs_of_flight hmem)
  have hlast := Heap.last?_of_get? hq₀
  obtain ⟨hsource, hsize, hload, hwritten⟩ := h.transfer_eq hr hended hmem hlast
  refine ⟨fun r q hq => h.names_step hr hsingle hstep hq, by rw [hworld]; exact hsource,
    h.early_step hr hsingle hstep, h.files_step hr hsingle hstep, fun r q hq hst => ?_,
    h.results.step hr.good hok hact⟩
  rw [hreqs] at hq
  -- the operation is the one of the only request
  have hr₀ : r = c.data := (eq_zero_of_last? hsingle hq).trans (eq_zero_of_last? hsingle hlast).symm
  subst hr₀
  obtain rfl := Option.some.inj (hlast.symm.trans hq)
  rw [← hworld] at hload hwritten
  exact ⟨hsize, Or.inr hload, fun hst => Or.inl (hwritten hst)⟩

theorem step (h : Saved t s) (hr : t.Run s) (hsingle : s.prog.Single) (hok : s.Faultless l)
    (hstep : s.step l = some s') : Saved t s' := by
  by_cases hcomplete : ∃ c n, l = .aio (.complete c n)
  · obtain ⟨c, n, rfl⟩ := hcomplete
    exact h.step_complete hr hsingle hok hstep
  have hl : ∀ c n, l ≠ .aio (.complete c n) := fun c n heq => hcomplete ⟨c, n, heq⟩
  obtain ⟨-, hfires, hperm⟩ := Sys.fires_of_step hstep
  obtain ⟨hmem, hfs⟩ := hperm.same_bytes hl
  have hres : Results s'.prog.aio := by
    rcases Prog.manager_step hr.locks (Sys.prog_step hstep) with heq | ⟨act, ha, hact⟩
    · exact heq ▸ h.results
    · exact h.results.step hr.good (Sys.faultless_of_manager hact hok.aio) ha
  refine ⟨fun r q hq => h.names_step hr hsingle hstep hq, hfs.kept _ _ h.source,
    h.early_step hr hsingle hstep, h.files_step hr hsingle hstep, fun r q hq hst => ?_, hres⟩
  rcases h.ended_of_faultless hr hsingle hok hstep with hended | ⟨haio, hworld⟩
  · exact h.progress_of_same_bytes hr hsingle hok hstep hl hended hq hst
  · rw [haio] at hq
    have hp := h.progress r q hq hst
    refine ⟨hp.fsize, ?_, ?_⟩
    · rw [haio, hworld]
      exact hp.loaded
    · rw [haio, hworld]
      exact hp.written

/-- **The two files during a run without faults.** -/
theorem of_reaches (h : Reaches Sys.step Sys.Faultless (t.init batchSize) s) :
    Saved t s ∧ s.prog.Single := by
  refine h.invariant_of (J := t.Run) (I := fun s => Saved t s ∧ s.prog.Single)
    (fun _ hr => .of_reaches hr) (fun {s l s'} hr _ hinv hok hstep => ?_) ⟨.init, rfl, rfl⟩
  obtain ⟨hsaved, hsingle⟩ := hinv
  refine ⟨hsaved.step hr hsingle hok hstep, ?_⟩
  obtain ⟨-, -, hperm⟩ := Sys.fires_of_step hstep
  refine hsingle.step hr.good (fun k hk hqueue => ?_) (Sys.prog_step hstep) ?_
  · subst hk
    exact hr.stat_eq hperm hqueue
  · rcases hsaved.ended_of_faultless hr hsingle hok hstep with hended | ⟨haio, -⟩
    · exact Or.inl hended
    · exact Or.inr (by rw [haio]; rfl)

end Saved

end FileTask

section

variable {t : FileTask} {s : Sys} {batchSize : ℤ}

/-- After a success the new content is at the start of the destination. -/
lemma FileTask.entry_of_success (h : Reaches Sys.step Sys.Faultless (t.init batchSize) s)
    (hexit : s.prog.aio.ended = some (.exited 0)) :
    s.world.fs.entry t.target = some (.reg t.newBytes) := by
  obtain ⟨hsaved, hsingle⟩ := FileTask.Saved.of_reaches h
  have hr := FileTask.Run.of_reaches h
  have hprog := Sys.prog_reaches_any h
  have hpc := (Counting.of_reaches hprog).success hexit
  unfold Prog.Single at hsingle
  rw [hpc] at hsingle
  have hlt : s.prog.aio.log.accepted.length < 2 ^ 32 := by
    have hle := hr.good.accepted_le
    rw [hsingle.2] at hle
    omega
  have hlen := (Stopped.of_reaches hprog (Or.inr ((Locks.of_reaches hprog).joined hpc))).2 hlt
  obtain ⟨q, hq, -⟩ := ((soundStop_of_reaches hprog hlt).success hexit).2 0 (by omega)
  have hst := state_of_length hprog (by rw [hpc]; rfl) hlen hq
  obtain ⟨xs, ys, b, hinv, -⟩ := hr.good
  exact ((hsaved.progress 0 q hq (by omega)).written hst).resolve_right
    fun hw => hinv.not_awaits_of_length hlen hw.1

/-- **When an overwritten file is a copy**: exactly when it was not longer than the source. -/
theorem overwritten_iff (h : Reaches Sys.step Sys.Faultless (t.init batchSize) s)
    (hexit : s.prog.aio.ended = some (.exited 0)) :
    s.world.fs.entry t.target = some (.reg t.bytes) ↔ t.oldBytes.length ≤ t.bytes.length := by
  rw [FileTask.entry_of_success h hexit, ← FileTask.newBytes_eq_bytes, Option.some.injEq,
    Entry.reg.injEq]

end

/-- The copy of the file of `oneFile` to a file with the given content. -/
def overTask (old : List UInt8) : FileTask where
  fs := oneFile.create [] ['d'] (.reg old) oneFile.root rfl flat.legalName_d
  cwd := []
  srcName := ['s', '/', 'f']
  dstName := ['d']
  source := [['f'], ['s']]
  bytes := [1, 2, 3]
  src := rfl
  regular := rfl
  small := by decide
  target := [['d']]
  old := some old
  dst := ⟨rfl, rfl⟩

/-- The walk over a single file. -/
def singleWalk : List Label :=
  [.initManager true, .startThread true, .stat (some .reg), .bumpReqCount, .copyReg,
    .addLock true, .addLink, .addUnlock true, .walkEnd]

/-- A file of one byte is overwritten. -/
theorem overwritten_iff_shorter : ∃ s : Sys,
    Reaches Sys.step Sys.Faultless ((overTask [9]).init 1) s ∧
      s.prog.aio.ended = some (.exited 0) ∧
      (s.world.fs.entry [['d']] = some (.reg [1, 2, 3]) ↔
        [(9 : UInt8)].length ≤ [(1 : UInt8), 2, 3].length) := by
  have hrun : (execOk Sys.step Sys.Faultless ((overTask [9]).init 1)
      (singleWalk ++ oneFileDrain)).map (fun s => s.prog.aio.ended) = some (some (.exited 0)) := by
    decide +kernel
  obtain ⟨s, hs, hended⟩ := Option.map_eq_some_iff.mp hrun
  have hreach := reaches_of_execOk hs
  exact ⟨s, hreach, hended, overwritten_iff hreach hended⟩

/-- The last two bytes of a file of five bytes stay. -/
theorem not_overwritten_of_longer : ¬ ∀ (t : FileTask) (batchSize : ℤ) (s : Sys),
    Reaches Sys.step Sys.Faultless (t.init batchSize) s → s.prog.aio.ended = some (.exited 0) →
      s.world.fs.entry t.target = some (.reg t.bytes) := by
  intro hall
  have hrun : (execOk Sys.step Sys.Faultless ((overTask [9, 9, 9, 9, 9]).init 1)
      (singleWalk ++ oneFileDrain)).map (fun s => (s.prog.aio.ended, s.world.fs.entry [['d']])) =
        some (some (.exited 0), some (.reg [1, 2, 3, 9, 9])) := by
    decide +kernel
  obtain ⟨s, hs, hfacts⟩ := Option.map_eq_some_iff.mp hrun
  obtain ⟨hended, hentry⟩ := Prod.mk.inj hfacts
  have hcopy := hall (overTask [9, 9, 9, 9, 9]) 1 s (reaches_of_execOk hs) hended
  exact absurd (hentry.symm.trans hcopy) (by decide)

end Cpr
