/-
# Copies of a single file

The programs of `aio_tests`.  `do_copy` of `single_copy_aio.c` is `aio_copy_p` of the old
program, in a process of its own; `do_copy` of `single_copy_basic.c` reads the file with `fread`
and appends it to the destination with `fwrite`.
-/
import Cpr.Old.Flat
import Cpr.System.Overwrite

namespace Cpr

open Transition Unix

/-! ## `single_copy_aio.c` -/

/-- The state when `do_copy` starts. -/
def FileTask.singleInit (t : FileTask) : Child × World :=
  (.new ⟨t.srcName, t.dstName⟩,
    { fs := t.fs, cwd := t.cwd, dir := ⟨[], ∅, []⟩, files := fun _ => none, mem := fun _ => 0 })

/-- How far `do_copy` got, by its place. -/
inductive SingleStage (t : FileTask) (w : World) (c : Child) : ChildPc → Prop
  | ioSetup (idle : c.flight = []) (fs : w.fs = t.fs) : SingleStage t w c .ioSetup
  | openSrc (idle : c.flight = []) (fs : w.fs = t.fs) : SingleStage t w c .openSrc
  | readSubmit (idle : c.flight = []) (fs : w.fs = t.fs) (size : c.fsize = t.bytes.length)
      (file : w.files c.srcFd = some t.source) : SingleStage t w c .readSubmit
  | reading (fs : w.fs = t.fs) (size : c.fsize = t.bytes.length)
      (file : w.files c.srcFd = some t.source) (flight : c.flight = [.pending c.readReq]) :
      SingleStage t w c .readSpin
  | read (res : ℕ) (fs : w.fs = t.fs) (size : c.fsize = t.bytes.length)
      (loaded : w.mem.load c.buffer t.bytes.length = t.bytes)
      (flight : c.flight = [⟨c.readReq, some res⟩]) : SingleStage t w c .readSpin
  | openDst (idle : c.flight = []) (fs : w.fs = t.fs) (size : c.fsize = t.bytes.length)
      (loaded : w.mem.load c.buffer t.bytes.length = t.bytes) : SingleStage t w c .openDst
  | writeSubmit (idle : c.flight = []) (size : c.fsize = t.bytes.length)
      (loaded : w.mem.load c.buffer t.bytes.length = t.bytes)
      (file : w.files c.dstFd = some t.target)
      (made : w.fs.entry t.target = some (.reg t.oldBytes)) : SingleStage t w c .writeSubmit
  | writing (size : c.fsize = t.bytes.length)
      (loaded : w.mem.load c.buffer t.bytes.length = t.bytes)
      (file : w.files c.dstFd = some t.target)
      (made : w.fs.entry t.target = some (.reg t.oldBytes))
      (flight : c.flight = [.pending c.writeReq]) : SingleStage t w c .writeSpin
  | wrote (res : ℕ) (written : w.fs.entry t.target = some (.reg t.newBytes))
      (flight : c.flight = [⟨c.writeReq, some res⟩]) : SingleStage t w c .writeSpin
  | ioDestroy (idle : c.flight = []) (written : w.fs.entry t.target = some (.reg t.newBytes)) :
      SingleStage t w c .ioDestroy
  | exited (written : w.fs.entry t.target = some (.reg t.newBytes)) (ret : c.ret = some 0) :
      SingleStage t w c .exited

/-- Where a run is. -/
structure SingleRun (t : FileTask) (s : Child × World) : Prop where
  node : s.1.node = ⟨t.srcName, t.dstName⟩
  cwd : s.2.cwd = t.cwd
  stage : SingleStage t s.2 s.1 s.1.pc

namespace FileTask

variable {t : FileTask} {loc : Loc}

lemma openRead_eq (h : t.fs.openRead t.cwd t.srcName = some loc) : loc = t.source := by
  obtain ⟨hloc, -⟩ := Option.filter_eq_some_iff.mp h
  rw [Fs.fileAt_eq_some, t.src] at hloc
  exact (Found.here.inj hloc).symm

lemma content_source (t : FileTask) : t.fs.content t.source = t.bytes := by
  rw [Fs.content, t.regular]

end FileTask

section

variable {t : FileTask} {w w' : World} {c c' : Child} {act : ChildAct} {s s' : Child × World}

namespace SingleStage

/-- The number of bytes that are asked for. -/
lemma toUlong_fsize (size : c.fsize = t.bytes.length) : toUlong c.fsize = t.bytes.length := by
  have hsmall := t.small
  rw [size, toUlong_nat (by omega)]

lemma step_openSrc (h : SingleStage t w c .openSrc) (hnode : c.node = ⟨t.srcName, t.dstName⟩)
    (hcwd : w.cwd = t.cwd) {o : AioState.ReadAnswer} (hsucc : c.Succeeds (.openSrc o))
    (hperm : World.PermitsChild w c (.openSrc o) w') :
    SingleStage t w' (c.openSrc o) (c.openSrc o).pc := by
  obtain ⟨hfd, hsize, hbuf⟩ := hsucc
  obtain ⟨n, hn⟩ := Option.ne_none_iff_exists'.mp hsize
  cases h with
  | openSrc idle fs =>
    cases hperm with
    | noSrc _ hneg => omega
    | other _ hsrc => exact absurd rfl (hsrc o)
    | openSrc _ loc _ hopen hlen =>
      rw [fs, hcwd, hnode] at hopen
      obtain rfl := FileTask.openRead_eq hopen
      have hlen := hlen n hn
      rw [fs, t.content_source] at hlen
      subst hlen
      simp only [Child.openSrc, if_neg (not_lt.mpr hfd), hn, if_neg hbuf]
      exact .readSubmit idle fs (toInt32_nat t.small) (if_pos rfl)

lemma step_openDst (h : SingleStage t w c .openDst) (hnode : c.node = ⟨t.srcName, t.dstName⟩)
    (hcwd : w.cwd = t.cwd) {fd : ℤ} (hok : 0 ≤ fd)
    (hperm : World.PermitsChild w c (.openDst fd) w') :
    SingleStage t w' (c.openDst fd) (c.openDst fd).pc := by
  cases h with
  | openDst idle fs size loaded =>
    cases hperm with
    | noDst _ hneg => omega
    | other _ _ hdst => exact absurd rfl (hdst fd)
    | openDst _ loc fs' _ hopen =>
      rw [fs, hcwd, hnode] at hopen
      obtain ⟨rfl, hmade, -⟩ := FileTask.openCreate_eq hopen
      rw [Child.openDst, if_neg (not_lt.mpr hok)]
      exact .writeSubmit idle size loaded (if_pos rfl) hmade

/-- The operation in flight is complete. -/
lemma step_complete {pc : ChildPc} (h : SingleStage t w c pc) {op : Iocb}
    (hmem : .pending op ∈ c.flight) (hpc : pc ≠ .exited) {res : ℕ}
    (hok : res = toUlong c.fsize) : SingleStage t (w.transfer op res) (c.complete op res) pc := by
  cases h with
  | read _ _ _ _ flight | wrote _ _ flight =>
    rw [flight] at hmem
    simp [Op.pending] at hmem
  | reading fs size file flight =>
    obtain rfl : op = c.readReq := by simpa [flight, Op.pending] using hmem
    obtain rfl : res = c.readReq.nbytes := hok
    have hlen : c.readReq.nbytes = t.bytes.length := toUlong_fsize size
    rw [World.transfer_pread file rfl rfl, fs, t.content_source, hlen, List.take_length]
    refine .read t.bytes.length rfl size Memory.load_store_self ?_
    rw [Child.complete, flight, List.erase_cons_head]
    rfl
  | writing size loaded file made flight =>
    obtain rfl : op = c.writeReq := by simpa [flight, Op.pending] using hmem
    obtain rfl : res = c.writeReq.nbytes := hok
    have hload : w.mem.load c.writeReq.buf c.writeReq.nbytes = t.bytes := by
      rw [show c.writeReq.nbytes = t.bytes.length from toUlong_fsize size]
      exact loaded
    have hworld : (w.transfer c.writeReq c.writeReq.nbytes).fs =
        w.fs.setContent t.target t.newBytes := by
      have hcontent : w.fs.content t.target = t.oldBytes := by rw [Fs.content, made]
      simp only [World.transfer, show w.files c.writeReq.fd = some t.target from file,
        show c.writeReq.opcode = .pwrite from rfl, World.moved_nbytes, hload, hcontent]
      rfl
    refine .wrote c.writeReq.nbytes ?_ ?_
    · rw [hworld]
      exact Fs.entry_setContent_self made
    · rw [Child.complete, flight, List.erase_cons_head]
      rfl
  | exited => exact absurd rfl hpc
  | ioSetup idle | openSrc idle | readSubmit idle | openDst idle | writeSubmit idle
  | ioDestroy idle =>
    rw [idle] at hmem
    exact absurd hmem List.not_mem_nil

/-- **One step of `do_copy`.** -/
theorem step (h : SingleStage t w c c.pc) (hnode : c.node = ⟨t.srcName, t.dstName⟩)
    (hcwd : w.cwd = t.cwd) (hok : act.Faultless) (hsucc : c.Succeeds act) (hfires : c.Fires act c')
    (hperm : World.PermitsChild w c act w') : SingleStage t w' c' c'.pc := by
  have hsame : (∀ o, act ≠ .openSrc o) → (∀ fd, act ≠ .openDst fd) →
      (∀ op n, act ≠ .complete op n) → w' = w := by
    intro hsrc hdst hcomplete
    cases hperm with
    | openSrc o => exact absurd rfl (hsrc o)
    | openDst fd => exact absurd rfl (hdst fd)
    | complete op n => exact absurd rfl (hcomplete op n)
    | _ => rfl
  cases hfires with
  | ioSetupFail => exact absurd hsucc (by simp [Child.Succeeds])
  | openSrc o hpc =>
    rw [hpc] at h
    exact h.step_openSrc hnode hcwd hsucc hperm
  | openDst fd hpc =>
    rw [hpc] at h
    exact h.step_openDst hnode hcwd hsucc hperm
  | complete op res hpc hmem =>
    cases hperm with
    | complete => exact h.step_complete hmem hpc hsucc
    | other _ _ _ hcomplete => exact absurd rfl (hcomplete _ _)
  | ioSetup hpc =>
    rw [hsame (by simp) (by simp) (by simp)]
    rw [hpc] at h
    cases h with
    | ioSetup idle fs => exact .openSrc idle fs
  | readSubmit ret hpc =>
    rw [hsame (by simp) (by simp) (by simp)]
    rw [hpc] at h
    obtain rfl : ret = 1 := hsucc
    cases h with
    | readSubmit idle fs size file =>
      rw [Child.submit, if_neg (by simp), idle]
      exact .reading fs size file rfl
  | writeSubmit ret hpc =>
    rw [hsame (by simp) (by simp) (by simp)]
    rw [hpc] at h
    obtain rfl : ret = 1 := hsucc
    cases h with
    | writeSubmit idle size loaded file made =>
      rw [Child.submit, if_neg (by simp), idle]
      exact .writing size loaded file made rfl
  | readReap e returned hpc he =>
    rw [hsame (by simp) (by simp) (by simp)]
    rw [hpc] at h
    obtain rfl : returned = true := hsucc
    have hmem := he rfl
    rw [Child.readReap_eq]
    cases h with
    | reading fs size file flight =>
      rw [flight] at hmem
      simp [Op.pending, IoEvent.op] at hmem
    | read res fs size loaded flight =>
      rw [flight, List.mem_singleton] at hmem
      exact .openDst (by simp [Child.left, flight, hmem]) fs size loaded
  | writeReap e returned hpc he =>
    rw [hsame (by simp) (by simp) (by simp)]
    rw [hpc] at h
    obtain rfl : returned = true := hsucc
    have hmem := he rfl
    rw [Child.writeReap_eq]
    cases h with
    | writing size loaded file made flight =>
      rw [flight] at hmem
      simp [Op.pending, IoEvent.op] at hmem
    | wrote res written flight =>
      rw [flight, List.mem_singleton] at hmem
      exact .ioDestroy (by simp [Child.left, flight, hmem]) written
  | ioDestroy ok hpc =>
    rw [hsame (by simp) (by simp) (by simp)]
    rw [hpc] at h
    obtain rfl : ok = true := hok
    cases h with
    | ioDestroy idle written => exact .exited written rfl

end SingleStage

/-- **A run of `do_copy` without faults.** -/
theorem SingleRun.of_reaches
    (h : Reaches World.childStep World.ChildFaultless t.singleInit s) : SingleRun t s := by
  refine h.invariant (fun {s act s'} hrun hok hstep => ?_) ⟨rfl, rfl, .ioSetup rfl rfl⟩
  obtain ⟨c', hc', hw⟩ := Option.bind_eq_some_iff.mp hstep
  obtain ⟨w', hw', rfl⟩ := Option.map_eq_some_iff.mp hw
  have hfires := Child.fires_of_step hc'
  have hperm := World.permitsChild_of_afterChild hw'
  exact ⟨(Child.node_of_fires hfires).trans hrun.node, hperm.same.1.trans hrun.cwd,
    hrun.stage.step hrun.node hrun.cwd hok.1 hok.2 hfires hperm⟩

/-- `single_copy_aio.c` overwrites the start of the destination, as `cpr.c` does. -/
lemma single_entry_of_exited (h : Reaches World.childStep World.ChildFaultless t.singleInit s)
    (hexited : s.1.pc = .exited) :
    s.1.ret = some 0 ∧ s.2.fs.entry t.target = some (.reg t.newBytes) := by
  have hstage := (SingleRun.of_reaches h).stage
  rw [hexited] at hstage
  cases hstage with
  | exited written ret => exact ⟨ret, written⟩

end

/-! ## `single_copy_basic.c` -/

/-- How many bytes `fread` and `fwrite` move, and what `malloc` left in the buffer. -/
structure StdioAnswer where
  read : ℕ
  buffer : List UInt8
  written : ℕ

/-- `fopen` with the mode "a".  Without `O_DIRECT` it opens what `openCreate` opens, and character
devices and FIFOs besides. -/
def Unix.Fs.openAppend (fs : Fs) (cwd : Loc) (p : Path) : Except Errno (Loc × Fs) :=
  match fs.fileAt cwd p with
  | some l =>
    match (fs.entry l).map Entry.kind with
    | some .chr | some .fifo => .ok (l, fs)
    | _ => fs.openCreate cwd p
  | none => fs.openCreate cwd p

/-- `do_copy`: what it returns, and the file system.  The numbers of bytes that `fread` and
`fwrite` return are not looked at. -/
def doCopy (fs : Fs) (cwd : Loc) (srcFp destFp : CStr) (o : StdioAnswer) : ℤ × Fs :=
  match fs.openRead cwd srcFp with
  | none => (-1, fs)
  | some src =>
    let fsize := (fs.content src).length
    let buffer := World.overwrite o.buffer 0 (((fs.content src).take fsize).take o.read)
    match fs.openAppend cwd destFp with
    | .error _ => (-1, fs)
    | .ok (dest, fs') =>
      (0, fs'.setContent dest (fs'.content dest ++ (buffer.take fsize).take o.written))

/-- Both calls move all the bytes of a file. -/
def StdioAnswer.Complete (o : StdioAnswer) (fsize : ℕ) : Prop := fsize ≤ o.read ∧ fsize ≤ o.written

section

variable {t : FileTask} {o : StdioAnswer} {s : Child × World} {u : Sys} {batchSize : ℤ}

/-- A regular or missing destination is opened alike by all programs. -/
lemma FileTask.openAppend_eq (t : FileTask) :
    t.fs.openAppend t.cwd t.dstName = t.fs.openCreate t.cwd t.dstName := by
  have hdst := t.dst
  unfold Fs.openAppend
  cases hat : t.fs.fileAt t.cwd t.dstName with
  | none => rfl
  | some l =>
    rw [Fs.fileAt_eq_some] at hat
    cases hold : t.old with
    | none =>
      rw [hold] at hdst
      obtain ⟨k, n, -, hmissing⟩ := hdst
      cases hmissing.symm.trans hat
    | some content =>
      rw [hold] at hdst
      obtain ⟨hhere, hreg⟩ := hdst
      obtain rfl := Found.here.inj (hhere.symm.trans hat)
      simp only [hreg, Option.map_some, Entry.kind]

/-- `single_copy_basic.c` appends to the destination. -/
lemma doCopy_entry (ho : o.Complete t.bytes.length)
    (hret : (doCopy t.fs t.cwd t.srcName t.dstName o).1 = 0) :
    (doCopy t.fs t.cwd t.srcName t.dstName o).2.entry t.target =
      some (.reg (t.oldBytes ++ t.bytes)) := by
  cases hsrc : t.fs.openRead t.cwd t.srcName with
  | none => simp [doCopy, hsrc] at hret
  | some src =>
    obtain rfl := FileTask.openRead_eq hsrc
    cases hdst : t.fs.openAppend t.cwd t.dstName with
    | error e => simp [doCopy, hsrc, hdst] at hret
    | ok r =>
      obtain ⟨dest, fs'⟩ := r
      obtain ⟨rfl, hmade, -⟩ := FileTask.openCreate_eq (t.openAppend_eq.symm.trans hdst)
      have hcontent : fs'.content t.target = t.oldBytes := by rw [Fs.content, hmade]
      simp only [doCopy, hsrc, hdst, t.content_source, List.take_length, hcontent]
      rw [Fs.entry_setContent_self hmade, List.take_of_length_le ho.1, World.overwrite]
      simp [List.take_of_length_le ho.2]

/-- The bytes at the start are replaced and appended to the same effect only where one of the
two files is empty. -/
lemma FileTask.append_eq_newBytes : t.oldBytes ++ t.bytes = t.newBytes ↔
    t.oldBytes = [] ∨ t.bytes = [] := by
  rw [newBytes_eq]
  constructor
  · intro heq
    have hlen := congrArg List.length heq
    simp only [List.length_append, List.length_drop] at hlen
    rw [← List.length_eq_zero_iff, ← List.length_eq_zero_iff]
    omega
  · rintro (h | h) <;> simp [h]

/-- **The three programs on one file**: in all runs without faults `single_copy_aio.c` leaves what
`cpr.c` leaves, and `single_copy_basic.c` leaves the same exactly if the destination was empty or
absent, or the source is empty. -/
theorem singleCopies_agree_iff
    (h : Reaches World.childStep World.ChildFaultless t.singleInit s) (hexited : s.1.pc = .exited)
    (hcpr : Reaches Sys.step Sys.Faultless (t.init batchSize) u)
    (hended : u.prog.aio.ended = some (.exited 0)) (ho : o.Complete t.bytes.length)
    (hret : (doCopy t.fs t.cwd t.srcName t.dstName o).1 = 0) :
    s.1.ret = some 0 ∧ s.2.fs.entry t.target = u.world.fs.entry t.target ∧
      ((doCopy t.fs t.cwd t.srcName t.dstName o).2.entry t.target = s.2.fs.entry t.target ↔
        t.oldBytes = [] ∨ t.bytes = []) := by
  obtain ⟨hzero, hentry⟩ := single_entry_of_exited h hexited
  refine ⟨hzero, hentry.trans (FileTask.entry_of_success hcpr hended).symm, ?_⟩
  rw [doCopy_entry ho hret, hentry, Option.some.injEq, Entry.reg.injEq,
    FileTask.append_eq_newBytes]

end

/-- A file of three bytes over a file of one byte. -/
theorem singleCopies_agree_iff_shorter : ∃ (s : Child × World) (u : Sys) (o : StdioAnswer),
    s.1.pc = .exited ∧ u.prog.aio.ended = some (.exited 0) ∧
      (s.1.ret = some 0 ∧ s.2.fs.entry [['d']] = u.world.fs.entry [['d']] ∧
        ((doCopy (overTask [9]).fs [] ['s', '/', 'f'] ['d'] o).2.entry [['d']] =
          s.2.fs.entry [['d']] ↔ [(9 : UInt8)] = [] ∨ [(1 : UInt8), 2, 3] = [])) := by
  have hrun : (execOk Sys.step Sys.Faultless ((overTask [9]).init 1)
      (singleWalk ++ oneFileDrain)).map (fun s => s.prog.aio.ended) = some (some (.exited 0)) := by
    decide +kernel
  have hrun' : (execOk World.childStep World.ChildFaultless (overTask [9]).singleInit
      [.ioSetup true, .openSrc ⟨3, some 3, 4096⟩, .readSubmit 1,
        .complete ⟨0, .pread, 3, 4096, 3, 0, 0⟩ 3,
        .readReap ⟨⟨0, .pread, 3, 4096, 3, 0, 0⟩, 3⟩ true, .openDst 3, .writeSubmit 1,
        .complete ⟨1, .pwrite, 3, 4096, 3, 0, 0⟩ 3,
        .writeReap ⟨⟨1, .pwrite, 3, 4096, 3, 0, 0⟩, 3⟩ true, .ioDestroy true]).map
      (fun s => s.1.pc) = some .exited := by
    decide +kernel
  obtain ⟨u, hu, hended⟩ := Option.map_eq_some_iff.mp hrun
  obtain ⟨s, hs, hexited⟩ := Option.map_eq_some_iff.mp hrun'
  exact ⟨s, u, ⟨3, [], 3⟩, hexited, hended, singleCopies_agree_iff (t := overTask [9])
    (reaches_of_execOk hs) hexited (reaches_of_execOk hu) hended ⟨le_rfl, le_rfl⟩
    (by decide +kernel)⟩

end Cpr
