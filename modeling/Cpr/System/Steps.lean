/-
# What a step of the system can do

The inversion of `World.after`, and the facts about single steps that every invariant of
the system uses: the file system only grows, and a run of the system is a run of the
program.
-/
import Cpr.Manager.Descriptors
import Cpr.Manager.Faultless
import Cpr.Program.Requests
import Cpr.System.World

namespace Cpr

open Transition Unix

namespace World

/-- What the environment asks of the answer to a label, and what it becomes. -/
inductive Permits (w : World) (p : Prog) : Label → World → Prop
  | stat (k : Kind) (curr : Node) (rest : List Node) (hqueue : p.queue = curr :: rest)
      (hstat : w.fs.stat w.cwd curr.srcName = some k) : Permits w p (.stat (some k)) w
  | mkdir (curr : Node) (rest : List Node) (fs' : Fs) (hqueue : p.queue = curr :: rest)
      (hmkdir : w.fs.mkdir w.cwd curr.dstName = .ok fs') :
      Permits w p (.mkdir true) { w with fs := fs' }
  | opendir (curr : Node) (rest : List Node) (loc : Loc) (hqueue : p.queue = curr :: rest)
      (hdir : w.fs.DirAt w.cwd curr.srcName loc) :
      Permits w p (.opendir true) { w with dir := ⟨loc, w.fs.names loc, []⟩ }
  | entry (name : Name) (dtype : DType) (hlists : w.Lists name dtype) :
      Permits w p (.readdir (.entry name dtype))
        { w with dir := { w.dir with seen := name :: w.dir.seen } }
  | finished (hdue : ∀ n ∈ w.dir.due, n ∈ w.dir.seen) : Permits w p (.readdir .finished) w
  | openSrc (o : AioState.ReadAnswer) (q : CopyRequest) (loc : Loc) (hfd : 0 ≤ o.fd)
      (hhead : p.aio.mgr.readHead.bind p.aio.reqs.get? = some q)
      (hopen : w.fs.openRead w.cwd q.srcName = some loc)
      (hsize : ∀ n ∈ o.stSize, n = (w.fs.content loc).length) :
      Permits w p (.aio (.readOne o)) (w.openFile o.fd loc)
  | noSrc (o : AioState.ReadAnswer)
      (hfail : o.fd < 0 ∨ p.aio.mgr.readHead.bind p.aio.reqs.get? = none) :
      Permits w p (.aio (.readOne o)) w
  | openDst (fd : ℤ) (q : CopyRequest) (loc : Loc) (fs' : Fs) (hfd : 0 ≤ fd)
      (hhead : p.aio.mgr.writeHead.bind p.aio.reqs.get? = some q)
      (hopen : w.fs.openCreate w.cwd q.dstName = .ok (loc, fs')) :
      Permits w p (.aio (.writeOne fd)) { w.openFile fd loc with fs := fs' }
  | noDst (fd : ℤ) (hfail : fd < 0 ∨ p.aio.mgr.writeHead.bind p.aio.reqs.get? = none) :
      Permits w p (.aio (.writeOne fd)) w
  | complete (c : Iocb) (res : ℕ) : Permits w p (.aio (.complete c res)) (w.transfer c res)
  /-- A label that the environment has no part in. -/
  | other (l : Label) (hstat : ∀ k, l ≠ .stat (some k)) (hmkdir : l ≠ .mkdir true)
      (hopendir : l ≠ .opendir true) (hentry : ∀ n d, l ≠ .readdir (.entry n d))
      (hfinished : l ≠ .readdir .finished) (hread : ∀ o, l ≠ .aio (.readOne o))
      (hwrite : ∀ fd, l ≠ .aio (.writeOne fd)) (hcomplete : ∀ c n, l ≠ .aio (.complete c n)) :
      Permits w p l w

variable {w w' : World} {p : Prog} {l : Label}

lemma permits_of_afterAio {act : Act} (h : w.afterAio p.aio act = some w') :
    Permits w p (.aio act) w' := by
  cases act with
  | readOne o =>
    rw [afterAio] at h
    split_ifs at h with hfd
    · obtain rfl := Option.some.inj h
      exact .noSrc o (Or.inl hfd)
    · cases hhead : p.aio.mgr.readHead.bind p.aio.reqs.get? with
      | none =>
        simp only [hhead, Option.some.injEq] at h
        exact h ▸ .noSrc o (Or.inr hhead)
      | some q =>
        simp only [hhead, openSrc] at h
        cases hopen : w.fs.openRead w.cwd q.srcName with
        | none => simp [hopen] at h
        | some loc =>
          simp only [hopen] at h
          obtain ⟨hsize, rfl⟩ := Option.ite_none_right_eq_some.mp h |>.imp_right Option.some.inj
          exact .openSrc o q loc (not_lt.mp hfd) hhead hopen hsize
  | writeOne fd =>
    rw [afterAio] at h
    split_ifs at h with hfd
    · obtain rfl := Option.some.inj h
      exact .noDst fd (Or.inl hfd)
    · cases hhead : p.aio.mgr.writeHead.bind p.aio.reqs.get? with
      | none =>
        simp only [hhead, Option.some.injEq] at h
        exact h ▸ .noDst fd (Or.inr hhead)
      | some q =>
        simp only [hhead, openDst] at h
        cases hopen : w.fs.openCreate w.cwd q.dstName with
        | error e => simp [hopen] at h
        | ok r =>
          obtain ⟨loc, fs'⟩ := r
          simp only [hopen, Option.some.injEq] at h
          exact h ▸ .openDst fd q loc fs' (not_lt.mp hfd) hhead hopen
  | complete c res =>
    obtain rfl := Option.some.inj h
    exact .complete c res
  | _ =>
    obtain rfl := Option.some.inj h
    exact .other _ (by simp) (by simp) (by simp) (by simp) (by simp) (by simp) (by simp) (by simp)

lemma permits_of_after (h : w.after p l = some w') : Permits w p l w' := by
  have hother : ∀ {l : Label}, (∀ k, l ≠ .stat (some k)) → l ≠ .mkdir true → l ≠ .opendir true →
      (∀ n d, l ≠ .readdir (.entry n d)) → l ≠ .readdir .finished → (∀ act, l ≠ .aio act) →
      w.after p l = some w' → Permits w p l w' := by
    intro l hstat hmkdir hopendir hentry hfinished haio h
    have hw : w.after p l = some w := by
      unfold after
      split <;> simp_all
    obtain rfl := Option.some.inj (hw.symm.trans h)
    exact .other l hstat hmkdir hopendir hentry hfinished (fun _ => haio _) (fun _ => haio _)
      fun _ _ => haio _
  cases l with
  | aio act => exact permits_of_afterAio h
  | stat answer =>
    cases answer with
    | none => exact hother (by simp) (by simp) (by simp) (by simp) (by simp) (by simp) h
    | some k =>
      rw [after] at h
      split at h
      · simp at h
      · rename_i curr rest hqueue
        obtain ⟨hstat, rfl⟩ := Option.ite_none_right_eq_some.mp h |>.imp_right Option.some.inj
        exact .stat k curr rest hqueue hstat
  | mkdir ok =>
    cases ok with
    | false => exact hother (by simp) (by simp) (by simp) (by simp) (by simp) (by simp) h
    | true =>
      rw [after] at h
      split at h
      · simp at h
      · rename_i curr rest hqueue
        split at h
        · simp at h
        · rename_i fs' hmkdir
          obtain rfl := Option.some.inj h
          exact .mkdir curr rest fs' hqueue hmkdir
  | opendir ok =>
    cases ok with
    | false => exact hother (by simp) (by simp) (by simp) (by simp) (by simp) (by simp) h
    | true =>
      rw [after] at h
      split at h
      · simp at h
      · rename_i curr rest hqueue
        split at h
        · simp at h
        · rename_i loc hloc
          obtain ⟨hdir, rfl⟩ := Option.ite_none_right_eq_some.mp h |>.imp_right Option.some.inj
          exact .opendir curr rest loc hqueue ⟨Fs.fileAt_eq_some.mp hloc, hdir⟩
  | readdir answer =>
    cases answer with
    | failed => exact hother (by simp) (by simp) (by simp) (by simp) (by simp) (by simp) h
    | finished =>
      obtain ⟨hdue, rfl⟩ := Option.ite_none_right_eq_some.mp h |>.imp_right Option.some.inj
      exact .finished hdue
    | entry name dtype =>
      obtain ⟨hlists, rfl⟩ := Option.ite_none_right_eq_some.mp h |>.imp_right Option.some.inj
      exact .entry name dtype hlists
  | _ => exact hother (by simp) (by simp) (by simp) (by simp) (by simp) (by simp) h

/-! ### Growth -/

lemma transfer_le (c : Iocb) (res : ℕ) : w.fs.Le (w.transfer c res).fs := by
  unfold transfer
  cases w.files c.fd with
  | none => exact Fs.Le.refl _
  | some loc =>
    cases c.opcode with
    | pread => exact Fs.Le.refl _
    | pwrite => exact Fs.Le.setContent

lemma shape_transfer (c : Iocb) (res : ℕ) (l : Loc) :
    ((w.transfer c res).fs.entry l).map Entry.shape = (w.fs.entry l).map Entry.shape := by
  unfold transfer
  cases w.files c.fd with
  | none => rfl
  | some loc =>
    cases c.opcode with
    | pread => rfl
    | pwrite => exact Fs.shape_setContent

lemma transfer_cwd (c : Iocb) (res : ℕ) : (w.transfer c res).cwd = w.cwd := by
  unfold transfer
  cases w.files c.fd with
  | none => rfl
  | some loc => cases c.opcode <;> rfl

lemma transfer_dir (c : Iocb) (res : ℕ) : (w.transfer c res).dir = w.dir := by
  unfold transfer
  cases w.files c.fd with
  | none => rfl
  | some loc => cases c.opcode <;> rfl

lemma transfer_files (c : Iocb) (res : ℕ) : (w.transfer c res).files = w.files := by
  unfold transfer
  cases h : w.files c.fd with
  | none => rfl
  | some loc => cases c.opcode <;> rfl

/-- **The file system only grows.** -/
theorem Permits.le (h : Permits w p l w') : w.fs.Le w'.fs := by
  cases h with
  | mkdir _ _ _ _ hmkdir => exact Fs.mkdir_le hmkdir
  | openDst _ _ _ _ _ _ hopen => exact Fs.openCreate_le hopen
  | complete c res => exact transfer_le c res
  | _ => exact Fs.Le.refl _

lemma Permits.cwd (h : Permits w p l w') : w'.cwd = w.cwd := by
  cases h with
  | complete c res => exact transfer_cwd c res
  | _ => rfl

/-- Only `opendir` and `readdir` change the directory stream. -/
lemma Permits.dir_eq (h : Permits w p l w') (hread : ∀ answer, l ≠ .readdir answer)
    (hopen : l ≠ .opendir true) : w'.dir = w.dir := by
  cases h with
  | opendir => exact absurd rfl hopen
  | entry | finished => exact absurd rfl (hread _)
  | complete c res => exact transfer_dir c res
  | _ => rfl

/-- A directory stream goes on until the next `opendir`. -/
lemma Permits.seen_subset (h : Permits w p l w') (hopen : l ≠ .opendir true) :
    w.dir.seen ⊆ w'.dir.seen := by
  cases h with
  | opendir => exact absurd rfl hopen
  | entry => exact List.subset_cons_self _ _
  | complete c res =>
    rw [transfer_dir]
    exact List.Subset.refl _
  | _ => exact List.Subset.refl _

end World

namespace Sys

/-- Every system call succeeds.  The `mmap` of an empty file, which cannot succeed and whose failure
the program does not see, is not counted. -/
def Faultless (s : Sys) : Label → Prop
  | .aio act => s.prog.aio.Faultless act
  | l => ¬ l.Fails

instance (s : Sys) (l : Label) : Decidable (s.Faultless l) := by
  induction l using Label.casesOn <;> (unfold Faultless; infer_instance)

/-- `readdir` returns the names of each directory in the given order. -/
def ListsIn (order : Loc → List Name) (s : Sys) : Label → Prop
  | .readdir (.entry name _) => s.world.dir.seen.reverse ++ [name] <+: order s.world.dir.loc
  | .readdir .finished => s.world.dir.seen.reverse = order s.world.dir.loc
  | _ => True

instance (order : Loc → List Name) (s : Sys) (l : Label) : Decidable (s.ListsIn order l) := by
  induction l using Label.casesOn with
  | readdir answer =>
    induction answer using ReaddirAnswer.casesOn <;> (unfold ListsIn; infer_instance)
  | _ => unfold ListsIn; infer_instance

/-- Every system call of `aio_loop` succeeds; those of the main thread may fail. -/
def AioFaultless (s : Sys) : Label → Prop
  | .aio act => s.prog.aio.Faultless act
  | _ => True

variable {s s' : Sys} {l : Label} {ls : List Label} {fs : Fs} {cwd : Loc}
  {srcName dstName : CStr} {batchSize : ℤ}

lemma Faultless.aio (h : s.Faultless l) : s.AioFaultless l := by
  cases l with
  | aio act => exact h
  | _ => trivial

/-- Inversion of a step. -/
theorem fires_of_step (h : s.step l = some s') :
    s.prog.aio.ended = none ∧ Prog.Fires s.prog l s'.prog ∧
      World.Permits s.world s.prog l s'.world := by
  obtain ⟨p, hp, hw⟩ := Option.bind_eq_some_iff.mp h
  obtain ⟨w, hafter, rfl⟩ := Option.map_eq_some_iff.mp hw
  obtain ⟨hended, hfires⟩ := Prog.fires_of_step hp
  exact ⟨hended, hfires, World.permits_of_after hafter⟩

lemma prog_step (h : s.step l = some s') : s.prog.step l = some s'.prog := by
  obtain ⟨p, hp, hw⟩ := Option.bind_eq_some_iff.mp h
  obtain ⟨w, -, rfl⟩ := Option.map_eq_some_iff.mp hw
  exact hp

/-- The labels of a run of the system are those of a run of the program. -/
lemma prog_exec (h : exec Sys.step s ls = some s') : exec Prog.step s.prog ls = some s'.prog := by
  refine exec_invariant (I := fun ls s' => exec Prog.step s.prog ls = some s'.prog)
    (fun _ ih hstep => exec_concat.mpr ⟨_, ih, prog_step hstep⟩) h rfl

/-- A step of the main thread completes no transfer. -/
lemma ne_complete_of_manager {act : Act} (hact : act.ofClient = true ∨ l = .aio act)
    (hl : ∀ c n, l ≠ .aio (.complete c n)) (c : Iocb) (n : ℕ) : act ≠ .complete c n := by
  rintro rfl
  rcases hact with hclient | rfl
  · simp [Act.ofClient] at hclient
  · exact hl c n rfl

/-- Nothing fails in what a step of the main thread does to the manager. -/
lemma faultless_of_manager {act : Act} (hact : act.ofClient = true ∨ l = .aio act)
    (hok : s.AioFaultless l) : s.prog.aio.Faultless act := by
  rcases hact with hclient | rfl
  · cases act <;> simp [Act.ofClient] at hclient <;> trivial
  · exact hok

/-- **Every run of the system is a run of the program.** -/
theorem prog_reaches {ok : Sys → Label → Prop} {okP : Prog → Label → Prop}
    (hok : ∀ s l, ok s l → okP s.prog l)
    (h : Reaches Sys.step ok (init fs cwd srcName dstName batchSize) s) :
    Reaches Prog.step okP (Prog.init srcName dstName batchSize) s.prog :=
  h.simulate Sys.prog fun hl hstep => Reaches.single (hok _ _ hl) (prog_step hstep)

lemma prog_reaches_any {ok : Sys → Label → Prop}
    (h : Reaches Sys.step ok (init fs cwd srcName dstName batchSize) s) :
    Reaches Prog.step anyLabel (Prog.init srcName dstName batchSize) s.prog :=
  prog_reaches (fun _ _ _ => trivial) h

lemma cwd_eq {ok : Sys → Label → Prop}
    (h : Reaches Sys.step ok (init fs cwd srcName dstName batchSize) s) : s.world.cwd = cwd :=
  h.invariant (I := fun s => s.world.cwd = cwd)
    (fun hs _ hstep => (fires_of_step hstep).2.2.cwd.trans hs) rfl

lemma fs_le {ok : Sys → Label → Prop}
    (h : Reaches Sys.step ok (init fs cwd srcName dstName batchSize) s) : fs.Le s.world.fs :=
  h.invariant (I := fun s => fs.Le s.world.fs)
    (fun hs _ hstep => hs.trans (fires_of_step hstep).2.2.le) (Fs.Le.refl fs)

lemma argv_eq {ok : Sys → Label → Prop}
    (h : Reaches Sys.step ok (init fs cwd srcName dstName batchSize) s) :
    s.prog.argv = ⟨srcName, dstName⟩ :=
  h.invariant (I := fun s => s.prog.argv = ⟨srcName, dstName⟩)
    (fun hs _ hstep => (Prog.argv_of_fires (fires_of_step hstep).2.1).trans hs) rfl

end Sys

/-! ### Open files -/

lemma Iocb.Opens.not_ofClient {c : Iocb} {a : AioState} {act : Act} (h : c.Opens a act) :
    ¬ act.ofClient = true := by
  have hact := h.act
  cases hop : c.opcode with
  | pread =>
    simp only [hop] at hact
    obtain ⟨-, o, rfl, -⟩ := hact
    simp [Act.ofClient]
  | pwrite =>
    simp only [hop] at hact
    rw [hact.2]
    simp [Act.ofClient]

namespace World.Permits

variable {w w' : World} {p : Prog} {act : Act} {c : Iocb}

/-- What `aio_loop` opened for reading is the source of the request. -/
lemma src_of_opens (h : Permits w p (.aio act) w') (hgood : Good p.aio)
    (hopens : c.Opens p.aio act) (hop : c.opcode = .pread) :
    ∃ q loc, p.aio.reqs.get? c.data = some q ∧ w.fs.openRead w.cwd q.srcName = some loc ∧
      w' = w.openFile c.fd loc := by
  have hact := hopens.act
  have hnonneg := hopens.nonneg
  simp only [hop] at hact
  obtain ⟨hhead, o, rfl, hfd⟩ := hact
  obtain ⟨q, hq⟩ := hgood.get?_readHead hhead
  cases h with
  | openSrc _ q' loc _ hhead' hopen =>
    rw [hhead, Option.bind_some, hq] at hhead'
    obtain rfl := Option.some.inj hhead'
    exact ⟨q, loc, hq, hopen, by rw [hfd]⟩
  | noSrc _ hfail =>
    rw [hhead, Option.bind_some, hq] at hfail
    exact absurd hfail (by simp; omega)
  | other _ _ _ _ _ _ hread => exact absurd rfl (hread _)

/-- What `aio_loop` opened for writing is the destination of the request. -/
lemma dst_of_opens (h : Permits w p (.aio act) w') (hgood : Good p.aio)
    (hopens : c.Opens p.aio act) (hop : c.opcode = .pwrite) :
    ∃ q loc fs', p.aio.reqs.get? c.data = some q ∧
      w.fs.openCreate w.cwd q.dstName = .ok (loc, fs') ∧
      w' = { w.openFile c.fd loc with fs := fs' } := by
  have hact := hopens.act
  have hnonneg := hopens.nonneg
  simp only [hop] at hact
  obtain ⟨hhead, rfl⟩ := hact
  obtain ⟨q, hq⟩ := hgood.get?_writeHead hhead
  cases h with
  | openDst _ q' loc fs' _ hhead' hopen =>
    rw [hhead, Option.bind_some, hq] at hhead'
    obtain rfl := Option.some.inj hhead'
    exact ⟨q, loc, fs', hq, hopen, rfl⟩
  | noDst _ hfail =>
    rw [hhead, Option.bind_some, hq] at hfail
    exact absurd hfail (by simp; omega)
  | other _ _ _ _ _ _ _ hwrite => exact absurd rfl (hwrite _)

end World.Permits

namespace Sys

variable {s s' : Sys} {l : Label} {c : Iocb}

/-- A control block is an old one, or the one for the file that was just opened. -/
lemma mem_refs_of_step (hlocks : Locks s.prog) (hgood : Good s.prog.aio)
    (hstep : s.step l = some s') (hc : c ∈ s'.prog.aio.refs) :
    c ∈ s.prog.aio.refs ∨ ∃ act, l = .aio act ∧ c.Opens s.prog.aio act := by
  rcases Prog.manager_step hlocks (prog_step hstep) with heq | ⟨act, ha, hact⟩
  · exact Or.inl (heq ▸ hc)
  cases hgood.refsMoves ha with
  | kept hrefs => exact Or.inl (hrefs.mem_iff.mp hc)
  | closed c' hrefs => exact Or.inl (hrefs.mem_iff.mpr (List.mem_cons_of_mem _ hc))
  | opened c' hopens hrefs =>
    rcases List.mem_cons.mp (hrefs.mem_iff.mp hc) with rfl | hc
    · rcases hact with hclient | rfl
      · exact absurd hclient hopens.not_ofClient
      · exact Or.inr ⟨act, rfl, hopens⟩
    · exact Or.inl hc

/-- The file behind an open descriptor stays. -/
lemma files_of_mem {fd : ℤ} (hstep : s.step l = some s') (hfd : fd ∈ s.prog.aio.openFds) :
    s'.world.files fd = s.world.files fd := by
  obtain ⟨hended, hfires, hperm⟩ := Sys.fires_of_step hstep
  obtain ⟨p', w'⟩ := s'
  dsimp only at hfires hperm ⊢
  cases hperm with
  | openSrc o q loc hnonneg =>
    obtain ⟨a, hact, rfl⟩ := Prog.aio_fires hended hfires
    cases hact with
    | readOne _ _ _ _ _ hposs => exact if_neg fun heq : fd = o.fd => hposs.1 hnonneg (heq ▸ hfd)
  | openDst x q loc fs' hnonneg =>
    obtain ⟨a, hact, rfl⟩ := Prog.aio_fires hended hfires
    cases hact with
    | writeOne _ _ _ _ _ hfresh => exact if_neg fun heq : fd = x => hfresh hnonneg (heq ▸ hfd)
  | complete c res => rw [World.transfer_files]
  | _ => rfl

end Sys

end Cpr
