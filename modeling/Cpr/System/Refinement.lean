/-
# The copy builds the source anew

Seen through the places below the destination, a run of the program is the work towards a
goal: a directory is made in its parent, a regular file is made empty and then filled at
once.  So whatever the schedule, and wherever the process stops, the destination is a part of
the copy that has its directories, every file in it is empty or complete, and the rest of the
copy could be added to it.
-/
import Cpr.Lib.Goal
import Cpr.Program.Exits
import Cpr.System.Copy

namespace Cpr

open Transition Unix

instance (s : Sys) (l : Label) : Decidable (s.AioFaultless l) := by
  induction l using Label.casesOn <;> (unfold Sys.AioFaultless; infer_instance)

/-! ### The last step -/

/-- The step that ends the process does not touch the file system. -/
lemma World.Permits.fs_eq_of_ends {w w' : World} {p : Prog} {l : Label} {code : ℤ}
    (h : World.Permits w p l w') (hends : p.Ends l code) : w'.fs = w.fs := by
  cases h with
  | mkdir =>
    cases hends with
    | fails _ hfails => cases hfails
  | openDst fd _ _ _ hfd =>
    cases hends with
    | fails _ hfails => cases hfails
    | aio _ hstops =>
      cases hstops with
      | openDst _ hneg => omega
  | complete =>
    cases hends with
    | fails _ hfails => cases hfails
    | aio _ hstops => cases hstops
  | _ => rfl

namespace Sys

variable {s s' : Sys} {l : Label} {fs : Fs} {cwd : Loc} {srcName dstName : CStr} {batchSize : ℤ}
  {ok : Sys → Label → Prop}

lemma fs_eq_of_ended (hgood : Good s.prog.aio) (hstep : s.step l = some s')
    (hended : s'.prog.aio.ended ≠ none) : s'.world.fs = s.world.fs := by
  rcases Prog.ended_cases hgood (prog_step hstep) with ⟨code, hends, -⟩ | ⟨-, hnone⟩
  · exact (fires_of_step hstep).2.2.fs_eq_of_ends hends
  · exact absurd hnone hended

/-- The file system of a process that ended is that of a state in which it was running. -/
lemma exists_running (h : Reaches Sys.step ok (init fs cwd srcName dstName batchSize) s) :
    ∃ u, Reaches Sys.step ok (init fs cwd srcName dstName batchSize) u ∧
      u.prog.aio.ended = none ∧ u.world.fs = s.world.fs := by
  by_cases hended : s.prog.aio.ended = none
  · exact ⟨s, h, hended, rfl⟩
  cases h with
  | refl => exact absurd rfl hended
  | tail hpre hlast =>
    rename_i u
    obtain ⟨l, hok, hstep⟩ := hlast
    have hgood : Good u.prog.aio := Prog.good_of_reaches (prog_reaches_any hpre)
    exact ⟨u, hpre, (fires_of_step hstep).1, (fs_eq_of_ended hgood hstep hended).symm⟩

end Sys

/-! ### The goal -/

namespace Setting

/-- The copy: the directories and the regular files of the source.  The other files are not
copied. -/
def goal (t : Setting) : Goal Loc Entry where
  value rel :=
    match t.fs.entry (rel ++ t.root) with
    | some .dir => some .dir
    | some (.reg _) => some (.reg (t.transferred rel))
    | _ => none
  parent rel := rel.tail?
  blank := Entry.shape
  closed rel hsome p hp := by
    cases rel with
    | nil => simp at hp
    | cons n rel =>
      obtain rfl : rel = p := Option.some.inj hp
      have hentry : (t.fs.entry (n :: (rel ++ t.root))).isSome := by
        cases he : t.fs.entry (n :: (rel ++ t.root)) with
        | none => simp [he] at hsome
        | some e => rfl
      rw [t.fs.parent n _ hentry]
      rfl

/-- What is below the destination. -/
def built (t : Setting) (s : Sys) (rel : Loc) : Option Entry := s.world.fs.entry (rel ++ t.target)

variable {t : Setting} {s s' : Sys} {d : Places} {l : Label} {rel : Loc} {e : Entry}

lemma goal_value_dir (h : t.kind rel = some .dir) : t.goal.value rel = some .dir := by
  have hentry := map_kind_eq_dir.mp h
  simp only [goal, hentry]

lemma goal_value_reg (h : t.kind rel = some .reg) :
    t.goal.value rel = some (.reg (t.transferred rel)) := by
  obtain ⟨bytes, hentry⟩ := map_kind_eq_reg.mp h
  simp only [goal, hentry]

lemma goal_value_eq_none (hdir : t.kind rel ≠ some .dir) (hreg : t.kind rel ≠ some .reg) :
    t.goal.value rel = none := by
  unfold kind at hdir hreg
  unfold goal
  cases he : t.fs.entry (rel ++ t.root) with
  | none => simp only [he]
  | some e => cases e <;> simp_all [Entry.kind]

lemma goal_finite (t : Setting) : {rel | (t.goal.value rel).isSome}.Finite := by
  refine (t.fs.dom.finite_toSet.preimage (f := fun rel => rel ++ t.root)
    fun rel _ rel' _ heq => List.append_cancel_right heq).subset fun rel hrel => ?_
  rw [Set.mem_preimage, Finset.mem_coe, t.fs.mem_dom]
  cases he : t.fs.entry (rel ++ t.root) with
  | none => simp [goal, he] at hrel
  | some e => rfl

lemma goal_wellFounded (t : Setting) : WellFounded fun p rel => p ∈ t.goal.parent rel := by
  refine Subrelation.wf (fun {p rel} hp => ?_) (measure (α := Loc) List.length).wf
  cases rel with
  | nil => simp [goal] at hp
  | cons n rel =>
    obtain rfl : rel = p := Option.some.inj hp
    exact Nat.lt_succ_self _

/-- The parent of what is below the destination is there. -/
lemma built_parent {fs : Fs} (h : (fs.entry (rel ++ t.target)).isSome) :
    ∀ p ∈ t.goal.parent rel, (fs.entry (p ++ t.target)).isSome := by
  intro p hp
  cases rel with
  | nil => simp [goal] at hp
  | cons n rel =>
    obtain rfl : rel = p := Option.some.inj hp
    have hdir : fs.entry (rel ++ t.target) = some .dir := fs.parent n (rel ++ t.target) h
    rw [hdir]
    rfl

/-- A new entry below the destination is made. -/
lemma reaches_of_adds (h : s.world.fs.Adds s'.world.fs (rel ++ t.target) e.shape)
    (hvalue : t.goal.value rel = some e) :
    Reaches t.goal.step anyLabel (t.built s) (t.built s') := by
  have hparent : ∀ p ∈ t.goal.parent rel, (t.built s p).isSome := by
    intro p hp
    have hthere := built_parent (t := t) (by rw [h.self]; rfl) p hp
    cases rel with
    | nil => simp [goal] at hp
    | cons n rel =>
      obtain rfl : rel = p := Option.some.inj hp
      rwa [h.other _ fun heq => by simpa using congrArg List.length heq] at hthere
  have heq : t.built s' = Function.update (t.built s) rel (some e.shape) := by
    funext rel'
    by_cases hrel : rel' = rel
    · subst hrel
      rw [Function.update_self]
      exact h.self
    · rw [Function.update_of_ne hrel]
      exact h.other _ fun happ => hrel (List.append_cancel_right happ)
  rw [heq]
  exact Reaches.single trivial (Goal.step_make hvalue h.new hparent)

/-- A regular file below the destination is filled. -/
lemma reaches_of_setContent {old : List UInt8} (hold : t.built s rel = some (.reg old))
    (hreg : t.kind rel = some .reg)
    (hfs : s'.world.fs = s.world.fs.setContent (rel ++ t.target) (t.transferred rel)) :
    Reaches t.goal.step anyLabel (t.built s) (t.built s') := by
  have heq : t.built s' = Function.update (t.built s) rel (some (.reg (t.transferred rel))) := by
    funext rel'
    rw [built, hfs]
    by_cases hrel : rel' = rel
    · subst hrel
      rw [Function.update_self]
      exact Fs.entry_setContent_self hold
    · rw [Function.update_of_ne hrel]
      exact Fs.entry_setContent_of_ne fun happ => hrel (List.append_cancel_right happ)
  rw [heq]
  exact Reaches.single trivial (Goal.step_fill (goal_value_reg hreg) (by rw [hold]; rfl))

end Setting

/-! ### The steps -/

section

variable {t : Setting} {s s' : Sys} {d : Places} {l : Label} {rel : Loc} {batchSize : ℤ}
  {ok : Sys → Label → Prop}

/-- The completion of a write puts the bytes of the source into an existing file. -/
lemma Data.Pending.fs_of_pwrite {c : Iocb} {q : CopyRequest} (hc : Data.Pending t s c q rel)
    (hdata : Data t s) (hgood : Good s.prog.aio) (hmem : .pending c ∈ s.prog.aio.flight)
    (hop : c.opcode = .pwrite) : ∃ old, t.built s rel = some (.reg old) ∧
      (s.world.transfer c c.nbytes).fs =
        s.world.fs.setContent (rel ++ t.target) (t.transferred rel) := by
  obtain ⟨xs, ys, b, hinv, -⟩ := hgood
  have hnot : ¬ s.prog.aio.Awaits .pread c.data :=
    hinv.not_awaits (AioState.mem_refs_of_flight hmem) (by rw [hop]; decide)
  have hreg := hc.reg
  rw [hop] at hreg
  obtain ⟨old, hold⟩ := map_kind_eq_reg.mp hreg
  have hfile : s.world.files c.fd = some (rel ++ t.target) := by rw [hc.file, hop]; rfl
  have hbytes : s.world.mem.load c.buf c.nbytes = t.transferred rel := by
    rw [hc.describes.buf, hc.nbytes, hc.progress.loaded.resolve_left hnot]
  have hcontent : s.world.fs.content (rel ++ t.target) = old := by
    rw [Fs.content, show s.world.fs.entry (rel ++ t.target) = some (.reg old) from hold]
  refine ⟨old, hold, ?_⟩
  rw [World.transfer_pwrite hfile hop hc.describes.offset hbytes
    (by rw [hcontent]; exact hdata.content rel old hold)]

/-- **A step of the program is work towards the goal**, or none. -/
theorem Copying.reaches_built (h : Copying t s d) (hdata : Data t s) (hr : t.Run s)
    (hok : s.AioFaultless l) (hstep : s.step l = some s') :
    Reaches t.goal.step anyLabel (t.built s) (t.built s') := by
  obtain ⟨hended, hfires, hperm⟩ := Sys.fires_of_step hstep
  have hsame : s'.world.fs = s.world.fs →
      Reaches t.goal.step anyLabel (t.built s) (t.built s') := by
    intro hfs
    have heq : t.built s' = t.built s := by
      funext rel
      rw [Setting.built, hfs]
      rfl
    rw [heq]
    exact Reaches.refl
  obtain ⟨p', w'⟩ := s'
  dsimp only at hfires hperm
  cases hperm with
  | mkdir curr rest fs' hqueue hmkdir =>
    cases hfires with
    | fail _ _ hfails => cases hfails
    | mkdir hpc =>
      obtain ⟨rel, todo, hd, hcurr, -⟩ := h.walk.exists_head hqueue
      have hrel : rel ∈ d.todo.head? := by rw [hd]; rfl
      rw [hcurr] at hmkdir
      have hadds := Fs.mkdir_adds hmkdir
        (h.tree.dst_at h.tree.toMirror hr (Places.mem_met_of_head hrel))
      exact Setting.reaches_of_adds hadds (Setting.goal_value_dir
        (h.tree.kind_head h.walk hr hrel (by rw [hpc]; rfl)))
  | openDst fd q loc fs' _ hhead hopen =>
    obtain ⟨r, -, hq⟩ := Option.bind_eq_some_iff.mp hhead
    obtain ⟨rel, hfor, hfiles⟩ := h.tree.toFiles.of_get? hq
    rw [hfiles.dstName] at hopen
    obtain ⟨-, hold | hadds⟩ :=
      Fs.openCreate_adds hopen (h.tree.dst_at h.tree.toMirror hr hfor.met) (h.tree.ne_lnk rel)
    · exact hsame hold
    · exact Setting.reaches_of_adds (e := .reg (t.transferred rel)) hadds
        (Setting.goal_value_reg hfor.reg)
  | complete c res =>
    obtain ⟨a, hact, rfl⟩ := Prog.aio_fires hended hfires
    cases hact with
    | complete _ _ hmem =>
      obtain rfl : res = c.nbytes := hok
      obtain ⟨q, rel, hc⟩ := hdata.exists_pending h hr hended hmem
      cases hop : c.opcode with
      | pread =>
        refine hsame ?_
        rw [World.transfer_pread (by rw [hc.file, hop]) hop hc.describes.offset]
      | pwrite =>
        obtain ⟨old, hold, hfs⟩ := hc.fs_of_pwrite hdata hr.ready.good hmem hop
        exact Setting.reaches_of_setContent hold hc.progress.reg hfs
  | _ => exact hsame rfl

/-- What is below the destination was built from nothing. -/
lemma built_of_reaches_nil (hok : ∀ s l, ok s l → s.AioFaultless l)
    (h : Reaches Sys.step ok (t.init batchSize) s) :
    Reaches t.goal.step anyLabel (fun _ => none) (t.built s) := by
  have hnone : t.built (t.init batchSize) = fun _ => none := funext fun _ => t.below_target_new
  refine h.invariant_of (J := fun s => Reaches Sys.step ok (t.init batchSize) s)
    (I := fun s => Reaches t.goal.step anyLabel (fun _ => none) (t.built s))
    (fun _ hr => hr) (fun {u l s'} hu _ hbuilt hl hstep => ?_) (hnone ▸ Reaches.refl)
  have hended : u.prog.aio.ended = none ∨ u.prog.aio.ended = some (.exited 0) :=
    Or.inl (Sys.fires_of_step hstep).1
  obtain ⟨d, hcopy⟩ := Copying.of_reaches hu hended
  have hdata : Data t u := .of_reaches hok hu hended
  exact hbuilt.trans (hcopy.reaches_built hdata (.of_reaches hu) (hok u l hl) hstep)

/-- **The program refines the building of the copy**: in every state of every run in which
`aio_loop` meets no fault, whatever calls of the main thread fail and also after the process
failed, the destination was built from nothing, and can be built on until the copy is there. -/
theorem built_of_reaches (hok : ∀ s l, ok s l → s.AioFaultless l)
    (h : Reaches Sys.step ok (t.init batchSize) s) :
    Reaches t.goal.step anyLabel (fun _ => none) (t.built s) ∧
      Reaches t.goal.step anyLabel (t.built s) t.goal.value := by
  have hfrom := built_of_reaches_nil hok h
  exact ⟨hfrom, (Goal.partial_of_reaches hfrom).reaches_value t.goal_finite t.goal_wellFounded⟩

/-- A copy that was given up: there is the directory, with an empty file in it or none. -/
theorem built_of_reaches_oneFile : ∃ s : Sys,
    Reaches Sys.step Sys.AioFaultless (oneFileTask.init 1) s ∧
      s.prog.aio.ended = some (.exited (-1)) ∧
      Reaches oneFileTask.goal.step anyLabel (fun _ => none) (oneFileTask.built s) ∧
      Reaches oneFileTask.goal.step anyLabel (oneFileTask.built s) oneFileTask.goal.value := by
  have hrun : (execOk Sys.step Sys.AioFaultless (oneFileTask.init 1)
      (oneFileWalk ++ [.waitLock false])).map (fun s => s.prog.aio.ended) =
        some (some (.exited (-1))) := by
    decide +kernel
  obtain ⟨s, hs, hended⟩ := Option.map_eq_some_iff.mp hrun
  have hreach := reaches_of_execOk hs
  exact ⟨s, hreach, hended, built_of_reaches (fun _ _ hok => hok) hreach⟩

/-- The work is done in a state in which the requests are. -/
theorem Copying.built_eq (h : Copying t s d) (hr : t.Run s)
    (hbuilt : t.goal.Partial (t.built s)) (hqueue : s.prog.queue = [])
    (hstart : s.prog.pc.beforeStart = false)
    (hreg : ∀ rel, t.kind rel = some .reg → s.Requested rel →
      s.world.fs.entry (rel ++ t.target) = some (.reg (t.transferred rel))) :
    t.built s = t.goal.value := by
  funext rel
  have hdone : (t.kind rel).isSome → rel ∈ d.done := fun hsome =>
    h.walk.mem_done hqueue hstart rel (by simpa [Setting.kind] using hsome)
  by_cases hdir : t.kind rel = some .dir
  · rw [Setting.goal_value_dir hdir]
    exact h.tree.dirs rel (hdone (by rw [hdir]; rfl)) hdir
  by_cases hfile : t.kind rel = some .reg
  · rw [Setting.goal_value_reg hfile]
    have hstat : s.srcStat rel = some .reg := (hr.srcStat_eq (by simp [hfile])).trans hfile
    rcases h.walk.made rel (hdone (by rw [hfile]; rfl)) with
      (hmade | ⟨-, hreq⟩) | ⟨k, hk, -, hother⟩
    · exact absurd (hstat.symm.trans hmade.1) (by simp)
    · exact hreg rel hfile hreq
    · exact absurd (Option.some.inj (hk.symm.trans hstat)) hother
  · have hnone := Setting.goal_value_eq_none hdir hfile
    exact (hbuilt.eq_none hnone).trans hnone.symm

/-- **Status 0 means that the goal is reached**, also when the source has files that are not
copied, for every schedule of a run in which `aio_loop` meets no fault. -/
theorem built_eq_of_success (hok : ∀ s l, ok s l → s.AioFaultless l)
    (hfiles : t.regularFiles.card < 2 ^ 32) (h : Reaches Sys.step ok (t.init batchSize) s)
    (hended : s.prog.aio.ended = some (.exited 0)) : t.built s = t.goal.value := by
  have hdata : Data t s := .of_reaches hok h (Or.inr hended)
  obtain ⟨d, hcopy⟩ := Copying.of_reaches h (Or.inr hended)
  have hr : t.Run s := .of_reaches h
  have hprog := Sys.prog_reaches_any h
  have hlt : s.prog.aio.log.accepted.length < 2 ^ 32 :=
    (hr.ready.good.accepted_le.trans (Setting.next_le_of_reaches h)).trans_lt hfiles
  have hcount : Counting s.prog := .of_reaches hprog
  have hpc := hcount.success hended
  have hlen := (Stopped.of_reaches hprog (Or.inr (hr.locks.joined hpc))).2 hlt
  have hbuilt := Goal.partial_of_reaches (built_of_reaches_nil hok h)
  exact hcopy.built_eq hr hbuilt (hcount.queue (by rw [hpc]; rfl)) (by rw [hpc]; rfl)
    fun rel hkind hreq => hdata.entry_of_request hprog (by rw [hpc]; rfl) hlen hkind hreq

/-- The copy of the directory with one file. -/
theorem built_eq_of_success_oneFile : ∃ s : Sys,
    Reaches Sys.step Sys.AioFaultless (oneFileTask.init 1) s ∧
      oneFileTask.built s = oneFileTask.goal.value := by
  have hrun : (execOk Sys.step Sys.AioFaultless (oneFileTask.init 1)
      (oneFileWalk ++ oneFileDrain)).map (fun s => s.prog.aio.ended) = some (some (.exited 0)) := by
    decide +kernel
  obtain ⟨s, hs, hended⟩ := Option.map_eq_some_iff.mp hrun
  have hreach := reaches_of_execOk hs
  have hfiles : oneFileTask.regularFiles.card < 2 ^ 32 := by decide +kernel
  exact ⟨s, hreach, built_eq_of_success (fun _ _ hok => hok) hfiles hreach hended⟩

/-! ### However the process ends -/

/-- Whatever fails, the file system is the old one outside the destination, and has nothing
below it that the source does not have. -/
lemma Confined.of_reaches (h : Reaches Sys.step ok (t.init batchSize) s) : Confined t s := by
  obtain ⟨u, hu, hrun, hfs⟩ := Sys.exists_running h
  obtain ⟨d, hcopy⟩ := Copying.of_reaches hu (Or.inl hrun)
  have hconf : Confined t u := hcopy.tree.toConfined
  exact ⟨fun l hl => hfs ▸ hconf.frame l hl, fun rel e he => hconf.copied rel e (hfs ▸ he)⟩

end

end Cpr
