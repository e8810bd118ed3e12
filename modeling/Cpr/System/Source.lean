/-
# The walk over any source

A source is a tree without symbolic links, with the arguments of `cpr`.  When nothing is at the
destination yet and its directory is there, the walk is that of a copy to a new place.  Otherwise no
`mkdir` of the destination succeeds, and the walk does not come past the first place.
-/
import Cpr.System.Depth
import Cpr.System.FailedWalk
import Cpr.System.Termination

namespace Cpr

open Transition Unix

/-- The arguments of `cpr`, and the tree without symbolic links that is to be copied to a place
outside it. -/
structure Source where
  fs : Fs
  cwd : Loc
  srcName : CStr
  dstName : CStr
  /-- The place of the source. -/
  root : Loc
  src : fs.resolve true cwd srcName = .here root
  links : ∀ rel p, fs.entry (rel ++ root) ≠ some (.lnk p)
  outside : ∀ parent name, fs.resolveLast cwd dstName = .missing parent name →
    ¬ root <:+ name :: parent

namespace Source

variable (t : Source)

/-- The state when `main` starts. -/
def init (batchSize : ℤ) : Sys := .init t.fs t.cwd t.srcName t.dstName batchSize

/-- The kind of a file of the source. -/
def kind (rel : Loc) : Option Kind := (t.fs.entry (rel ++ t.root)).map Entry.kind

/-- The regular files of the source. -/
def regularFiles : Finset Loc :=
  t.fs.dom.filter fun l => t.root <:+ l ∧ (t.fs.entry l).map Entry.kind = some .reg

/-- The source has only directories and regular files. -/
def Plain : Prop :=
  ∀ rel e, t.fs.entry (rel ++ t.root) = some e → e.kind = .dir ∨ e.kind = .reg

/-- A file can be created at the destination. -/
def New : Prop := ∃ parent name, t.fs.resolveLast t.cwd t.dstName = .missing parent name

end Source

/-- The source of a copy to a new place. -/
def Setting.source (t : Setting) : Source where
  fs := t.fs
  cwd := t.cwd
  srcName := t.srcName
  dstName := t.dstName
  root := t.root
  src := t.src
  links := t.links
  outside parent name h := by
    obtain ⟨rfl, rfl⟩ := Found.missing.inj (t.dst.symm.trans h)
    exact t.outside

/-- A source whose destination can be created is copied to a new place. -/
lemma Source.exists_setting {t : Source} (hnew : t.New) : ∃ t' : Setting, t'.source = t := by
  obtain ⟨parent, name, h⟩ := hnew
  exact ⟨{ fs := t.fs, cwd := t.cwd, srcName := t.srcName, dstName := t.dstName, root := t.root,
           parent := parent, name := name, src := t.src, dst := h, links := t.links,
           outside := t.outside parent name h }, rfl⟩

namespace Source

variable {t : Source} {s s' : Sys} {d : Places} {l : Label} {rel : Loc} {k : Kind} {batchSize : ℤ}
  {ok : Sys → Label → Prop}

lemma kind_eq (hplain : t.Plain) (h : t.kind rel = some k) : k = .dir ∨ k = .reg := by
  obtain ⟨e, he, rfl⟩ := Option.map_eq_some_iff.mp h
  exact hplain rel e he

lemma ne_lnk {e : Entry} (h : t.fs.entry (rel ++ t.root) = some e) : ∀ p, e ≠ .lnk p := by
  rintro p rfl
  exact t.links rel p h

lemma root_isSome : (t.kind []).isSome := by
  simpa [kind] using Fs.isSome_of_resolve t.src

lemma legal_of_kind (h : (t.kind rel).isSome) : ∀ n ∈ rel, LegalName n :=
  Fs.legal_of_append (by simpa [kind] using h)

/-- What holds in every state of a run. -/
structure Run (t : Source) (s : Sys) : Prop where
  ready : Walk.Ready t.fs t.root s
  cwd : s.world.cwd = t.cwd
  argv : s.prog.argv = ⟨t.srcName, t.dstName⟩
  locks : Locks s.prog

namespace Run

theorem of_reaches (h : Reaches Sys.step ok (t.init batchSize) s) : t.Run s where
  ready := .of_reaches t.src h
  cwd := Sys.cwd_eq h
  argv := Sys.argv_eq h
  locks := .of_reaches (Sys.prog_reaches_any h)

lemma srcStat_eq (hr : t.Run s) (h : (t.kind rel).isSome) : s.srcStat rel = t.kind rel := by
  obtain ⟨k, hk⟩ := Option.isSome_iff_exists.mp h
  obtain ⟨e, he, -⟩ := Option.map_eq_some_iff.mp hk
  rw [Sys.srcStat, Fs.stat_of_resolve (hr.ready.src_resolve he (ne_lnk he)), hr.ready.le.kind hk,
    hk]

end Run

end Source

/-! ## The directories that the walk has made -/

/-- Only the walk makes directories below the destination, each for a place that it is at. -/
def Fresh (t : Setting) (s : Sys) (d : Places) : Prop :=
  ∀ rel, s.world.fs.entry (rel ++ t.target) = some .dir →
    rel ∈ d.done ∨ (s.prog.pc.inDir = true ∧ rel ∈ d.todo.head?)

namespace Fresh

variable {t : Setting} {s s' : Sys} {d : Places} {l : Label} {rel : Loc}

/-- Only `mkdir` makes a directory, for the first place of the queue. -/
lemma dir_of_step (hcopy : Copying t s d) (hr : t.Run s) (hstep : s.step l = some s')
    (he : s'.world.fs.entry (rel ++ t.target) = some .dir) :
    s.world.fs.entry (rel ++ t.target) = some .dir ∨ (l = .mkdir true ∧ rel ∈ d.todo.head?) := by
  obtain ⟨-, -, hperm⟩ := Sys.fires_of_step hstep
  obtain ⟨p', w'⟩ := s'
  dsimp only at hperm he
  cases hperm with
  | mkdir curr rest fs' hqueue hmkdir =>
    obtain ⟨rel', todo, hd, hcurr, -⟩ := hcopy.walk.exists_head hqueue
    have hrel : rel' ∈ d.todo.head? := by rw [hd]; rfl
    rw [hcurr] at hmkdir
    have hadds := Fs.mkdir_adds hmkdir
      (hcopy.tree.dst_at hcopy.tree.toMirror hr (Places.mem_met_of_head hrel))
    by_cases heq : rel = rel'
    · exact Or.inr ⟨rfl, heq ▸ hrel⟩
    · exact Or.inl ((hadds.other _ fun h => heq (List.append_cancel_right h)).symm.trans he)
  | openDst fd q loc fs' _ hhead hopen =>
    obtain ⟨r, -, hq⟩ := Option.bind_eq_some_iff.mp hhead
    obtain ⟨rel', hfor, hfiles⟩ := hcopy.tree.toFiles.of_get? hq
    rw [hfiles.dstName] at hopen
    obtain ⟨-, rfl | hadds⟩ := Fs.openCreate_adds hopen
      (hcopy.tree.dst_at hcopy.tree.toMirror hr hfor.met) (hcopy.tree.ne_lnk rel')
    · exact Or.inl he
    · by_cases heq : rel = rel'
      · rw [heq, hadds.self] at he
        cases he
      · exact Or.inl ((hadds.other _ fun h => heq (List.append_cancel_right h)).symm.trans he)
  | complete c res =>
    have hshape := World.shape_transfer (w := s.world) c res (rel ++ t.target)
    have hnew : (s.world.transfer c res).fs.entry (rel ++ t.target) = some .dir := he
    rw [hnew] at hshape
    obtain ⟨e, he', heq⟩ := Option.map_eq_some_iff.mp hshape.symm
    exact Or.inl (Entry.kind_eq_dir.mp (Entry.kind_eq_of_shape_eq heq) ▸ he')
  | _ => exact Or.inl he

theorem step (h : Fresh t s d) (hcopy : Copying t s d) (hr : t.Run s)
    (hstep : s.step l = some s')
    (hended : s'.prog.aio.ended = none ∨ s'.prog.aio.ended = some (.exited 0)) :
    Fresh t s' (d.after l) := by
  intro rel he
  have hmade := dir_of_step hcopy hr hstep he
  -- without `mkdir` it was there before, and a place of the walk
  have hold (hl : l ≠ .mkdir true) :
      rel ∈ d.done ∨ (s.prog.pc.inDir = true ∧ rel ∈ d.todo.head?) :=
    h rel (hmade.resolve_right fun hnew => hl hnew.1)
  obtain ⟨-, hfires, -⟩ := Sys.fires_of_step hstep
  obtain ⟨p', w'⟩ := s'
  dsimp only at hfires hended
  cases hfires with
  | fail | readdirExit => simp [Prog.fail, AioState.exit] at hended
  | mkdir hpc =>
    rcases hmade with hdir | ⟨-, hhead⟩
    · exact (h rel hdir).imp_right fun hin => ⟨rfl, hin.2⟩
    · exact Or.inr ⟨rfl, hhead⟩
  | startThread hpc =>
    rcases hold (by simp) with hdone | ⟨hin, -⟩
    · rw [hcopy.tidy.start (by rw [hpc]; rfl)] at hdone
      cases hdone
    · simp [hpc, MainPc.inDir] at hin
  | closedir hpc =>
    obtain ⟨r, todo, hd⟩ := hcopy.walk.exists_head_of_inBody hr.ready (by rw [hpc]; rfl)
    rw [hd] at hold ⊢
    rcases hold (by simp) with hdone | ⟨-, hhead⟩
    · exact Or.inl (List.mem_cons_of_mem _ hdone)
    · obtain rfl : r = rel := Option.some.inj hhead
      exact Or.inl List.mem_cons_self
  | readdirEnqueue curr rest name dtype hpc hqueue hname =>
    obtain ⟨r, todo, hd, -⟩ := hcopy.walk.exists_head hqueue
    rw [hd] at hold ⊢
    rw [Places.after, if_neg hname]
    exact hold (by simp)
  | readdirSkip name dtype hpc hname =>
    rw [Places.after, if_pos hname]
    exact hold (by simp)
  | statOther curr rest k hpc hqueue hdir hreg =>
    rw [Places.after, if_neg (not_or.mpr ⟨hdir, hreg⟩)]
    rcases hold (by simp) with hdone | ⟨hin, -⟩
    · exact Or.inl (List.mem_cons_of_mem _ hdone)
    · simp [hpc, MainPc.inDir] at hin
  | addUnlock hpc =>
    rcases hold (by simp) with hdone | ⟨hin, -⟩
    · exact Or.inl (List.mem_cons_of_mem _ hdone)
    · simp [hpc, MainPc.inDir] at hin
  | opendir hpc | readdirEnd hpc => exact (hold (by simp)).imp_right fun hin => ⟨rfl, hin.2⟩
  | aio | destroy => exact hold (by simp)
  | statDir _ _ hpc | statReg _ _ hpc =>
    rw [Places.after, if_pos (by simp)]
    refine Or.inl ((hold (by simp)).resolve_right fun hin => ?_)
    simp [hpc, MainPc.inDir] at hin
  | initManager hpc | walkEnd hpc | bumpReqCount hpc | copyReg _ _ hpc | addLock hpc
  | addLink _ hpc | waitLock hpc | waitSet hpc | waitUnlock hpc | join hpc =>
    refine Or.inl ((hold (by simp)).resolve_right fun hin => ?_)
    simp [hpc, MainPc.inDir] at hin

/-- `mkdir` of the first place can succeed. -/
lemma exists_mkdir (h : Fresh t s d) (hcopy : Copying t s d) (hr : t.Run s)
    (hpc : s.prog.pc = .mkdir) (hrel : rel ∈ d.todo.head?) : ∃ fs',
      s.world.fs.mkdir s.world.cwd (s.prog.argv.below rel).dstName = .ok fs' := by
  have hmet := Places.mem_met_of_head hrel
  have hat := hcopy.tree.dst_at hcopy.tree.toMirror hr hmet
  have hnone : s.world.fs.entry (rel ++ t.target) = none := by
    by_contra hsome
    obtain ⟨e, he⟩ := Option.ne_none_iff_exists'.mp hsome
    have hkind := hcopy.tree.kind_head hcopy.walk hr hrel (by rw [hpc]; rfl)
    rw [hcopy.tree.copied rel e he, Option.some.injEq] at hkind
    rw [Entry.kind_eq_dir.mp hkind] at he
    rcases h rel he with hdone | ⟨hin, -⟩
    · -- the places that are done are not in the queue
      exact (List.nodup_append.mp hcopy.tidy.nodup).2.2 rel hdone rel (List.mem_of_mem_head? hrel)
        rfl
    · simp [hpc, MainPc.inDir] at hin
  exact Fs.exists_mkdir hat hnone

end Fresh

/-! ## The walk that stays at the first place -/

/-- The walk is at the first place, and the destination cannot be made. -/
structure AtFirst (t : Source) (s : Sys) (d : Places) : Prop where
  walk : Walk t.fs t.root s d
  tidy : Tidy s d
  top : ∀ rel ∈ d.met, rel = []
  outside : s.prog.pc.inDir = false
  unchanged : t.kind [] = some .dir → s.world.fs = t.fs ∧ s.prog.aio.reqs.next = 0

/-- Without requests only `mkdir` changes the file system. -/
lemma Sys.fs_eq_of_next {s s' : Sys} {l : Label} (hgood : Good s.prog.aio)
    (hnext : s.prog.aio.reqs.next = 0) (hmkdir : l ≠ .mkdir true) (hstep : s.step l = some s') :
    s'.world.fs = s.world.fs := by
  obtain ⟨hended, hfires, hperm⟩ := Sys.fires_of_step hstep
  have hnone : ∀ r, s.prog.aio.reqs.last? r = none := fun r =>
    Heap.last?_eq_none_of_le (by omega)
  obtain ⟨p', w'⟩ := s'
  dsimp only at hfires hperm ⊢
  cases hperm with
  | mkdir => exact absurd rfl hmkdir
  | openDst fd q loc fs' _ hhead =>
    obtain ⟨r, -, hq⟩ := Option.bind_eq_some_iff.mp hhead
    simpa [hnone] using Heap.last?_of_get? hq
  | complete c res =>
    obtain ⟨a, hact, rfl⟩ := Prog.aio_fires hended hfires
    cases hact with
    | complete _ _ hmem =>
      obtain ⟨xs, ys, b, hinv, -⟩ := hgood
      obtain ⟨q, hq, -⟩ := hinv.refRec c (AioState.mem_refs_of_flight hmem)
      simpa [hnone] using Heap.last?_of_get? hq
  | _ => rfl

namespace AtFirst

variable {t : Source} {s s' : Sys} {d : Places} {l : Label} {k : Kind} {batchSize : ℤ}

lemma init : AtFirst t (t.init batchSize) ⟨[], []⟩ where
  walk := .init
  tidy := .init
  top := by simp [Places.met]
  outside := rfl
  unchanged _ := ⟨rfl, rfl⟩

/-- The main thread works on the source itself. -/
lemma kind_of_pc (h : AtFirst t s d) (hr : t.Run s) (hk : s.prog.pc.kind = some k) :
    t.kind [] = some k := by
  have hin : s.prog.pc.inBody = true := by
    revert hk
    cases s.prog.pc <;> simp [MainPc.kind, MainPc.inBody]
  obtain ⟨rel, todo, hd⟩ := h.walk.exists_head_of_inBody hr.ready hin
  have hrel : rel ∈ d.todo.head? := by rw [hd]; rfl
  obtain rfl := h.top rel (Places.mem_met_of_head hrel)
  rw [← hr.srcStat_eq Source.root_isSome]
  exact h.walk.srcStat_head hk hrel

/-- `mkdir` does not succeed. -/
lemma ne_mkdir (h : AtFirst t s d) (hr : t.Run s) (hnew : ¬ t.New) (hstep : s.step l = some s') :
    l ≠ .mkdir true := by
  rintro rfl
  obtain ⟨-, hfires, hperm⟩ := Sys.fires_of_step hstep
  have hpc : s.prog.pc = .mkdir := by
    generalize s'.prog = p' at hfires
    cases hfires with
    | fail _ _ hfails => cases hfails
    | mkdir hpc => exact hpc
  obtain ⟨p', w'⟩ := s'
  dsimp only at hperm
  cases hperm with
  | mkdir curr rest fs' hqueue hmkdir =>
    obtain ⟨rel, todo, hd, hcurr, -⟩ := h.walk.exists_head hqueue
    obtain rfl := h.top rel (Places.mem_met_of_head (by rw [hd]; rfl))
    rw [hcurr, hr.cwd, hr.argv, (h.unchanged (h.kind_of_pc hr (by rw [hpc]; rfl))).1] at hmkdir
    exact hnew (Fs.missing_of_mkdir hmkdir)
  | other _ _ hne => exact absurd rfl hne

theorem step (h : AtFirst t s d) (hr : t.Run s) (hnew : ¬ t.New) (hstep : s.step l = some s')
    (hended : s'.prog.aio.ended = none ∨ s'.prog.aio.ended = some (.exited 0)) :
    AtFirst t s' (d.after l) where
  walk := h.walk.step hr.ready hstep hended
  tidy := h.tidy.step h.walk hr.ready hstep hended
  top rel hrel := by
    rcases Places.mem_met_of_after hrel with hold | hnil | ⟨name, dtype, rfl⟩
    · exact h.top rel hold
    · exact hnil
    · obtain ⟨-, hfires, -⟩ := Sys.fires_of_step hstep
      have hout := h.outside
      generalize s'.prog = p' at hfires
      cases hfires with
      | fail _ _ hfails => cases hfails
      | readdirSkip _ _ hpc | readdirEnqueue _ _ _ _ hpc | readdirExit _ _ hpc =>
        simp [hpc, MainPc.inDir] at hout
  outside := by
    have hmkdir := h.ne_mkdir hr hnew hstep
    have hout := h.outside
    obtain ⟨-, hfires, -⟩ := Sys.fires_of_step hstep
    generalize s'.prog = p' at hfires
    cases hfires with
    | mkdir => exact absurd rfl hmkdir
    | opendir hpc | readdirSkip _ _ hpc | readdirEnqueue _ _ _ _ hpc | readdirEnd hpc
    | closedir hpc => simp [hpc, MainPc.inDir] at hout
    | fail | readdirExit | aio | destroy => exact hout
    | statOther _ _ _ hpc => exact hout
    | _ => rfl
  unchanged hdir := by
    obtain ⟨hfs, hnext⟩ := h.unchanged hdir
    have hcopy : l ≠ .copyReg := by
      rintro rfl
      obtain ⟨-, hfires, -⟩ := Sys.fires_of_step hstep
      generalize s'.prog = p' at hfires
      cases hfires with
      | fail _ _ hfails => cases hfails
      | copyReg _ _ hpc =>
        have hreg := h.kind_of_pc hr (k := .reg) (by rw [hpc]; rfl)
        simp [hdir] at hreg
    exact ⟨(Sys.fs_eq_of_next hr.ready.good hnext (h.ne_mkdir hr hnew hstep) hstep).trans hfs,
      (Prog.next_of_ne hr.ready.good (Sys.prog_step hstep) hcopy).trans hnext⟩

end AtFirst

/-! ## Any destination -/

/-- Where the walk is: in the copy to a new place, or at the first place. -/
inductive Located (t : Source) (s : Sys) (d : Places) : Prop
  | copying (t' : Setting) (heq : t'.source = t) (hcopy : Copying t' s d) (hfresh : Fresh t' s d)
  | first (hnew : ¬ t.New) (h : AtFirst t s d)

/-- The walk, at the given places of the source. -/
structure Walked (t : Source) (s : Sys) (d : Places) : Prop where
  walk : Walk t.fs t.root s d
  tidy : Tidy s d
  real : ∀ rel ∈ d.met, (t.kind rel).isSome
  /-- The source is as it was, while the walk is in one of its directories. -/
  source : s.prog.pc.inDir = true →
    ∀ rel, s.world.fs.entry (rel ++ t.root) = t.fs.entry (rel ++ t.root)

namespace Located

variable {t : Source} {s s' : Sys} {d : Places} {l : Label} {batchSize : ℤ}
  {ok : Sys → Label → Prop}

lemma walked (h : Located t s d) : Walked t s d := by
  cases h with
  | copying t' heq hcopy =>
    subst heq
    exact ⟨hcopy.walk, hcopy.tidy, hcopy.tree.real, fun _ _ => hcopy.tree.source⟩
  | first hnew h =>
    refine ⟨h.walk, h.tidy, fun rel hrel => ?_, fun hin => ?_⟩
    · rw [h.top rel hrel]
      exact Source.root_isSome
    · simp [h.outside] at hin

lemma init : Located t (t.init batchSize) ⟨[], []⟩ := by
  by_cases hnew : t.New
  · obtain ⟨t', rfl⟩ := Source.exists_setting hnew
    refine .copying t' rfl Copying.init fun rel he => ?_
    simp [Source.init, Sys.init, Setting.source, Setting.below_target_new] at he
  · exact .first hnew .init

theorem step (h : Located t s d) (hs : Reaches Sys.step ok (t.init batchSize) s) (hok : ok s l)
    (hstep : s.step l = some s')
    (hended : s'.prog.aio.ended = none ∨ s'.prog.aio.ended = some (.exited 0)) :
    Located t s' (d.after l) := by
  cases h with
  | copying t' heq hcopy hfresh =>
    subst heq
    have hr : t'.Run s := Setting.Run.of_reaches (t := t') hs
    have hr' : t'.Run s' := Setting.Run.of_reaches (t := t') (hs.tail hok hstep)
    exact .copying t' rfl (hcopy.step hr hr' hstep hended) (hfresh.step hcopy hr hstep hended)
  | first hnew h => exact .first hnew (h.step (.of_reaches hs) hnew hstep hended)

/-- The walk is somewhere, unless it was broken off. -/
theorem of_reaches (h : Reaches Sys.step ok (t.init batchSize) s)
    (hended : s.prog.aio.ended = none ∨ s.prog.aio.ended = some (.exited 0)) :
    ∃ d, Located t s d := by
  refine h.invariant_of (J := fun s => Reaches Sys.step ok (t.init batchSize) s)
    (I := fun s => s.prog.aio.ended = none ∨ s.prog.aio.ended = some (.exited 0) →
      ∃ d, Located t s d) (fun _ hr => hr) (fun {u l v} hu _ hI hok hstep hv => ?_)
    (fun _ => ⟨_, .init⟩) hended
  obtain ⟨d, hd⟩ := hI (Or.inl (Sys.fires_of_step hstep).1)
  exact ⟨_, hd.step hu hok hstep hv⟩

end Located

namespace Walked

variable {t : Source} {s s' : Sys} {d : Places} {l : Label} {rel : Loc} {k : Kind}
  {done todo : List Loc}

/-- What `stat` reports to `copy_internal` is the kind of the source file. -/
lemma stat_head (h : Walked t s d) (hr : t.Run s) {w' : World}
    (hperm : World.Permits s.world s.prog (.stat (some k)) w') (hrel : rel ∈ d.todo.head?) :
    t.kind rel = some k := by
  rw [← hr.srcStat_eq (h.real rel (Places.mem_met_of_head hrel))]
  exact h.walk.stat_head hperm hrel

/-- What is known about the kind of the place that the main thread works on. -/
lemma kind_head (h : Walked t s d) (hr : t.Run s) (hrel : rel ∈ d.todo.head?)
    (hk : s.prog.pc.kind = some k) : t.kind rel = some k := by
  rw [← hr.srcStat_eq (h.real rel (Places.mem_met_of_head hrel)), h.walk.srcStat_head hk hrel]

/-- The directory that `readdir` is in. -/
lemma readdir_at (h : Walked t s d) (hr : t.Run s) (hpc : s.prog.pc = .readdir)
    (hrel : rel ∈ d.todo.head?) : t.kind rel = some .dir ∧ s.world.dir.loc = rel ++ t.root := by
  have hkind := h.kind_head hr hrel (by rw [hpc]; rfl)
  obtain ⟨e, he, -⟩ := Option.map_eq_some_iff.mp hkind
  have hwork := h.walk.working rel hrel
  simp only [Working, hpc] at hwork
  exact ⟨hkind, Found.here.inj (hwork.2.1.symm.trans
    (hr.ready.src_resolve he (Source.ne_lnk he)))⟩

/-- An entry that `readdir` returns has the type of a directory or of a regular file. -/
lemma dtype_of_lists (h : Walked t s d) (hplain : t.Plain) (hr : t.Run s)
    (hpc : s.prog.pc = .readdir) (hrel : rel ∈ d.todo.head?) {name : Name} {dtype : DType}
    (hlists : s.world.Lists name dtype) (hname : ¬ (name = dot ∨ name = dotdot)) :
    dtype = .unknown ∨ dtype = .dir ∨ dtype = .reg := by
  rw [not_or] at hname
  obtain ⟨-, e, he, hdtype⟩ := (hlists.resolve_left hname.1).resolve_left hname.2
  rw [(h.readdir_at hr hpc hrel).2, ← List.cons_append, h.source (by rw [hpc]; rfl)] at he
  refine hdtype.imp_right fun htype => ?_
  rw [htype]
  rcases hplain _ e he with hk | hk
  · exact Or.inl (by rw [hk]; rfl)
  · exact Or.inr (by rw [hk]; rfl)

lemma length_met_le (h : Walked t s d) : d.met.length ≤ t.fs.dom.card :=
  Places.length_met_le h.tidy.nodup fun rel hrel => by simpa [Source.kind] using h.real rel hrel

/-- The requests are for different regular files. -/
lemma next_le (h : Walked t s d) (hr : t.Run s) :
    s.prog.aio.reqs.next ≤ t.regularFiles.card := by
  refine h.tidy.next_le h.walk hr.ready fun rel hrel hk => ?_
  have hsome := h.real rel hrel
  rw [hr.srcStat_eq hsome] at hk
  exact Finset.mem_filter.mpr ⟨(t.fs.mem_dom _).mpr (by simpa [Source.kind] using hsome),
    List.suffix_append rel t.root, hk⟩

/-- The number of requests, when the walk is over. -/
lemma next_eq (h : Walked t s d) (hr : t.Run s) (hqueue : s.prog.queue = [])
    (hpc : s.prog.pc.afterWalk = true) : s.prog.aio.reqs.next = t.regularFiles.card := by
  have hstart : s.prog.pc.beforeStart = false := by
    revert hpc
    cases s.prog.pc <;> simp [MainPc.afterWalk, MainPc.beforeStart]
  have hreq : s.prog.pc.requested = false := by
    revert hpc
    cases s.prog.pc <;> simp [MainPc.afterWalk, MainPc.requested]
  have hnd := (List.nodup_append.mp h.tidy.nodup).1
  -- the regular files are the places that were requested
  have hfiles : ((d.done.filter fun rel => s.srcStat rel = some .reg).map (· ++ t.root)).toFinset =
      t.regularFiles := by
    ext l
    simp only [List.mem_toFinset, List.mem_map, List.mem_filter, decide_eq_true_eq,
      Source.regularFiles, Finset.mem_filter]
    constructor
    · rintro ⟨rel, ⟨hdone, hk⟩, rfl⟩
      have hsome := h.real rel (List.mem_append_left _ hdone)
      rw [hr.srcStat_eq hsome] at hk
      exact ⟨(t.fs.mem_dom _).mpr (by simpa [Source.kind] using hsome),
        List.suffix_append rel _, hk⟩
    · rintro ⟨hdom, ⟨rel, rfl⟩, hk⟩
      have hdone := h.walk.mem_done hqueue hstart rel ((t.fs.mem_dom _).mp hdom)
      exact ⟨rel, ⟨hdone, (hr.srcStat_eq (by rw [Source.kind, hk]; rfl)).trans hk⟩, rfl⟩
  rw [h.tidy.count, hreq, ← hfiles, List.toFinset_card_of_nodup, List.length_map]
  · rfl
  · exact (hnd.filter _).map fun rel rel' heq => List.append_cancel_right heq

end Walked

end Cpr
