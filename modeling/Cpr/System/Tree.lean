/-
# The tree below the destination

In every state of a run that did not fail, the file system is the old one outside
the destination, what lies below the destination mirrors the source, and every live control
block refers to the open file of its request.
-/
import Cpr.System.Task

namespace Cpr

open Transition Unix

/-- The file system is the old one outside the destination, and mirrors the source there. -/
structure Confined (t : Setting) (s : Sys) : Prop where
  frame : ∀ l, ¬ t.target <:+ l → s.world.fs.entry l = t.fs.entry l
  copied : ∀ rel e, s.world.fs.entry (rel ++ t.target) = some e → t.kind rel = some e.kind

/-- The walk is in the source, and has made the directories that it needs. -/
structure Mirror (t : Setting) (s : Sys) (d : Places) : Prop where
  real : ∀ rel ∈ d.met, (t.kind rel).isSome
  parent : ∀ n rel, n :: rel ∈ d.met → s.world.fs.entry (rel ++ t.target) = some .dir
  dirs : ∀ rel ∈ d.done, t.kind rel = some .dir → s.world.fs.entry (rel ++ t.target) = some .dir
  current : s.prog.pc.inDir = true → ∀ rel ∈ d.todo.head?,
    s.world.fs.entry (rel ++ t.target) = some .dir

/-- A request is for a regular file. -/
structure IsFor (t : Setting) (s : Sys) (d : Places) (r : ReqId) (rel : Loc) : Prop where
  met : rel ∈ d.met
  reg : t.kind rel = some .reg
  request : ∃ q, s.prog.aio.reqs.last? r = some q ∧ q.For (s.prog.argv.below rel)

/-- The requests are for regular files of the source, and the descriptors of the live control
blocks are those of the files that they transfer. -/
structure Files (t : Setting) (s : Sys) (d : Places) : Prop where
  requests : ∀ r q, s.prog.aio.reqs.last? r = some q → ∃ rel, IsFor t s d r rel
  files : s.prog.aio.ended = none → ∀ c ∈ s.prog.aio.refs, ∃ rel, IsFor t s d c.data rel ∧
    s.world.files c.fd = some (t.fileOf rel c.opcode) ∧
    (s.world.fs.entry (t.fileOf rel c.opcode)).map Entry.kind = some .reg

/-- The three together. -/
structure Tree (t : Setting) (s : Sys) (d : Places) : Prop extends
  Confined t s, Mirror t s d, Files t s d

section

variable {t : Setting} {s s' : Sys} {d : Places} {l : Label} {rel : Loc} {done todo : List Loc}

/-! ### Where the paths lead -/

namespace Confined

lemma change (h : Confined t s) (hc : t.Change s.world.fs s'.world.fs) : Confined t s' where
  frame l hl := (hc.frame l hl).trans (h.frame l hl)
  copied rel e he := by
    rcases hc.copied rel e he with hkind | hold
    · exact hkind
    · obtain ⟨e₀, he₀, heq⟩ := Option.map_eq_some_iff.mp hold
      rw [h.copied rel e₀ he₀, heq]

/-- The source does not change. -/
lemma source (h : Confined t s) : s.world.fs.entry (rel ++ t.root) = t.fs.entry (rel ++ t.root) :=
  h.frame _ Setting.not_target_suffix

lemma ne_lnk (h : Confined t s) (rel : Loc) (p : Path) :
    s.world.fs.entry (rel ++ t.target) ≠ some (.lnk p) := by
  intro he
  exact Setting.kind_ne_lnk (h.copied rel _ he)

/-- The destination path of a place that was met leads to its place. -/
lemma dst_at (h : Confined t s) (hm : Mirror t s d) (hr : t.Run s) (hrel : rel ∈ d.met) :
    (s.world.fs.resolveLast s.world.cwd (s.prog.argv.below rel).dstName).At (rel ++ t.target) := by
  have hle := hr.ready.le
  rw [hr.cwd, hr.argv]
  cases rel with
  | nil => exact Fs.resolveLast_at_of_missing t.dst hle (h.ne_lnk [])
  | cons n rel =>
    have hdir := hm.parent n rel hrel
    have htop : s.world.fs.entry t.target = some .dir := by
      cases rel with
      | nil => exact hdir
      | cons m rel => exact Fs.entry_of_append (by rw [hdir]; rfl) (List.cons_ne_nil m rel)
    have hat := Fs.DirAt.extend (Fs.DirAt.of_missing t.dst hle htop).1 hdir
    exact hat.resolveLast_join_at (Setting.legal_of_kind (hm.real _ hrel) n List.mem_cons_self)
      (h.ne_lnk (n :: rel))

end Confined

/-- What `stat` reports to `copy_internal` is the kind of the source file. -/
lemma Mirror.stat_head (h : Mirror t s d) (hw : Walk t.fs t.root s d) (hr : t.Run s) {k : Kind}
    {w' : World}
    (hperm : World.Permits s.world s.prog (.stat (some k)) w') :
    ∀ rel ∈ d.todo.head?, t.kind rel = some k := by
  intro rel hrel
  rw [← hr.srcStat_eq (h.real rel (Places.mem_met_of_head hrel))]
  exact hw.stat_head hperm hrel

/-- What is known about the kind of the place that the main thread works on. -/
lemma Mirror.kind_head (h : Mirror t s d) (hw : Walk t.fs t.root s d) (hr : t.Run s)
    (hrel : rel ∈ d.todo.head?) {k : Kind} (hk : s.prog.pc.kind = some k) :
    t.kind rel = some k := by
  rw [← hr.srcStat_eq (h.real rel (Places.mem_met_of_head hrel)), hw.srcStat_head hk hrel]

/-! ### The walk -/

namespace Mirror

/-- A step that keeps the queue. -/
lemma keep (h : Mirror t s d) (hle : s.world.fs.Le s'.world.fs)
    (hpc : s'.prog.pc.inDir = true → s.prog.pc.inDir = true) : Mirror t s' d where
  real := h.real
  parent n rel hrel := hle.entry_dir (h.parent n rel hrel)
  dirs rel hrel hk := hle.entry_dir (h.dirs rel hrel hk)
  current hin rel hrel := hle.entry_dir (h.current (hpc hin) rel hrel)

/-- The first place of the queue is done. -/
lemma finish (h : Mirror t s ⟨done, rel :: todo⟩) (hle : s.world.fs.Le s'.world.fs)
    (hpc : s'.prog.pc = .walk)
    (hdir : t.kind rel = some .dir → s'.world.fs.entry (rel ++ t.target) = some .dir) :
    Mirror t s' ⟨rel :: done, todo⟩ where
  real r hr := h.real r (Places.mem_met_finish.mp hr)
  parent n r hr := hle.entry_dir (h.parent n r (Places.mem_met_finish.mp hr))
  dirs r hr hk := by
    rcases List.mem_cons.mp hr with rfl | hr
    · exact hdir hk
    · exact hle.entry_dir (h.dirs r hr hk)
  current hin := by simp [hpc, MainPc.inDir] at hin

/-- `readdir` returned a name of the source. -/
lemma enqueue (h : Mirror t s ⟨done, rel :: todo⟩) (hle : s.world.fs.Le s'.world.fs)
    (hin : s.prog.pc.inDir = true) {name : Name} (hreal : (t.kind (name :: rel)).isSome) :
    Mirror t s' ⟨done, rel :: (todo ++ [name :: rel])⟩ := by
  have hhead := hle.entry_dir (h.current hin rel rfl)
  have hmet : ∀ {r : Loc}, r ∈ Places.met ⟨done, rel :: (todo ++ [name :: rel])⟩ →
      r ∈ Places.met ⟨done, rel :: todo⟩ ∨ r = name :: rel := by
    intro r hr
    simp only [Places.met, List.mem_append, List.mem_cons] at hr ⊢
    tauto
  refine ⟨fun r hr => ?_, fun n r hr => ?_, fun r hr hk => hle.entry_dir (h.dirs r hr hk),
    fun _ r hr => ?_⟩
  · rcases hmet hr with hr | rfl
    · exact h.real r hr
    · exact hreal
  · rcases hmet hr with hr | heq
    · exact hle.entry_dir (h.parent n r hr)
    · obtain ⟨-, rfl⟩ := List.cons.inj heq
      exact hhead
  · obtain rfl : rel = r := Option.some.inj hr
    exact hhead

/-- The directory that `readdir` is in. -/
lemma readdir_at (h : Mirror t s d) (hw : Walk t.fs t.root s d) (hr : t.Run s)
    (hpc : s.prog.pc = .readdir) (hrel : rel ∈ d.todo.head?) :
    t.kind rel = some .dir ∧ s.world.dir.loc = rel ++ t.root := by
  have hkind := h.kind_head hw hr hrel (by rw [hpc]; rfl)
  have hwork := hw.working rel hrel
  simp only [Working, hpc] at hwork
  obtain ⟨-, hres, -⟩ := hwork
  exact ⟨hkind, Found.here.inj (hres.symm.trans (hr.src_resolve (by rw [hkind]; rfl)))⟩

/-- A name that `readdir` returns is a name of the source directory. -/
lemma source_of_lists (h : Mirror t s ⟨done, rel :: todo⟩) (hc : Confined t s)
    (hw : Walk t.fs t.root s ⟨done, rel :: todo⟩) (hr : t.Run s) (hpc : s.prog.pc = .readdir)
    {name : Name} {dtype : DType} (hlists : s.world.Lists name dtype)
    (hname : ¬ (name = dot ∨ name = dotdot)) : ∃ e, t.fs.entry (name :: rel ++ t.root) = some e ∧
      (dtype = .unknown ∨ dtype = .ofKind e.kind) := by
  obtain ⟨-, hloc⟩ := h.readdir_at hw hr hpc rfl
  rw [not_or] at hname
  obtain ⟨-, e, he, hdtype⟩ := (hlists.resolve_left hname.1).resolve_left hname.2
  rw [hloc, ← List.cons_append, hc.source] at he
  exact ⟨e, he, hdtype⟩

theorem step (h : Mirror t s d) (hc : Confined t s) (hw : Walk t.fs t.root s d) (hr : t.Run s)
    (hstep : s.step l = some s')
    (hended : s'.prog.aio.ended = none ∨ s'.prog.aio.ended = some (.exited 0)) :
    Mirror t s' (d.after l) := by
  obtain ⟨-, hfires, hperm⟩ := Sys.fires_of_step hstep
  have hle := hperm.le
  obtain ⟨p', w'⟩ := s'
  dsimp only at hfires hperm hended hle
  cases hfires with
  | fail | readdirExit => simp [Prog.fail, AioState.exit] at hended
  | statOther curr rest k hpc hqueue hdir hreg =>
    obtain ⟨rel, todo, hd, -⟩ := hw.exists_head hqueue
    rw [Places.after, if_neg (not_or.mpr ⟨hdir, hreg⟩)]
    rw [hd] at h hw ⊢
    have hkind := h.stat_head hw hr hperm rel rfl
    exact h.finish hle hpc fun hk => absurd (Option.some.inj (hkind.symm.trans hk)) hdir
  | statDir | statReg =>
    rw [Places.after, if_pos (by simp)]
    exact h.keep hle (by simp [MainPc.inDir])
  | aio | destroy => exact h.keep hle id
  | initManager | walkEnd | bumpReqCount | copyReg | addLock | addLink
  | waitLock | waitSet | waitUnlock | join => exact h.keep hle (by simp [MainPc.inDir])
  | opendir hpc | readdirEnd hpc => exact h.keep hle fun _ => by rw [hpc]; rfl
  | startThread =>
    refine ⟨fun rel hrel => ?_, by simp [Places.after, Places.met], by simp [Places.after],
      by simp [MainPc.inDir]⟩
    obtain rfl : rel = [] := by simpa [Places.after, Places.met] using hrel
    simpa [Setting.kind] using t.root_isSome
  | mkdir hpc =>
    refine ⟨h.real, fun n rel hrel => hle.entry_dir (h.parent n rel hrel),
      fun rel hrel hk => hle.entry_dir (h.dirs rel hrel hk), fun _ rel hrel => ?_⟩
    cases hperm with
    | mkdir curr rest fs' hqueue hmkdir =>
      rw [hw.head_below hqueue hrel] at hmkdir
      exact (Fs.mkdir_adds hmkdir (hc.dst_at h hr (Places.mem_met_of_head hrel))).self
    | other _ _ hmkdir => exact absurd rfl hmkdir
  | readdirSkip name dtype hpc hname =>
    rw [Places.after, if_pos hname]
    exact h.keep hle id
  | readdirEnqueue curr rest name dtype hpc hqueue hname =>
    obtain ⟨rel, todo, hd, -⟩ := hw.exists_head hqueue
    rw [hd] at h hw ⊢
    rw [Places.after, if_neg hname]
    cases hperm with
    | entry _ _ hlists =>
      obtain ⟨e, he, -⟩ := h.source_of_lists hc hw hr hpc hlists hname
      refine h.enqueue ?_ (by rw [hpc]; rfl) (by rw [Setting.kind, he]; rfl)
      exact hle
    | other _ _ _ _ hentry => exact absurd rfl (hentry _ _)
  | closedir hpc =>
    obtain ⟨rel, todo, hd⟩ := hw.exists_head_of_inBody hr.ready (by rw [hpc]; rfl)
    rw [hd] at h ⊢
    exact h.finish hle rfl fun _ => hle.entry_dir (h.current (by rw [hpc]; rfl) rel rfl)
  | addUnlock hpc =>
    obtain ⟨rel, todo, hd⟩ := hw.exists_head_of_inBody hr.ready (by rw [hpc]; rfl)
    rw [hd] at h hw ⊢
    have hreg := h.kind_head hw hr rfl (by rw [hpc]; rfl)
    exact h.finish hle rfl fun hdir => by simp [hreg] at hdir

end Mirror

/-! ### The file system -/

/-- A live request is for a place. -/
lemma Files.of_get? (h : Files t s d) {r : ReqId} {q : CopyRequest}
    (hq : s.prog.aio.reqs.get? r = some q) :
    ∃ rel, IsFor t s d r rel ∧ q.For (s.prog.argv.below rel) := by
  obtain ⟨rel, hfor⟩ := h.requests r q (Heap.last?_of_get? hq)
  obtain ⟨q', hq', hnames⟩ := hfor.request
  obtain rfl := Option.some.inj ((Heap.last?_of_get? hq).symm.trans hq')
  exact ⟨rel, hfor, hnames⟩

/-- The control blocks of a run are those of requests. -/
lemma Files.mem_refs_of_pending (h : Files t s d) (hended : s.prog.aio.ended = none) {c : Iocb}
    (hmem : .pending c ∈ s.prog.aio.flight) : ∃ rel, IsFor t s d c.data rel ∧
      s.world.files c.fd = some (t.fileOf rel c.opcode) ∧
      (s.world.fs.entry (t.fileOf rel c.opcode)).map Entry.kind = some .reg := by
  exact h.files hended c (AioState.mem_refs_of_flight hmem)

/-- **The file system changes only below the destination**, and as the source asks. -/
theorem Tree.change (h : Tree t s d) (hw : Walk t.fs t.root s d) (hr : t.Run s)
    (hstep : s.step l = some s')
    (hended' : s'.prog.aio.ended = none ∨ s'.prog.aio.ended = some (.exited 0)) :
    t.Change s.world.fs s'.world.fs := by
  obtain ⟨hended, hfires, hperm⟩ := Sys.fires_of_step hstep
  obtain ⟨p', w'⟩ := s'
  dsimp only at hfires hperm hended' ⊢
  cases hperm with
  | mkdir curr rest fs' hqueue hmkdir =>
    cases hfires with
    | fail => simp [Prog.fail, AioState.exit] at hended'
    | mkdir hpc =>
      obtain ⟨rel, todo, hd, hcurr, -⟩ := hw.exists_head hqueue
      have hrel : rel ∈ d.todo.head? := by rw [hd]; rfl
      have hmet := Places.mem_met_of_head hrel
      rw [hcurr] at hmkdir
      exact .of_adds (Fs.mkdir_adds hmkdir (h.dst_at h.toMirror hr hmet))
        (h.kind_head hw hr hrel (by rw [hpc]; rfl))
  | openDst fd q loc fs' _ hhead hopen =>
    obtain ⟨r, -, hq⟩ := Option.bind_eq_some_iff.mp hhead
    obtain ⟨rel, hfor, hfiles⟩ := h.toFiles.of_get? hq
    rw [hfiles.dstName] at hopen
    obtain ⟨-, rfl | hadds⟩ :=
      Fs.openCreate_adds hopen (h.dst_at h.toMirror hr hfor.met) (h.ne_lnk rel)
    · exact .refl _
    · exact .of_adds hadds hfor.reg
  | complete c res =>
    obtain ⟨a, hact, rfl⟩ := Prog.aio_fires hended hfires
    cases hact with
    | complete _ _ hmem =>
      obtain ⟨rel, -, hfile, -⟩ := h.mem_refs_of_pending hended hmem
      cases hop : c.opcode with
      | pread =>
        simp only [World.transfer, hfile, hop]
        exact .refl _
      | pwrite =>
        simp only [World.transfer, hfile, hop]
        exact .setContent
  | _ => exact .refl _

/-! ### Requests and descriptors -/

lemma Places.mem_met_after (hl : l ≠ .startThread true) (hrel : rel ∈ d.met) :
    rel ∈ (d.after l).met := by
  obtain ⟨done, todo⟩ := d
  unfold Places.after
  split
  · exact absurd rfl hl
  · split_ifs
    · exact hrel
    · simp only [Places.met, List.mem_append] at hrel ⊢
      tauto
  all_goals
    try split_ifs
    all_goals
      cases todo with
      | nil => simp_all [Places.met]
      | cons r todo => simpa [Places.mem_met_finish] using hrel

/-- The places that a step adds are entries of a directory, except for the first one. -/
lemma Places.mem_met_of_after (h : rel ∈ (d.after l).met) :
    rel ∈ d.met ∨ rel = [] ∨ ∃ name dtype, l = .readdir (.entry name dtype) := by
  obtain ⟨done, todo⟩ := d
  unfold Places.after at h
  split at h
  · exact Or.inr (Or.inl (by simpa [Places.met] using h))
  · exact Or.inr (Or.inr ⟨_, _, rfl⟩)
  all_goals
    try split_ifs at h
    all_goals
      cases todo with
      | nil =>
        simp only [Places.met, List.headD_nil, List.tail_nil, List.append_nil, List.mem_cons] at h ⊢
        tauto
      | cons r todo => simp_all [Places.mem_met_finish]

namespace IsFor

variable {r : ReqId} {rel' : Loc} {d' : Places}

lemma mono (h : IsFor t s d r rel) (g : Sys.Grows s s') (hmet : rel ∈ d'.met) :
    IsFor t s' d' r rel where
  met := hmet
  reg := h.reg
  request := by
    obtain ⟨q, hq, hfor⟩ := h.request
    obtain ⟨q', hq', names⟩ := g.persist r q hq
    exact ⟨q', hq', g.argv ▸ names.for hfor⟩

end IsFor

namespace Files

/-- Before the first request there is nothing to say. -/
lemma of_next (hgood : Good s.prog.aio) (hnext : s.prog.aio.reqs.next = 0) : Files t s d := by
  have hnone : ∀ r, s.prog.aio.reqs.last? r = none := fun r =>
    Heap.last?_eq_none_of_le (by omega)
  refine ⟨fun r q hq => by simp [hnone] at hq, fun _ c hc => ?_⟩
  obtain ⟨xs, ys, b, h, -⟩ := hgood
  obtain ⟨q, hq, -⟩ := h.refRec c hc
  simpa [hnone] using Heap.last?_of_get? hq

/-- The requests after a step. -/
lemma requests_step (h : Files t s d) (hm : Mirror t s d) (hw : Walk t.fs t.root s d)
    (hr : t.Run s) (hl : l ≠ .startThread true) (hstep : s.step l = some s') {r : ReqId}
    {q' : CopyRequest} (hq' : s'.prog.aio.reqs.last? r = some q') :
    ∃ rel, IsFor t s' (d.after l) r rel := by
  have g := Sys.grows_of_step hr.ready.good hstep
  obtain ⟨hended, hfires, -⟩ := Sys.fires_of_step hstep
  have hold : ∀ q, s.prog.aio.reqs.last? r = some q → ∃ rel, IsFor t s' (d.after l) r rel :=
    fun q hq => (h.requests r q hq).imp fun rel hfor =>
      hfor.mono g (Places.mem_met_after hl hfor.met)
  cases Prog.descends_of_fires hr.ready.good hended hfires hq' with
  | fresh curr rest _ hpc hqueue _ hsrc hdst =>
    obtain ⟨rel, todo, hd, hcurr, -⟩ := hw.exists_head hqueue
    have hrel : rel ∈ d.todo.head? := by rw [hd]; rfl
    refine ⟨rel, Places.mem_met_after hl (Places.mem_met_of_head hrel),
      hm.kind_head hw hr hrel (by rw [hpc]; rfl), q', hq', ?_⟩
    rw [g.argv, ← hcurr]
    exact ⟨hsrc, hdst⟩
  | old q hq => exact hold q hq
  | opened q fd hq => exact hold q (Heap.last?_of_get? hq)

/-- A new control block is for the file that was just opened. -/
lemma of_opens (h : Files t s d) (hc' : Confined t s') (hc : Confined t s) (hm : Mirror t s d)
    (hr : t.Run s) {act : Act} {c : Iocb}
    (hperm : World.Permits s.world s.prog (.aio act) s'.world) (hopens : c.Opens s.prog.aio act) :
    ∃ rel, IsFor t s d c.data rel ∧ s'.world.files c.fd = some (t.fileOf rel c.opcode) ∧
      (s'.world.fs.entry (t.fileOf rel c.opcode)).map Entry.kind = some .reg := by
  cases hop : c.opcode with
  | pread =>
    obtain ⟨q, loc, hq, hopen, hw⟩ := hperm.src_of_opens hr.ready.good hopens hop
    obtain ⟨rel, hfor, hnames⟩ := h.of_get? hq
    have hreg : (s.world.fs.entry (rel ++ t.root)).map Entry.kind = some .reg := by
      rw [hc.source]
      exact hfor.reg
    rw [hnames.srcName] at hopen
    obtain rfl := hr.openRead_eq (by simp [hfor.reg]) hopen
    rw [hw]
    exact ⟨rel, hfor, if_pos rfl, hreg⟩
  | pwrite =>
    obtain ⟨q, loc, fs', hq, hopen, hw⟩ := hperm.dst_of_opens hr.ready.good hopens hop
    obtain ⟨rel, hfor, hnames⟩ := h.of_get? hq
    have hsome := Fs.isSome_of_resolve (Fs.openCreate_ok hopen).1
    rw [hnames.dstName] at hopen
    obtain ⟨rfl, -⟩ := Fs.openCreate_adds hopen (hc.dst_at hm hr hfor.met) (hc.ne_lnk rel)
    refine ⟨rel, hfor, by rw [hw]; exact if_pos rfl, ?_⟩
    obtain ⟨e, he⟩ := Option.isSome_iff_exists.mp hsome
    have he' : s'.world.fs.entry (rel ++ t.target) = some e := by rw [hw]; exact he
    have hkind := hc'.copied rel e he'
    rw [hfor.reg] at hkind
    rw [Setting.fileOf, he']
    exact hkind.symm

theorem step (h : Files t s d) (hc' : Confined t s') (hc : Confined t s) (hm : Mirror t s d)
    (hw : Walk t.fs t.root s d) (hr : t.Run s) (hl : l ≠ .startThread true)
    (hstep : s.step l = some s') : Files t s' (d.after l) where
  requests r q' hq' := h.requests_step hm hw hr hl hstep hq'
  files _ c hcs := by
    have g := Sys.grows_of_step hr.ready.good hstep
    obtain ⟨hended, -, hperm⟩ := Sys.fires_of_step hstep
    rcases Sys.mem_refs_of_step hr.locks hr.ready.good hstep hcs with hold | ⟨act, rfl, hopens⟩
    · obtain ⟨rel, hfor, hfile, hreg⟩ := h.files hended c hold
      refine ⟨rel, hfor.mono g (Places.mem_met_after hl hfor.met), ?_, g.le.kind hreg⟩
      rw [Sys.files_of_mem hstep (hr.descriptors.mem_openFds hended hold), hfile]
    · obtain ⟨rel, hfor, hfile⟩ := h.of_opens hc' hc hm hr hperm hopens
      exact ⟨rel, hfor.mono g (Places.mem_met_after hl hfor.met), hfile⟩

end Files

/-! ### The whole -/

/-- The walk, at the given places. -/
structure Copying (t : Setting) (s : Sys) (d : Places) : Prop where
  walk : Walk t.fs t.root s d
  tidy : Tidy s d
  tree : Tree t s d

namespace Copying

variable {ok : Sys → Label → Prop} {batchSize : ℤ}

lemma init : Copying t (t.init batchSize) ⟨[], []⟩ where
  walk := .init
  tidy := .init
  tree :=
    { frame := fun _ _ => rfl
      copied := fun rel e he => by simp [Setting.init, Sys.init, Setting.below_target_new] at he
      real := by simp [Places.met]
      parent := by simp [Places.met]
      dirs := by simp
      current := by simp [Setting.init, Sys.init, Prog.init, MainPc.inDir]
      toFiles := .of_next (.init batchSize batchSize) rfl }

theorem step (h : Copying t s d) (hr : t.Run s) (hr' : t.Run s') (hstep : s.step l = some s')
    (hended : s'.prog.aio.ended = none ∨ s'.prog.aio.ended = some (.exited 0)) :
    Copying t s' (d.after l) := by
  obtain ⟨-, hfires, hperm⟩ := Sys.fires_of_step hstep
  have hconf := h.tree.toConfined.change (h.tree.change h.walk hr hstep hended)
  have hmirror := h.tree.toMirror.step h.tree.toConfined h.walk hr hstep hended
  have htidy := h.tidy.step h.walk hr.ready hstep hended
  refine ⟨h.walk.step hr.ready hstep hended, htidy, hconf, hmirror, ?_⟩
  by_cases hl : l = .startThread true
  · -- no request was made before the walk
    subst hl
    have hcount := htidy.count
    obtain ⟨p', w'⟩ := s'
    cases hfires with
    | fail => simp [AioState.exit] at hended
    | startThread => exact .of_next hr'.ready.good hcount
  · exact h.tree.toFiles.step hconf h.tree.toConfined h.tree.toMirror h.walk hr hl hstep

/-- **The whole run**, whatever fails, as long as the process does not. -/
theorem of_reaches (h : Reaches Sys.step ok (t.init batchSize) s)
    (hended : s.prog.aio.ended = none ∨ s.prog.aio.ended = some (.exited 0)) :
    ∃ d, Copying t s d := by
  refine h.invariant_of (J := t.Run) (I := fun s => s.prog.aio.ended = none ∨
    s.prog.aio.ended = some (.exited 0) → ∃ d, Copying t s d)
    (fun _ hreach => .of_reaches hreach) (fun {s l s'} hr hr' hs _ hstep hended => ?_)
    (fun _ => ⟨_, init⟩) hended
  obtain ⟨d, hd⟩ := hs (Or.inl (Sys.fires_of_step hstep).1)
  exact ⟨_, hd.step hr hr' hstep hended⟩

end Copying

end

end Cpr
