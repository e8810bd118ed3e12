/-
# No two writes to one file

The destination argument is made a directory before anything is made below it, and nothing
below it is ever a symbolic link.  So the destination path of a place leads to the file that
lies there at that place, and two writes that are in flight at a time, being for two places,
are to two files.  All of this holds for any arguments and any file system.
-/
import Cpr.System.Names
import Cpr.System.Tree

namespace Cpr

open Transition Unix

/-- The destination argument names the directory `top`, with no symbolic link below it. -/
structure Rooted (s : Sys) (top : Loc) : Prop where
  dir : s.world.fs.DirAt s.world.cwd s.prog.argv.dstName top
  links : ∀ rel p, s.world.fs.entry (rel ++ top) ≠ some (.lnk p)

/-- What the walk needs is made below that directory. -/
structure Dug (s : Sys) (f : Fifo Loc) (top : Loc) : Prop extends Rooted s top where
  parents : ∀ n rel, n :: rel ∈ f.enqueued → s.world.fs.entry (rel ++ top) = some .dir
  current : s.prog.pc.inDir = true → ∀ rel ∈ f.pending.head?,
    s.world.fs.entry (rel ++ top) = some .dir

/-- The walk is below the destination argument. -/
def Below (s : Sys) (f : Fifo Loc) : Prop :=
  (∃ n rel, n :: rel ∈ f.enqueued) ∨ s.prog.pc.inDir = true

/-- The file that a control block writes is the one of its place. -/
def Target (s : Sys) (f : Fifo Loc) (c : Iocb) : Prop :=
  ∃ loc q rel, s.world.files c.fd = some loc ∧ s.prog.aio.reqs.last? c.data = some q ∧
    q.For (s.prog.argv.below rel) ∧ rel ∈ f.enqueued ∧
      (rel ≠ [] → ∃ top, Rooted s top ∧ loc = rel ++ top)

/-- The files that the writes in flight are to. -/
def Sys.writeTargets (s : Sys) : List (Option Loc) :=
  ((s.prog.aio.flight.map (·.obj)).filter (·.opcode = .pwrite)).map fun c => s.world.files c.fd

/-- The names of the nodes, of the requests and of the files that are written. -/
structure DistinctNames (argv : Node) (ls : List Label) (s : Sys) : Prop where
  /-- The queue has the nodes that were inserted and not processed. -/
  queue : s.prog.queue = (Fifo.nodes argv ls).pending
  /-- Both names of a node are the arguments, with one suffix. -/
  nodes : (Fifo.nodes argv ls).enqueued = (Fifo.places ls).enqueued.map fun rel =>
    ⟨argv.srcName ++ suffix rel, argv.dstName ++ suffix rel⟩
  legal : ∀ rel ∈ (Fifo.places ls).enqueued, ∀ n ∈ rel, LegalName n
  suffixes : ((Fifo.places ls).enqueued.map suffix).Nodup
  requests : ∀ r r' q q', s.prog.aio.reqs.last? r = some q → s.prog.aio.reqs.last? r' = some q' →
    q.dstName = q'.dstName → r = r'
  writes : s.writeTargets.Nodup
  opened : none ∉ s.writeTargets

section

variable {s s' : Sys} {f : Fifo Loc} {l : Label} {rel loc top : Loc} {c : Iocb}

/-! ### The directories -/

/-- No symbolic link is ever made. -/
lemma World.Permits.entry_lnk {w w' : World} {p : Prog} (h : Permits w p l w') {t : Path}
    (he : w'.fs.entry loc = some (.lnk t)) : w.fs.entry loc = some (.lnk t) := by
  cases h with
  | mkdir curr rest fs' hqueue hmkdir =>
    obtain ⟨k, n, hdir, hnew, hn, rfl, -⟩ := Fs.mkdir_ok hmkdir
    by_cases hl : loc = n :: k
    · rw [hl, Fs.entry_create_self] at he
      cases he
    · rwa [Fs.entry_create_of_ne hl] at he
  | openDst fd q k fs' _ _ hopen =>
    obtain ⟨-, ⟨rfl, -⟩ | ⟨k', n, hdir, hnew, hn, -, rfl⟩⟩ := Fs.openCreate_ok hopen
    · exact he
    · dsimp only [World.openFile] at he
      by_cases hl : loc = n :: k'
      · rw [hl, Fs.entry_create_self] at he
        cases he
      · rwa [Fs.entry_create_of_ne hl] at he
  | complete c res =>
    have hshape := shape_transfer (w := w) c res loc
    rw [he] at hshape
    obtain ⟨e, he', heq⟩ := Option.map_eq_some_iff.mp hshape.symm
    rw [he', Entry.shape_eq_lnk.mp heq]
  | _ => exact he

namespace Rooted

lemma unique {top' : Loc} (h : Rooted s top) (h' : Rooted s top') : top = top' :=
  Found.here.inj (h.dir.1.symm.trans h'.dir.1)

lemma step (h : Rooted s top) (hstep : s.step l = some s') : Rooted s' top := by
  obtain ⟨-, hfires, hperm⟩ := Sys.fires_of_step hstep
  refine ⟨?_, fun rel p he => h.links rel p (hperm.entry_lnk he)⟩
  rw [Prog.argv_of_fires hfires]
  exact hperm.dirAt h.dir

/-- The destination path of a place in a directory leads to the place. -/
lemma resolveLast_at (h : Rooted s top) {n : Name} (hn : LegalName n)
    (hdir : s.world.fs.entry (rel ++ top) = some .dir) :
    (s.world.fs.resolveLast s.world.cwd (s.prog.argv.below (n :: rel)).dstName).At
      (n :: rel ++ top) :=
  (Fs.DirAt.extend h.dir.1 hdir).resolveLast_join_at hn (h.links (n :: rel))

end Rooted

/-- `mkdir` makes the destination argument a new directory. -/
lemma rooted_of_mkdir {w w' : World} {p p' : Prog} {fs' : Fs} (hargv : p'.argv = p.argv)
    (hmkdir : w.fs.mkdir w.cwd p.argv.dstName = .ok fs') (hw : w' = { w with fs := fs' }) :
    ∃ top, Rooted ⟨p', w'⟩ top := by
  subst hw
  obtain ⟨k, n, hdir, hnew, hn, rfl, hat⟩ := Fs.mkdir_ok hmkdir
  refine ⟨n :: k, hargv ▸ hat, fun rel t he => ?_⟩
  -- nothing was below the new directory
  dsimp only at he
  by_cases hself : rel ++ n :: k = n :: k
  · rw [hself, Fs.entry_create_self] at he
    cases he
  · rw [Fs.entry_create_of_ne hself] at he
    have hsome : (w.fs.entry (rel ++ n :: k)).isSome := by rw [he]; rfl
    have hdir := Unix.Fs.entry_of_append hsome fun hrel => hself (by rw [hrel]; rfl)
    rw [hnew] at hdir
    cases hdir

namespace Listed

/-- A place is below the argument through places that were met. -/
lemma mem_of_cons (h : Listed s f) {n : Name} (hrel : n :: rel ∈ f.enqueued) :
    rel ∈ f.enqueued := by
  rcases h.parent n rel hrel with hdone | ⟨hhead, -⟩
  · exact List.mem_of_mem_take hdone
  · exact Fifo.mem_enqueued_of_pending hhead

lemma exists_singleton (h : Listed s f) (hrel : rel ∈ f.enqueued) (hne : rel ≠ []) :
    ∃ n, [n] ∈ f.enqueued := by
  induction rel with
  | nil => exact absurd rfl hne
  | cons n rel ih =>
    by_cases hnil : rel = []
    · exact ⟨n, hnil ▸ hrel⟩
    · exact ih (h.mem_of_cons hrel) hnil

/-- Before `mkdir` of the argument nothing is below it. -/
lemma not_mem_of_mkdir (h : Listed s f) (hpc : s.prog.pc = .mkdir)
    (hhead : [] ∈ f.pending.head?) (n : Name) (rel : Loc) : n :: rel ∉ f.enqueued := by
  intro hrel
  obtain ⟨m, hm⟩ := h.exists_singleton hrel (List.cons_ne_nil n rel)
  rcases h.parent m [] hm with hdone | ⟨-, hcl | ⟨hrd, -⟩⟩
  · exact Fifo.not_mem_done h.nodup hhead hdone
  · simp [hpc] at hcl
  · simp [hpc] at hrd

end Listed

lemma inDir_of_fires {p p' : Prog} (hfires : Prog.Fires p l p') (hl : l ≠ .mkdir true)
    (hpc' : p'.pc.inDir = true) : p.pc.inDir = true ∧ l.endsIteration = false := by
  cases hfires with
  | aio => exact ⟨hpc', rfl⟩
  | fail _ _ hfails => exact ⟨hpc', Prog.ends_of_fails hfails⟩
  | mkdir => exact absurd rfl hl
  | opendir hpc | readdirSkip _ _ hpc | readdirEnqueue _ _ _ _ hpc | readdirExit _ _ hpc
  | readdirEnd hpc => exact ⟨by rw [hpc]; rfl, rfl⟩
  | statOther _ _ _ hpc | destroy hpc => simp [hpc, MainPc.inDir] at hpc'
  | _ => simp [MainPc.inDir, Prog.next] at hpc'

namespace Dug

/-- A step other than `mkdir`. -/
lemma step_of_ne (h : Below s f → ∃ top, Dug s f top) (hf : Follows s f) (hlocks : Locks s.prog)
    (hl : l ≠ .mkdir true) (hstep : s.step l = some s') (hbelow : Below s' (f.follow l)) :
    ∃ top, Dug s' (f.follow l) top := by
  obtain ⟨-, hfires, hperm⟩ := Sys.fires_of_step hstep
  -- only `mkdir` of the argument opens the part below it
  have hold : Below s f := by
    rcases hbelow with ⟨n, rel, hrel⟩ | hpc'
    · rcases List.mem_append.mp hrel with hrel | hrel
      · exact Or.inl ⟨n, rel, hrel⟩
      · exact Or.inr (by rw [(mem_enqueues hfires hrel).2]; rfl)
    · exact Or.inr (inDir_of_fires hfires hl hpc').1
  obtain ⟨top, hdug⟩ := h hold
  refine ⟨top, hdug.toRooted.step hstep, fun n rel hrel => hperm.le.entry_dir ?_,
    fun hpc' rel hrel => hperm.le.entry_dir ?_⟩
  · rcases List.mem_append.mp hrel with hrel | hrel
    · exact hdug.parents n rel hrel
    · obtain ⟨hhead, hpc⟩ := mem_enqueues hfires hrel
      exact hdug.current (by rw [hpc]; rfl) rel hhead
  · obtain ⟨hpc, hends⟩ := inDir_of_fires hfires hl hpc'
    have hbody : s.prog.pc.inBody = true := by
      revert hpc
      cases s.prog.pc <;> simp [MainPc.inDir, MainPc.inBody]
    obtain ⟨curr, rest, hqueue⟩ := List.exists_cons_of_ne_nil (hlocks.inBody hbody)
    obtain ⟨first, todo, hpending, -⟩ := hf.head hqueue
    rw [Fifo.follow, Fifo.pending_after hf.le, Label.onQueue, hends, hpending] at hrel
    exact hdug.current hpc rel (hpending ▸ hrel)

/-- `mkdir` of the first place. -/
lemma step_mkdir (h : Below s f → ∃ top, Dug s f top) (hlist : Listed s f) (hf : Follows s f)
    (hstep : s.step (.mkdir true) = some s') : ∃ top, Dug s' (f.follow (.mkdir true)) top := by
  have hrooted (top : Loc) (hr : Rooted s top) : Rooted s' top := hr.step hstep
  obtain ⟨-, hfires, hperm⟩ := Sys.fires_of_step hstep
  have hle := hperm.le
  rw [Fifo.follow_eq_self rfl fun _ => rfl]
  obtain ⟨p', w'⟩ := s'
  dsimp only at hfires hperm hle
  cases hfires with
  | fail _ _ hfails => cases hfails
  | mkdir hpc =>
    cases hperm with
    | mkdir curr rest fs' hqueue hmkdir =>
      obtain ⟨rel, todo, hpending, rfl⟩ := hf.head hqueue
      have hhead : rel ∈ f.pending.head? := by rw [hpending]; rfl
      have hmem := Fifo.mem_enqueued_of_pending hhead
      -- the argument itself is made first, the others below what was made
      cases rel with
      | nil =>
        obtain ⟨top, htop⟩ : ∃ top, Rooted ⟨{ s.prog with pc := .opendir },
            { s.world with fs := fs' }⟩ top := rooted_of_mkdir (p := s.prog) rfl hmkdir rfl
        refine ⟨top, htop, fun n rel hrel => ?_, fun _ rel hrel => ?_⟩
        · exact absurd hrel (hlist.not_mem_of_mkdir hpc hhead n rel)
        · obtain rfl := Option.some.inj (hhead.symm.trans hrel)
          exact htop.dir.2
      | cons n rel =>
        obtain ⟨top, hdug⟩ := h (Or.inl ⟨n, rel, hmem⟩)
        have hlegal := hlist.legal _ hmem n List.mem_cons_self
        have hnew := Fs.mkdir_adds hmkdir
          (hdug.resolveLast_at hlegal (hdug.parents n rel hmem))
        refine ⟨top, hrooted top hdug.toRooted, fun m r hr => hle.entry_dir (hdug.parents m r hr),
          fun _ r hr => ?_⟩
        obtain rfl := Option.some.inj (hhead.symm.trans hr)
        exact hnew.self
    | other _ _ hmkdir => exact absurd rfl hmkdir

theorem step (h : Below s f → ∃ top, Dug s f top) (hlist : Listed s f) (hf : Follows s f)
    (hlocks : Locks s.prog) (hstep : s.step l = some s') (hbelow : Below s' (f.follow l)) :
    ∃ top, Dug s' (f.follow l) top := by
  by_cases hl : l = .mkdir true
  · subst hl
    exact step_mkdir h hlist hf hstep
  · exact step_of_ne h hf hlocks hl hstep hbelow

end Dug

/-! ### The files of the writes -/

namespace Target

/-- The file behind the descriptor stays. -/
lemma keep (h : Target s f c) (hgood : Good s.prog.aio) (hstep : s.step l = some s')
    (hfile : s'.world.files c.fd = s.world.files c.fd) : Target s' (f.follow l) c := by
  have g := Sys.grows_of_step hgood hstep
  obtain ⟨loc, q, rel, hloc, hq, hfor, hrel, hroot⟩ := h
  obtain ⟨q', hq', names⟩ := g.persist _ q hq
  refine ⟨loc, q', rel, hfile.trans hloc, hq', g.argv ▸ names.for hfor,
    List.mem_append_left _ hrel, fun hne => ?_⟩
  obtain ⟨top, htop, heq⟩ := hroot hne
  exact ⟨top, htop.step hstep, heq⟩

/-- The destination of the request was just opened. -/
lemma of_opens (hlist : Listed s f) (hasked : Asked s f) (hdug : Below s f → ∃ top, Dug s f top)
    (hgood : Good s.prog.aio) {act : Act} (hstep : s.step (.aio act) = some s')
    (hopens : c.Opens s.prog.aio act) (hop : c.opcode = .pwrite) :
    Target s' (f.follow (.aio act)) c := by
  have g := Sys.grows_of_step hgood hstep
  obtain ⟨-, -, hperm⟩ := Sys.fires_of_step hstep
  obtain ⟨q, loc, fs', hq, hopen, hw⟩ := hperm.dst_of_opens hgood hopens hop
  have hlast := Heap.last?_of_get? hq
  obtain ⟨rel, hfor, hserved⟩ := hasked.served c.data q hlast
  obtain ⟨q', hq', names⟩ := g.persist _ q hlast
  refine ⟨loc, q', rel, by rw [hw]; exact if_pos rfl, hq', g.argv ▸ names.for hfor,
    List.mem_append_left _ hserved.met, fun hne => ?_⟩
  obtain ⟨n, rel, rfl⟩ := List.exists_cons_of_ne_nil hne
  obtain ⟨top, hdug⟩ := hdug (Or.inl ⟨n, rel, hserved.met⟩)
  -- below the argument nothing is a link, so the path leads to the place
  have hat := hdug.resolveLast_at (hlist.legal _ hserved.met n List.mem_cons_self)
    (hdug.parents n rel hserved.met)
  rw [hfor.dstName] at hopen
  obtain ⟨rfl, -⟩ := Fs.openCreate_adds hopen hat (hdug.links (n :: rel))
  exact ⟨top, hdug.toRooted.step hstep, rfl⟩

end Target

/-- What holds of the places, the requests and the writes in every state. -/
structure Apart (s : Sys) (f : Fifo Loc) : Prop where
  listed : Listed s f
  asked : Asked s f
  dug : Below s f → ∃ top, Dug s f top
  targets : ∀ c ∈ s.prog.aio.refs, c.opcode = .pwrite → Target s f c

namespace Apart

variable {fs : Fs} {cwd : Loc} {srcName dstName : CStr} {batchSize : ℤ} {ls : List Label} {d : Iocb}

lemma init : Apart (Sys.init fs cwd srcName dstName batchSize) ⟨[], 0⟩ := by
  have hnone (r : ReqId) :
      (Sys.init fs cwd srcName dstName batchSize).prog.aio.reqs.last? r = none :=
    Heap.last?_eq_none_of_le (Nat.zero_le r)
  refine ⟨⟨List.nodup_nil, by simp, by simp⟩, ⟨fun r q hq => ?_, fun r r' q q' hq => ?_⟩,
    fun hbelow => ?_, fun c hc => ?_⟩
  · simp [hnone] at hq
  · simp [hnone] at hq
  · simp [Below, Sys.init, Prog.init, MainPc.inDir] at hbelow
  · cases hc

theorem step (h : Apart s f) (hf : Follows s f) (hlocks : Locks s.prog) (hgood : Good s.prog.aio)
    (hdesc : Descriptors s.prog.aio) (hstep : s.step l = some s') : Apart s' (f.follow l) where
  listed := h.listed.step hf hlocks hstep
  asked := h.asked.step h.listed hf hlocks hgood hstep
  dug := Dug.step h.dug h.listed hf hlocks hstep
  targets c hc hop := by
    have hended := (Sys.fires_of_step hstep).1
    rcases Sys.mem_refs_of_step hlocks hgood hstep hc with hold | ⟨act, rfl, hopens⟩
    · exact (h.targets c hold hop).keep hgood hstep
        (Sys.files_of_mem hstep (hdesc.mem_openFds hended hold))
    · exact .of_opens h.listed h.asked h.dug hgood hstep hopens hop

/-- **The whole run**, whatever fails. -/
theorem of_exec (h : exec Sys.step (Sys.init fs cwd srcName dstName batchSize) ls = some s) :
    Apart s (Fifo.places ls) := by
  refine exec_invariant (I := fun ls s => Apart s (Fifo.places ls))
    (fun {ls s l s'} hs ih hstep => ?_) h init
  have hprog := Sys.prog_exec hs
  have hreach := reaches_of_exec (fun _ _ => trivial) hprog
  rw [Fifo.places_concat]
  exact ih.step (.of_exec hs) (.of_reaches hreach) (Prog.good_of_reaches hreach)
    (.of_reaches (Prog.manager_reaches_any hreach)) hstep

/-- The request of a place is made at the place. -/
lemma served (h : Apart s f) {r : ReqId} {q : CopyRequest} (hq : s.prog.aio.reqs.last? r = some q)
    (hfor : q.For (s.prog.argv.below rel)) (hrel : rel ∈ f.enqueued) : Served s f rel := by
  obtain ⟨rel', hfor', hserved⟩ := h.asked.served r q hq
  obtain rfl := Asked.eq_of_dstName h.listed hrel hserved.met
    (hfor.dstName.symm.trans hfor'.dstName)
  exact hserved

/-- Nothing is met below a file. -/
lemma eq_nil_of_served (h : Apart s f) (hserved : Served s f []) (hrel : rel ∈ f.enqueued) :
    rel = [] := by
  by_contra hne
  obtain ⟨n, hn⟩ := h.listed.exists_singleton hrel hne
  exact hserved.leaf n hn

/-- Two writes to one file are for one request. -/
lemma data_eq (h : Apart s f) (hc : c ∈ s.prog.aio.refs) (hd : d ∈ s.prog.aio.refs)
    (hcop : c.opcode = .pwrite) (hdop : d.opcode = .pwrite)
    (heq : s.world.files c.fd = s.world.files d.fd) : c.data = d.data := by
  obtain ⟨loc, q, rel, hloc, hq, hfor, hrel, hroot⟩ := h.targets c hc hcop
  obtain ⟨loc', q', rel', hloc', hq', hfor', hrel', hroot'⟩ := h.targets d hd hdop
  obtain rfl : loc = loc' := Option.some.inj (hloc.symm.trans (heq.trans hloc'))
  have hplace : rel = rel' := by
    by_cases hnil : rel = []
    · subst hnil
      exact (h.eq_nil_of_served (h.served hq hfor hrel) hrel').symm
    by_cases hnil' : rel' = []
    · subst hnil'
      exact h.eq_nil_of_served (h.served hq' hfor' hrel') hrel
    obtain ⟨top, htop, heq⟩ := hroot hnil
    obtain ⟨top', htop', heq'⟩ := hroot' hnil'
    obtain rfl := htop.unique htop'
    exact List.append_cancel_right (heq.symm.trans heq')
  subst hplace
  exact h.asked.once _ _ q q' hq hq' (hfor.dstName.trans hfor'.dstName.symm)

lemma writeTargets_nodup (h : Apart s f) (hgood : Good s.prog.aio) : s.writeTargets.Nodup := by
  obtain ⟨xs, ys, b, hinv, -⟩ := hgood
  have hdata : (s.prog.aio.inFlight .pwrite).Nodup := by
    have hnd := hinv.nodup_running .pwrite
    rw [AioState.running_eq] at hnd
    exact hnd.of_append_left.of_append_right
  refine List.Nodup.map_on (fun c hc d hd heq => ?_) (hdata.of_map _)
  obtain ⟨hcmem, hcop⟩ := List.mem_filter.mp hc
  obtain ⟨hdmem, hdop⟩ := List.mem_filter.mp hd
  exact List.inj_on_of_nodup_map hdata hc hd (h.data_eq (AioState.mem_refs_of_obj hcmem)
    (AioState.mem_refs_of_obj hdmem) (of_decide_eq_true hcop) (of_decide_eq_true hdop) heq)

lemma none_not_mem_writeTargets (h : Apart s f) : none ∉ s.writeTargets := by
  intro hmem
  obtain ⟨c, hc, hnone⟩ := List.mem_map.mp hmem
  obtain ⟨hcmem, hcop⟩ := List.mem_filter.mp hc
  obtain ⟨loc, _, _, hloc, -⟩ := h.targets c (AioState.mem_refs_of_obj hcmem)
    (of_decide_eq_true hcop)
  rw [hnone] at hloc
  cases hloc

end Apart

/-- **No two names are the same**: every node has the arguments with one suffix as its names,
the suffix determines the place, and the buffers have the length of the names.  So no two
requests have one destination, and no two writes in flight are to one file. -/
theorem distinctNames_of_exec {fs : Fs} {cwd : Loc} {srcName dstName : CStr} {batchSize : ℤ}
    {ls : List Label}
    (h : exec Sys.step (Sys.init fs cwd srcName dstName batchSize) ls = some s) :
    DistinctNames ⟨srcName, dstName⟩ ls s ∧
      (∀ rel rel' : Loc, (∀ n ∈ rel, LegalName n) → (∀ n ∈ rel', LegalName n) →
        suffix rel = suffix rel' → rel = rel') ∧
      ∀ (curr : Node) (name : Name),
        ExactBuffer curr.srcName name (Prog.child curr name).srcName ∧
          ExactBuffer curr.dstName name (Prog.child curr name).dstName := by
  have hreach := Sys.prog_reaches_any (reaches_of_exec (fun _ _ => trivial) h)
  have hapart := Apart.of_exec h
  refine ⟨⟨(Fifo.Describes.of_exec (Sys.prog_exec h)).queue, ?_, hapart.listed.legal, ?_,
    hapart.asked.once, hapart.writeTargets_nodup (Prog.good_of_reaches hreach),
    hapart.none_not_mem_writeTargets⟩, fun _ _ => suffix_injective, fun curr name =>
      ⟨.join curr.srcName name, .join curr.dstName name⟩⟩
  · rw [Fifo.nodes_eq, Fifo.map]
    exact List.map_congr_left fun rel _ => below_eq _ rel
  · exact hapart.listed.nodup.map_on fun rel hrel rel' hrel' =>
      suffix_injective (hapart.listed.legal rel hrel) (hapart.listed.legal rel' hrel')

end

/-- A run over a directory with two files, up to the submission of both writes. -/
def twoFilesWriting : List Label :=
  [.initManager true, .startThread true, .stat (some .dir), .mkdir true, .opendir true,
    .readdir (.entry ['0'] .reg), .readdir (.entry ['1'] .reg), .readdir .finished, .closedir true,
    .stat (some .reg), .bumpReqCount, .copyReg, .addLock true, .addLink, .addUnlock true,
    .stat (some .reg), .bumpReqCount, .copyReg, .addLock true, .addLink, .addUnlock true,
    .aio .lockFlush, .aio (.getEvents []), .aio .checkDone, .aio .lockRequest, .aio .readSize,
    .aio (.readOne ⟨3, some 1, 4096⟩), .aio (.readOne ⟨4, some 1, 8192⟩), .aio (.readSubmit 2),
    .aio .unlockRequest, .aio .writeSize, .aio .unlockFlush,
    .aio (.complete ⟨0, .pread, 3, 4096, 1, 0, 1⟩ 1),
    .aio (.complete ⟨1, .pread, 4, 8192, 1, 0, 0⟩ 1), .aio .lockFlush,
    .aio (.getEvents [⟨⟨0, .pread, 3, 4096, 1, 0, 1⟩, 1⟩, ⟨⟨1, .pread, 4, 8192, 1, 0, 0⟩, 1⟩]),
    .aio .handleEvent, .aio .handleEvent, .aio .checkDone, .aio .lockRequest, .aio .readSize,
    .aio .unlockRequest, .aio .writeSize, .aio (.writeOne 5), .aio (.writeOne 6),
    .aio (.writeSubmit 2)]

/-- Two writes are in flight, each to a file of its own. -/
theorem distinctNames_of_exec_twoFiles : ∃ s : Sys,
    exec Sys.step ((flatTask 2).init 2) twoFilesWriting = some s ∧
      s.writeTargets = [some [['0'], ['d']], some [['1'], ['d']]] ∧
      DistinctNames ⟨['s'], ['d']⟩ twoFilesWriting s := by
  have hrun : (exec Sys.step ((flatTask 2).init 2) twoFilesWriting).map Sys.writeTargets =
      some [some [['0'], ['d']], some [['1'], ['d']]] := by
    decide +kernel
  obtain ⟨s, hs, htargets⟩ := Option.map_eq_some_iff.mp hrun
  exact ⟨s, hs, htargets, (distinctNames_of_exec hs).1⟩

end Cpr
