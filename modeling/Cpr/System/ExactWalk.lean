/-
# The walk is exact

A run of the walk has performed a first part of the reference, and all of it when
`copy_internal` has returned 0.  As long as no call fails the walk can go on, and it returns after
a bounded number of steps.
-/
import Cpr.System.Hiding
import Cpr.System.Traversal

namespace Cpr

open LevelOrder Transition Unix

/-! ## The run -/

/-- The effects so far, compared with the reference. -/
structure Traversed (t : Source) (order : Loc → List Name) (es : List Effect) (s : Sys) :
    Prop where
  initial : es <+: t.reference order
  complete : s.prog.pc.afterWalk = true →
    es = t.reference order ∧ s.prog.aio.reqs.next = t.regularFiles.card

section

variable {t : Source} {order : Loc → List Name} {es : List Effect} {s s' : Sys} {l : Label}
  {ls : List Label} {d : Places} {queue : List Loc} {batchSize : ℤ} {ok : Sys → Label → Prop}

lemma Sys.effects_concat [∀ s l, Decidable (ok s l)] (h : execOk Sys.step ok s ls = some s') :
    s.effects (ls ++ [l]) = s.effects ls ++ s'.prog.effects l := by
  induction ls generalizing s with
  | nil =>
    obtain rfl : s = s' := by simpa [execOk] using h
    cases hl : s.step l <;> simp [effects, hl]
  | cons a ls ih =>
    rw [execOk, exec_cons] at h
    obtain ⟨u, hu, hrest⟩ := Option.bind_eq_some_iff.mp h
    obtain ⟨-, hstep⟩ := Option.ite_none_right_eq_some.mp hu
    simp only [List.cons_append, effects, hstep, ih hrest, List.append_assoc]

/-- A step that ends the process has no effect. -/
lemma Prog.effects_of_ended {p p' : Prog} (hfires : Prog.Fires p l p')
    (hended : p'.aio.ended ≠ none) (hrun : p.aio.ended = none) : p.effects l = [] := by
  refine effects_of_ne ?_ ?_
  · rintro rfl
    cases hfires with
    | fail _ _ hfails => cases hfails
    | mkdir => exact hended hrun
  · rintro rfl
    cases hfires with
    | fail _ _ hfails => cases hfails
    | copyReg => exact hended hrun

lemma Prog.started_of_fires {p p' : Prog} (hfires : Prog.Fires p l p')
    (hpc : p.pc.beforeStart = false) : p'.pc.beforeStart = false := by
  cases hfires <;> simp_all [MainPc.beforeStart, Prog.next, Prog.fail]

/-- What the traversal says about the effects. -/
lemma Exploring.traversed (h : Exploring t order es s d queue) (hlist : t.Listing order)
    (hw : Walked t s d) (hr : t.Run s) (hc : Counting s.prog) : Traversed t order es s where
  initial := by
    rw [h.effects]
    have hlevels := h.traversal.prefix_levels hlist.level_eq_nil
    refine List.IsPrefix.map t.effect (List.IsPrefix.trans ?_ hlevels)
    split_ifs
    · cases queue with
      | nil => exact List.prefix_refl _
      | cons rel rest => exact ⟨rest, by simp⟩
    · rw [List.append_nil]
      exact List.prefix_append _ _
  complete hpc := by
    have hnil : d.todo = [] := by
      have hqueue := hw.walk.queue
      rw [hc.queue hpc] at hqueue
      exact List.map_eq_nil_iff.mp hqueue.symm
    have htodo := h.todo
    rw [hnil] at htodo
    obtain ⟨rfl, -⟩ := List.append_eq_nil_iff.mp htodo.symm
    refine ⟨?_, hw.next_eq hr (hc.queue hpc) hpc⟩
    rw [h.effects, h.traversal.eq_levels hlist.level_eq_nil]
    simp [Source.reference, Source.places]

/-- The walk has not begun, or it is a traversal. -/
def Explored (t : Source) (order : Loc → List Name) (es : List Effect) (s : Sys) (d : Places) :
    Prop :=
  (s.prog.pc.beforeStart = true ∧ d = ⟨[], []⟩ ∧ es = []) ∨
    (s.prog.pc.beforeStart = false ∧ ∃ queue, Exploring t order es s d queue)

lemma Explored.step (h : Explored t order es s d) (hplain : t.Plain) (hw : Walked t s d)
    (hr : t.Run s)
    (hlists : s.ListsIn order l) (hstep : s.step l = some s')
    (hended : s'.prog.aio.ended = none ∨ s'.prog.aio.ended = some (.exited 0)) :
    Explored t order (es ++ s.prog.effects l) s' (d.after l) := by
  obtain ⟨-, hfires, -⟩ := Sys.fires_of_step hstep
  rcases h with ⟨hpc, rfl, rfl⟩ | ⟨hpc, queue, h⟩
  · obtain ⟨p', w'⟩ := s'
    dsimp only at hfires hended
    cases hfires with
    | fail | readdirExit => simp [Prog.fail, AioState.exit] at hended
    | aio | initManager =>
      refine Or.inl ⟨?_, rfl, rfl⟩
      first | exact hpc | rfl
    | startThread =>
      refine Or.inr ⟨rfl, [[]], .start, rfl, ?_⟩
      simp [Prog.effects, MainPc.performed, Places.after]
    | statDir _ _ hpc' | statReg _ _ hpc' | statOther _ _ _ hpc' | walkEnd hpc' | mkdir hpc'
    | opendir hpc' | readdirSkip _ _ hpc' | readdirEnqueue _ _ _ _ hpc' | readdirEnd hpc'
    | closedir hpc' | bumpReqCount hpc' | copyReg _ _ hpc' | addLock hpc' | addLink _ hpc'
    | addUnlock hpc' | waitLock hpc' | waitSet hpc' | waitUnlock hpc' | join hpc' | destroy hpc' =>
      simp [hpc', MainPc.beforeStart] at hpc
  · exact Or.inr ⟨Prog.started_of_fires hfires hpc, h.step hplain hw hr hlists hpc hstep hended⟩

/-- What the traversal says about the effects, at any place. -/
lemma Explored.traversed (h : Explored t order es s d) (hlist : t.Listing order)
    (hw : Walked t s d) (hr : t.Run s) (hc : Counting s.prog) : Traversed t order es s := by
  rcases h with ⟨hpc, -, rfl⟩ | ⟨-, queue, h⟩
  · refine ⟨List.nil_prefix, fun hafter => ?_⟩
    revert hpc hafter
    cases s.prog.pc <;> simp [MainPc.beforeStart, MainPc.afterWalk]
  · exact h.traversed hlist hw hr hc

/-- A step that ends the process with a failure keeps what was said. -/
lemma Traversed.of_ended (h : Traversed t order es s) (hgood : Good s.prog.aio)
    (hstep : s.step l = some s')
    (hended : ¬ (s'.prog.aio.ended = none ∨ s'.prog.aio.ended = some (.exited 0))) :
    Traversed t order (es ++ s.prog.effects l) s' := by
  obtain ⟨hrun, hfires, -⟩ := Sys.fires_of_step hstep
  have hne : s'.prog.aio.ended ≠ none := fun hnone => hended (Or.inl hnone)
  have hnext : s'.prog.aio.reqs.next = s.prog.aio.reqs.next :=
    (Prog.next_or_ended hgood (Sys.prog_step hstep)).resolve_right fun heq => hne (heq.trans hrun)
  have hpc : s'.prog.pc = s.prog.pc := by
    obtain ⟨p', w'⟩ := s'
    dsimp only at hfires hne hended ⊢
    cases hfires with
    | fail | readdirExit | aio | destroy | readdirSkip | readdirEnqueue => rfl
    | addLink r _ hr =>
      obtain ⟨q, -, hlink⟩ := hgood.addCopyReq_eq hr
      simp [hlink, AioState.linkIn, hrun] at hne
    | _ => exact absurd hrun hne
  rw [Prog.effects_of_ended hfires hne hrun, List.append_nil]
  exact ⟨h.initial, by rw [hpc, hnext]; exact h.complete⟩

/-- `readdir` lists no name twice where it keeps to a listing. -/
lemma Source.Listing.listsOnce (hlist : t.Listing order) (hw : Walked t s d) (hr : t.Run s)
    (hlists : s.ListsIn order l) (hstep : s.step l = some s') : s.ListsOnce l := by
  obtain ⟨-, hfires, -⟩ := Sys.fires_of_step hstep
  unfold Sys.ListsOnce
  split
  · rename_i name dtype
    have hpc : s.prog.pc = .readdir := by
      obtain ⟨p', w'⟩ := s'
      cases hfires with
      | fail _ _ hfails => cases hfails
      | readdirSkip _ _ hpc | readdirEnqueue _ _ _ _ hpc | readdirExit _ _ hpc => exact hpc
    obtain ⟨rel, todo, hd⟩ := hw.walk.exists_head_of_inBody hr.ready (by rw [hpc]; rfl)
    obtain ⟨hkind, hloc⟩ := hw.readdir_at hr hpc (by rw [hd]; rfl)
    have hpre : s.world.dir.seen.reverse ++ [name] <+: order (rel ++ t.root) := hloc ▸ hlists
    have hnd := (hlist.nodup rel hkind).sublist hpre.sublist
    have hdisjoint := (List.nodup_append.mp hnd).2.2
    intro hmem
    exact hdisjoint name (List.mem_reverse.mpr hmem) name (List.mem_singleton_self _) rfl
  · trivial

/-- The walk at the places of a run. -/
structure Touring (t : Source) (order : Loc → List Name) (batchSize : ℤ) (ls : List Label)
    (s : Sys) (d : Places) : Prop where
  located : Located t s d
  counted : Counted ls s d
  explored : Explored t order ((t.init batchSize).effects ls) s d

/-- **The whole run.** -/
theorem Touring.of_execOk (hplain : t.Plain) (hlist : t.Listing order)
    (h : execOk Sys.step (Sys.ListsIn order) (t.init batchSize) ls = some s) :
    Traversed t order ((t.init batchSize).effects ls) s ∧
      (s.prog.aio.ended = none ∨ s.prog.aio.ended = some (.exited 0) →
        ∃ d, Touring t order batchSize ls s d) := by
  refine execOk_invariant (I := fun ls s =>
    Traversed t order ((t.init batchSize).effects ls) s ∧
    (s.prog.aio.ended = none ∨ s.prog.aio.ended = some (.exited 0) →
      ∃ d, Touring t order batchSize ls s d))
    (fun {as u l v} hu hI hlists hstep => ?_) h ?_
  · obtain ⟨htraversed, hplaces⟩ := hI
    have hreach := reaches_of_execOk hu
    have hr : t.Run u := .of_reaches hreach
    have hr' : t.Run v := .of_reaches (hreach.tail hlists hstep)
    obtain ⟨d, hd⟩ := hplaces (Or.inl (Sys.fires_of_step hstep).1)
    have hw := hd.located.walked
    have hc : Counting v.prog := .of_reaches (Sys.prog_reaches_any (hreach.tail hlists hstep))
    by_cases hended : v.prog.aio.ended = none ∨ v.prog.aio.ended = some (.exited 0)
    · have hd' : Touring t order batchSize (as ++ [l]) v (d.after l) :=
        { located := hd.located.step hreach hlists hstep hended
          counted := hd.counted.step hw.walk hr.ready (hlist.listsOnce hw hr hlists hstep) hstep
            hended
          explored := by
            rw [Sys.effects_concat hu]
            exact hd.explored.step hplain hw hr hlists hstep hended }
      exact ⟨hd'.explored.traversed hlist hd'.located.walked hr' hc, fun _ => ⟨_, hd'⟩⟩
    · rw [Sys.effects_concat hu]
      exact ⟨htraversed.of_ended hr.ready.good hstep hended, fun hlive => absurd hlive hended⟩
  · exact ⟨⟨List.nil_prefix, by simp [Source.init, Sys.init, Prog.init, MainPc.afterWalk]⟩,
      fun _ => ⟨_, .init, ⟨List.nodup_nil, Nat.zero_le _, fun _ => rfl⟩, Or.inl ⟨rfl, rfl, rfl⟩⟩⟩

/-- **The steps of the walk are bounded**, over all runs. -/
lemma Source.steps_le (hplain : t.Plain) (hlist : t.Listing order)
    (h : execOk Sys.step (Sys.ListsIn order) (t.init batchSize) ls = some s) :
    (ls.filter Label.ofWalk).length ≤ 8 * t.fs.dom.card + 10 := by
  induction ls using List.reverseRecOn with
  | nil => exact Nat.zero_le _
  | append_singleton as l =>
    -- the process had not ended before the last step
    obtain ⟨u, hu, -, hstep⟩ := execOk_concat.mp h
    obtain ⟨d, hd⟩ := (Touring.of_execOk hplain hlist hu).2 (Or.inl (Sys.fires_of_step hstep).1)
    have hle := hd.counted.steps.trans (Sys.budget_le hd.located.walked.length_met_le
      hd.counted.seen)
    have hlast : ([l].filter Label.ofWalk).length ≤ 1 := List.length_filter_le _ _
    rw [List.filter_append, List.length_append]
    omega

/-! ## The next step of the walk -/

/-- The open directory stream keeps to the listing, and has the names of its directory. -/
structure Streaming (order : Loc → List Name) (s : Sys) : Prop where
  seen : s.world.dir.seen.reverse <+: order s.world.dir.loc
  due : ∀ n ∈ s.world.dir.due, (s.world.fs.entry (n :: s.world.dir.loc)).isSome

lemma Streaming.step (h : Streaming order s) (hlists : s.ListsIn order l)
    (hstep : s.step l = some s') : Streaming order s' := by
  obtain ⟨-, -, hperm⟩ := Sys.fires_of_step hstep
  have hle := hperm.le
  have hdue : ∀ n loc, (s.world.fs.entry (n :: loc)).isSome →
      (s'.world.fs.entry (n :: loc)).isSome := by
    intro n loc hn
    obtain ⟨e, he⟩ := Option.isSome_iff_exists.mp hn
    obtain ⟨e', he', -⟩ := Option.map_eq_some_iff.mp (hle _ e he)
    rw [he']
    rfl
  obtain ⟨p', w'⟩ := s'
  dsimp only at hperm hle hdue
  cases hperm with
  | opendir curr rest loc => exact ⟨List.nil_prefix, fun n hn => (Fs.mem_names _).mp hn⟩
  | entry name dtype =>
    exact ⟨by rw [List.reverse_cons]; exact hlists, h.due⟩
  | complete c res =>
    have hdir : (s.world.transfer c res).dir = s.world.dir :=
      (World.Permits.complete (p := s.prog) c res).dir_eq (by simp) (by simp)
    exact ⟨hdir ▸ h.seen, hdir ▸ fun n hn => hdue n _ (h.due n hn)⟩
  | _ => exact ⟨h.seen, fun n hn => hdue n _ (h.due n hn)⟩

lemma Streaming.of_reaches (h : Reaches Sys.step (Sys.ListsIn order) (t.init batchSize) s) :
    Streaming order s :=
  h.invariant (fun hs hlists hstep => hs.step hlists hstep) ⟨List.nil_prefix, by
    simp [Source.init, Sys.init]⟩

namespace Located

variable {rel : Loc} {todo : List Loc}

/-- `stat` of the next node can succeed. -/
lemma stat_live (h : Located t s d) (hr : t.Run s) (hended : s.prog.aio.ended = none)
    (hpc : s.prog.pc = .walk) {curr : Node} {rest : List Node}
    (hqueue : s.prog.queue = curr :: rest) : ∃ k, (s.step (.stat (some k))).isSome := by
  obtain ⟨rel, todo, hd, hcurr, -⟩ := h.walked.walk.exists_head hqueue
  have hsome := h.walked.real rel (Places.mem_met_of_head (by rw [hd]; rfl))
  obtain ⟨k, hk⟩ := Option.isSome_iff_exists.mp hsome
  have hstat : s.world.fs.stat s.world.cwd curr.srcName = some k := by
    rw [hcurr]
    exact (hr.srcStat_eq hsome).trans hk
  refine ⟨k, Sys.isSome_step hended (by simp) ?_ (by simp [Prog.mainStep, hpc, hqueue])⟩
  simp [World.after, hqueue, hstat]

/-- `mkdir` can succeed, unless the destination cannot be made. -/
lemma mkdir_live (h : Located t s d) (hr : t.Run s) (hreach : Reaches Sys.step ok
    (t.init batchSize) s) (hended : s.prog.aio.ended = none) (hpc : s.prog.pc = .mkdir)
    (hnew : t.New) : (s.step (.mkdir true)).isSome := by
  cases h with
  | first hnot => exact absurd hnew hnot
  | copying t' heq hcopy hfresh =>
    subst heq
    obtain ⟨rel, todo, hd⟩ := hcopy.walk.exists_head_of_inBody hr.ready (by rw [hpc]; rfl)
    obtain ⟨curr, rest, hqueue⟩ := List.exists_cons_of_ne_nil (hr.ready.inBody (by rw [hpc]; rfl))
    have hrel : rel ∈ d.todo.head? := by rw [hd]; rfl
    have hrun : t'.Run s := Setting.Run.of_reaches (t := t') hreach
    obtain ⟨fs', hfs'⟩ := hfresh.exists_mkdir hcopy hrun hpc hrel
    rw [← hcopy.walk.head_below hqueue hrel] at hfs'
    refine Sys.isSome_step hended (by simp) ?_ (by simp [Prog.mainStep, hpc])
    simp [World.after, hqueue, hfs']

/-- `opendir` can succeed. -/
lemma opendir_live (h : Located t s d) (hr : t.Run s) (hended : s.prog.aio.ended = none)
    (hpc : s.prog.pc = .opendir) : (s.step (.opendir true)).isSome := by
  obtain ⟨curr, rest, hqueue⟩ := List.exists_cons_of_ne_nil (hr.ready.inBody (by rw [hpc]; rfl))
  obtain ⟨rel, todo, hd, hcurr, -⟩ := h.walked.walk.exists_head hqueue
  have hsrc := h.walked.walk.srcStat_head (k := .dir) (by rw [hpc]; rfl)
    (show rel ∈ d.todo.head? by rw [hd]; rfl)
  obtain ⟨loc, hloc⟩ := Fs.stat_eq_dir.mp hsrc
  refine Sys.isSome_step hended (by simp) ?_ (by simp [Prog.mainStep, hpc])
  simp [World.after, hqueue, hcurr, Fs.fileAt_eq_some.mpr hloc.1, hloc.2]

/-- `readdir` can return the next name of the listing, or the end. -/
lemma readdir_live (h : Located t s d) (hr : t.Run s) (hlist : t.Listing order)
    (hstream : Streaming order s) (hended : s.prog.aio.ended = none)
    (hpc : s.prog.pc = .readdir) : ∃ answer, answer ≠ .failed ∧
      s.ListsIn order (.readdir answer) ∧ (s.step (.readdir answer)).isSome := by
  obtain ⟨curr, rest, hqueue⟩ := List.exists_cons_of_ne_nil (hr.ready.inBody (by rw [hpc]; rfl))
  obtain ⟨rel, todo, hd, -⟩ := h.walked.walk.exists_head hqueue
  obtain ⟨hkind, hloc⟩ := h.walked.readdir_at hr hpc (show d.todo.head? = some rel by rw [hd]; rfl)
  have hsource := h.walked.source (by rw [hpc]; rfl)
  obtain ⟨names, hnames⟩ := hstream.seen
  cases names with
  | nil =>
    refine ⟨.finished, by simp, by simpa [Sys.ListsIn] using hnames, ?_⟩
    refine Sys.isSome_step hended (by simp) ?_ (by simp [Prog.mainStep, hpc, hqueue])
    -- the stream is at its end: every name was returned
    have hall : ∀ n ∈ s.world.dir.due, n ∈ s.world.dir.seen := by
      intro n hn
      have hsome := hstream.due n hn
      have hlegal := s.world.fs.legal n _ hsome
      have hentry : isEntry n = true := by simp [isEntry, hlegal.ne_dot, hlegal.ne_dotdot]
      rw [hloc, ← List.cons_append, hsource] at hsome
      have hmem := (hlist.mem rel hkind n hentry).mpr (by simpa [Source.kind] using hsome)
      rw [← hloc, ← hnames, List.append_nil, List.mem_reverse] at hmem
      exact hmem
    rw [World.after, if_pos hall]
    rfl
  | cons name names =>
    have hnd : (s.world.dir.seen.reverse ++ name :: names).Nodup := by
      rw [hnames, hloc]
      exact hlist.nodup rel hkind
    have hunseen : name ∉ s.world.dir.seen := fun hmem =>
      (List.nodup_append.mp hnd).2.2 name (List.mem_reverse.mpr hmem) name List.mem_cons_self rfl
    have hlists : ∀ dtype, s.ListsIn order (.readdir (.entry name dtype)) := fun dtype =>
      ⟨names, by rw [← hnames, List.append_assoc]; rfl⟩
    refine ⟨.entry name .unknown, by simp, hlists _, ?_⟩
    refine Sys.isSome_step hended (by simp) ?_ (by simp [Prog.mainStep, hpc, hqueue])
    have hperm : s.world.Lists name .unknown := by
      by_cases hentry : isEntry name = true
      · have hmem : name ∈ order (rel ++ t.root) := by
          rw [← hloc, ← hnames]
          simp
        have hsome := (hlist.mem rel hkind name hentry).mp hmem
        obtain ⟨k, hk⟩ := Option.isSome_iff_exists.mp hsome
        obtain ⟨e, he, -⟩ := Option.map_eq_some_iff.mp hk
        refine Or.inr (Or.inr ⟨hunseen, e, ?_, Or.inl rfl⟩)
        rw [hloc, ← List.cons_append, hsource, he]
        rfl
      · rcases not_not.mp (mt decide_eq_true hentry) with hname | hname
        · exact Or.inl hname
        · exact Or.inr (Or.inl hname)
    simp [World.after, hperm]

/-- **The walk can go on** without a failure: it waits for nothing but `request_mutex`, and stops
only at a destination that cannot be made. -/
theorem live (h : Located t s d) (hlist : t.Listing order)
    (hreach : Reaches Sys.step (Sys.ListsIn order) (t.init batchSize) s)
    (hended : s.prog.aio.ended = none) (hpc : s.prog.pc.ofWalk = true) :
    (∃ l, l.ofWalk = true ∧ ¬ l.Fails ∧ s.ListsIn order l ∧ (s.step l).isSome) ∨
      (s.prog.pc = .addLock ∧ s.prog.aio.mgr.requestMutex = some .aio) ∨
      (s.prog.pc = .mkdir ∧ ¬ t.New) := by
  have hr : t.Run s := .of_reaches hreach
  by_cases hfree : s.prog.pc.free = true
  · rcases Sys.free_live hr.locks hended hfree with ⟨l, hl, hfails, hread, hsome⟩ | hwaits
    · refine Or.inl ⟨l, hl, hfails, ?_, hsome⟩
      cases l with
      | readdir answer => exact absurd rfl (hread answer)
      | _ => trivial
    · exact Or.inr (Or.inl hwaits)
  cases hpc' : s.prog.pc with
  | walk =>
    cases hqueue : s.prog.queue with
    | nil =>
      exact Or.inl ⟨.walkEnd, rfl, by simp [Label.Fails], trivial,
        Sys.isSome_step hended (by simp) rfl (by simp [Prog.mainStep, hpc', hqueue])⟩
    | cons curr rest =>
      obtain ⟨k, hsome⟩ := h.stat_live hr hended hpc' hqueue
      exact Or.inl ⟨.stat (some k), rfl, by simp [Label.Fails], trivial, hsome⟩
  | mkdir =>
    by_cases hnew : t.New
    · exact Or.inl ⟨.mkdir true, rfl, by simp [Label.Fails], trivial,
        h.mkdir_live hr hreach hended hpc' hnew⟩
    · exact Or.inr (Or.inr ⟨rfl, hnew⟩)
  | opendir =>
    exact Or.inl ⟨.opendir true, rfl, by simp [Label.Fails], trivial,
      h.opendir_live hr hended hpc'⟩
  | readdir =>
    obtain ⟨answer, hne, hlists, hsome⟩ := h.readdir_live hr hlist (.of_reaches hreach) hended hpc'
    exact Or.inl ⟨.readdir answer, rfl, hne, hlists, hsome⟩
  | closedir | bumpReqCount | copyReg | addLock | addLink | addUnlock =>
    exact absurd (by rw [hpc']; rfl) hfree
  | _ => simp [hpc', MainPc.ofWalk, MainPc.inBody] at hpc

end Located

end

section

variable {t : Source} {order : Loc → List Name} {s s' : Sys} {l : Label} {ls : List Label}
  {batchSize : ℤ}

end

end Cpr
