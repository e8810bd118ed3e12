/-
# The old program when calls fail

The parent does not notice what goes wrong in its children, and returns 0 over files with holes.
But however the steps of the parent and of the children are ordered, and whatever fails, the file
system is the old one outside the destination, and has nothing below it that is not the source's
but for zeros in the place of bytes.
-/
import Cpr.Old.Holes

namespace Cpr

open Transition Unix

/-! ## The parent -/

/-- What is known about the place that the parent works on. -/
def OldWorking (t : Setting) (w : World) (rel : Loc) : OldPc → Prop
  | .mkdir => t.kind rel = some .dir
  | .opendir => t.kind rel = some .dir ∧ w.fs.entry (rel ++ t.target) = some .dir
  | .readdir => w.fs.entry (rel ++ t.target) = some .dir ∧ w.dir.loc = rel ++ t.root
  | .fork => t.kind rel = some .reg
  | .walk | .closedir | .wait => True

lemma OldWorking.mono {t : Setting} {w w' : World} {rel : Loc} {pc : OldPc}
    (h : OldWorking t w rel pc) (hle : w.fs.Le w'.fs) (hdir : w'.dir = w.dir) :
    OldWorking t w' rel pc := by
  cases pc with
  | opendir => exact ⟨h.1, hle.entry_dir h.2⟩
  | readdir => exact ⟨hle.entry_dir h.1, hdir ▸ h.2⟩
  | _ => exact h

/-- The nodes of the queue and the children are for the places of the source. -/
structure Attending (t : Setting) (o : OldSys) (rels : List Loc) : Prop where
  holds : t.Holds o.world.main.fs
  cwd : o.world.main.cwd = t.cwd
  queue : o.prog.queue = rels.map t.node
  placed : ∀ rel ∈ rels, t.Placed o.world.main.fs rel
  working : ∀ rel ∈ rels.head?, OldWorking t o.world.main rel o.prog.pc
  children : ∀ i c, o.prog.children[i]? = some c → ∃ rel, c.node = t.node rel ∧
    t.kind rel = some .reg ∧ t.Placed o.world.main.fs rel ∧
    (c.pc ≠ .exited → Carrying t (o.world.procs i) c rel)
  spare : ∀ i, o.prog.children.length ≤ i → o.world.procs i = ⟨fun _ => none, fun _ => 0⟩

/-- The kernel moves no bytes from or to `MAP_FAILED`, in any process. -/
def OldSys.Guarded (_ : OldSys) : OldLabel → Prop
  | .child _ act => act.Guarded
  | _ => True

instance OldSys.decidableGuarded (s : OldSys) (l : OldLabel) : Decidable (s.Guarded l) := by
  induction l using OldLabel.casesOn <;> (unfold OldSys.Guarded; infer_instance)

namespace Attending

variable {t : Setting} {o o' : OldSys} {rels rels' : List Loc} {rel : Loc} {l : OldLabel} {i : ℕ}
  {act : ChildAct} {curr : Node} {rest : List Node}

lemma init (t : Setting) : Attending t t.oldInit [[]] where
  holds := .init t
  cwd := rfl
  queue := rfl
  placed rel hrel := by
    obtain rfl := List.mem_singleton.mp hrel
    exact ⟨by simpa [Setting.kind] using t.root_isSome, by simp⟩
  working _ _ := trivial
  children i c hc := by simp [Setting.oldInit, OldSys.init, OldProg.init] at hc
  spare _ _ := rfl

/-- The first node of the queue. -/
lemma exists_head (h : Attending t o rels) (hqueue : o.prog.queue = curr :: rest) :
    ∃ rel todo, rels = rel :: todo ∧ curr = t.node rel ∧ rest = todo.map t.node := by
  have hmap := h.queue.symm.trans hqueue
  cases rels with
  | nil => simp at hmap
  | cons rel todo =>
    obtain ⟨hcurr, hrest⟩ := List.cons.inj hmap
    exact ⟨rel, todo, rfl, hcurr.symm, hrest.symm⟩

/-- A step of a child. -/
lemma child (h : Attending t o rels) (hok : act.Guarded) (hstep : o.step (.child i act) = some o') :
    Attending t o' rels := by
  obtain ⟨-, hfires, hafter⟩ := OldSys.fires_of_step hstep
  obtain ⟨p', w'⟩ := o'
  dsimp only at hfires hafter
  obtain ⟨c, v, hc, hperm, rfl⟩ := OldWorld.after_child hafter
  cases hfires with
  | fail _ _ hfails => exact hfails.elim
  | child _ _ c₀ c' hc₀ hfires =>
    obtain rfl := Option.some.inj (hc.symm.trans hc₀)
    obtain ⟨rel, hnode, hreg, hplaced, hcarry⟩ := h.children i c hc
    obtain ⟨hnext, himpact⟩ := Carrying.step (w := o.world.ofChild i)
      (hcarry (Child.not_exited_of_fires hfires)) h.holds hplaced hreg h.cwd hnode hok hfires hperm
    refine ⟨h.holds.impact himpact, h.cwd, h.queue,
      fun r hr => (h.placed r hr).mono himpact.le,
      fun r hr => OldWorking.mono (h.working r hr) himpact.le rfl, fun j c₁ hc₁ => ?_,
      fun j hj => ?_⟩
    · by_cases hj : j = i
      · subst hj
        obtain ⟨hlt, -⟩ := List.getElem?_eq_some_iff.mp hc
        rw [List.getElem?_set_self hlt] at hc₁
        obtain rfl := Option.some.inj hc₁
        refine ⟨rel, (Child.node_of_fires hfires).trans hnode, hreg, hplaced.mono himpact.le,
          fun hpc => ?_⟩
        simpa only [OldWorld.setChild, if_true] using hnext hpc
      · rw [List.getElem?_set_ne (Ne.symm hj)] at hc₁
        obtain ⟨r, hnode₁, hreg₁, hplaced₁, hcarry₁⟩ := h.children j c₁ hc₁
        refine ⟨r, hnode₁, hreg₁, hplaced₁.mono himpact.le, fun hpc => ?_⟩
        simpa only [OldWorld.setChild, if_neg hj] using hcarry₁ hpc
    · rw [List.length_set] at hj
      have hlt := (List.getElem?_eq_some_iff.mp hc).1
      have hne : j ≠ i := by omega
      simpa only [OldWorld.setChild, if_neg hne] using h.spare j hj

/-- A step of the parent. -/
lemma walked (h : Attending t o rels) (himpact : t.Impact o.world.main.fs o'.world.main.fs)
    (hcwd : o'.world.main.cwd = o.world.main.cwd) (hprocs : o'.world.procs = o.world.procs)
    (hkids : o'.prog.children = o.prog.children) (hqueue : o'.prog.queue = rels'.map t.node)
    (hplaced : ∀ rel ∈ rels', rel ∈ rels ∨ t.Placed o'.world.main.fs rel)
    (hworking : ∀ rel ∈ rels'.head?, OldWorking t o'.world.main rel o'.prog.pc) :
    Attending t o' rels' where
  holds := h.holds.impact himpact
  cwd := hcwd.trans h.cwd
  queue := hqueue
  placed rel hrel := (hplaced rel hrel).elim (fun hold => (h.placed rel hold).mono himpact.le) id
  working := hworking
  children i c hc := by
    rw [hkids] at hc
    obtain ⟨rel, hnode, hreg, hrel, hcarry⟩ := h.children i c hc
    exact ⟨rel, hnode, hreg, hrel.mono himpact.le, by rw [hprocs]; exact hcarry⟩
  spare i hi := by
    rw [hkids] at hi
    rw [hprocs]
    exact h.spare i hi

/-- A step of the parent that leaves the file system and the children alone. -/
lemma calm (h : Attending t o rels) (hmain : o'.world.main = o.world.main)
    (hprocs : o'.world.procs = o.world.procs) (hkids : o'.prog.children = o.prog.children)
    (hqueue : o'.prog.queue = rels'.map t.node) (hsub : rels' ⊆ rels)
    (hworking : ∀ rel ∈ rels'.head?, OldWorking t o'.world.main rel o'.prog.pc) :
    Attending t o' rels' :=
  h.walked (by rw [hmain]; exact .none) (by rw [hmain]) hprocs hkids hqueue
    (fun _ hrel => Or.inl (hsub hrel)) hworking

/-- What `stat` reports is the kind of the source file. -/
lemma kind_of_stat (h : Attending t o (rel :: rels)) {k : Kind} {w' : World}
    (hafter : o.world.main.afterParent o.prog (.stat (some k)) = some w') :
    t.kind rel = some k ∧ w' = o.world.main := by
  simp only [World.afterParent, h.queue, List.map_cons] at hafter
  obtain ⟨hstat, rfl⟩ := Option.ite_none_right_eq_some.mp hafter |>.imp_right Option.some.inj
  rw [h.cwd, h.holds.stat_eq (h.placed rel List.mem_cons_self)] at hstat
  exact ⟨hstat, rfl⟩

/-- `mkdir` makes the directory of the first place. -/
lemma adds_of_mkdir (h : Attending t o (rel :: rels)) (hpc : o.prog.pc = .mkdir) {w' : World}
    (hafter : o.world.main.afterParent o.prog (.mkdir true) = some w') :
    ∃ fs', o.world.main.fs.Adds fs' (rel ++ t.target) .dir ∧ t.kind rel = some .dir ∧
      w' = { o.world.main with fs := fs' } := by
  simp only [World.afterParent, h.queue, List.map_cons] at hafter
  cases hmkdir : o.world.main.fs.mkdir o.world.main.cwd (t.node rel).dstName with
  | error e => simp [hmkdir] at hafter
  | ok fs' =>
    simp only [hmkdir, Option.some.injEq] at hafter
    have hwork := h.working rel rfl
    rw [hpc] at hwork
    rw [h.cwd] at hmkdir
    exact ⟨fs', Fs.mkdir_adds hmkdir (h.holds.dst_at (h.placed rel List.mem_cons_self)), hwork,
      hafter.symm⟩

/-- `opendir` opens the first place. -/
lemma loc_of_opendir (h : Attending t o (rel :: rels)) {w' : World}
    (hafter : o.world.main.afterParent o.prog (.opendir true) = some w') :
    w'.dir.loc = rel ++ t.root ∧ w'.fs = o.world.main.fs ∧ w'.cwd = o.world.main.cwd := by
  simp only [World.afterParent, h.queue, List.map_cons] at hafter
  cases hfile : o.world.main.fs.fileAt o.world.main.cwd (t.node rel).srcName with
  | none => simp [hfile] at hafter
  | some loc =>
    simp only [hfile] at hafter
    obtain ⟨-, rfl⟩ := Option.ite_none_right_eq_some.mp hafter |>.imp_right Option.some.inj
    rw [Fs.fileAt_eq_some, h.cwd,
      h.holds.src_resolve (h.placed rel List.mem_cons_self)] at hfile
    exact ⟨(Found.here.inj hfile).symm, rfl, rfl⟩

/-- A name that `readdir` returns is one of the source. -/
lemma placed_of_lists (h : Attending t o (rel :: rels)) (hpc : o.prog.pc = .readdir) {name : Name}
    {dtype : DType} (hlists : o.world.main.Lists name dtype)
    (hname : ¬ (name = dot ∨ name = dotdot)) : t.Placed o.world.main.fs (name :: rel) := by
  have hwork := h.working rel rfl
  rw [hpc] at hwork
  obtain ⟨hdir, hloc⟩ := hwork
  rw [not_or] at hname
  obtain ⟨-, e, he, -⟩ := (hlists.resolve_left hname.1).resolve_left hname.2
  rw [hloc, ← List.cons_append, h.holds.frame _ Setting.not_target_suffix] at he
  refine ⟨by rw [Setting.kind, he]; rfl, fun n r heq => ?_⟩
  obtain ⟨-, rfl⟩ := List.cons.inj heq
  exact hdir

/-- `copy_reg` starts a child for the first place. -/
lemma fork (h : Attending t o (rel :: rels)) (hpc : o.prog.pc = .fork) {ok : Bool}
    (hworld : o'.world = o.world) (hprog : o'.prog = o.prog.copyReg (t.node rel) ok) :
    Attending t o' rels := by
  have hkind : t.kind rel = some .reg := by
    have hwork := h.working rel rfl
    rwa [hpc] at hwork
  have hqueue : o'.prog.queue = rels.map t.node := by
    rw [hprog, OldProg.copyReg, OldProg.next, h.queue]
    rfl
  have hkids : o'.prog.children =
      if ok then o.prog.children ++ [.new (t.node rel)] else o.prog.children := by
    rw [hprog]
    rfl
  refine ⟨hworld ▸ h.holds, hworld ▸ h.cwd, hqueue,
    fun r hr => hworld ▸ h.placed r (List.mem_cons_of_mem _ hr),
    fun r _ => by rw [hprog]; trivial, fun i c hc => ?_, fun i hi => ?_⟩
  · rw [hkids] at hc
    rw [hworld]
    cases ok with
    | false => exact h.children i c hc
    | true =>
      rw [if_pos rfl, List.getElem?_append] at hc
      split_ifs at hc with hlt
      · exact h.children i c hc
      · obtain rfl := List.mem_singleton.mp (List.mem_of_getElem? hc)
        have hspare := h.spare i (not_lt.mp hlt)
        exact ⟨rel, rfl, hkind, h.placed rel List.mem_cons_self, fun _ =>
          .new _ (by rw [hspare]) (by rw [hspare])⟩
  · rw [hkids] at hi
    rw [hworld]
    refine h.spare i (le_trans ?_ hi)
    split_ifs <;> simp

/-- **A step of the parent**, whatever it answers. -/
theorem parent (h : Attending t o rels) (hl : ∀ i act, l ≠ .child i act)
    (hstep : o.step l = some o') : ∃ rels', Attending t o' rels' := by
  obtain ⟨-, hfires, hafter⟩ := OldSys.fires_of_step hstep
  obtain ⟨hmain, hprocs⟩ := OldWorld.after_parent hafter hl
  obtain ⟨p', w'⟩ := o'
  dsimp only at hfires hmain hprocs
  -- answers with which the environment has nothing to do
  have hquiet (hnone : o.world.main.afterParent o.prog l = some o.world.main) :
      w'.main = o.world.main := Option.some.inj (hmain.symm.trans hnone)
  cases hfires with
  | child i act => exact absurd rfl (hl i act)
  | fail _ _ hfails =>
    have hsame : o.world.main.afterParent o.prog l = some o.world.main := by
      cases l with
      | stat answer =>
        obtain rfl : answer = none := hfails
        rfl
      | mkdir ok | opendir ok =>
        obtain rfl : ok = false := hfails
        rfl
      | _ => exact hfails.elim
    refine ⟨rels, h.calm (hquiet hsame) hprocs rfl h.queue (List.Subset.refl _) ?_⟩
    rw [hquiet hsame]
    exact h.working
  | statDir curr rest hended hpc hqueue | statReg curr rest hended hpc hqueue =>
    obtain ⟨rel, todo, rfl, -⟩ := h.exists_head hqueue
    obtain ⟨hkind, hsame⟩ := h.kind_of_stat hmain
    refine ⟨_, h.calm hsame hprocs rfl h.queue (List.Subset.refl _) fun r hr => ?_⟩
    obtain rfl := Option.some.inj hr
    exact hkind
  | statOther curr rest k hended hpc hqueue =>
    obtain ⟨rel, todo, rfl, -, hrest⟩ := h.exists_head hqueue
    obtain ⟨-, hsame⟩ := h.kind_of_stat hmain
    refine ⟨todo, h.calm hsame hprocs rfl hrest (List.subset_cons_self _ _) fun r _ => ?_⟩
    dsimp only
    rw [hpc]
    trivial
  | walkEnd =>
    exact ⟨rels, h.calm (hquiet rfl) hprocs rfl h.queue (List.Subset.refl _) fun _ _ => trivial⟩
  | mkdir hended hpc =>
    cases rels with
    | nil => simp [World.afterParent, h.queue] at hmain
    | cons rel todo =>
      obtain ⟨fs', hadds, hkind, hworld⟩ := h.adds_of_mkdir hpc hmain
      refine ⟨_, h.walked ?_ (by rw [hworld]) hprocs rfl h.queue (fun _ hr => Or.inl hr)
        fun r hr => ?_⟩
      · rw [hworld]
        exact .added rel .dir fs' hadds hkind (Or.inl rfl)
      · obtain rfl := Option.some.inj hr
        rw [hworld]
        exact ⟨hkind, hadds.self⟩
  | opendir hended hpc =>
    cases rels with
    | nil => simp [World.afterParent, h.queue] at hmain
    | cons rel todo =>
      obtain ⟨hloc, hfs, hcwd⟩ := h.loc_of_opendir hmain
      have hwork := h.working rel rfl
      rw [hpc] at hwork
      refine ⟨_, h.walked (by rw [hfs]; exact .none) hcwd hprocs rfl h.queue
        (fun _ hr => Or.inl hr) fun r hr => ?_⟩
      obtain rfl := Option.some.inj hr
      exact ⟨by rw [hfs]; exact hwork.2, hloc⟩
  | readdirSkip name dtype hended hpc =>
    obtain ⟨-, hworld⟩ := Option.ite_none_right_eq_some.mp hmain |>.imp_right Option.some.inj
    refine ⟨rels, h.walked (by rw [← hworld]; exact .none) (by rw [← hworld]) hprocs rfl h.queue
      (fun _ hr => Or.inl hr) fun r hr => ?_⟩
    have hwork := h.working r hr
    rw [hpc] at hwork
    rw [← hworld, hpc]
    exact hwork
  | readdirEnqueue curr rest name dtype hended hpc hqueue hname =>
    obtain ⟨rel, todo, rfl, rfl, rfl⟩ := h.exists_head hqueue
    obtain ⟨hlists, hworld⟩ := Option.ite_none_right_eq_some.mp hmain |>.imp_right Option.some.inj
    have hplaced := h.placed_of_lists hpc hlists hname
    have hwork := h.working rel rfl
    rw [hpc] at hwork
    refine ⟨rel :: (todo ++ [name :: rel]), h.walked (by rw [← hworld]; exact .none)
      (by rw [← hworld]) hprocs rfl ?_ (fun r hr => ?_) fun r hr => ?_⟩
    · rw [List.map_cons, List.map_append]
      rfl
    · rw [← List.cons_append, List.mem_append, List.mem_singleton] at hr
      refine hr.imp_right fun heq => ?_
      rw [heq, ← hworld]
      exact hplaced
    · obtain rfl := Option.some.inj hr
      dsimp only
      rw [← hworld, hpc]
      exact hwork
  | readdirEnd answer hended hpc hanswer =>
    have hfs : w'.main = o.world.main := by
      rcases hanswer with rfl | rfl
      · exact (Option.ite_none_right_eq_some.mp hmain |>.imp_right Option.some.inj).2.symm
      · exact hquiet rfl
    exact ⟨rels, h.calm hfs hprocs rfl h.queue (List.Subset.refl _) fun _ _ => trivial⟩
  | closedir =>
    refine ⟨rels.tail, h.calm (hquiet rfl) hprocs rfl ?_ (List.tail_subset rels)
      fun _ _ => trivial⟩
    show o.prog.queue.tail = _
    rw [h.queue, List.map_tail]
  | fork curr rest ok hended hpc hqueue =>
    obtain ⟨rel, todo, rfl, rfl, -⟩ := h.exists_head hqueue
    refine ⟨todo, h.fork hpc ?_ rfl⟩
    have hmain' := hquiet rfl
    cases w'
    dsimp only at hmain' hprocs
    rw [hmain', hprocs]
  | wait i c hended hpc | waitEnd hended hpc =>
    refine ⟨rels, h.calm (hquiet rfl) hprocs rfl h.queue (List.Subset.refl _) fun _ _ => ?_⟩
    show OldWorking t _ _ o.prog.pc
    rw [hpc]
    trivial

/-- **Every run of the old program**, whatever fails. -/
theorem of_reaches (h : Reaches OldSys.step OldSys.Guarded t.oldInit o) :
    ∃ rels, Attending t o rels := by
  refine h.invariant (I := fun o => ∃ rels, Attending t o rels)
    (fun {o l o'} hinv hok hstep => ?_) ⟨_, init t⟩
  obtain ⟨rels, hatt⟩ := hinv
  by_cases hl : ∃ i act, l = .child i act
  · obtain ⟨i, act, rfl⟩ := hl
    exact ⟨rels, hatt.child hok hstep⟩
  · exact hatt.parent (fun i act heq => hl ⟨i, act, heq⟩) hstep

end Attending

section

variable {t : Setting} {o : OldSys}

end

end Cpr
