/-
# Every place is met once

A directory stream returns no name twice, so the walk meets no place twice, and `copy_reg`
makes one request for each regular file that it meets.
-/
import Cpr.System.Walk

namespace Cpr

open Transition Unix

/-- The request of the first node was made. -/
def MainPc.requested : MainPc → Bool
  | .addLock | .addLink | .addUnlock => true
  | _ => false

/-- The places are met once, each after its parent. -/
structure Tidy (s : Sys) (d : Places) : Prop where
  nodup : d.met.Nodup
  legal : ∀ rel ∈ d.met, ∀ n ∈ rel, LegalName n
  parent : ∀ n rel, n :: rel ∈ d.met → rel ∈ d.done ∨ (rel ∈ d.todo.head? ∧
    (s.prog.pc = .closedir ∨ (s.prog.pc = .readdir ∧ n ∈ s.world.dir.seen)))
  count : s.prog.aio.reqs.next =
    (d.done.filter fun rel => s.srcStat rel = some .reg).length +
      if s.prog.pc.requested then 1 else 0
  start : s.prog.pc.beforeStart = true → d.done = []

namespace Tidy

variable {fs : Fs} {root rel : Loc} {s s' : Sys} {l : Label} {d : Places} {done todo : List Loc}

/-- The kinds of the sources that are done do not change. -/
lemma filter_eq (hw : Walk fs root s d) (g : Sys.Grows s s') :
    (d.done.filter fun rel => s'.srcStat rel = some .reg) =
      d.done.filter fun rel => s.srcStat rel = some .reg := by
  refine List.filter_congr fun rel hrel => ?_
  obtain ⟨k, hk⟩ : ∃ k, s.srcStat rel = some k := by
    rcases hw.made rel hrel with (hdir | hreg) | ⟨k, hk, -⟩
    · exact ⟨_, hdir.1⟩
    · exact ⟨_, hreg.1⟩
    · exact ⟨k, hk⟩
  rw [g.srcStat hk, hk]

/-- A step that keeps the queue. -/
lemma keep (h : Tidy s d) (hw : Walk fs root s d) (g : Sys.Grows s s')
    (hnext : s'.prog.aio.reqs.next + (if s.prog.pc.requested then 1 else 0) =
      s.prog.aio.reqs.next + if s'.prog.pc.requested then 1 else 0)
    (hstart : s'.prog.pc.beforeStart = true → s.prog.pc.beforeStart = true)
    (hclosedir : s.prog.pc = .closedir → s'.prog.pc = .closedir)
    (hreaddir : s.prog.pc = .readdir → s'.prog.pc = .closedir ∨
      (s'.prog.pc = .readdir ∧ s.world.dir.seen ⊆ s'.world.dir.seen)) : Tidy s' d where
  nodup := h.nodup
  legal := h.legal
  parent n rel hrel := by
    rcases h.parent n rel hrel with hdone | ⟨hhead, hpc | ⟨hpc, hn⟩⟩
    · exact Or.inl hdone
    · exact Or.inr ⟨hhead, Or.inl (hclosedir hpc)⟩
    · rcases hreaddir hpc with hpc' | ⟨hpc', hseen⟩
      · exact Or.inr ⟨hhead, Or.inl hpc'⟩
      · exact Or.inr ⟨hhead, Or.inr ⟨hpc', hseen hn⟩⟩
  count := by
    have hcount := h.count
    rw [filter_eq hw g]
    omega
  start hpc := h.start (hstart hpc)

/-- The first place of the queue is done. -/
lemma finish (h : Tidy s ⟨done, rel :: todo⟩) (hw : Walk fs root s ⟨done, rel :: todo⟩)
    (g : Sys.Grows s s') (hnext : s'.prog.aio.reqs.next = s.prog.aio.reqs.next)
    (hkind : s'.srcStat rel = some .reg ↔ s.prog.pc.requested = true)
    (hpc : s'.prog.pc = .walk) : Tidy s' ⟨rel :: done, todo⟩ where
  nodup := List.perm_middle.nodup_iff.mp h.nodup
  legal r hr := h.legal r (Places.mem_met_finish.mp hr)
  parent n r hr := by
    rcases h.parent n r (Places.mem_met_finish.mp hr) with hdone | ⟨hhead, -⟩
    · exact Or.inl (List.mem_cons_of_mem _ hdone)
    · obtain rfl : rel = r := Option.some.inj hhead
      exact Or.inl List.mem_cons_self
  count := by
    have hcount := h.count
    have hfilter := congrArg List.length (filter_eq hw g)
    rw [hpc, hnext, hcount, List.filter_cons]
    simp only [hkind] at hfilter ⊢
    cases s.prog.pc.requested <;> simp [MainPc.requested, hfilter]
  start h := by simp [hpc, MainPc.beforeStart] at h

/-- `readdir` returned a new legal name. -/
lemma enqueue (h : Tidy s ⟨done, rel :: todo⟩) (hpc : s.prog.pc = .readdir) {name : Name}
    (hname : LegalName name) (hseen : name ∉ s.world.dir.seen)
    (hcount : ∀ r, s'.srcStat r = s.srcStat r) (hpc' : s'.prog.pc = s.prog.pc)
    (hnext : s'.prog.aio.reqs.next = s.prog.aio.reqs.next)
    (hdir : s'.world.dir.seen = name :: s.world.dir.seen) :
    Tidy s' ⟨done, rel :: (todo ++ [name :: rel])⟩ := by
  have hmet : ∀ {r : Loc}, r ∈ Places.met ⟨done, rel :: (todo ++ [name :: rel])⟩ →
      r ∈ Places.met ⟨done, rel :: todo⟩ ∨ r = name :: rel := by
    intro r hr
    simp only [Places.met, List.mem_append, List.mem_cons] at hr ⊢
    tauto
  have hhead : rel ∈ Places.met ⟨done, rel :: todo⟩ := by simp [Places.met]
  have hnot : rel ∉ done := fun hdone => by
    have := (List.nodup_append.mp h.nodup).2.2 rel hdone rel List.mem_cons_self
    exact this rfl
  have hnew : name :: rel ∉ Places.met ⟨done, rel :: todo⟩ := by
    intro hmem
    rcases h.parent name rel hmem with hdone | ⟨-, hcl | ⟨-, hn⟩⟩
    · exact hnot hdone
    · simp [hpc] at hcl
    · exact hseen hn
  refine ⟨?_, fun r hr => ?_, fun n r hr => ?_, ?_, fun hstart => ?_⟩
  · rw [Places.met, ← List.cons_append, ← List.append_assoc]
    exact List.nodup_append.mpr ⟨h.nodup, List.nodup_singleton _, fun r hr r' hr' => by
      rw [List.mem_singleton.mp hr']
      exact fun heq => hnew (heq ▸ hr)⟩
  · rcases hmet hr with hr | rfl
    · exact h.legal r hr
    · intro n hn
      rcases List.mem_cons.mp hn with rfl | hn
      · exact hname
      · exact h.legal rel hhead n hn
  · rcases hmet hr with hr | heq
    · rcases h.parent n r hr with hdone | ⟨hr', hcl | ⟨-, hn⟩⟩
      · exact Or.inl hdone
      · simp [hpc] at hcl
      · refine Or.inr ⟨hr', Or.inr ⟨hpc'.trans hpc, ?_⟩⟩
        rw [hdir]
        exact List.mem_cons_of_mem _ hn
    · obtain ⟨rfl, rfl⟩ := List.cons.inj heq
      refine Or.inr ⟨rfl, Or.inr ⟨hpc'.trans hpc, ?_⟩⟩
      rw [hdir]
      exact List.mem_cons_self
  · simp only [hcount, hpc', hnext]
    exact h.count
  · rw [hpc', hpc] at hstart
    simp [MainPc.beforeStart] at hstart

/-- **One step of the walk meets no place twice.** -/
theorem step (h : Tidy s d) (hw : Walk fs root s d) (hr : Walk.Ready fs root s)
    (hstep : s.step l = some s')
    (hended : s'.prog.aio.ended = none ∨ s'.prog.aio.ended = some (.exited 0)) :
    Tidy s' (d.after l) := by
  have g := Sys.grows_of_step hr.good hstep
  obtain ⟨hrun, hfires, hperm⟩ := Sys.fires_of_step hstep
  obtain ⟨p', w'⟩ := s'
  dsimp only at hfires hperm hended
  cases hfires with
  | fail | readdirExit => simp [Prog.fail, AioState.exit] at hended
  | statOther curr rest k hpc hqueue hdir hreg =>
    obtain ⟨rel, todo, hd, -⟩ := hw.exists_head hqueue
    rw [Places.after, if_neg (not_or.mpr ⟨hdir, hreg⟩)]
    rw [hd] at h hw ⊢
    have hk := g.srcStat (hw.stat_head hperm rfl)
    refine h.finish hw g rfl ?_ hpc
    rw [hk, hpc]
    simp [MainPc.requested, hreg]
  | statDir _ _ hpc | statReg _ _ hpc =>
    rw [Places.after, if_pos (by simp)]
    refine h.keep hw g ?_ ?_ ?_ ?_ <;> simp [hpc, MainPc.requested, MainPc.beforeStart]
  | aio act a ha =>
    have hnext := (aioFrame_of_aioStep hrun ha).next
    exact h.keep hw g (by dsimp only; rw [hnext]) id id fun hpc =>
      Or.inr ⟨hpc, hperm.seen_subset (by simp)⟩
  | destroy hpc =>
    exact h.keep hw g rfl id id fun hpc' => by simp [hpc] at hpc'
  | startThread hpc =>
    have hcount := h.count
    rw [h.start (by rw [hpc]; rfl), hpc] at hcount
    refine ⟨by simp [Places.after, Places.met], by simp [Places.after, Places.met],
      by simp [Places.after, Places.met], ?_, by simp [MainPc.beforeStart]⟩
    simpa [Places.after, MainPc.requested] using hcount
  | initManager hpc | walkEnd hpc | mkdir hpc | opendir hpc
  | bumpReqCount hpc | addLock hpc | waitLock hpc | waitSet hpc | waitUnlock hpc | join hpc =>
    refine h.keep hw g ?_ ?_ ?_ ?_ <;>
    simp [hpc, MainPc.requested, MainPc.beforeStart, AioState.bumpReqCount, AioState.setFlush,
      AioState.unlockFlush]
  | addLink r hpc hr' =>
    obtain ⟨q, -, hlink⟩ := hr.good.addCopyReq_eq hr'
    have hnext : (s.prog.aio.addCopyReq r).reqs.next = s.prog.aio.reqs.next := by
      rw [hlink]
      rfl
    refine h.keep hw g ?_ ?_ ?_ ?_ <;>
    simp [hpc, MainPc.requested, MainPc.beforeStart, hnext]
  | copyReg _ _ hpc =>
    refine h.keep hw g ?_ ?_ ?_ ?_ <;>
    simp [hpc, MainPc.requested, MainPc.beforeStart, AioState.newRequest]
  | readdirSkip name dtype hpc hname =>
    rw [Places.after, if_pos hname]
    exact h.keep hw g rfl id id fun hpc' => Or.inr ⟨hpc', hperm.seen_subset (by simp)⟩
  | readdirEnqueue curr rest name dtype hpc hqueue hname =>
    obtain ⟨rel, todo, hd, -, -⟩ := hw.exists_head hqueue
    rw [hd] at h ⊢
    rw [Places.after, if_neg hname]
    cases hperm with
    | entry _ _ hlists =>
      -- the stream lists a name once, so the new place was not met before
      have hlegal := hlists.legal hname
      rw [not_or] at hname
      have hseen := ((hlists.resolve_left hname.1).resolve_left hname.2).1
      exact h.enqueue hpc hlegal hseen (fun _ => rfl) rfl rfl rfl
    | other _ _ _ _ hentry => exact absurd rfl (hentry _ _)
  | readdirEnd hpc =>
    refine h.keep hw g ?_ ?_ ?_ ?_ <;> simp [hpc, MainPc.requested, MainPc.beforeStart]
  | closedir hpc =>
    obtain ⟨rel, todo, hd⟩ := hw.exists_head_of_inBody hr (by rw [hpc]; rfl)
    rw [hd] at h hw ⊢
    refine h.finish hw g rfl ?_ rfl
    rw [g.srcStat (hw.srcStat_head (by rw [hpc]; rfl) rfl), hpc]
    simp [MainPc.requested]
  | addUnlock hpc =>
    obtain ⟨rel, todo, hd⟩ := hw.exists_head_of_inBody hr (by rw [hpc]; rfl)
    rw [hd] at h hw ⊢
    refine h.finish hw g rfl ?_ rfl
    rw [g.srcStat (hw.srcStat_head (by rw [hpc]; rfl) rfl), hpc]
    simp [MainPc.requested]

lemma init {cwd : Loc} {srcName dstName : CStr} {batchSize : ℤ} :
    Tidy (Sys.init fs cwd srcName dstName batchSize) ⟨[], []⟩ :=
  ⟨List.nodup_nil, by simp [Places.met], by simp [Places.met], rfl, fun _ => rfl⟩

end Tidy

end Cpr
