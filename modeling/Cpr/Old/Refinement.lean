/-
# Both programs work towards the same goal

When no call fails, every step of the old program, of the parent or of a child, makes or fills
one place of the copy, or does nothing to it.  So the old program, too, refines the building of
the copy from nothing, although its processes do the work in another order.
-/
import Cpr.Old.Agree
import Cpr.System.Refinement

namespace Cpr

open Transition Unix

/-- What is below the destination of the old program. -/
def Setting.oldBuilt (t : Setting) (o : OldSys) (rel : Loc) : Option Entry :=
  o.world.main.fs.entry (rel ++ t.target)

/-- Only `mkdir` changes the file system for the parent. -/
lemma World.fs_of_afterParent {w w' : World} {p : OldProg} {l : OldLabel}
    (h : w.afterParent p l = some w') (hl : l ≠ .mkdir true) : w'.fs = w.fs := by
  have hsame : some w = some w' → w'.fs = w.fs := fun heq => by rw [Option.some.inj heq]
  cases l with
  | mkdir ok =>
    cases ok with
    | false => exact hsame h
    | true => exact absurd rfl hl
  | stat answer =>
    cases answer with
    | none => exact hsame h
    | some k =>
      rw [afterParent] at h
      split at h
      · cases h
      · exact hsame (Option.ite_none_right_eq_some.mp h).2
  | opendir ok =>
    cases ok with
    | false => exact hsame h
    | true =>
      rw [afterParent] at h
      split at h
      · cases h
      · split at h
        · cases h
        · obtain ⟨-, heq⟩ := Option.ite_none_right_eq_some.mp h
          rw [← Option.some.inj heq]
  | readdir answer =>
    cases answer with
    | failed => exact hsame h
    | finished => exact hsame (Option.ite_none_right_eq_some.mp h).2
    | entry =>
      obtain ⟨-, heq⟩ := Option.ite_none_right_eq_some.mp h
      rw [← Option.some.inj heq]
  | _ => exact hsame h

section

variable {t : Setting} {o o' : OldSys} {u : Sys} {d : Places} {l : OldLabel} {i : ℕ} {rel : Loc}
  {act : ChildAct}

/-- The old program's file system in a state of `cpr.c`. -/
def OldSys.view (o : OldSys) : Sys :=
  ⟨.init o.prog.argv.srcName o.prog.argv.dstName 1, o.world.main⟩

lemma Setting.built_view (o : OldSys) : t.built o.view = t.oldBuilt o := rfl

/-- A step that leaves the file system alone does no work. -/
lemma Setting.reaches_of_fs_eq (h : o'.world.main.fs = o.world.main.fs) :
    Reaches t.goal.step anyLabel (t.oldBuilt o) (t.oldBuilt o') := by
  have heq : t.oldBuilt o' = t.oldBuilt o := funext fun rel => by rw [oldBuilt, h]; rfl
  exact heq ▸ Reaches.refl

/-- What a child does to the file system is work towards the goal. -/
lemma ChildEffect.reaches_built (h : ChildEffect t rel o.world.main.fs o'.world.main.fs)
    (hreg : t.kind rel = some .reg) :
    Reaches t.goal.step anyLabel (t.oldBuilt o) (t.oldBuilt o') := by
  rw [← t.built_view, ← t.built_view]
  generalize hfs : o'.world.main.fs = fs' at h
  cases h with
  | none => exact Setting.reaches_of_fs_eq hfs
  | created _ adds =>
    rw [← hfs] at adds
    exact Setting.reaches_of_adds (e := .reg (t.transferred rel)) adds (Setting.goal_value_reg hreg)
  | filled =>
    by_cases hfile : ∃ old, o.world.main.fs.entry (rel ++ t.target) = some (.reg old)
    · obtain ⟨old, hold⟩ := hfile
      exact Setting.reaches_of_setContent hold hreg hfs
    · -- there is no file to fill
      have hentry : (o.world.main.fs.setContent (rel ++ t.target) (t.transferred rel)).entry =
          o.world.main.fs.entry := Fs.entry_setContent_of_not_reg fun old hold => hfile ⟨old, hold⟩
      have heq : t.built o'.view = t.built o.view := funext fun rel' => by
        show o'.world.main.fs.entry _ = o.world.main.fs.entry _
        rw [hfs, hentry]
      exact heq ▸ Reaches.refl

/-- A child that moves has the file of one place to work on. -/
lemma OldData.childEffect (h : OldData t o) (hs : Shadow t o u d)
    (hok : o.Faultless (.child i act)) (hstep : o.step (.child i act) = some o') :
    ∃ rel, t.kind rel = some .reg ∧ ChildEffect t rel o.world.main.fs o'.world.main.fs := by
  obtain ⟨-, hfires, hafter⟩ := OldSys.fires_of_step hstep
  obtain ⟨p', w'⟩ := o'
  dsimp only at hfires hafter ⊢
  obtain ⟨c, v, hc, hperm, rfl⟩ := OldWorld.after_child hafter
  cases hfires with
  | fail _ _ hfails => exact hfails.elim
  | child _ _ c₀ c' hc₀ hfires =>
    obtain rfl := Option.some.inj (hc.symm.trans hc₀)
    have hmem := List.mem_of_getElem? hc
    obtain ⟨rel, -, hreg, hnode⟩ := hs.exists_place hmem
    exact ⟨rel, hreg, (ChildStage.step (w := o.world.ofChild i) (h.stage i c rel hc hnode hreg)
      (hs.site h.content hmem hnode hreg i) hok.1 (hok.2 c hc) hfires hperm).2⟩

/-- **A step of the old program is work towards the goal**, or none. -/
theorem Shadow.reaches_built (hs : Shadow t o u d) (h : OldData t o) (hok : o.Faultless l)
    (hstep : o.step l = some o') :
    Reaches t.goal.step anyLabel (t.oldBuilt o) (t.oldBuilt o') := by
  by_cases hchild : ∃ i act, l = .child i act
  · obtain ⟨i, act, rfl⟩ := hchild
    obtain ⟨rel, hreg, heffect⟩ := h.childEffect hs hok hstep
    exact heffect.reaches_built hreg
  obtain ⟨-, hfires, hafter⟩ := OldSys.fires_of_step hstep
  have hmain := (OldWorld.after_parent hafter fun i act heq => hchild ⟨i, act, heq⟩).1
  by_cases hmkdir : l = .mkdir true
  · subst hmkdir
    generalize hp : o'.prog = p' at hfires
    cases hfires with
    | fail _ _ hfails => cases hfails
    | mkdir hended hpc =>
      rw [World.afterParent] at hmain
      split at hmain
      · cases hmain
      · rename_i curr rest hqueue
        split at hmain
        · cases hmain
        · rename_i fs' hfs
          -- the directory of the place at the head of the walk
          obtain ⟨rel, todo, hd, hcurr, -⟩ := hs.copying.walk.exists_head (hs.queue.trans hqueue)
          have hrel : rel ∈ d.todo.head? := by rw [hd]; rfl
          have htree := hs.copying.tree
          rw [hcurr, ← hs.world] at hfs
          have hadds := Fs.mkdir_adds hfs
            (htree.dst_at htree.toMirror hs.run (Places.mem_met_of_head hrel))
          rw [hs.world, show fs' = o'.world.main.fs by rw [← Option.some.inj hmain]] at hadds
          have hkind := htree.kind_head hs.copying.walk hs.run hrel (by rw [hs.pc, hpc]; rfl)
          rw [← t.built_view, ← t.built_view]
          exact Setting.reaches_of_adds (e := .dir) hadds (Setting.goal_value_dir hkind)
  · exact Setting.reaches_of_fs_eq (World.fs_of_afterParent hmain hmkdir)

end

section

variable {t : Task} {o : OldSys}

end

end Cpr
