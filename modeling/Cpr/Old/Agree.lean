/-
# The two programs agree

In runs without faults both programs leave the same copy: each regular file is transferred
on its own, by its child or by its request, and each directory is made before what is in it.
-/
import Cpr.Old.Data
import Cpr.Old.Flat
import Cpr.System.Copy

namespace Cpr

open Transition Unix

namespace OldProg

variable {p p' : OldProg} {l : OldLabel}

/-- `main` returns 0, after it has waited at the end of the walk. -/
structure Returns (p : OldProg) : Prop where
  queue : p.pc = .wait → p.queue = []
  ended : ∀ r, p.ended = some r → r = 0 ∧ p.pc = .wait

lemma Returns.step (h : p.Returns) (hok : ¬ l.Fails) (hfires : p.Fires l p') : p'.Returns := by
  cases hfires with
  | child => exact ⟨h.queue, h.ended⟩
  | fail _ _ hfails => exact absurd hfails hok
  | walkEnd hended hpc hqueue => exact ⟨fun _ => hqueue, by simp [hended]⟩
  | wait => exact ⟨h.queue, h.ended⟩
  | waitEnd hended hpc =>
    refine ⟨h.queue, fun r hr => ?_⟩
    exact ⟨(Option.some.inj hr).symm, hpc⟩
  | statOther _ _ _ hended hpc => exact ⟨by simp [hpc], by simp [hended]⟩
  | readdirSkip _ _ hended hpc => exact ⟨by simp [hpc], by simp [hended]⟩
  | readdirEnqueue _ _ _ _ hended hpc => exact ⟨by simp [hpc], by simp [hended]⟩
  | fork _ _ _ hended => exact ⟨by simp [copyReg, next], by simp [copyReg, next, hended]⟩
  | closedir _ hended => exact ⟨by simp [next], by simp [next, hended]⟩
  | statDir _ _ hended | statReg _ _ hended | mkdir hended | opendir hended | readdirEnd _ hended =>
    exact ⟨by simp, by simp [hended]⟩

/-- When `main` has returned, its queue is empty. -/
lemma Returns.of_reaches {t : Task} {o : OldSys} {r : ℤ}
    (h : Reaches OldSys.step OldSys.Faultless t.oldInit o) (hended : o.prog.ended = some r) :
    r = 0 ∧ o.prog.pc = .wait ∧ o.prog.queue = [] := by
  have hreturns : o.prog.Returns := by
    refine h.invariant (I := fun o => o.prog.Returns) (fun hret hok hstep => ?_) ?_
    · exact hret.step hok.not_fails (OldSys.fires_of_step hstep).2.1
    · constructor <;> simp [Setting.oldInit, OldSys.init, OldProg.init]
  obtain ⟨hr, hpc⟩ := hreturns.ended r hended
  exact ⟨hr, hpc, hreturns.queue hpc⟩

end OldProg

section

variable {t : Task} {s : Sys} {o : OldSys} {batchSize : ℤ}

/-- **The old program's copy**, for every order of the children's and the parent's steps. -/
theorem old_copyOf_of_reaches (h : Reaches OldSys.step OldSys.Faultless t.oldInit o) {r : ℤ}
    (hended : o.prog.ended = some r) :
    r = 0 ∧ ∀ rel, o.world.main.fs.entry (rel ++ t.target) = t.copyOf rel := by
  obtain ⟨u, d, hs, hdata⟩ := OldData.of_reaches h
  obtain ⟨rfl, hpc, hqueue⟩ := OldProg.Returns.of_reaches h hended
  have hexited := (Attended.of_reaches (OldSys.prog_reaches h)).exited hended
  have hpc' : u.prog.pc = .waitLock := by rw [hs.pc, hpc]; rfl
  refine ⟨rfl, fun rel => ?_⟩
  rw [← hs.world]
  refine hs.copying.entry_eq hs.run (by rw [hs.queue, hqueue]) (by rw [hpc']; rfl)
    (fun rel hreg hreq => ?_) rel
  -- the child for the place has exited
  obtain ⟨q, req, hlast, hfor⟩ := hreq
  obtain ⟨c, hc, hforc⟩ := hs.forked q req hlast
  have hnode : c.node = t.node rel := by
    rw [← hs.below_eq]
    exact hforc.node_eq hfor
  obtain ⟨i, hi, rfl⟩ := List.getElem_of_mem hc
  have hstage := hdata.stage i _ rel (List.getElem?_eq_getElem hi) hnode hreg
  rw [hexited _ hc] at hstage
  cases hstage with
  | exited written =>
    rw [hs.world]
    exact written

/-- The two programs left the same destination. -/
def SameCopies (t : Setting) (s : Sys) (o : OldSys) : Prop :=
  ∀ rel, s.world.fs.entry (rel ++ t.target) = o.world.main.fs.entry (rel ++ t.target)

/-- **The two programs agree**, for every schedule of each of them. -/
theorem sameCopies_of_reaches (hfiles : t.regularFiles.card < 2 ^ 32)
    (h : Reaches Sys.step Sys.Faultless (t.init batchSize) s)
    (ho : Reaches OldSys.step OldSys.Faultless t.oldInit o) {x : Exit} {r : ℤ}
    (hended : s.prog.aio.ended = some x) (hoended : o.prog.ended = some r) :
    x = .exited 0 ∧ r = 0 ∧ SameCopies t.toSetting s o := by
  obtain ⟨hx, -, -, hcopy⟩ := copyOf_of_reaches hfiles h hended
  obtain ⟨hr, hocopy⟩ := old_copyOf_of_reaches ho hoended
  exact ⟨hx, hr, fun rel => (hcopy rel).trans (hocopy rel).symm⟩

end

/-- The steps of the old program for the directory of `oneFile`. -/
def oneFileOld : List OldLabel :=
  [.stat (some .dir), .mkdir true, .opendir true, .readdir (.entry ['f'] .reg), .readdir .finished,
    .closedir true, .stat (some .reg), .fork true] ++
  [.ioSetup true, .openSrc ⟨3, some 3, 4096⟩, .readSubmit 1,
    .complete ⟨0, .pread, 3, 4096, 3, 0, 0⟩ 3, .readReap ⟨⟨0, .pread, 3, 4096, 3, 0, 0⟩, 3⟩ true,
    .openDst 3, .writeSubmit 1, .complete ⟨1, .pwrite, 3, 4096, 3, 0, 0⟩ 3,
    .writeReap ⟨⟨1, .pwrite, 3, 4096, 3, 0, 0⟩, 3⟩ true, .ioDestroy true].map (.child 0) ++
  [.walkEnd, .wait 0, .waitEnd]

/-- For a directory with `2 ^ 32` files only the old program makes a copy. -/
theorem not_sameCopies_of_overflow : ¬ ∀ (t : Task) (batchSize : ℤ) (s : Sys) (o : OldSys)
    (x : Exit) (r : ℤ), Reaches Sys.step Sys.Faultless (t.init batchSize) s →
      Reaches OldSys.step OldSys.Faultless t.oldInit o → s.prog.aio.ended = some x →
      o.prog.ended = some r → x = .exited 0 ∧ r = 0 ∧ SameCopies t.toSetting s o := by
  intro hall
  obtain ⟨n, hpos, hn⟩ : ∃ n : ℕ, 0 < n ∧ toInt32 n = 0 := ⟨2 ^ 32, by decide, by decide⟩
  obtain ⟨s, hs, hexit, -, -, hfs⟩ := flat.reaches_exit hn 1
  obtain ⟨o, ho, hoended⟩ := flat.exists_oldExit n
  obtain ⟨-, -, hsame⟩ := hall (flatTask n) 1 s o _ _ hs ho hexit hoended
  have hold : o.world.main.fs.entry [fileName 0, ['d']] = (flatTask n).copyOf [fileName 0] :=
    (old_copyOf_of_reaches (t := flatTask n) ho hoended).2 [fileName 0]
  have hnew : s.world.fs.entry [fileName 0, ['d']] = o.world.main.fs.entry [fileName 0, ['d']] :=
    hsame [fileName 0]
  have hsrc : (flatTask n).fs.entry ([fileName 0] ++ (flatTask n).root) = some (.reg [1]) :=
    flatEntry_file hpos
  rw [hfs, flat.no_file_withTarget, hold, Setting.copyOf, hsrc] at hnew
  cases hnew

end Cpr
