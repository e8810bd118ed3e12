/-
# The copy is correct

A run in which no system call fails ends with status 0, and then the destination has the
files of the source, with the same kinds and the same bytes, and everything else is as it
was.
-/
import Cpr.System.Data
import Cpr.System.Depth
import Cpr.System.Skipped

namespace Cpr

open Transition Unix

/-- The destination is a copy of the source, and nothing else changed. -/
structure Copied (t : Task) (s : Sys) : Prop where
  same : ∀ rel, s.world.fs.entry (rel ++ t.target) = t.fs.entry (rel ++ t.root)
  source : ∀ rel, s.world.fs.entry (rel ++ t.root) = t.fs.entry (rel ++ t.root)
  frame : ∀ l, ¬ t.target <:+ l → s.world.fs.entry l = t.fs.entry l

/-- What a copy has at a place: the file of the source, with the bytes that are transferred. -/
def Setting.copyOf (t : Setting) (rel : Loc) : Option Entry :=
  (t.fs.entry (rel ++ t.root)).map (Entry.withContent (t.transferred rel))

lemma Setting.copyOf_of_lt {t : Setting} {rel : Loc} (h : (t.content rel).length < 2 ^ 31) :
    t.copyOf rel = t.fs.entry (rel ++ t.root) := by
  rw [copyOf, transferred_of_lt h]
  cases he : t.fs.entry (rel ++ t.root) with
  | none => rfl
  | some e =>
    cases e with
    | reg bytes => rw [content, Fs.content, he]; rfl
    | _ => rfl

section

variable {t : Task} {s : Sys} {d : Places} {batchSize : ℤ}

/-- At the end of the walk the destination is a copy, if the regular files are copied that a
request was made for. -/
theorem Copying.entry_eq (h : Copying t.toSetting s d) (hr : t.Run s) (hqueue : s.prog.queue = [])
    (hstart : s.prog.pc.beforeStart = false)
    (hreg : ∀ rel, t.kind rel = some .reg → s.Requested rel →
      s.world.fs.entry (rel ++ t.target) = some (.reg (t.transferred rel))) (rel : Loc) :
    s.world.fs.entry (rel ++ t.target) = t.copyOf rel := by
  rw [Setting.copyOf]
  cases he : t.fs.entry (rel ++ t.root) with
  | none =>
    rw [Option.map_none]
    by_contra hne
    obtain ⟨e, he'⟩ := Option.ne_none_iff_exists'.mp hne
    have hkind := h.tree.copied rel e he'
    simp [Setting.kind, he] at hkind
  | some e =>
    have hdone := h.walk.mem_done hqueue hstart rel (by rw [he]; rfl)
    have hkind : t.kind rel = some e.kind := by rw [Setting.kind, he]; rfl
    have hstat : s.srcStat rel = some e.kind := (hr.srcStat_eq (by simp [hkind])).trans hkind
    rcases t.kinds rel e he with hdir | hfile
    · rw [Entry.kind_eq_dir.mp hdir]
      exact h.tree.dirs rel hdone (hdir ▸ hkind)
    · obtain ⟨bytes, rfl⟩ := Entry.kind_eq_reg.mp hfile
      rcases h.walk.made rel hdone with (hmade | ⟨-, hreq⟩) | ⟨k, hk, -, hother⟩
      · exact absurd (hstat.symm.trans hmade.1) (by simp [Entry.kind])
      · exact hreg rel hkind hreq
      · exact absurd (Option.some.inj (hk.symm.trans hstat)) hother

/-- The end of a run without faults, for files of any size for which the calls succeed. -/
theorem copyOf_of_reaches (hfiles : t.regularFiles.card < 2 ^ 32)
    (h : Reaches Sys.step Sys.Faultless (t.init batchSize) s) {x : Exit}
    (hended : s.prog.aio.ended = some x) :
    x = .exited 0 ∧ ∃ d, Copying t.toSetting s d ∧
      ∀ rel, s.world.fs.entry (rel ++ t.target) = t.copyOf rel := by
  have hcases := Data.ended_of_reaches h
  have hdata := Data.of_reaches (fun _ _ hok => hok.aio) h hcases
  have hexit : s.prog.aio.ended = some (.exited 0) := hcases.resolve_left (by simp [hended])
  obtain rfl := Option.some.inj (hended.symm.trans hexit)
  obtain ⟨d, hcopy⟩ := Copying.of_reaches h hcases
  have hr := Setting.Run.of_reaches h
  have hprog := Sys.prog_reaches_any h
  have hlt : s.prog.aio.log.accepted.length < 2 ^ 32 :=
    (hr.ready.good.accepted_le.trans (Setting.next_le_of_reaches h)).trans_lt hfiles
  have hc := Counting.of_reaches hprog
  have hpc := hc.success hexit
  have hlen := (Stopped.of_reaches hprog (Or.inr ((Locks.of_reaches hprog).joined hpc))).2 hlt
  refine ⟨rfl, d, hcopy, hcopy.entry_eq hr (hc.queue (by rw [hpc]; rfl)) (by rw [hpc]; rfl) ?_⟩
  exact fun rel hkind hreq => hdata.entry_of_request hprog (by rw [hpc]; rfl) hlen hkind hreq

/-- **End-to-end correctness of the copy**, for every batch size, schedule and order of
completions, and for fewer than `2 ^ 32` regular files. -/
theorem copied_of_reaches (hsmall : ∀ rel, (t.content rel).length < 2 ^ 31)
    (hfiles : t.regularFiles.card < 2 ^ 32)
    (h : Reaches Sys.step Sys.Faultless (t.init batchSize) s) {x : Exit}
    (hended : s.prog.aio.ended = some x) : x = .exited 0 ∧ Copied t s := by
  obtain ⟨hexit, d, hcopy, hsame⟩ := copyOf_of_reaches hfiles h hended
  refine ⟨hexit, fun rel => ?_, fun rel => hcopy.tree.source, hcopy.tree.frame⟩
  rw [hsame rel, Setting.copyOf_of_lt (hsmall rel)]

end

/-- A run that copies a directory with one file of three bytes. -/
theorem copied_of_reaches_oneFile : ∃ s : Sys,
    Reaches Sys.step Sys.Faultless (oneFileTask.init 1) s ∧
      s.prog.aio.ended = some (.exited 0) ∧ Copied oneFileTask s := by
  have hrun : (execOk Sys.step Sys.Faultless (oneFileTask.init 1)
      (oneFileWalk ++ oneFileDrain)).map (fun s => s.prog.aio.ended) = some (some (.exited 0)) := by
    decide +kernel
  obtain ⟨s, hs, hended⟩ := Option.map_eq_some_iff.mp hrun
  have hreach := reaches_of_execOk hs
  have hsmall : ∀ rel, (oneFileTask.content rel).length < 2 ^ 31 := by
    have hall : ∀ l ∈ oneFile.dom, (oneFile.content l).length < 2 ^ 31 := by decide +kernel
    intro rel
    by_cases hmem : rel ++ oneFileTask.root ∈ oneFile.dom
    · exact hall _ hmem
    · have hnone : oneFile.entry (rel ++ oneFileTask.root) = none := by
        rw [oneFile.mem_dom] at hmem
        simpa using hmem
      have hnil : oneFileTask.content rel = [] := by
        rw [Setting.content, Fs.content, show oneFileTask.fs = oneFile from rfl, hnone]
      rw [hnil]
      decide
  have hfiles : oneFileTask.regularFiles.card < 2 ^ 32 := by decide +kernel
  exact ⟨s, hreach, hended, (copied_of_reaches hsmall hfiles hreach hended).2⟩

/-- The copy of a directory with `2 ^ 32` files ends with status 0 and copies none of them. -/
theorem not_copied_of_overflow : ¬ ∀ (t : Task) (batchSize : ℤ) (s : Sys) (x : Exit),
    (∀ rel, (t.content rel).length < 2 ^ 31) →
      Reaches Sys.step Sys.Faultless (t.init batchSize) s → s.prog.aio.ended = some x →
      x = .exited 0 ∧ Copied t s := by
  intro hall
  obtain ⟨n, hpos, hn⟩ : ∃ n : ℕ, 0 < n ∧ toInt32 n = 0 := ⟨2 ^ 32, by decide, by decide⟩
  obtain ⟨s, hs, hexit, -, -, hfs⟩ := flat.reaches_exit hn 1
  obtain ⟨-, hcopied⟩ := hall (flatTask n) 1 s _ flatTask_content hs hexit
  have hsame : s.world.fs.entry [fileName 0, ['d']] = flatEntry n [fileName 0, ['s']] :=
    hcopied.same [fileName 0]
  rw [hfs, flat.no_file_withTarget, flatEntry_file hpos] at hsame
  cases hsame

end Cpr
