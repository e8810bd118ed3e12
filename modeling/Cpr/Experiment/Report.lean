/-
# What the experiments report about the program

`is_same` does not look at names that are a directory in one tree and a file in the other.
The program never makes such a name, however it is scheduled and whatever fails: so for its
copies the message of the script is right.
-/
import Cpr.Experiment.Harness
import Cpr.System.Refinement

namespace Cpr

open Transition Unix

section

variable {t : Task} {s : Sys} {ok : Sys → Label → Prop} {batchSize : ℤ}

/-- What a run leaves is not mistaken for a copy. -/
lemma isSame_iff_sameTree (hdir : t.kind [] = some .dir)
    (h : Reaches Sys.step ok (t.init batchSize) s)
    (hmade : s.world.fs.entry t.target = some .dir) :
    isSame s.world.fs t.root t.target = true ↔ SameTree s.world.fs t.root t.target := by
  have hconf : Confined t.toSetting s := Confined.of_reaches h
  have hsource := hconf.isPlainTree_root hdir
  have htarget := hconf.isPlainTree_target hmade
  refine ⟨fun hsame => ?_, fun hsame => hsame.isSame hsource htarget⟩
  by_contra hne
  exact hconf.not_kindClash (kindClash_of_isSame hsource htarget hsame hne)

end

variable {τ : Type} {system : ℕ → Cmd → Fs → Fs × τ} {fs : Fs} {srcDir destDir fsDir : Loc}
  {s : Script τ} {c : TestCase} {urandom : Loc → ℕ → List UInt8} {m : ℕ}

/-- The commands with `cpr` are runs of the program that have ended. -/
def RunsCpr (system : ℕ → Cmd → Fs → Fs × τ) (fs : Fs) (srcDir destDir : Loc) : Prop :=
  ∀ k (b : ℕ), ∃ (t : Setting) (s : Sys), t.fs = fs ∧ t.root = srcDir ∧ t.target = destDir ∧
    Reaches Sys.step anyLabel (t.init b) s ∧ s.prog.aio.ended ≠ none ∧
      (system k ⟨.ours b, srcDir, destDir⟩ fs).1 = s.world.fs

/-- The program keeps to the destination. -/
lemma RunsCpr.frame (h : RunsCpr system fs srcDir destDir) (k b : ℕ) (l : Loc)
    (hl : ¬ destDir <:+ l) : (system k ⟨.ours b, srcDir, destDir⟩ fs).1.entry l = fs.entry l := by
  obtain ⟨t, s, rfl, rfl, rfl, hreach, -, hfs⟩ := h k b
  rw [hfs]
  exact (Confined.of_reaches hreach).frame l hl

/-- The check is right about the program. -/
lemma RunsCpr.isSame_iff (h : RunsCpr system fs srcDir destDir) (hplain : IsPlainTree fs srcDir)
    (k b : ℕ) (hmade : (system k ⟨.ours b, srcDir, destDir⟩ fs).1.entry destDir = some .dir) :
    isSame (system k ⟨.ours b, srcDir, destDir⟩ fs).1 srcDir destDir = true ↔
      SameTree (system k ⟨.ours b, srcDir, destDir⟩ fs).1 srcDir destDir := by
  obtain ⟨t, s, rfl, rfl, rfl, hreach, -, hfs⟩ := h k b
  rw [hfs] at hmade ⊢
  have hdir : t.kind [] = some .dir := map_kind_eq_dir.mpr hplain.root
  exact isSame_iff_sameTree (t := { t with kinds := hplain.kinds }) hdir hreach hmade

lemma mem_zipIdx_iff {bs : List ℕ} (hnd : bs.Nodup) {b k j : ℕ} :
    (b, j) ∈ bs.zipIdx k ↔ b ∈ bs ∧ j = k + bs.idxOf b := by
  rw [List.mk_mem_zipIdx_iff_le_and_getElem?_sub]
  constructor
  · rintro ⟨hle, hget⟩
    obtain ⟨hlt, rfl⟩ := List.getElem?_eq_some_iff.mp hget
    refine ⟨List.getElem_mem hlt, ?_⟩
    rw [hnd.idxOf_getElem]
    omega
  · rintro ⟨hmem, rfl⟩
    refine ⟨Nat.le_add_right _ _, ?_⟩
    rw [Nat.add_sub_cancel_left, List.getElem?_idxOf hmem]

/-- Which messages about the program an experiment prints. -/
lemma oursFailed_mem_failures {k i j b : ℕ} :
    LogLine.oursFailed b (j + 1) ∈ failures system fs srcDir destDir k i ↔ i = j ∧
      b ∈ batchSizes ∧
      isSame (system (k + 1 + batchSizes.idxOf b) ⟨.ours b, srcDir, destDir⟩ fs).1 srcDir destDir =
        false := by
  have hnd : batchSizes.Nodup := by decide
  have hbase : LogLine.oursFailed b (j + 1) ∉
      failure system fs k ⟨.base, srcDir, destDir⟩ (.baselineFailed (i + 1)) := by
    rw [failure]
    split_ifs <;> simp
  rw [failures, List.mem_append, or_iff_right hbase, List.mem_flatMap]
  constructor
  · rintro ⟨⟨b', k'⟩, hmem, hline⟩
    obtain ⟨hb, rfl⟩ := (mem_zipIdx_iff hnd).mp hmem
    rw [failure] at hline
    split_ifs at hline with hsame
    · simp at hline
    · obtain ⟨rfl, hij⟩ := by simpa using hline
      exact ⟨hij.symm, hb, Bool.eq_false_iff.mpr hsame⟩
  · rintro ⟨rfl, hb, hsame⟩
    refine ⟨(b, k + 1 + batchSizes.idxOf b), (mem_zipIdx_iff hnd).mpr ⟨hb, rfl⟩, ?_⟩
    rw [failure, if_neg (by simp [hsame])]
    exact List.mem_singleton_self _

lemma oursFailed_mem_logOf {k i b caseId : ℕ} :
    LogLine.oursFailed b (i + 1) ∈ logOf system fs srcDir destDir caseId k ↔ i < nExperiments ∧
      b ∈ batchSizes ∧ isSame (system (k + 9 * i + 1 + batchSizes.idxOf b)
        ⟨.ours b, srcDir, destDir⟩ fs).1 srcDir destDir = false := by
  simp only [logOf, List.mem_append, List.mem_cons, reduceCtorEq, List.not_mem_nil, or_false,
    false_or, List.mem_flatMap, List.mem_range, oursFailed_mem_failures, List.mem_map, and_false,
    exists_false]
  constructor
  · rintro ⟨j, hj, rfl, hb⟩
    exact ⟨hj, hb⟩
  · rintro ⟨hi, hb⟩
    exact ⟨i, hi, rfl, hb⟩

/-- **The script reports exactly the wrong copies of the program**, for every schedule of its
runs and whatever fails in them, as long as every command makes the destination directory. -/
theorem oursFailed_iff_of_runs (hgen : Generates urandom c.genFunc m)
    (hdir : s.fs.entry fsDir = some .dir) (hsrc : s.fs.entry (c.srcDir fsDir) = none)
    (hdest : s.fs.entry (c.destDir fsDir) = none)
    (hfs : (s.fs.makeDirs (c.srcDir fsDir)).bind (c.genFunc (c.srcDir fsDir)) = some fs)
    (hmade : ∀ k b,
      (system k ⟨b, c.srcDir fsDir, c.destDir fsDir⟩ fs).1.entry (c.destDir fsDir) = some .dir)
    (hbase : ∀ k l, ¬ c.destDir fsDir <:+ l →
      (system k ⟨.base, c.srcDir fsDir, c.destDir fsDir⟩ fs).1.entry l = fs.entry l)
    (hours : RunsCpr system fs (c.srcDir fsDir) (c.destDir fsDir)) :
    ∃ r log k, experimentMain system fsDir c s = some (r, ⟨s.fs, s.log ++ log, k⟩) ∧
      ∀ b ∈ batchSizes, ∀ i < nExperiments, (.oursFailed b (i + 1) ∈ log ↔
        ¬ SameTree (system (s.commands + 9 * i + 1 + batchSizes.idxOf b)
          ⟨.ours b, c.srcDir fsDir, c.destDir fsDir⟩ fs).1 (c.srcDir fsDir) (c.destDir fsDir)) := by
  obtain ⟨fs', hfs', hready, hplain, hremove⟩ := exists_source hgen hdir hsrc hdest
  obtain rfl := Option.some.inj (hfs'.symm.trans hfs)
  have hkeeps : KeepsTo system fs' (c.srcDir fsDir) (c.destDir fsDir) := by
    refine ⟨hmade, fun k b l hl => ?_⟩
    cases b with
    | base => exact hbase k l hl
    | ours b => exact hours.frame k b l hl
  refine ⟨_, _, _, hkeeps.experimentMain_eq hready hfs hremove, fun b hb i hi => ?_⟩
  rw [oursFailed_mem_logOf, and_iff_right hi, and_iff_right hb, Bool.eq_false_iff, ne_eq,
    hours.isSame_iff hplain _ b (hmade _ _)]

lemma entry_oneFile : oneFile.entry [['s']] = some .dir := rfl

lemma legal_firstFile : LegalName (txtName 0) := legal_txtName 0

/-- The file system with the source of the first test case, besides a file. -/
def firstSource : Fs :=
  (oneFile.create [['s']] (srcDirName 1) .dir entry_oneFile rfl (legal_srcDirName 1)).create
    (firstCase.srcDir [['s']]) (txtName 0) (.reg (zeros (txtName 0 :: firstCase.srcDir [['s']])
      (10 * kb))) rfl rfl legal_firstFile

/-- The copy of it. -/
def firstSourceCopy : Setting where
  fs := firstSource
  cwd := []
  srcName := ['s', '/'] ++ srcDirName 1
  dstName := ['s', '/'] ++ destDirName 1
  root := firstCase.srcDir [['s']]
  parent := [['s']]
  name := destDirName 1
  src := by decide +kernel
  dst := by decide +kernel
  links rel p he := by
    have hall : ∀ l ∈ firstSource.dom, ∀ e ∈ firstSource.entry l, e.kind ≠ .lnk := by
      decide +kernel
    exact hall _ ((firstSource.mem_dom _).mpr (Option.isSome_iff_exists.mpr ⟨_, he⟩)) _ he rfl
  outside := by decide

/-- The run of the program: with a batch size of 1 nothing fails, and with others `opendir`
fails when the directory of the copy is made. -/
def firstSourceRun (batchSize : ℕ) : List Label :=
  if batchSize = 1 then caseOneRun
  else [.initManager true, .startThread true, .stat (some .dir), .mkdir true, .opendir false]

/-- The program, run so, and the baseline. -/
def runsProgram (k : ℕ) (cmd : Cmd) (fs : Fs) : Fs × ℕ :=
  match cmd.binary with
  | .base => copiesFirst k cmd fs
  | .ours b => ((exec Sys.step (firstSourceCopy.init b) (firstSourceRun b)).elim fs (·.world.fs), k)

lemma exists_firstSourceRun (b : ℕ) : ∃ s : Sys,
    exec Sys.step (firstSourceCopy.init b) (firstSourceRun b) = some s ∧
      s.prog.aio.ended ≠ none ∧ s.world.fs.entry (firstCase.destDir [['s']]) = some .dir := by
  by_cases hb : b = 1
  · have hrun : (exec Sys.step (firstSourceCopy.init 1) caseOneRun).map (fun s =>
        (s.prog.aio.ended, s.world.fs.entry (firstCase.destDir [['s']]))) =
          some (some (.exited 0), some .dir) := by
      decide +kernel
    obtain ⟨s, hs, heq⟩ := Option.map_eq_some_iff.mp hrun
    obtain ⟨hended, hmade⟩ := Prod.mk.inj heq
    exact ⟨s, by rw [hb]; exact hs, by simp [hended], hmade⟩
  · have hrun : (exec Sys.step (firstSourceCopy.init b) [.initManager true, .startThread true,
        .stat (some .dir), .mkdir true, .opendir false]).map (fun s =>
          (s.prog.aio.ended, s.world.fs.entry (firstCase.destDir [['s']]))) =
            some (some (.exited (-1)), some .dir) := rfl
    obtain ⟨s, hs, heq⟩ := Option.map_eq_some_iff.mp hrun
    obtain ⟨hended, hmade⟩ := Prod.mk.inj heq
    exact ⟨s, by rw [firstSourceRun, if_neg hb]; exact hs, by simp [hended], hmade⟩

/-- The experiment with the first test case: one batch size gives a copy, another one does
not. -/
theorem oursFailed_iff_of_runs_firstCase : ∃ r log k,
    experimentMain runsProgram [['s']] firstCase ⟨oneFile, [], 0⟩ =
      some (r, ⟨oneFile, [] ++ log, k⟩) ∧
      (.oursFailed 1 1 ∈ log ↔ ¬ SameTree (runsProgram 1
        ⟨.ours 1, firstCase.srcDir [['s']], firstCase.destDir [['s']]⟩ firstSource).1
        (firstCase.srcDir [['s']]) (firstCase.destDir [['s']])) ∧
      (.oursFailed 2 1 ∈ log ↔ ¬ SameTree (runsProgram 2
        ⟨.ours 2, firstCase.srcDir [['s']], firstCase.destDir [['s']]⟩ firstSource).1
        (firstCase.srcDir [['s']]) (firstCase.destDir [['s']])) := by
  have hready : Ready firstSource (firstCase.srcDir [['s']]) (firstCase.destDir [['s']]) :=
    ⟨rfl, rfl, firstCase.not_destDir_suffix _⟩
  have hkeeps := keepsTo_copiesFirst hready
  have hruns : RunsCpr runsProgram firstSource (firstCase.srcDir [['s']])
      (firstCase.destDir [['s']]) := by
    intro k b
    obtain ⟨s, hs, hended, -⟩ := exists_firstSourceRun b
    refine ⟨firstSourceCopy, s, rfl, rfl, rfl, reaches_of_exec (fun _ _ => trivial) hs, hended,
      ?_⟩
    simp only [runsProgram, hs, Option.elim_some]
  have hmade : ∀ k b, (runsProgram k ⟨b, firstCase.srcDir [['s']], firstCase.destDir [['s']]⟩
      firstSource).1.entry (firstCase.destDir [['s']]) = some .dir := by
    intro k b
    cases b with
    | base => exact hkeeps.made k .base
    | ours b =>
      obtain ⟨s, hs, -, hmade⟩ := exists_firstSourceRun b
      simpa only [runsProgram, hs, Option.elim_some] using hmade
  obtain ⟨r, log, k, hmain, hiff⟩ := oursFailed_iff_of_runs (s := ⟨oneFile, [], 0⟩)
    generates_firstCase rfl rfl rfl rfl hmade (fun k l hl => hkeeps.frame k .base l hl) hruns
  exact ⟨r, log, k, hmain, hiff 1 (by decide) 0 (by decide), hiff 2 (by decide) 0 (by decide)⟩

end Cpr
