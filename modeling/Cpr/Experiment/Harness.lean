/-
# The experiments

`exp.py` makes the tree of a test case, copies it with `cp -r` and with `cpr`, compares every
copy with the source, removes it, and notes how long the command took.  A command may do what
it likes; the script stops with an exception (`none`) when a directory that it looks at is
not there.
-/
import Cpr.Experiment.Cases

namespace Cpr

open Transition Unix

/-- `RUN_NAME`. -/
def runName : Name := ['t', 'e', 's', 't', '1']

/-- `N_EXPERIMENTS`. -/
def nExperiments : ℕ := 5

/-- `BATCH_SIZES`. -/
def batchSizes : List ℕ := [1, 2, 4, 8, 16, 32, 64, 128]

/-- `"%s_src_%i" % (RUN_NAME, case_id)`. -/
def srcDirName (caseId : ℕ) : Name := runName ++ ['_', 's', 'r', 'c', '_'] ++ fileName caseId

/-- `"%s_dest_%i" % (RUN_NAME, case_id)`. -/
def destDirName (caseId : ℕ) : Name := runName ++ ['_', 'd', 'e', 's', 't', '_'] ++ fileName caseId

/-- `src_dir`. -/
def TestCase.srcDir (c : TestCase) (fsDir : Loc) : Loc := srcDirName c.caseId :: fsDir

/-- `dest_dir`. -/
def TestCase.destDir (c : TestCase) (fsDir : Loc) : Loc := destDirName c.caseId :: fsDir

/-- The program of a command, with the batch size. -/
inductive Binary
  | base
  | ours (batchSize : ℕ)
deriving DecidableEq, Repr

/-- `base_cmd` and `ours_cmd`. -/
structure Cmd where
  binary : Binary
  srcDir : Loc
  destDir : Loc

/-- What is printed; the averages are given by the times. -/
inductive LogLine (τ : Type)
  | testCaseId (caseId : ℕ)
  | creating
  | running (n : ℕ)
  /-- `COPY SANITY CHECK FAILED`. -/
  | baselineFailed (iter : ℕ)
  | oursFailed (batchSize iter : ℕ)
  | baselineAvg (times : List τ)
  | oursAvg (batchSize : ℕ) (times : List τ)
  | cleaningUp
  | testCases (n : ℕ)
  | starting
  | writing
  | done

/-- What `experiment_main` returns. -/
structure CaseResult (τ : Type) where
  caseId : ℕ
  base : List τ
  /-- A dictionary whose keys are the batch sizes. -/
  ours : ℕ → List τ

/-- The state of the script. -/
structure Script (τ : Type) where
  fs : Fs
  log : List (LogLine τ)
  /-- How many commands were run. -/
  commands : ℕ

/-- `is_same`, which looks into both directories first. -/
def checkSame (fs : Fs) (dir1 dir2 : Loc) : Option Bool :=
  if fs.entry dir1 = some .dir ∧ fs.entry dir2 = some .dir then some (isSame fs dir1 dir2)
  else none

section

variable {τ : Type}
  -- what the commands do: the n-th one, on a file system, and how long it takes
  (system : ℕ → Cmd → Fs → Fs × τ)

/-- `log_print`. -/
def Script.logPrint (s : Script τ) (line : LogLine τ) : Script τ :=
  { s with log := s.log ++ [line] }

/-- `time_command`. -/
def timeCommand (cmd : Cmd) (s : Script τ) : τ × Script τ :=
  let r := system s.commands cmd s.fs
  (r.2, { s with fs := r.1, commands := s.commands + 1 })

/-- A command, the check of the copy, and its removal. -/
def runCommand (cmd : Cmd) (failed : LogLine τ) (s : Script τ) : Option (τ × Script τ) := do
  let (t, s) := timeCommand system cmd s
  let same ← checkSame s.fs cmd.srcDir cmd.destDir
  let s := if same then s else s.logPrint failed
  let fs ← s.fs.removeTree cmd.destDir
  return (t, { s with fs := fs })

/-- The command with one of the batch sizes. -/
def runOurs (srcDir destDir : Loc) (i : ℕ) (r : CaseResult τ × Script τ) (batchSize : ℕ) :
    Option (CaseResult τ × Script τ) := do
  let (t, s) ← runCommand system ⟨.ours batchSize, srcDir, destDir⟩
    (.oursFailed batchSize (i + 1)) r.2
  let ours := Function.update r.1.ours batchSize (r.1.ours batchSize ++ [t])
  return ({ r.1 with ours := ours }, s)

/-- One of the experiments: the baseline, and every batch size. -/
def experiment (srcDir destDir : Loc) (r : CaseResult τ × Script τ) (i : ℕ) :
    Option (CaseResult τ × Script τ) := do
  let (t, s) ← runCommand system ⟨.base, srcDir, destDir⟩ (.baselineFailed (i + 1)) r.2
  batchSizes.foldlM (runOurs system srcDir destDir i) ({ r.1 with base := r.1.base ++ [t] }, s)

/-- `experiment_main`. -/
def experimentMain (fsDir : Loc) (testCase : TestCase) (s : Script τ) :
    Option (CaseResult τ × Script τ) := do
  let s := (s.logPrint (.testCaseId testCase.caseId)).logPrint .creating
  let srcDir := testCase.srcDir fsDir
  let destDir := testCase.destDir fsDir
  let fs ← s.fs.makeDirs srcDir
  let fs ← testCase.genFunc srcDir fs
  let s := { s with fs := fs }.logPrint (.running nExperiments)
  let (r, s) ← (List.range nExperiments).foldlM (experiment system srcDir destDir)
    (⟨testCase.caseId, [], fun _ => []⟩, s)
  let s := s.logPrint (.baselineAvg r.base)
  let s := batchSizes.foldl
    (fun s batchSize => s.logPrint (.oursAvg batchSize (r.ours batchSize))) s
  let s := s.logPrint .cleaningUp
  let fs ← s.fs.removeTree srcDir
  return (r, { s with fs := fs })

/-! ## What an experiment does -/

/-- What is printed about a command that is the `k`-th one. -/
def failure (fs : Fs) (k : ℕ) (cmd : Cmd) (failed : LogLine τ) : List (LogLine τ) :=
  if isSame (system k cmd fs).1 cmd.srcDir cmd.destDir then [] else [failed]

/-- What is printed about the commands of one experiment, the `i`-th one. -/
def failures (fs : Fs) (srcDir destDir : Loc) (k i : ℕ) : List (LogLine τ) :=
  failure system fs k ⟨.base, srcDir, destDir⟩ (.baselineFailed (i + 1)) ++
    (batchSizes.zipIdx (k + 1)).flatMap fun b =>
      failure system fs b.2 ⟨.ours b.1, srcDir, destDir⟩ (.oursFailed b.1 (i + 1))

/-- The times of the first `n` experiments, when all commands find the same file system and
the first one is the `k`-th one: an experiment has nine commands. -/
def timesOf (fs : Fs) (srcDir destDir : Loc) (caseId k n : ℕ) : CaseResult τ where
  caseId := caseId
  base := (List.range n).map fun i => (system (k + 9 * i) ⟨.base, srcDir, destDir⟩ fs).2
  ours b :=
    if b ∈ batchSizes then
      (List.range n).map fun i =>
        (system (k + 9 * i + 1 + batchSizes.idxOf b) ⟨.ours b, srcDir, destDir⟩ fs).2
    else []

/-- The source is there, and the destination is not. -/
structure Ready (fs : Fs) (srcDir destDir : Loc) : Prop where
  source : fs.entry srcDir = some .dir
  new : fs.entry destDir = none
  apart : ¬ destDir <:+ srcDir

/-- The commands make the destination, and change nothing outside it. -/
structure KeepsTo (fs : Fs) (srcDir destDir : Loc) : Prop where
  made : ∀ k b, (system k ⟨b, srcDir, destDir⟩ fs).1.entry destDir = some .dir
  frame : ∀ k b l, ¬ destDir <:+ l → (system k ⟨b, srcDir, destDir⟩ fs).1.entry l = fs.entry l

namespace KeepsTo

variable {system} {fs : Fs} {srcDir destDir : Loc} {s : Script τ}

/-- A command leaves no trace but its time and what is printed. -/
lemma runCommand_eq (h : KeepsTo system fs srcDir destDir) (hready : Ready fs srcDir destDir)
    (hfs : s.fs = fs) (b : Binary) (failed : LogLine τ) :
    runCommand system ⟨b, srcDir, destDir⟩ failed s =
      some ((system s.commands ⟨b, srcDir, destDir⟩ fs).2,
        ⟨fs, s.log ++ failure system fs s.commands ⟨b, srcDir, destDir⟩ failed,
          s.commands + 1⟩) := by
  subst hfs
  have hmade := h.made s.commands b
  have hsource : (system s.commands ⟨b, srcDir, destDir⟩ s.fs).1.entry srcDir = some .dir :=
    (h.frame _ b _ hready.apart).trans hready.source
  have hdest : destDir ≠ [] := by
    rintro rfl
    exact hready.apart List.nil_suffix
  have hremove := Fs.removeTree_eq hdest hready.new hmade fun l => h.frame s.commands b l
  simp only [runCommand, timeCommand, failure]
  rw [checkSame, if_pos ⟨hsource, hmade⟩, Option.bind_eq_bind, Option.bind_some]
  cases isSame (system s.commands ⟨b, srcDir, destDir⟩ s.fs).1 srcDir destDir with
  | true => simp [hremove]
  | false => simp [hremove, Script.logPrint]

/-- The loop over some batch sizes. -/
lemma foldlM_runOurs (h : KeepsTo system fs srcDir destDir) (hready : Ready fs srcDir destDir)
    {bs : List ℕ} (hnd : bs.Nodup) {i : ℕ} {r : CaseResult τ × Script τ} (hfs : r.2.fs = fs) :
    bs.foldlM (runOurs system srcDir destDir i) r = some
      ({ r.1 with
          ours := fun b => if b ∈ bs then r.1.ours b ++
            [(system (r.2.commands + bs.idxOf b) ⟨.ours b, srcDir, destDir⟩ fs).2]
            else r.1.ours b },
        ⟨fs, r.2.log ++ (bs.zipIdx r.2.commands).flatMap fun b =>
            failure system fs b.2 ⟨.ours b.1, srcDir, destDir⟩ (.oursFailed b.1 (i + 1)),
          r.2.commands + bs.length⟩) := by
  induction bs generalizing r with
  | nil => simp [← hfs]
  | cons b bs ih =>
    obtain ⟨hb, hnd⟩ := List.nodup_cons.mp hnd
    rw [List.foldlM_cons, runOurs, h.runCommand_eq hready hfs]
    simp only [Option.bind_eq_bind, Option.bind_some, Option.pure_def]
    rw [ih hnd rfl]
    simp only [List.zipIdx_cons, List.flatMap_cons, List.append_assoc, List.length_cons,
      Option.some.injEq, Prod.mk.injEq, CaseResult.mk.injEq, Script.mk.injEq, true_and]
    refine ⟨funext fun b' => ?_, by omega⟩
    by_cases hbb : b' = b
    · subst hbb
      simp [hb]
    · simp [hbb, Nat.add_comm, Nat.add_left_comm, List.idxOf_cons_ne _ (Ne.symm hbb)]

/-- One more experiment. -/
lemma experiment_eq (h : KeepsTo system fs srcDir destDir) (hready : Ready fs srcDir destDir)
    (caseId k n : ℕ) (log : List (LogLine τ)) :
    experiment system srcDir destDir (timesOf system fs srcDir destDir caseId k n,
        ⟨fs, log, k + 9 * n⟩) n =
      some (timesOf system fs srcDir destDir caseId k (n + 1),
        ⟨fs, log ++ failures system fs srcDir destDir (k + 9 * n) n, k + 9 * (n + 1)⟩) := by
  have hnd : batchSizes.Nodup := by decide
  rw [experiment, h.runCommand_eq hready rfl, Option.bind_eq_bind, Option.bind_some]
  refine (h.foldlM_runOurs hready hnd rfl).trans ?_
  simp only [Option.some.injEq, Prod.mk.injEq, Script.mk.injEq, timesOf, CaseResult.mk.injEq,
    failures, List.append_assoc, true_and, List.range_succ, List.map_append, List.map_cons,
    List.map_nil]
  refine ⟨funext fun b => ?_, by simp [batchSizes]; omega⟩
  split_ifs <;> rfl

/-- All experiments. -/
lemma foldlM_experiment (h : KeepsTo system fs srcDir destDir) (hready : Ready fs srcDir destDir)
    (caseId k n : ℕ) (log : List (LogLine τ)) :
    (List.range n).foldlM (experiment system srcDir destDir) (⟨caseId, [], fun _ => []⟩,
        ⟨fs, log, k⟩) =
      some (timesOf system fs srcDir destDir caseId k n,
        ⟨fs, log ++ (List.range n).flatMap fun i =>
          failures system fs srcDir destDir (k + 9 * i) i, k + 9 * n⟩) := by
  induction n with
  | zero =>
    simp [timesOf]
  | succ n ih =>
    rw [List.range_succ, List.foldlM_append, ih, Option.bind_eq_bind, Option.bind_some,
      List.foldlM_cons, h.experiment_eq hready, List.flatMap_append]
    simp

end KeepsTo

lemma srcDirName_ne_destDirName (i j : ℕ) : srcDirName i ≠ destDirName j := by
  intro h
  have hchar := congrArg (·[6]?) h
  simp [srcDirName, destDirName, runName] at hchar

lemma TestCase.not_destDir_suffix (c : TestCase) (fsDir : Loc) :
    ¬ c.destDir fsDir <:+ c.srcDir fsDir := by
  intro hsuf
  have heq := hsuf.eq_of_length (by simp [srcDir, destDir])
  exact srcDirName_ne_destDirName _ _ (List.cons.inj heq).1.symm

lemma TestCase.not_srcDir_suffix (c : TestCase) (fsDir : Loc) :
    ¬ c.srcDir fsDir <:+ c.destDir fsDir := by
  intro hsuf
  have heq := hsuf.eq_of_length (by simp [srcDir, destDir])
  exact srcDirName_ne_destDirName _ _ (List.cons.inj heq).1

lemma legalName_runName {rest : Name} (h : '/' ∉ rest) : LegalName (runName ++ rest) := by
  refine ⟨by simp [runName], ?_, fun heq => ?_, fun heq => ?_⟩
  · rw [List.mem_append, not_or]
    exact ⟨by decide, h⟩
  · exact absurd (congrArg List.head? heq) (by simp [runName, dot])
  · exact absurd (congrArg List.head? heq) (by simp [runName, dotdot])

lemma legal_srcDirName (i : ℕ) : LegalName (srcDirName i) := by
  rw [srcDirName, List.append_assoc]
  refine legalName_runName fun hmem => ?_
  rcases List.mem_append.mp hmem with hmem | hmem
  · exact absurd hmem (by decide)
  · exact absurd (isDigit_of_mem_fileName hmem) (by decide)

lemma legal_destDirName (i : ℕ) : LegalName (destDirName i) := by
  rw [destDirName, List.append_assoc]
  refine legalName_runName fun hmem => ?_
  rcases List.mem_append.mp hmem with hmem | hmem
  · exact absurd hmem (by decide)
  · exact absurd (isDigit_of_mem_fileName hmem) (by decide)

variable {system} {s : Script τ} {fsDir : Loc} {c : TestCase} {urandom : Loc → ℕ → List UInt8}
  {m : ℕ}

/-- What is printed in an experiment. -/
def logOf (system : ℕ → Cmd → Fs → Fs × τ) (fs : Fs) (srcDir destDir : Loc) (caseId k : ℕ) :
    List (LogLine τ) :=
  let r := timesOf system fs srcDir destDir caseId k nExperiments
  [.testCaseId caseId, .creating, .running nExperiments] ++
    (List.range nExperiments).flatMap
      (fun i => failures system fs srcDir destDir (k + 9 * i) i) ++
    [.baselineAvg r.base] ++ batchSizes.map (fun b => .oursAvg b (r.ours b)) ++ [.cleaningUp]

lemma foldl_logPrint (line : ℕ → LogLine τ) (bs : List ℕ) :
    bs.foldl (fun s b => s.logPrint (line b)) s = ⟨s.fs, s.log ++ bs.map line, s.commands⟩ := by
  induction bs generalizing s with
  | nil => simp
  | cons b bs ih => rw [List.foldl_cons, ih, Script.logPrint, List.map_cons, List.append_assoc,
      List.singleton_append]

/-- The source of a test case is made, and can be removed again. -/
lemma exists_source {fs₀ : Fs} (hgen : Generates urandom c.genFunc m)
    (hdir : fs₀.entry fsDir = some .dir) (hsrc : fs₀.entry (c.srcDir fsDir) = none)
    (hdest : fs₀.entry (c.destDir fsDir) = none) :
    ∃ fs, (fs₀.makeDirs (c.srcDir fsDir)).bind (c.genFunc (c.srcDir fsDir)) = some fs ∧
      Ready fs (c.srcDir fsDir) (c.destDir fsDir) ∧ IsPlainTree fs (c.srcDir fsDir) ∧
      fs.removeTree (c.srcDir fsDir) = some fs₀ := by
  obtain ⟨fs₁, hmake, hadds⟩ := Fs.makeDir_new hdir hsrc (legal_srcDirName c.caseId)
  obtain ⟨fs, dirs, files, hmade, hgrown, hroot, -⟩ :=
    hgen fs₁ (c.srcDir fsDir) ⟨hadds.self, fun _ => hadds.entry_append⟩
  have hmakeDirs : fs₀.makeDirs (c.srcDir fsDir) = some fs₁ := by
    rw [TestCase.srcDir, Fs.makeDirs, if_pos (by rw [hdir]; rfl), hmake]
  have hframe (l : Loc) (hl : ¬ c.srcDir fsDir <:+ l) : fs.entry l = fs₀.entry l := by
    rw [hgrown.frame l hl, hadds.other l fun heq => hl (heq ▸ List.suffix_refl _)]
  have hnew : fs.entry (c.destDir fsDir) = none :=
    (hframe _ (c.not_srcDir_suffix fsDir)).trans hdest
  have hplain := hgrown.isPlainTree hroot
  refine ⟨fs, by rw [hmakeDirs]; exact hmade, ⟨hplain.root, hnew, c.not_destDir_suffix fsDir⟩,
    hplain, ?_⟩
  exact Fs.removeTree_eq (List.cons_ne_nil _ _) hsrc hplain.root hframe

/-- **What `experiment_main` does**: all its commands find the same file system, in which
there is the tree of the test case and no destination, and the times are theirs; a message is
printed for those whose copy `is_same` rejects; and in the end everything is as before. -/
theorem KeepsTo.experimentMain_eq {fs : Fs}
    (hkeeps : KeepsTo system fs (c.srcDir fsDir) (c.destDir fsDir))
    (hready : Ready fs (c.srcDir fsDir) (c.destDir fsDir))
    (hfs : (s.fs.makeDirs (c.srcDir fsDir)).bind (c.genFunc (c.srcDir fsDir)) = some fs)
    (hremove : fs.removeTree (c.srcDir fsDir) = some s.fs) :
    experimentMain system fsDir c s = some
      (timesOf system fs (c.srcDir fsDir) (c.destDir fsDir) c.caseId s.commands nExperiments,
        ⟨s.fs, s.log ++ logOf system fs (c.srcDir fsDir) (c.destDir fsDir) c.caseId s.commands,
          s.commands + 9 * nExperiments⟩) := by
  obtain ⟨fs₁, hmakeDirs, hmade⟩ := Option.bind_eq_some_iff.mp hfs
  rw [experimentMain]
  simp only [foldl_logPrint]
  simp only [Script.logPrint, hmakeDirs, hmade, Option.bind_eq_bind, Option.bind_some,
    hkeeps.foldlM_experiment hready, hremove]
  simp [logOf]

/-! ## All experiments -/

section

variable (system) (dump : List (CaseResult τ) → List UInt8)

/-- The name of the file with the results. -/
def jsonName : Name := runName ++ ['.', 'j', 's', 'o', 'n']

/-- `log_results`; `dump` is the text that `json.dump` writes. -/
def logResults (logDir : Loc) (results : List (CaseResult τ)) (fs : Fs) : Option Fs := do
  let fs ← if fs.entry logDir = some .dir then some fs else fs.makeDirs logDir
  fs.writeFile logDir jsonName (dump results)

/-- The loop over the test cases. -/
def runCase (fsDir : Loc) (r : List (CaseResult τ) × Script τ) (testCase : TestCase) :
    Option (List (CaseResult τ) × Script τ) := do
  let (tcResults, s) ← experimentMain system fsDir testCase r.2
  return (r.1 ++ [tcResults], s)

/-- `main` of `exp.py`. -/
def expMain (fsDir logDir : Loc) (testCases : List TestCase) (s : Script τ) :
    Option (List (CaseResult τ) × Script τ) := do
  let fs ← s.fs.clearTree fsDir
  let fs ← fs.makeDirs fsDir
  let s := ({ s with fs := fs }.logPrint (.testCases testCases.length)).logPrint .starting
  let (results, s) ← testCases.foldlM (runCase system fsDir) ([], s)
  let s := s.logPrint .writing
  let fs ← logResults dump logDir results s.fs
  return (results, { s with fs := fs }.logPrint .done)

end

/-- The results that the loop over some test cases has. -/
structure Recorded (testCases : List TestCase) (results : List (CaseResult τ)) : Prop where
  ids : results.map CaseResult.caseId = testCases.map TestCase.caseId
  base : ∀ r ∈ results, r.base.length = nExperiments
  ours : ∀ r ∈ results, ∀ b ∈ batchSizes, (r.ours b).length = nExperiments

/-- What the loop over some test cases gives.  The tree of each of them is generated in the same
file system, and all its commands find that tree and no destination; the times and the messages
are those of its commands, of which the first one of all is the `k`-th one. -/
inductive CasesRun (system : ℕ → Cmd → Fs → Fs × τ) (fsDir : Loc) (fs : Fs) (k : ℕ) :
    List TestCase → List (CaseResult τ) → List (LogLine τ) → Prop
  | nil : CasesRun system fsDir fs k [] [] []
  | snoc {testCases : List TestCase} {results : List (CaseResult τ)} {log : List (LogLine τ)}
      (c : TestCase) (tree : Fs) (before : CasesRun system fsDir fs k testCases results log)
      (made : (fs.makeDirs (c.srcDir fsDir)).bind (c.genFunc (c.srcDir fsDir)) = some tree)
      (plain : IsPlainTree tree (c.srcDir fsDir)) (new : tree.entry (c.destDir fsDir) = none) :
      CasesRun system fsDir fs k (testCases ++ [c])
        (results ++ [timesOf system tree (c.srcDir fsDir) (c.destDir fsDir) c.caseId
          (k + 9 * nExperiments * testCases.length) nExperiments])
        (log ++ logOf system tree (c.srcDir fsDir) (c.destDir fsDir) c.caseId
          (k + 9 * nExperiments * testCases.length))

lemma CasesRun.recorded {fs : Fs} {k : ℕ} {testCases : List TestCase}
    {results : List (CaseResult τ)} {log : List (LogLine τ)}
    (h : CasesRun system fsDir fs k testCases results log) : Recorded testCases results := by
  induction h with
  | nil => exact ⟨rfl, by simp, by simp⟩
  | snoc c tree _ _ _ _ ih =>
    refine ⟨by simp [ih.ids, timesOf], fun r hr => ?_, fun r hr b hb => ?_⟩ <;>
      rcases List.mem_append.mp hr with hr | hr
    · exact ih.base r hr
    · obtain rfl := List.mem_singleton.mp hr
      simp [timesOf]
    · exact ih.ours r hr b hb
    · obtain rfl := List.mem_singleton.mp hr
      simp [timesOf, hb]

/-- The loop over the test cases leaves the file system as it was. -/
lemma foldlM_runCase {fs : Fs} {testCases : List TestCase}
    (hgen : ∀ c ∈ testCases, ∃ m, Generates urandom c.genFunc m) (hempty : IsEmptyDir fs fsDir)
    (hkeeps : ∀ c ∈ testCases, ∀ fs, Ready fs (c.srcDir fsDir) (c.destDir fsDir) →
      KeepsTo system fs (c.srcDir fsDir) (c.destDir fsDir)) (hfs : s.fs = fs) :
    ∃ r, testCases.foldlM (runCase system fsDir) ([], s) = some r ∧ (∃ log,
      CasesRun system fsDir fs s.commands testCases r.1 log ∧ r.2.log = s.log ++ log) ∧
      r.2.fs = fs ∧ r.2.commands = s.commands + 9 * nExperiments * testCases.length := by
  refine foldlM_eq_pure (I := fun pre (r : List (CaseResult τ) × Script τ) => (∃ log,
    CasesRun system fsDir fs s.commands pre r.1 log ∧ r.2.log = s.log ++ log) ∧ r.2.fs = fs ∧
      r.2.commands = s.commands + 9 * nExperiments * pre.length) ?_ ?_
  · rintro pre c post rfl ⟨results, u⟩ ⟨⟨log, hcases, hlog⟩, hu, hcommands⟩
    dsimp only at hcases hlog hu hcommands
    have hc : c ∈ pre ++ c :: post := by simp
    obtain ⟨m, hm⟩ := hgen c hc
    have hnew (n : Name) : u.fs.entry (n :: fsDir) = none := by
      rw [hu]
      exact hempty.below [n] (by simp)
    obtain ⟨tree, htree, hready, hplain, hremove⟩ :=
      exists_source hm (hu ▸ hempty.root) (hnew _) (hnew _)
    have hmain := (hkeeps c hc tree hready).experimentMain_eq hready htree hremove
    rw [hu, hlog, hcommands, List.append_assoc] at hmain
    refine ⟨_, by rw [runCase, hmain]; rfl,
      ⟨_, hcases.snoc c tree (hu ▸ htree) hplain hready.new, rfl⟩, rfl, ?_⟩
    simp only [List.length_append, List.length_cons, List.length_nil]
    ring
  · exact ⟨⟨[], .nil, (List.append_nil _).symm⟩, hfs, by simp⟩

/-- **The script runs through**: whatever was in `FS_DIR` is cleared, every test case is run
in order, with all its commands, on its own tree in the same empty `FS_DIR`, the results of all
are written to one file, and nothing else is changed. -/
theorem expMain_exact (parent logDir : Loc) (n : Name) (dump : List (CaseResult τ) → List UInt8)
    {testCases : List TestCase} (hgen : ∀ c ∈ testCases, ∃ m, Generates urandom c.genFunc m)
    (hkeeps : ∀ c ∈ testCases, ∀ fs,
      Ready fs (c.srcDir (n :: parent)) (c.destDir (n :: parent)) →
        KeepsTo system fs (c.srcDir (n :: parent)) (c.destDir (n :: parent)))
    (hparent : s.fs.entry parent = some .dir) (hn : LegalName n)
    (hold : ∀ e ∈ s.fs.entry (n :: parent), e = .dir) (hlog : s.fs.entry logDir = some .dir)
    (hjson : ∀ e ∈ s.fs.entry (jsonName :: logDir), e.kind = .reg)
    (hapart : ¬ n :: parent <:+ jsonName :: logDir) :
    ∃ fs₀ results log s', IsEmptyDir fs₀ (n :: parent) ∧
      (∀ l, ¬ n :: parent <:+ l → fs₀.entry l = s.fs.entry l) ∧
      expMain system dump (n :: parent) logDir testCases s = some (results, s') ∧
      CasesRun system (n :: parent) fs₀ s.commands testCases results log ∧
      Recorded testCases results ∧
      s'.log = s.log ++ [.testCases testCases.length, .starting] ++ log ++ [.writing, .done] ∧
      s'.commands = s.commands + 9 * nExperiments * testCases.length ∧
      s'.fs.entry (jsonName :: logDir) = some (.reg (dump results)) ∧
      IsEmptyDir s'.fs (n :: parent) ∧
      ∀ l, ¬ n :: parent <:+ l → l ≠ jsonName :: logDir → s'.fs.entry l = s.fs.entry l := by
  obtain ⟨fs₀, hclear, hnone, hframe⟩ := Fs.exists_clearTree (List.cons_ne_nil n parent) hold
  have hparent₀ : fs₀.entry parent = some .dir := by
    rw [hframe parent fun hsuf => ?_, hparent]
    have hlen := hsuf.length_le
    rw [List.length_cons] at hlen
    omega
  obtain ⟨fs₁, hmake, hadds⟩ := Fs.makeDir_new hparent₀ (hnone []) hn
  have hmakeDirs : fs₀.makeDirs (n :: parent) = some fs₁ := by
    rw [Fs.makeDirs, if_pos (by rw [hparent₀]; rfl), hmake]
  have hempty : IsEmptyDir fs₁ (n :: parent) := ⟨hadds.self, fun _ => hadds.entry_append⟩
  have hframe₁ (l : Loc) (hl : ¬ n :: parent <:+ l) : fs₁.entry l = s.fs.entry l := by
    rw [hadds.other l fun heq => hl (heq ▸ List.suffix_refl _), hframe l hl]
  obtain ⟨⟨results, u⟩, hloop, ⟨log, hcases, hprinted⟩, hu, hcommands⟩ := foldlM_runCase
    (s := ({ s with fs := fs₁ }.logPrint (.testCases testCases.length)).logPrint .starting)
    hgen hempty hkeeps rfl
  dsimp only at hcases hprinted hu hcommands
  -- the results are written
  have hlogDir : fs₁.entry logDir = some .dir := by
    rw [hframe₁ logDir fun hsuf => hapart (hsuf.trans (List.suffix_cons _ _)), hlog]
  have hfile : ∀ e ∈ fs₁.entry (jsonName :: logDir), e.kind = .reg := by
    rwa [hframe₁ _ hapart]
  obtain ⟨fs₂, hwrite, hself, hother⟩ :=
    Fs.exists_writeFile (dump results) hlogDir (by decide : LegalName jsonName) hfile
  have hlogResults : logResults dump logDir results fs₁ = some fs₂ := by
    rw [logResults, if_pos hlogDir]
    exact hwrite
  have hne (l : Loc) (hl : n :: parent <:+ l) : l ≠ jsonName :: logDir := fun heq =>
    hapart (heq ▸ hl)
  refine ⟨fs₁, results, log, { u with fs := fs₂, log := u.log ++ [.writing] ++ [.done] }, hempty,
    hframe₁, ?_, hcases, hcases.recorded, ?_, hcommands, hself, ⟨?_, fun rel hrel => ?_⟩,
    fun l hl hlne => ?_⟩
  · simp only [expMain, hclear, hmakeDirs, hloop, Option.bind_eq_bind, Option.bind_some]
    simp only [Script.logPrint, hu, hlogResults, Option.bind_some]
    rfl
  · simp [hprinted, Script.logPrint]
  · exact (hother _ (hne _ (List.suffix_refl _))).trans hempty.root
  · exact (hother _ (hne _ (List.suffix_append rel _))).trans (hempty.below rel hrel)
  · exact (hother l hlne).trans (hframe₁ l hl)

end

/-- The first test case, with one file. -/
def firstCase : TestCase := ⟨1, smallFiles2p0 zeros⟩

lemma generates_firstCase : Generates zeros firstCase.genFunc 1 := generates_smallFiles 1

/-- A command that copies a directory with the one file `0.txt`; it takes as long as it has a
number. -/
def copiesFirst (k : ℕ) (cmd : Cmd) (fs : Fs) : Fs × ℕ :=
  match cmd.destDir with
  | [] => (fs, k)
  | n :: l =>
    let copy := (fs.makeDir l n).bind fun fs' =>
      fs'.writeFile (n :: l) (txtName 0) (fs.content (txtName 0 :: cmd.srcDir))
    (copy.getD fs, k)

lemma keepsTo_copiesFirst {fs : Fs} {fsDir : Loc} {c : TestCase}
    (hready : Ready fs (c.srcDir fsDir) (c.destDir fsDir)) :
    KeepsTo copiesFirst fs (c.srcDir fsDir) (c.destDir fsDir) := by
  have hdir : fs.entry fsDir = some .dir := by
    refine fs.parent (srcDirName c.caseId) fsDir ?_
    rw [← TestCase.srcDir, hready.source]
    rfl
  obtain ⟨fs₁, hmake, hadds⟩ := Fs.makeDir_new hdir hready.new (legal_destDirName c.caseId)
  have hnone : fs₁.entry ([txtName 0] ++ destDirName c.caseId :: fsDir) = none :=
    hadds.entry_append (by simp)
  obtain ⟨fs₂, hwrite, hself, hother⟩ :=
    Fs.exists_writeFile (fs.content (txtName 0 :: c.srcDir fsDir)) hadds.self (legal_txtName 0)
      (fun e he => nomatch hnone.symm.trans he)
  have hcopies (k : ℕ) (b : Binary) :
      (copiesFirst k ⟨b, c.srcDir fsDir, c.destDir fsDir⟩ fs).1 = fs₂ := by
    simp only [copiesFirst, TestCase.destDir, hmake, Option.bind_some]
    rw [hwrite, Option.getD_some]
  refine ⟨fun k b => ?_, fun k b l hl => ?_⟩
  · rw [hcopies]
    exact (hother _ List.ne_cons_self).trans hadds.self
  · rw [hcopies, hother l fun heq => hl (heq ▸ List.suffix_cons _ _)]
    exact hadds.other l fun heq => hl (heq ▸ List.suffix_refl _)

/-- The first test case, in a directory with a file in it. -/
theorem expMain_exact_firstCase : oneFile.entry [['f'], ['s']] = some (.reg [1, 2, 3]) ∧
    ∃ fs₀ results log s', IsEmptyDir fs₀ [['s']] ∧
      expMain copiesFirst (fun _ => []) [['s']] [] [firstCase] ⟨oneFile, [], 0⟩ =
        some (results, s') ∧ CasesRun copiesFirst [['s']] fs₀ 0 [firstCase] results log ∧
      s'.commands = 45 := by
  have hgen : ∀ c ∈ [firstCase], ∃ m, Generates zeros c.genFunc m := by
    intro c hc
    obtain rfl := List.mem_singleton.mp hc
    exact ⟨1, generates_firstCase⟩
  have hold : ∀ e ∈ oneFile.entry [['s']], e = .dir := by decide +kernel
  have hjson : ∀ e ∈ oneFile.entry [jsonName], e.kind = .reg := by decide +kernel
  obtain ⟨fs₀, results, log, s', hempty, -, hmain, hcases, -, -, hcommands, -⟩ :=
    expMain_exact (s := ⟨oneFile, [], 0⟩) [] [] ['s'] (fun _ => []) hgen
      (fun c _ fs hready => keepsTo_copiesFirst hready) rfl (by decide) hold rfl hjson (by decide)
  exact ⟨rfl, fs₀, results, log, s', hempty, hmain, hcases, hcommands⟩

end Cpr
