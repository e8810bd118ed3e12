/-
# The test cases

`test_case_gen.py` has 21 test cases: the first 16 make a directory with a power of two of
files, the next four a tree in which all directories of a height are alike, and the last one
two such trees, one in the other.
-/
import Cpr.Experiment.Generator
import Cpr.System.Direct
import Cpr.System.Liveness
import Cpr.System.Skipped

namespace Cpr

open Transition Unix

/-- `_KB_`. -/
def kb : ℕ := 1024

/-- `"poop"`. -/
def poop : Name := ['p', 'o', 'o', 'p']

/-- `TestCase` of `exp.py`. -/
structure TestCase where
  caseId : ℕ
  genFunc : Loc → Fs → Option Fs

section

variable (urandom : Loc → ℕ → List UInt8) (depth : ℕ)

/-- The body of the functions `small_files_2p0` to `small_files_2p15`. -/
def smallFiles (numFiles : ℕ) (rootDir : Loc) : Fs → Option Fs :=
  createFiles urandom rootDir numFiles (10 * kb)

def smallFiles2p0 : Loc → Fs → Option Fs := smallFiles urandom (2 ^ 0)

def smallFiles2p1 : Loc → Fs → Option Fs := smallFiles urandom (2 ^ 1)

def smallFiles2p2 : Loc → Fs → Option Fs := smallFiles urandom (2 ^ 2)

def smallFiles2p3 : Loc → Fs → Option Fs := smallFiles urandom (2 ^ 3)

def smallFiles2p4 : Loc → Fs → Option Fs := smallFiles urandom (2 ^ 4)

def smallFiles2p5 : Loc → Fs → Option Fs := smallFiles urandom (2 ^ 5)

def smallFiles2p6 : Loc → Fs → Option Fs := smallFiles urandom (2 ^ 6)

def smallFiles2p7 : Loc → Fs → Option Fs := smallFiles urandom (2 ^ 7)

def smallFiles2p8 : Loc → Fs → Option Fs := smallFiles urandom (2 ^ 8)

def smallFiles2p9 : Loc → Fs → Option Fs := smallFiles urandom (2 ^ 9)

def smallFiles2p10 : Loc → Fs → Option Fs := smallFiles urandom (2 ^ 10)

def smallFiles2p11 : Loc → Fs → Option Fs := smallFiles urandom (2 ^ 11)

def smallFiles2p12 : Loc → Fs → Option Fs := smallFiles urandom (2 ^ 12)

def smallFiles2p13 : Loc → Fs → Option Fs := smallFiles urandom (2 ^ 13)

def smallFiles2p14 : Loc → Fs → Option Fs := smallFiles urandom (2 ^ 14)

def smallFiles2p15 : Loc → Fs → Option Fs := smallFiles urandom (2 ^ 15)

def shortBalancedTree (rootDir : Loc) : Fs → Option Fs :=
  createMaryTree urandom depth rootDir 3 3 3 (10 * kb)

def tallBalancedTree (rootDir : Loc) : Fs → Option Fs :=
  createMaryTree urandom depth rootDir 7 3 2 (10 * kb)

def tallBalancedTreeMoreFiles (rootDir : Loc) : Fs → Option Fs :=
  createMaryTree urandom depth rootDir 7 10 2 (10 * kb)

def tallBalancedTreeEvenMoreFiles (rootDir : Loc) : Fs → Option Fs :=
  createMaryTree urandom depth rootDir 7 20 2 (10 * kb)

def tallImbalancedTreeMoreFiles (rootDir : Loc) (fs : Fs) : Option Fs := do
  let fs ← createMaryTree urandom depth rootDir 5 10 2 (10 * kb) fs
  let fs ← fs.makeDir rootDir poop
  createMaryTree urandom depth (poop :: rootDir) 2 10 2 (10 * kb) fs

/-- `get_gen_funcs`: the decorators fill the dictionary in the order of the file. -/
def getGenFuncs : List (ℕ × (Loc → Fs → Option Fs)) :=
  [(1, smallFiles2p0 urandom), (2, smallFiles2p1 urandom), (3, smallFiles2p2 urandom),
    (4, smallFiles2p3 urandom), (5, smallFiles2p4 urandom), (6, smallFiles2p5 urandom),
    (7, smallFiles2p6 urandom), (8, smallFiles2p7 urandom), (9, smallFiles2p8 urandom),
    (10, smallFiles2p9 urandom), (11, smallFiles2p10 urandom), (12, smallFiles2p11 urandom),
    (13, smallFiles2p12 urandom), (14, smallFiles2p13 urandom), (15, smallFiles2p14 urandom),
    (16, smallFiles2p15 urandom), (17, shortBalancedTree urandom depth),
    (18, tallBalancedTree urandom depth), (19, tallBalancedTreeMoreFiles urandom depth),
    (20, tallBalancedTreeEvenMoreFiles urandom depth),
    (21, tallImbalancedTreeMoreFiles urandom depth)]

/-- `create_test_cases`. -/
def createTestCases : List TestCase :=
  (getGenFuncs urandom depth).map fun (i, genFunc) => ⟨i, genFunc⟩

/-- A function makes a tree with `n` files of 10 KB in every empty directory, and does
nothing else. -/
def Generates (genFunc : Loc → Fs → Option Fs) (n : ℕ) : Prop :=
  ∀ fs rootDir, IsEmptyDir fs rootDir → ∃ fs' dirs files, genFunc rootDir fs = some fs' ∧
    Grown fs fs' rootDir dirs files (fun rel => urandom (rel ++ rootDir) (10 * kb)) ∧
    [] ∈ dirs ∧ files.Nodup ∧ files.Disjoint dirs ∧ files.length = n

variable {urandom depth}

lemma generates_smallFiles (n : ℕ) : Generates urandom (smallFiles urandom n) n := by
  intro fs rootDir hempty
  obtain ⟨fs', hfiles, hgrown⟩ := createFiles_grown urandom n (10 * kb) hempty
  refine ⟨fs', _, _, hfiles, hgrown, by simp, nodup_rootFiles, ?_, by simp [rootFiles]⟩
  simp [rootFiles]

lemma generates_maryTree {h numFiles numDirs : ℕ} (hdepth : h < depth) :
    Generates urandom
      (fun rootDir => createMaryTree urandom depth rootDir (h + 1) numFiles numDirs (10 * kb))
      (numFiles * ∑ k ∈ Finset.range (h + 1), numDirs ^ k) := by
  intro fs rootDir hempty
  obtain ⟨fs', hmade, hgrown⟩ :=
    createMaryTree_grown urandom numFiles (10 * kb) numDirs hdepth hempty
  refine ⟨fs', _, _, hmade, hgrown, nil_mem_maryDirs, nodup_maryFiles, disjoint_maryFiles, ?_⟩
  rw [maryFiles, length_maryPaths, rootFiles, List.length_map, List.length_range]

/-- The generator gives no directory the name of the second tree of the last test case. -/
lemma poop_not_mem {top : List Loc} {numDirs h : ℕ} (htop : ∀ rel, rel ++ [poop] ∉ top)
    (rel : Loc) : rel ++ [poop] ∉ maryPaths top numDirs h := by
  have hname (i : ℕ) : dirName i ≠ poop := by
    intro heq
    have hhead := congrArg List.head? heq
    simp [dirName, poop] at hhead
  cases h with
  | zero => exact htop rel
  | succ h =>
    rw [maryPaths, List.mem_append, not_or]
    refine ⟨htop rel, fun hmem => ?_⟩
    obtain ⟨i, -, rel', -, heq⟩ := mem_branches.mp hmem
    exact hname i (by simpa using congrArg List.getLast? heq)

lemma poop_not_mem_rootFiles {numFiles : ℕ} (rel : Loc) : rel ++ [poop] ∉ rootFiles numFiles := by
  intro hmem
  obtain ⟨i, -, heq⟩ := List.mem_map.mp hmem
  have hname : txtName i = poop := by simpa using congrArg List.getLast? heq
  have hlast := congrArg List.getLast? hname
  simp [txtName, poop] at hlast

lemma generates_imbalancedTree (hdepth : 5 ≤ depth) :
    Generates urandom (tallImbalancedTreeMoreFiles urandom depth) 340 := by
  intro fs rootDir hempty
  have hlarge : 4 < depth := by omega
  have hsmall : 1 < depth := by omega
  obtain ⟨s, hmade, hgrown⟩ := createMaryTree_grown urandom 10 (10 * kb) 2 hlarge hempty
  have hdirs (rel : Loc) : rel ++ [poop] ∉ maryDirs 2 4 := poop_not_mem (by simp) rel
  have hfiles (rel : Loc) : rel ++ [poop] ∉ maryFiles 10 2 4 :=
    poop_not_mem poop_not_mem_rootFiles rel
  obtain ⟨s', hmake, hadds⟩ := Fs.makeDir_new (hgrown.entry_root nil_mem_maryDirs)
    (hgrown.entry_new (hdirs []) (hfiles [])) (by decide : LegalName poop)
  obtain ⟨s'', hsub, hbelow⟩ := createMaryTree_grown urandom 10 (10 * kb) 2 hsmall
    ⟨hadds.self, fun _ => hadds.entry_append⟩
  refine ⟨s'', _, _, ?_, hgrown.graft hadds (by simpa using hbelow), ?_, ?_, ?_, ?_⟩
  · rw [tallImbalancedTreeMoreFiles]
    simp only [Nat.cast_ofNat, Nat.cast_one, Int.reduceAdd] at hmade hsub
    simp only [hmade, hmake, hsub, Option.bind_eq_bind, Option.bind_some]
  · exact List.mem_append_left _ nil_mem_maryDirs
  · refine List.nodup_append'.mpr ⟨nodup_maryFiles,
      nodup_maryFiles.map (List.append_left_injective _), fun rel hmem hmem' => ?_⟩
    obtain ⟨rel', -, rfl⟩ := List.mem_map.mp hmem'
    exact hfiles rel' hmem
  · intro rel hmem hmem'
    rw [List.mem_append] at hmem hmem'
    rcases hmem with hmem | hmem <;> rcases hmem' with hmem' | hmem'
    · exact disjoint_maryFiles hmem hmem'
    · obtain ⟨rel', -, rfl⟩ := List.mem_map.mp hmem'
      exact hfiles rel' hmem
    · obtain ⟨rel', -, rfl⟩ := List.mem_map.mp hmem
      exact hdirs rel' hmem'
    · obtain ⟨rel₁, hrel₁, rfl⟩ := List.mem_map.mp hmem
      obtain ⟨rel₂, hrel₂, heq⟩ := List.mem_map.mp hmem'
      exact disjoint_maryFiles hrel₁ (List.append_cancel_right heq ▸ hrel₂)
  · rw [List.length_append, List.length_map, maryFiles, maryFiles, length_maryPaths,
      length_maryPaths, rootFiles, List.length_map, List.length_range]
    decide

/-- The numbers of files of the test cases. -/
def caseSizes : List ℕ :=
  [2 ^ 0, 2 ^ 1, 2 ^ 2, 2 ^ 3, 2 ^ 4, 2 ^ 5, 2 ^ 6, 2 ^ 7, 2 ^ 8, 2 ^ 9, 2 ^ 10, 2 ^ 11, 2 ^ 12,
    2 ^ 13, 2 ^ 14, 2 ^ 15, 39, 381, 1270, 2540, 340]

/-- **Every test case makes its tree**, if the recursion may be seven calls deep. -/
theorem generates_testCases (hdepth : 7 ≤ depth) :
    List.Forall₂ (fun c n => Generates urandom c.genFunc n) (createTestCases urandom depth)
      caseSizes := by
  have hsmall (n : ℕ) : Generates urandom (smallFiles urandom n) n := generates_smallFiles n
  have hshort : Generates urandom (shortBalancedTree urandom depth) 39 :=
    generates_maryTree (h := 2) (by omega)
  have htall : Generates urandom (tallBalancedTree urandom depth) 381 :=
    generates_maryTree (h := 6) (by omega)
  have hmore : Generates urandom (tallBalancedTreeMoreFiles urandom depth) 1270 :=
    generates_maryTree (h := 6) (by omega)
  have heven : Generates urandom (tallBalancedTreeEvenMoreFiles urandom depth) 2540 :=
    generates_maryTree (h := 6) (by omega)
  have hlast : Generates urandom (tallImbalancedTreeMoreFiles urandom depth) 340 :=
    generates_imbalancedTree (by omega)
  rw [createTestCases, getGenFuncs, caseSizes]
  simp only [List.map_cons, List.map_nil, List.forall₂_cons, List.forall₂_nil_left_iff, hshort,
    htall, hmore, heven, hlast, and_true]
  refine ⟨hsmall _, hsmall _, hsmall _, hsmall _, hsmall _, hsmall _, hsmall _, hsmall _, hsmall _,
    hsmall _, hsmall _, hsmall _, hsmall _, hsmall _, hsmall _, hsmall _⟩

lemma exists_of_forall₂ {α β : Type} {R : α → β → Prop} {xs : List α} {ys : List β} {x : α}
    (h : List.Forall₂ R xs ys) (hx : x ∈ xs) : ∃ y ∈ ys, R x y := by
  induction h with
  | nil => cases hx
  | cons hr _ ih =>
    rcases List.mem_cons.mp hx with rfl | hx
    · exact ⟨_, List.mem_cons_self, hr⟩
    · obtain ⟨y, hy, hxy⟩ := ih hx
      exact ⟨y, List.mem_cons_of_mem _ hy, hxy⟩

/-- No test case has more than `2 ^ 15` files. -/
lemma exists_generates {c : TestCase} (hdepth : 7 ≤ depth)
    (hc : c ∈ createTestCases urandom depth) : ∃ n ≤ 2 ^ 15, Generates urandom c.genFunc n := by
  have hall : ∀ n ∈ caseSizes, n ≤ 2 ^ 15 := by decide
  obtain ⟨n, hn, hgen⟩ := exists_of_forall₂ (generates_testCases hdepth) hc
  exact ⟨n, hall n hn, hgen⟩

end

/-! ## The experiments are within the limits of the program -/

section

variable {urandom : Loc → ℕ → List UInt8} {depth : ℕ} {c : TestCase} {fs : Fs} {t : Setting}

/-- What the program can be sure of in the source of an experiment. -/
structure WithinLimits (t : Setting) : Prop where
  plain : IsPlainTree t.fs t.root
  files : t.regularFiles.card ≤ 2 ^ 15
  size : ∀ rel, t.kind rel = some .reg → (t.content rel).length = 10 * kb

/-- The source of every experiment is as the program needs it. -/
lemma withinLimits (hsize : ∀ l n, (urandom l n).length = n) (hdepth : 7 ≤ depth)
    (hc : c ∈ createTestCases urandom depth) (hempty : IsEmptyDir fs t.root)
    (hgen : c.genFunc t.root fs = some t.fs) : WithinLimits t := by
  obtain ⟨n, hn, hgenerates⟩ := exists_generates hdepth hc
  obtain ⟨fs', dirs, files, hmade, hgrown, hroot, hnd, hdisj, hlen⟩ := hgenerates fs t.root hempty
  obtain rfl := Option.some.inj (hmade.symm.trans hgen)
  refine ⟨hgrown.isPlainTree hroot, ?_, fun rel hreg => ?_⟩
  · have hcard := hgrown.card_regularBelow hnd hdisj
    rw [hlen] at hcard
    exact (le_of_eq hcard).trans hn
  · obtain ⟨bytes, he⟩ := map_kind_eq_reg.mp hreg
    have htree := hgrown.tree rel
    rw [he, treeEntry] at htree
    split_ifs at htree with hdir hfile
    · cases htree
    · rw [Setting.content, Fs.content, he]
      obtain rfl := Entry.reg.inj (Option.some.inj htree)
      exact hsize _ _

namespace WithinLimits

variable {ok : Sys → Label → Prop} {batchSize : ℤ} {s : Sys}

/-- The copy of the source of an experiment. -/
def toTask (h : WithinLimits t) : Task := { t with kinds := h.plain.kinds }

lemma kind_root (h : WithinLimits t) : t.kind [] = some .dir := by
  rw [Setting.kind, List.nil_append, h.plain.root]
  rfl

lemma content_lt (h : WithinLimits t) (rel : Loc) : (t.content rel).length < 2 ^ 31 := by
  by_cases hreg : t.kind rel = some .reg
  · rw [h.size rel hreg]
    decide
  · rw [Setting.content, content_eq_nil hreg]
    decide

/-- Every transfer is legal. -/
lemma blocks (h : WithinLimits t) (hok : ∀ s l, ok s l → s.AioFaultless l)
    (hreach : Reaches Sys.step ok (t.init batchSize) s) : Blocks s.prog.aio := by
  refine blocks_of_reaches (fun rel hreg => ?_) hok hreach
  have hlen := h.size rel hreg
  refine ⟨hlen ▸ (by decide : blockSize ∣ 10 * kb), fun hnil => ?_⟩
  rw [hnil] at hlen
  exact absurd hlen (by decide)

/-- The AIO context is large enough. -/
lemma flight_le (h : WithinLimits t) (hreach : Reaches Sys.step ok (t.init batchSize) s) :
    s.prog.aio.flight.length + s.prog.aio.pc.taken.length ≤ maxEvents := by
  have hgood := (Setting.Run.of_reaches hreach).ready.good
  have hnext := (Setting.next_le_of_reaches hreach).trans h.files
  have hmax : 2 ^ 15 ≤ maxEvents := by decide
  exact ((hgood.flight_le.trans hgood.accepted_le).trans hnext).trans hmax

/-- The copy is removed again without a trace. -/
lemma removeTree (h : WithinLimits t) (hconf : Confined t s)
    (hsame : ∀ rel, s.world.fs.entry (rel ++ t.target) = t.fs.entry (rel ++ t.root)) :
    s.world.fs.removeTree t.target = some t.fs :=
  Fs.removeTree_eq (List.cons_ne_nil _ _) t.target_new ((hsame []).trans h.plain.root) hconf.frame

end WithinLimits

/-- **The program passes every experiment**, with any batch size: in every fair run without
a fault it exits with 0 and its copy is found to be right, it never asks for an illegal
transfer or for more operations than its AIO context has, and removing the copy leaves what
there was before. -/
theorem passes_of_testCase {ok : Sys → Label → Prop} {batchSize : ℤ}
    (hsize : ∀ l n, (urandom l n).length = n) (hdepth : 7 ≤ depth)
    (hc : c ∈ createTestCases urandom depth) (hempty : IsEmptyDir fs t.root)
    (hgen : c.genFunc t.root fs = some t.fs) {path : Path Sys.step ok (t.init batchSize)}
    (hok : ∀ s l, ok s l → s.Regular l ∧ s.Faultless l) (hfair : FairRun path) :
    (∀ k, (path.state k).prog.aio.flight.length ≤ maxEvents ∧
      ∀ b ∈ (path.state k).prog.aio.log.submitted, DirectLegal b) ∧
    ∃ n, (path.state n).prog.aio.ended = some (.exited 0) ∧
      isSame (path.state n).world.fs t.root t.target = true ∧
      (path.state n).world.fs.removeTree t.target = some t.fs := by
  have hlimits : WithinLimits t := withinLimits hsize hdepth hc hempty hgen
  refine ⟨fun k => ⟨?_, ?_⟩, ?_⟩
  · have hle := hlimits.flight_le (path.reaches k)
    omega
  · exact (hlimits.blocks (fun s l h => (hok s l h).2.aio) (path.reaches k)).submitted
  · have hfiles : t.regularFiles.card < 2 ^ 31 := hlimits.files.trans_lt (by decide)
    obtain ⟨n, x, hended⟩ := hfair.exists_ended (fun s l h => (hok s l h).1) hfiles
    have hreach : Reaches Sys.step Sys.Faultless (t.init batchSize) (path.state n) :=
      (path.reaches n).weaken fun s l h => (hok s l h).2
    obtain ⟨rfl, d, hcopy, hentry⟩ := copyOf_of_reaches (t := hlimits.toTask)
      (hfiles.trans (by decide)) hreach hended
    have hsame (rel : Loc) : (path.state n).world.fs.entry (rel ++ t.target) =
        t.fs.entry (rel ++ t.root) :=
      (hentry rel).trans (Setting.copyOf_of_lt (hlimits.content_lt rel))
    refine ⟨n, hended, ?_, hlimits.removeTree hcopy.tree.toConfined hsame⟩
    exact isSame_of_faultless (t := hlimits.toTask) hlimits.kind_root hlimits.content_lt
      (hfiles.trans (by decide)) hreach hended

end

/-- A source of bytes. -/
def zeros (_ : Loc) (n : ℕ) : List UInt8 := List.replicate n 0

/-- The file system with the source of the first test case. -/
def caseOne : Fs :=
  emptyDir.create [['s']] (txtName 0) (.reg (zeros [txtName 0, ['s']] (10 * kb))) entry_emptyDir rfl
    (legal_txtName 0)

lemma not_suffix_dest : ¬ [['s']] <:+ [['d']] := by
  decide

/-- The copy of the first test case. -/
def caseOneCopy : Setting where
  fs := caseOne
  cwd := []
  srcName := ['s']
  dstName := ['d']
  root := [['s']]
  parent := []
  name := ['d']
  src := by decide +kernel
  dst := by decide +kernel
  links rel p he := by
    have hall : ∀ l ∈ caseOne.dom, ∀ e ∈ caseOne.entry l, e.kind ≠ .lnk := by decide +kernel
    exact hall _ ((caseOne.mem_dom _).mpr (Option.isSome_iff_exists.mpr ⟨_, he⟩)) _ he rfl
  outside := not_suffix_dest

/-- A run of the program on it. -/
def caseOneRun : List Label :=
  [.initManager true, .startThread true, .stat (some .dir), .mkdir true, .opendir true,
    .readdir (.entry (txtName 0) .reg), .readdir .finished, .closedir true, .stat (some .reg),
    .bumpReqCount, .copyReg, .addLock true, .addLink, .addUnlock true, .walkEnd, .waitLock true,
    .waitSet, .waitUnlock true, .aio .lockFlush, .aio (.getEvents []), .aio .checkDone,
    .aio .lockRequest, .aio .readSize, .aio (.readOne ⟨3, some 10240, 4096⟩), .aio (.readSubmit 1),
    .aio .unlockRequest, .aio .writeSize, .aio .unlockFlush,
    .aio (.complete ⟨0, .pread, 3, 4096, 10240, 0, 0⟩ 10240), .aio .lockFlush,
    .aio (.getEvents [⟨⟨0, .pread, 3, 4096, 10240, 0, 0⟩, 10240⟩]), .aio .handleEvent,
    .aio .checkDone, .aio .lockRequest, .aio .readSize, .aio .unlockRequest, .aio .writeSize,
    .aio (.writeOne 4), .aio (.writeSubmit 1), .aio .unlockFlush,
    .aio (.complete ⟨1, .pwrite, 4, 4096, 10240, 0, 0⟩ 10240), .aio .lockFlush,
    .aio (.getEvents [⟨⟨1, .pwrite, 4, 4096, 10240, 0, 0⟩, 10240⟩]), .aio .handleEvent,
    .aio .checkDone, .aio .unlockBreak, .join true, .destroy true]

/-- The first test case, with a batch size of 1. -/
theorem passes_of_testCase_first :
    ∃ path : Path Sys.step (fun s l => s.Regular l ∧ s.Faultless l) (caseOneCopy.init 1),
      FairRun path ∧ ∃ n, (path.state n).prog.aio.ended = some (.exited 0) ∧
        isSame (path.state n).world.fs [['s']] [['d']] = true ∧
        (path.state n).world.fs.removeTree [['d']] = some caseOne := by
  have hrun : (execOk Sys.step (fun s l => s.Regular l ∧ s.Faultless l) (caseOneCopy.init 1)
      caseOneRun).map (fun s => s.prog.aio.ended) = some (some (.exited 0)) := by
    decide +kernel
  obtain ⟨s, hs, hended⟩ := Option.map_eq_some_iff.mp hrun
  have hfair := FairRun.ofExec hs (by simp [hended])
  have hcase : (⟨1, smallFiles2p0 zeros⟩ : TestCase) ∈ createTestCases zeros 1000 :=
    List.mem_cons_self
  exact ⟨_, hfair, (passes_of_testCase (fun _ n => List.length_replicate) (by decide) hcase
    isEmptyDir_emptyDir rfl (fun _ _ h => h) hfair).2⟩

end Cpr
