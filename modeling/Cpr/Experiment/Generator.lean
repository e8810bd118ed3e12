/-
# The trees of the experiments

`test_case_gen.py` makes the source trees of the experiments: directories with many files,
and trees in which every directory of the same height has the same number of files and of
directories.  The functions raise an exception where a call fails (`none`), and also when the
recursion gets deeper than the interpreter allows.
-/
import Cpr.Lib.Loop
import Cpr.Lib.Unix.Tree
import Cpr.Experiment.Oracle
import Mathlib.Algebra.BigOperators.Ring.Finset
import Mathlib.Tactic.Ring

namespace Cpr

open Unix

/-- `"{}.txt".format(i)`. -/
def txtName (i : ℕ) : Name := fileName i ++ ['.', 't', 'x', 't']

/-- `"dir_{}".format(i)`. -/
def dirName (i : ℕ) : Name := ['d', 'i', 'r', '_'] ++ fileName i

section

-- the bytes that `os.urandom` gives for a file of some size
variable (urandom : Loc → ℕ → List UInt8)

/-- `create_rand_file`. -/
def createRandFile (fs : Fs) (dir : Loc) (name : Name) (size : ℕ) : Option Fs :=
  fs.writeFile dir name (urandom (name :: dir) size)

/-- The loop over the files of a directory. -/
def createFiles (rootDir : Loc) (numFiles fileSize : ℕ) (fs : Fs) : Option Fs :=
  (List.range numFiles).foldlM (fun fs i => createRandFile urandom fs rootDir (txtName i) fileSize)
    fs

/-- `create_mary_tree`; `depth` is how much deeper the recursion may get.  The limit of the system
on the length of a path is not modelled. -/
def createMaryTree (depth : ℕ) (rootDir : Loc) (height : ℤ) (numFiles numDirs fileSize : ℕ)
    (fs : Fs) : Option Fs :=
  match depth with
  | 0 => none
  | depth + 1 => do
    let fs ← createFiles urandom rootDir numFiles fileSize fs
    if height = 1 then return fs
    (List.range numDirs).foldlM
      (fun fs i => do
        let fs ← fs.makeDir rootDir (dirName i)
        createMaryTree depth (dirName i :: rootDir) (height - 1) numFiles numDirs fileSize fs)
      fs

end

/-! ## The names -/

lemma txtName_injective : Function.Injective txtName := fun _ _ h =>
  fileName_injective (List.append_cancel_right h)

lemma dirName_injective : Function.Injective dirName := fun _ _ h =>
  fileName_injective (List.append_cancel_left h)

lemma isDigit_of_mem_fileName {i : ℕ} {c : Char} (h : c ∈ fileName i) : c.isDigit = true :=
  Nat.isDigit_of_mem_toDigits (by decide) (by decide) h

lemma legal_txtName (i : ℕ) : LegalName (txtName i) := by
  have hlen : 4 ≤ (txtName i).length := by simp [txtName]
  refine ⟨fun h => by simp [h] at hlen, fun h => ?_, fun h => by simp [h, dot] at hlen,
    fun h => by simp [h, dotdot] at hlen⟩
  rcases List.mem_append.mp h with h | h
  · exact absurd (isDigit_of_mem_fileName h) (by decide)
  · exact absurd h (by decide)

lemma legal_dirName (i : ℕ) : LegalName (dirName i) := by
  have hlen : 4 ≤ (dirName i).length := by simp [dirName]
  refine ⟨fun h => by simp [h] at hlen, fun h => ?_, fun h => by simp [h, dot] at hlen,
    fun h => by simp [h, dotdot] at hlen⟩
  rcases List.mem_append.mp h with h | h
  · exact absurd h (by decide)
  · exact absurd (isDigit_of_mem_fileName h) (by decide)

/-- A file has a digit first, and a directory has none. -/
lemma txtName_ne_dirName (i j : ℕ) : txtName i ≠ dirName j := by
  intro h
  have hne : fileName i ≠ [] := (legal_fileName i).ne_nil
  obtain ⟨c, cs, hcs⟩ := List.exists_cons_of_ne_nil hne
  have hdigit := isDigit_of_mem_fileName (i := i) (c := c) (by rw [hcs]; exact List.mem_cons_self)
  rw [txtName, dirName, hcs, List.cons_append, List.cons_append] at h
  rw [(List.cons.inj h).1] at hdigit
  exact absurd hdigit (by decide)

/-! ## What a tree has -/

/-- Some paths in each of the first directories. -/
def branches (paths : List Loc) (numDirs : ℕ) : List Loc :=
  (List.range numDirs).flatMap fun i => paths.map (· ++ [dirName i])

/-- The paths of a tree that has the paths `top` in each of its directories. -/
def maryPaths (top : List Loc) (numDirs : ℕ) : ℕ → List Loc
  | 0 => top
  | h + 1 => top ++ branches (maryPaths top numDirs h) numDirs

/-- The files in the root of a tree. -/
def rootFiles (numFiles : ℕ) : List Loc := (List.range numFiles).map fun i => [txtName i]

/-- The directories of a tree, from its root on; a tree of height 1 has no other. -/
def maryDirs (numDirs h : ℕ) : List Loc := maryPaths [[]] numDirs h

/-- The files of a tree. -/
def maryFiles (numFiles numDirs h : ℕ) : List Loc := maryPaths (rootFiles numFiles) numDirs h

section

variable {paths top : List Loc} {rel : Loc} {numFiles numDirs h i : ℕ}

lemma mem_branches :
    rel ∈ branches paths numDirs ↔ ∃ i < numDirs, ∃ rel' ∈ paths, rel' ++ [dirName i] = rel := by
  simp [branches]

@[simp]
lemma branches_zero : branches paths 0 = [] := rfl

lemma branches_succ :
    branches paths (numDirs + 1) =
      branches paths numDirs ++ paths.map (· ++ [dirName numDirs]) := by
  simp [branches, List.range_succ]

lemma maryPaths_zero : maryPaths top 0 h = top := by
  cases h with
  | zero => rfl
  | succ h => exact List.append_nil top

/-- What ends in the name of a directory is in that directory only. -/
lemma concat_inj {rel' : Loc} {j : ℕ} (h : rel ++ [dirName i] = rel' ++ [dirName j]) :
    rel = rel' ∧ i = j := by
  obtain ⟨hrel, hname⟩ := List.append_inj' h rfl
  exact ⟨hrel, dirName_injective (List.cons.inj hname).1⟩

/-- What a directory has that is made with its tree is in no other. -/
lemma dirName_not_mem : [dirName i] ∉ branches paths i := by
  intro hmem
  obtain ⟨j, hj, rel, -, heq⟩ := mem_branches.mp hmem
  obtain ⟨-, hij⟩ := concat_inj (heq.trans (List.nil_append _).symm)
  omega

lemma not_mem_rootFiles (rel : Loc) (i : ℕ) : rel ++ [dirName i] ∉ rootFiles numFiles := by
  intro hmem
  obtain ⟨j, -, heq⟩ := List.mem_map.mp hmem
  have hname : txtName j = dirName i := by simpa using congrArg List.getLast? heq
  exact txtName_ne_dirName j i hname

lemma length_branches : (branches paths numDirs).length = numDirs * paths.length := by
  induction numDirs with
  | zero => simp
  | succ n ih =>
    rw [branches_succ, List.length_append, ih, List.length_map]
    ring

/-- There are as many paths of each height as in a power series. -/
theorem length_maryPaths :
    (maryPaths top numDirs h).length = top.length * ∑ k ∈ Finset.range (h + 1), numDirs ^ k := by
  induction h with
  | zero => simp [maryPaths]
  | succ h ih =>
    have hsum : ∑ k ∈ Finset.range (h + 2), numDirs ^ k =
        numDirs * ∑ k ∈ Finset.range (h + 1), numDirs ^ k + 1 := by
      rw [Finset.sum_range_succ', Finset.mul_sum, pow_zero]
      simp only [pow_succ']
    rw [maryPaths, List.length_append, length_branches, ih, hsum]
    ring

lemma nodup_branches (hpaths : paths.Nodup) : (branches paths numDirs).Nodup := by
  induction numDirs with
  | zero => exact List.nodup_nil
  | succ n ih =>
    rw [branches_succ, List.nodup_append']
    refine ⟨ih, hpaths.map (List.append_left_injective _), fun rel hmem hmem' => ?_⟩
    obtain ⟨i, hi, rel', -, rfl⟩ := mem_branches.mp hmem
    obtain ⟨rel'', -, heq⟩ := List.mem_map.mp hmem'
    obtain ⟨-, hin⟩ := concat_inj heq
    omega

/-- No path is there twice. -/
theorem nodup_maryPaths (htop : top.Nodup) (hdirs : ∀ rel i, rel ++ [dirName i] ∉ top) :
    (maryPaths top numDirs h).Nodup := by
  induction h with
  | zero => exact htop
  | succ h ih =>
    rw [maryPaths, List.nodup_append']
    refine ⟨htop, nodup_branches ih, fun rel hmem hmem' => ?_⟩
    obtain ⟨i, -, rel', -, rfl⟩ := mem_branches.mp hmem'
    exact hdirs rel' i hmem

/-- A path is of one kind, if those of the root are. -/
lemma disjoint_maryPaths {top' : List Loc} (hdisj : top.Disjoint top')
    (hdirs : ∀ rel i, rel ++ [dirName i] ∉ top) (hdirs' : ∀ rel i, rel ++ [dirName i] ∉ top') :
    (maryPaths top numDirs h).Disjoint (maryPaths top' numDirs h) := by
  induction h with
  | zero => exact hdisj
  | succ h ih =>
    intro rel hmem hmem'
    rw [maryPaths, List.mem_append, mem_branches] at hmem hmem'
    rcases hmem with hmem | ⟨i, -, rel₁, hrel₁, rfl⟩ <;>
      rcases hmem' with hmem' | ⟨j, -, rel₂, hrel₂, heq⟩
    · exact hdisj hmem hmem'
    · exact hdirs rel₂ j (heq ▸ hmem)
    · exact hdirs' rel₁ i hmem'
    · exact ih hrel₁ ((concat_inj heq).1 ▸ hrel₂)

lemma nodup_rootFiles : (rootFiles numFiles).Nodup :=
  List.nodup_range.map fun _ _ h => txtName_injective (List.cons.inj h).1

lemma nodup_maryFiles : (maryFiles numFiles numDirs h).Nodup :=
  nodup_maryPaths nodup_rootFiles not_mem_rootFiles

/-- No file is a directory. -/
lemma disjoint_maryFiles : (maryFiles numFiles numDirs h).Disjoint (maryDirs numDirs h) := by
  refine disjoint_maryPaths ?_ not_mem_rootFiles fun rel i => by simp
  simp [rootFiles]

lemma nil_mem_maryDirs : [] ∈ maryDirs numDirs h := by
  cases h <;> simp [maryDirs, maryPaths]

end

/-- The entries of a tree with the given directories and files. -/
def treeEntry (dirs files : List Loc) (content : Loc → List UInt8) (rel : Loc) : Option Entry :=
  if rel ∈ dirs then some .dir else if rel ∈ files then some (.reg (content rel)) else none

lemma treeEntry_eq_none {dirs files : List Loc} {content : Loc → List UInt8} {rel : Loc} :
    treeEntry dirs files content rel = none ↔ rel ∉ dirs ∧ rel ∉ files := by
  unfold treeEntry
  split_ifs with hdir hfile
  · simp [hdir]
  · simp [hfile]
  · simp [hdir, hfile]

/-- The regular files below a place. -/
def Unix.Fs.regularBelow (fs : Fs) (l : Loc) : Finset Loc :=
  fs.dom.filter fun k => l <:+ k ∧ (fs.entry k).map Entry.kind = some .reg

/-- A directory with nothing in it. -/
structure IsEmptyDir (fs : Fs) (dir : Loc) : Prop where
  root : fs.entry dir = some .dir
  below : ∀ rel, rel ≠ [] → fs.entry (rel ++ dir) = none

/-- A tree is below a directory, and the rest is as it was. -/
structure Grown (fs fs' : Fs) (rootDir : Loc) (dirs files : List Loc)
    (content : Loc → List UInt8) : Prop where
  frame : ∀ l, ¬ rootDir <:+ l → fs'.entry l = fs.entry l
  tree : ∀ rel, fs'.entry (rel ++ rootDir) = treeEntry dirs files content rel

namespace Grown

variable {fs s s' s'' : Fs} {rootDir : Loc} {dirs files dirs' files' : List Loc}
  {content : Loc → List UInt8} {n : Name}

/-- An empty directory. -/
lemma start (h : IsEmptyDir fs rootDir) : Grown fs fs rootDir [[]] [] content := by
  refine ⟨fun _ _ => rfl, fun rel => ?_⟩
  by_cases hrel : rel = []
  · rw [hrel, List.nil_append, h.root, treeEntry, if_pos (List.mem_singleton_self _)]
  · rw [h.below rel hrel, treeEntry, if_neg (by simpa using hrel), if_neg List.not_mem_nil]

lemma entry_root (h : Grown fs s rootDir dirs files content) (hmem : [] ∈ dirs) :
    s.entry rootDir = some .dir :=
  (h.tree []).trans (if_pos hmem)

/-- Nothing has a name that no directory and no file has. -/
lemma entry_new (h : Grown fs s rootDir dirs files content) (hdirs : [n] ∉ dirs)
    (hfiles : [n] ∉ files) : s.entry (n :: rootDir) = none :=
  (h.tree [n]).trans (treeEntry_eq_none.mpr ⟨hdirs, hfiles⟩)

/-- A file is added. -/
lemma addFile (h : Grown fs s rootDir dirs files content)
    (hadds : s.Adds s' (n :: rootDir) (.reg (content [n]))) :
    Grown fs s' rootDir dirs (files ++ [[n]]) content := by
  refine ⟨fun l hl => ?_, fun rel => ?_⟩
  · rw [hadds.other l fun heq => hl (heq ▸ List.suffix_cons n rootDir), h.frame l hl]
  · obtain ⟨hdirs, -⟩ := treeEntry_eq_none.mp ((h.tree [n]).symm.trans hadds.new)
    by_cases hrel : rel = [n]
    · subst hrel
      rw [List.singleton_append, hadds.self, treeEntry, if_neg hdirs, if_pos (by simp)]
    · have hother : rel ++ rootDir ≠ n :: rootDir := fun heq =>
        hrel (List.append_cancel_right (heq.trans List.singleton_append.symm))
      rw [hadds.other _ hother, h.tree rel, treeEntry, treeEntry]
      simp [hrel]

/-- A directory is added, and a tree in it. -/
lemma graft (h : Grown fs s rootDir dirs files content) (hadds : s.Adds s' (n :: rootDir) .dir)
    (hsub : Grown s' s'' (n :: rootDir) dirs' files' fun rel => content (rel ++ [n])) :
    Grown fs s'' rootDir (dirs ++ dirs'.map (· ++ [n])) (files ++ files'.map (· ++ [n]))
      content := by
  have hassoc (rel : Loc) : (rel ++ [n]) ++ rootDir = rel ++ n :: rootDir := by simp
  refine ⟨fun l hl => ?_, fun rel => ?_⟩
  · have hbelow : ¬ n :: rootDir <:+ l := fun hsuf => hl ((List.suffix_cons n rootDir).trans hsuf)
    have hne : l ≠ n :: rootDir := fun heq => hl (heq ▸ List.suffix_cons n rootDir)
    rw [hsub.frame l hbelow, hadds.other l hne, h.frame l hl]
  · by_cases hrel : ∃ rel', rel = rel' ++ [n]
    · -- in the new tree
      obtain ⟨rel', rfl⟩ := hrel
      have hnone : s.entry ((rel' ++ [n]) ++ rootDir) = none := by
        rw [hassoc]
        exact Fs.entry_append_eq_none hadds.new
      obtain ⟨hdirs, hfiles⟩ := treeEntry_eq_none.mp ((h.tree _).symm.trans hnone)
      rw [hassoc, hsub.tree rel', treeEntry, treeEntry]
      simp [hdirs, hfiles]
    · -- in the old one
      have hsuf : ¬ n :: rootDir <:+ rel ++ rootDir := by
        rintro ⟨rel', heq⟩
        rw [← hassoc] at heq
        exact hrel ⟨rel', (List.append_cancel_right heq).symm⟩
      have hother : ∀ l, rel ∉ List.map (· ++ [n]) l := by
        intro l hmem
        obtain ⟨rel', -, heq⟩ := List.mem_map.mp hmem
        exact hrel ⟨rel', heq.symm⟩
      have hne : rel ++ rootDir ≠ n :: rootDir := fun heq => hsuf (heq ▸ List.suffix_refl _)
      rw [hsub.frame _ hsuf, hadds.other _ hne, h.tree rel, treeEntry, treeEntry]
      simp only [List.mem_append, hother, or_false]

lemma isPlainTree (h : Grown fs s rootDir dirs files content) (hroot : [] ∈ dirs) :
    IsPlainTree s rootDir := by
  refine ⟨h.entry_root hroot, fun rel e he => ?_⟩
  rw [h.tree rel, treeEntry] at he
  split_ifs at he <;> cases he
  · exact Or.inl rfl
  · exact Or.inr rfl

/-- The regular files of the tree. -/
lemma card_regularBelow (h : Grown fs s rootDir dirs files content) (hnd : files.Nodup)
    (hdisj : files.Disjoint dirs) : (s.regularBelow rootDir).card = files.length := by
  have himage : s.regularBelow rootDir = files.toFinset.image (· ++ rootDir) := by
    ext l
    rw [Fs.regularBelow, Finset.mem_filter, Finset.mem_image, s.mem_dom]
    constructor
    · rintro ⟨-, ⟨rel, rfl⟩, hreg⟩
      obtain ⟨bytes, he⟩ := map_kind_eq_reg.mp hreg
      rw [h.tree rel, treeEntry] at he
      split_ifs at he with hdir hfile
      · cases he
      · exact ⟨rel, List.mem_toFinset.mpr hfile, rfl⟩
    · rintro ⟨rel, hrel, rfl⟩
      have hfile := List.mem_toFinset.mp hrel
      have he : s.entry (rel ++ rootDir) = some (.reg (content rel)) := by
        rw [h.tree rel, treeEntry, if_neg fun hdir => hdisj hfile hdir, if_pos hfile]
      exact ⟨by rw [he]; rfl, List.suffix_append rel rootDir, by rw [he]; rfl⟩
  rw [himage, Finset.card_image_of_injective _ (List.append_left_injective rootDir),
    List.toFinset_card_of_nodup hnd]

end Grown

/-! ## The loops make the tree -/

section

variable (urandom : Loc → ℕ → List UInt8) (numFiles fileSize : ℕ) {numDirs h depth : ℕ}
  {height : ℤ} {fs : Fs} {rootDir : Loc}

/-- The loop over the files makes them. -/
theorem createFiles_grown (hempty : IsEmptyDir fs rootDir) :
    ∃ fs', createFiles urandom rootDir numFiles fileSize fs = some fs' ∧
      Grown fs fs' rootDir [[]] (rootFiles numFiles)
        fun rel => urandom (rel ++ rootDir) fileSize := by
  refine foldlM_range_eq_pure (I := fun i s => Grown fs s rootDir [[]] (rootFiles i)
    fun rel => urandom (rel ++ rootDir) fileSize) (fun i _ s hs => ?_) (.start hempty)
  have hfiles : [txtName i] ∉ rootFiles i := by simp [rootFiles, txtName_injective.eq_iff]
  obtain ⟨s', hwrite, hadds⟩ := Fs.writeFile_new (urandom (txtName i :: rootDir) fileSize)
    (hs.entry_root (by simp)) (hs.entry_new (by simp) hfiles) (legal_txtName i)
  refine ⟨s', hwrite, ?_⟩
  rw [rootFiles, List.range_succ, List.map_append]
  exact hs.addFile hadds

/-- **The generator makes exactly the tree** of the given height in an empty directory, if the
recursion may be as deep as the tree. -/
theorem createMaryTree_grown (numDirs : ℕ) (hdepth : h < depth)
    (hempty : IsEmptyDir fs rootDir) :
    ∃ fs', createMaryTree urandom depth rootDir (h + 1) numFiles numDirs fileSize fs = some fs' ∧
      Grown fs fs' rootDir (maryDirs numDirs h) (maryFiles numFiles numDirs h)
        fun rel => urandom (rel ++ rootDir) fileSize := by
  -- the induction is on the height, for all directories
  induction h generalizing depth rootDir fs with
  | zero =>
    obtain ⟨depth, rfl⟩ := Nat.exists_eq_add_of_lt hdepth
    obtain ⟨fs', hfiles, hgrown⟩ := createFiles_grown urandom numFiles fileSize hempty
    refine ⟨fs', ?_, hgrown⟩
    rw [Nat.zero_add, createMaryTree, hfiles]
    rfl
  | succ h ih =>
    obtain ⟨depth, rfl⟩ : ∃ d, depth = d + 1 := ⟨depth - 1, by omega⟩
    obtain ⟨s₀, hfiles, hgrown⟩ := createFiles_grown urandom numFiles fileSize hempty
    rw [createMaryTree, hfiles]
    have hheight : ((h + 1 : ℕ) : ℤ) + 1 ≠ 1 := by omega
    have hbelow : ((h + 1 : ℕ) : ℤ) + 1 - 1 = (h : ℤ) + 1 := by omega
    simp only [Option.bind_eq_bind, Option.bind_some, hheight, if_false, hbelow]
    refine foldlM_range_eq_pure (I := fun i s => Grown fs s rootDir
      ([[]] ++ branches (maryDirs numDirs h) i)
      (rootFiles numFiles ++ branches (maryFiles numFiles numDirs h) i)
      fun rel => urandom (rel ++ rootDir) fileSize) (fun i _ s hs => ?_) ?_
    · have hdirs : [dirName i] ∉ [[]] ++ branches (maryDirs numDirs h) i := by
        simpa using dirName_not_mem
      have hfiles :
          [dirName i] ∉ rootFiles numFiles ++ branches (maryFiles numFiles numDirs h) i := by
        rw [List.mem_append, not_or]
        exact ⟨not_mem_rootFiles [] i, dirName_not_mem⟩
      obtain ⟨s₁, hmake, hadds⟩ := Fs.makeDir_new (hs.entry_root (by simp))
        (hs.entry_new hdirs hfiles) (legal_dirName i)
      have hsmall : h < depth := by omega
      obtain ⟨s₂, hsub, hbelow⟩ := ih hsmall ⟨hadds.self, fun _ => hadds.entry_append⟩
      refine ⟨s₂, ?_, ?_⟩
      · rw [hmake]
        exact hsub
      · rw [branches_succ, branches_succ, ← List.append_assoc, ← List.append_assoc]
        exact hs.graft hadds (by simpa using hbelow)
    · simpa using hgrown

/-- The recursion does not end from a height below 1, nor if it has to be too deep. -/
lemma createMaryTree_eq_none (hdirs : 0 < numDirs) (h : ¬ (1 ≤ height ∧ height ≤ depth)) :
    createMaryTree urandom depth rootDir height numFiles numDirs fileSize fs = none := by
  induction depth generalizing rootDir height fs with
  | zero => rfl
  | succ depth ih =>
    obtain ⟨n, rfl⟩ : ∃ n, numDirs = n + 1 := ⟨numDirs - 1, by omega⟩
    have hheight : height ≠ 1 := by omega
    have hsub : ¬ (1 ≤ height - 1 ∧ height - 1 ≤ depth) := by omega
    -- the first directory is enough
    simp only [createMaryTree, hheight, if_false, ih hsub, List.range_succ_eq_map,
      List.foldlM_cons, Option.bind_eq_bind, Option.bind_none, Option.bind_fun_none]

/-- Without directories there is no recursion. -/
lemma createMaryTree_zero :
    createMaryTree urandom (depth + 1) rootDir height numFiles 0 fileSize fs =
      createFiles urandom rootDir numFiles fileSize fs := by
  rw [createMaryTree]
  cases createFiles urandom rootDir numFiles fileSize fs with
  | none => rfl
  | some s => simp

/-- The generator makes the tree of its height, or fails. -/
lemma createMaryTree_cases (depth numDirs : ℕ) (height : ℤ) (hempty : IsEmptyDir fs rootDir) :
    (0 < depth ∧ (numDirs = 0 ∨ 1 ≤ height ∧ height ≤ depth) ∧
      ∃ fs', createMaryTree urandom depth rootDir height numFiles numDirs fileSize fs = some fs' ∧
        Grown fs fs' rootDir (maryDirs numDirs (height - 1).toNat)
          (maryFiles numFiles numDirs (height - 1).toNat)
          fun rel => urandom (rel ++ rootDir) fileSize) ∨
    (¬ (0 < depth ∧ (numDirs = 0 ∨ 1 ≤ height ∧ height ≤ depth)) ∧
      createMaryTree urandom depth rootDir height numFiles numDirs fileSize fs = none) := by
  by_cases hheight : 1 ≤ height ∧ height ≤ depth
  · obtain ⟨h, rfl⟩ : ∃ h : ℕ, height = h + 1 := ⟨(height - 1).toNat, by omega⟩
    have hdepth : h < depth := by omega
    refine Or.inl ⟨by omega, Or.inr hheight, ?_⟩
    rw [add_sub_cancel_right, Int.toNat_natCast]
    exact createMaryTree_grown urandom numFiles fileSize numDirs hdepth hempty
  · by_cases hdirs : numDirs = 0
    · subst hdirs
      cases depth with
      | zero => exact Or.inr ⟨by omega, rfl⟩
      | succ depth =>
        obtain ⟨fs', hfiles, hgrown⟩ := createFiles_grown urandom numFiles fileSize hempty
        refine Or.inl ⟨Nat.succ_pos depth, Or.inl rfl, fs', ?_, ?_⟩
        · rw [createMaryTree_zero, hfiles]
        · rw [maryDirs, maryFiles, maryPaths_zero, maryPaths_zero]
          exact hgrown
    · refine Or.inr ⟨by tauto, ?_⟩
      exact createMaryTree_eq_none urandom numFiles fileSize (Nat.pos_of_ne_zero hdirs) hheight

/-- **What `create_mary_tree` makes** of an empty directory, and when it makes anything. -/
theorem createMaryTree_exact (depth numDirs : ℕ) (height : ℤ) (hempty : IsEmptyDir fs rootDir) :
    ((createMaryTree urandom depth rootDir height numFiles numDirs fileSize fs).isSome ↔
      0 < depth ∧ (numDirs = 0 ∨ 1 ≤ height ∧ height ≤ depth)) ∧
    ∀ fs', createMaryTree urandom depth rootDir height numFiles numDirs fileSize fs = some fs' →
      Grown fs fs' rootDir (maryDirs numDirs (height - 1).toNat)
        (maryFiles numFiles numDirs (height - 1).toNat)
        (fun rel => urandom (rel ++ rootDir) fileSize) ∧
      (fs'.regularBelow rootDir).card =
        numFiles * ∑ k ∈ Finset.range ((height - 1).toNat + 1), numDirs ^ k := by
  rcases createMaryTree_cases urandom numFiles fileSize depth numDirs height hempty with
    ⟨hpos, hcond, fs', hmade, hgrown⟩ | ⟨hcond, hnone⟩
  · refine ⟨by simp [hmade, hpos, hcond], fun fs'' hfs'' => ?_⟩
    obtain rfl := Option.some.inj (hmade.symm.trans hfs'')
    refine ⟨hgrown, ?_⟩
    rw [hgrown.card_regularBelow nodup_maryFiles disjoint_maryFiles, maryFiles, length_maryPaths,
      rootFiles, List.length_map, List.length_range]
  · refine ⟨by simp [hnone, hcond], fun fs'' hfs'' => ?_⟩
    rw [hnone] at hfs''
    cases hfs''

end

lemma isEmptyDir_emptyDir : IsEmptyDir emptyDir [['s']] := by
  refine ⟨entry_emptyDir, fun rel hrel => ?_⟩
  have hother : rel ++ [['s']] ≠ [['s']] := fun heq => hrel (by simpa using heq)
  exact (Fs.entry_create_of_ne hother).trans (if_neg (by simp))

/-- The directory `s` gets a tree of height 3. -/
theorem createMaryTree_exact_emptyDir : ∃ fs',
    createMaryTree (fun _ n => List.replicate n 7) 1000 [['s']] 3 2 3 10 emptyDir = some fs' ∧
      (fs'.regularBelow [['s']]).card = 26 := by
  obtain ⟨hsome, hmade⟩ :=
    createMaryTree_exact (fun _ n => List.replicate n 7) 2 10 1000 3 3 isEmptyDir_emptyDir
  obtain ⟨fs', hfs'⟩ := Option.isSome_iff_exists.mp (hsome.mpr (by decide))
  exact ⟨fs', hfs', (hmade fs' hfs').2.trans (by decide)⟩

end Cpr
