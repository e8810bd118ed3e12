/-
# The oracle of the experiments

`is_same` of `exp.py` compares the source with the copy, directory by directory.  It looks at
four of the classes into which `filecmp.dircmp` sorts the names, and goes down into a fifth.
The names that are in both directories with different kinds are in a sixth class,
`common_funny`, at which it does not look.
-/
import Cpr.System.Copy
import Mathlib.Data.Finset.Lattice.Fold
import Mathlib.Data.Finset.SDiff
import Mathlib.Data.Fintype.Sets
import Mathlib.Order.Lattice.Nat

namespace Cpr

open Transition Unix

/-- What `filecmp.cmpfiles` says about two files. -/
inductive Comparison
  | same
  | different
  /-- They cannot be compared. -/
  | funny
deriving DecidableEq, Repr

/-- The comparison of the bytes of two files, with `shallow=False`.  The results that `filecmp`
keeps of earlier comparisons are not modelled. -/
def filecmp (fs : Fs) (f1 f2 : Loc) : Comparison :=
  match fs.entry f1, fs.entry f2 with
  | some (.reg bytes1), some (.reg bytes2) => if bytes1 = bytes2 then .same else .different
  | _, _ => .funny

/-- The attributes of a `filecmp.dircmp`. -/
structure Dircmp where
  leftOnly : Finset Name
  rightOnly : Finset Name
  commonDirs : Finset Name
  commonFiles : Finset Name
  commonFunny : Finset Name
  sameFiles : Finset Name
  diffFiles : Finset Name
  funnyFiles : Finset Name

/-- The names in both directories whose kinds there are `k`. -/
def commonOf (fs : Fs) (left right : Loc) (k : Kind) : Finset Name :=
  (fs.names left ∩ fs.names right).filter fun n =>
    (fs.entry (n :: left)).map Entry.kind = some k ∧
      (fs.entry (n :: right)).map Entry.kind = some k

/-- `dircmp(left, right)`: the first phase compares the names, the second one their kinds,
and `phase3`, which the subclass overrides, the bytes of the common files.  No name is on the
list of those that `filecmp` ignores. -/
def dircmp (fs : Fs) (left right : Loc) : Dircmp :=
  let commonFiles := commonOf fs left right .reg
  let comparison n := filecmp fs (n :: left) (n :: right)
  { leftOnly := fs.names left \ fs.names right
    rightOnly := fs.names right \ fs.names left
    commonDirs := commonOf fs left right .dir
    commonFiles := commonFiles
    commonFunny := (fs.names left ∩ fs.names right) \ (commonOf fs left right .dir ∪ commonFiles)
    sameFiles := commonFiles.filter fun n => comparison n = .same
    diffFiles := commonFiles.filter fun n => comparison n = .different
    funnyFiles := commonFiles.filter fun n => comparison n = .funny }

/-- The length of the longest path in the file system. -/
def Unix.Fs.height (fs : Fs) : ℕ := fs.dom.sup List.length

lemma Unix.Fs.length_le_height {fs : Fs} {l : Loc} (h : (fs.entry l).isSome) :
    l.length ≤ fs.height :=
  Finset.le_sup (f := List.length) ((fs.mem_dom l).mpr h)

section

variable {fs : Fs} {dir1 dir2 rel l : Loc} {n : Name} {k : Kind}

lemma mem_commonOf : n ∈ commonOf fs dir1 dir2 k ↔
    (fs.entry (n :: dir1)).map Entry.kind = some k ∧
      (fs.entry (n :: dir2)).map Entry.kind = some k := by
  rw [commonOf, Finset.mem_filter, Finset.mem_inter, Fs.mem_names, Fs.mem_names]
  refine and_iff_right_of_imp fun ⟨h₁, h₂⟩ => ?_
  rw [← Option.isSome_map (f := Entry.kind), h₁, ← Option.isSome_map (f := Entry.kind), h₂]
  exact ⟨rfl, rfl⟩

end

lemma length_lt_of_mem_commonOf {fs : Fs} {dir1 dir2 : Loc} {n : Name} {k : Kind}
    (h : n ∈ commonOf fs dir1 dir2 k) : dir1.length < fs.height := by
  have hsome : (fs.entry (n :: dir1)).isSome := by
    rw [← Option.isSome_map (f := Entry.kind), (mem_commonOf.mp h).1]
    rfl
  exact Fs.length_le_height hsome

/-- `is_same`: `os.path.join(dir, subdir)` is the place `subdir :: dir`. -/
def isSame (fs : Fs) (dir1 dir2 : Loc) : Bool :=
  let compared := dircmp fs dir1 dir2
  if compared.leftOnly ≠ ∅ ∨ compared.rightOnly ≠ ∅ ∨ compared.diffFiles ≠ ∅ ∨
      compared.funnyFiles ≠ ∅ then false
  else
    decide (∀ subdir : { n // n ∈ compared.commonDirs },
      isSame fs (subdir.val :: dir1) (subdir.val :: dir2) = true)
termination_by fs.height - dir1.length
decreasing_by
  all_goals
    have hlt := length_lt_of_mem_commonOf (Subtype.prop ‹{ n // n ∈ _ }›)
    rw [List.length_cons]
    omega

/-! ### What it is for -/

/-- The tree at a directory has directories and regular files. -/
structure IsPlainTree (fs : Fs) (dir : Loc) : Prop where
  root : fs.entry dir = some .dir
  kinds : ∀ rel e, fs.entry (rel ++ dir) = some e → e.kind = .dir ∨ e.kind = .reg

/-- Two trees have the same relative paths with the same kinds, and the same bytes. -/
structure SameTree (fs : Fs) (dir1 dir2 : Loc) : Prop where
  kinds : ∀ rel, (fs.entry (rel ++ dir1)).map Entry.kind = (fs.entry (rel ++ dir2)).map Entry.kind
  bytes : ∀ rel, fs.content (rel ++ dir1) = fs.content (rel ++ dir2)

/-- A relative path is a directory in one tree and a file in the other. -/
def KindClash (fs : Fs) (dir1 dir2 : Loc) : Prop :=
  ∃ rel bytes,
    (fs.entry (rel ++ dir1) = some .dir ∧ fs.entry (rel ++ dir2) = some (.reg bytes)) ∨
      (fs.entry (rel ++ dir1) = some (.reg bytes) ∧ fs.entry (rel ++ dir2) = some .dir)

/-- A name is in one of two directories, or the files with that name have different bytes. -/
def Differs (fs : Fs) (dir1 dir2 : Loc) (n : Name) : Prop :=
  (fs.entry (n :: dir1)).isSome ≠ (fs.entry (n :: dir2)).isSome ∨
    ∃ bytes1 bytes2, fs.entry (n :: dir1) = some (.reg bytes1) ∧
      fs.entry (n :: dir2) = some (.reg bytes2) ∧ bytes1 ≠ bytes2

/-- There is such a name in a directory that both trees have. -/
def SeenDifference (fs : Fs) (dir1 dir2 : Loc) : Prop :=
  ∃ rel n, fs.entry (rel ++ dir1) = some .dir ∧ fs.entry (rel ++ dir2) = some .dir ∧
    Differs fs (rel ++ dir1) (rel ++ dir2) n

section

variable {fs : Fs} {dir1 dir2 : Loc} {n : Name}

lemma mem_commonDirs :
    n ∈ (dircmp fs dir1 dir2).commonDirs ↔
      fs.entry (n :: dir1) = some .dir ∧ fs.entry (n :: dir2) = some .dir :=
  mem_commonOf.trans (and_congr map_kind_eq_dir map_kind_eq_dir)

lemma mem_commonFiles :
    n ∈ (dircmp fs dir1 dir2).commonFiles ↔ ∃ bytes1 bytes2,
      fs.entry (n :: dir1) = some (.reg bytes1) ∧ fs.entry (n :: dir2) = some (.reg bytes2) := by
  refine mem_commonOf.trans ((and_congr map_kind_eq_reg map_kind_eq_reg).trans ?_)
  exact ⟨fun ⟨⟨b1, h1⟩, b2, h2⟩ => ⟨b1, b2, h1, h2⟩, fun ⟨b1, b2, h1, h2⟩ => ⟨⟨b1, h1⟩, b2, h2⟩⟩

lemma filecmp_reg {f1 f2 : Loc} {bytes1 bytes2 : List UInt8}
    (h1 : fs.entry f1 = some (.reg bytes1)) (h2 : fs.entry f2 = some (.reg bytes2)) :
    filecmp fs f1 f2 = if bytes1 = bytes2 then .same else .different := by
  rw [filecmp.eq_def, h1, h2]

/-- Regular files can be compared. -/
lemma funnyFiles_eq_empty : (dircmp fs dir1 dir2).funnyFiles = ∅ := by
  refine Finset.filter_eq_empty_iff.mpr fun n hn hfunny => ?_
  obtain ⟨bytes1, bytes2, h1, h2⟩ := mem_commonFiles.mp hn
  have hcmp := (filecmp_reg h1 h2).symm.trans hfunny
  split_ifs at hcmp

lemma mem_diffFiles :
    n ∈ (dircmp fs dir1 dir2).diffFiles ↔ ∃ bytes1 bytes2,
      fs.entry (n :: dir1) = some (.reg bytes1) ∧ fs.entry (n :: dir2) = some (.reg bytes2) ∧
        bytes1 ≠ bytes2 := by
  constructor
  · intro hn
    obtain ⟨hcommon, hdiff⟩ := Finset.mem_filter.mp hn
    obtain ⟨bytes1, bytes2, h1, h2⟩ := mem_commonFiles.mp hcommon
    refine ⟨bytes1, bytes2, h1, h2, fun heq => ?_⟩
    have hsame := (filecmp_reg h1 h2).symm.trans hdiff
    rw [if_pos heq] at hsame
    cases hsame
  · rintro ⟨bytes1, bytes2, h1, h2, hne⟩
    refine Finset.mem_filter.mpr ⟨mem_commonFiles.mpr ⟨bytes1, bytes2, h1, h2⟩, ?_⟩
    exact (filecmp_reg h1 h2).trans (if_neg hne)

/-- The classes that `is_same` looks at in one pair of directories. -/
lemma classes_empty_iff :
    ((dircmp fs dir1 dir2).leftOnly = ∅ ∧ (dircmp fs dir1 dir2).rightOnly = ∅ ∧
      (dircmp fs dir1 dir2).diffFiles = ∅) ↔ ∀ n, ¬ Differs fs dir1 dir2 n := by
  constructor
  · rintro ⟨hl, hr, hd⟩ n (hone | hbytes)
    · refine hone (Bool.eq_iff_iff.mpr ?_)
      rw [← Fs.mem_names, ← Fs.mem_names]
      exact ⟨fun h => Finset.sdiff_eq_empty_iff_subset.mp hl h,
        fun h => Finset.sdiff_eq_empty_iff_subset.mp hr h⟩
    · exact Finset.notMem_empty n (hd ▸ mem_diffFiles.mpr hbytes)
  · intro h
    have hsame (n : Name) : n ∈ fs.names dir1 ↔ n ∈ fs.names dir2 := by
      rw [Fs.mem_names, Fs.mem_names, ← Bool.eq_iff_iff]
      by_contra hone
      exact h n (Or.inl hone)
    refine ⟨Finset.sdiff_eq_empty_iff_subset.mpr fun n hn => (hsame n).mp hn,
      Finset.sdiff_eq_empty_iff_subset.mpr fun n hn => (hsame n).mpr hn, ?_⟩
    exact Finset.eq_empty_of_forall_notMem fun n hn => h n (Or.inr (mem_diffFiles.mp hn))

/-- One level of `is_same`. -/
lemma isSame_eq_true :
    isSame fs dir1 dir2 = true ↔ (∀ n, ¬ Differs fs dir1 dir2 n) ∧
      ∀ n, fs.entry (n :: dir1) = some .dir → fs.entry (n :: dir2) = some .dir →
        isSame fs (n :: dir1) (n :: dir2) = true := by
  rw [isSame, ← classes_empty_iff]
  simp only [funnyFiles_eq_empty]
  split_ifs with h
  · refine ⟨fun hf => hf.elim, fun ⟨⟨hl, hr, hd⟩, _⟩ => ?_⟩
    simp [hl, hr, hd] at h
  · simp only [ne_eq, not_or, not_not, and_true] at h
    rw [decide_eq_true_iff]
    refine ⟨fun hsub => ⟨h, fun n h1 h2 => hsub ⟨n, mem_commonDirs.mpr ⟨h1, h2⟩⟩⟩, ?_⟩
    rintro ⟨-, hsub⟩ ⟨n, hn⟩
    obtain ⟨h1, h2⟩ := mem_commonDirs.mp hn
    exact hsub n h1 h2

/-- A difference is in the two directories, or under a directory that both have. -/
lemma seenDifference_iff (h1 : fs.entry dir1 = some .dir) (h2 : fs.entry dir2 = some .dir) :
    SeenDifference fs dir1 dir2 ↔ (∃ n, Differs fs dir1 dir2 n) ∨
      ∃ m, fs.entry (m :: dir1) = some .dir ∧ fs.entry (m :: dir2) = some .dir ∧
        SeenDifference fs (m :: dir1) (m :: dir2) := by
  constructor
  · rintro ⟨rel, n, hd1, hd2, hn⟩
    rcases List.eq_nil_or_concat rel with rfl | ⟨rel, m, rfl⟩
    · exact Or.inl ⟨n, hn⟩
    · rw [List.concat_eq_append, List.append_assoc, List.singleton_append] at hd1 hd2
      rw [List.concat_eq_append, List.append_assoc, List.append_assoc, List.singleton_append,
        List.singleton_append] at hn
      -- the directory on the way down
      have hdir {dir : Loc} (hd : fs.entry (rel ++ m :: dir) = some .dir) :
          fs.entry (m :: dir) = some .dir := by
        by_cases hrel : rel = []
        · rwa [hrel] at hd
        · exact fs.entry_of_append (by rw [hd]; rfl) hrel
      exact Or.inr ⟨m, hdir hd1, hdir hd2, rel, n, hd1, hd2, hn⟩
  · rintro (⟨n, hn⟩ | ⟨m, -, -, rel, n, hd1, hd2, hn⟩)
    · exact ⟨[], n, h1, h2, hn⟩
    · rw [← List.singleton_append, ← List.append_assoc] at hd1 hd2
      refine ⟨rel ++ [m], n, hd1, hd2, ?_⟩
      rwa [List.append_assoc, List.append_assoc]

/-- What `is_same` finds. -/
lemma isSame_iff (h1 : fs.entry dir1 = some .dir) (h2 : fs.entry dir2 = some .dir) :
    isSame fs dir1 dir2 = true ↔ ¬ SeenDifference fs dir1 dir2 := by
  -- the induction is on how far the tree goes on below the directories
  induction hk : fs.height - dir1.length using Nat.strong_induction_on generalizing dir1 dir2 with
  | _ k ih =>
    subst hk
    rw [isSame_eq_true, seenDifference_iff h1 h2, not_or, not_exists]
    refine and_congr_right fun _ => ?_
    have hsub {n : Name} (hn1 : fs.entry (n :: dir1) = some .dir)
        (hn2 : fs.entry (n :: dir2) = some .dir) :
        isSame fs (n :: dir1) (n :: dir2) = true ↔ ¬ SeenDifference fs (n :: dir1) (n :: dir2) := by
      have hlen : (n :: dir1).length ≤ fs.height := Fs.length_le_height (by rw [hn1]; rfl)
      refine ih _ ?_ hn1 hn2 rfl
      rw [List.length_cons] at hlen ⊢
      omega
    constructor
    · rintro hall ⟨n, hn1, hn2, hn⟩
      exact (hsub hn1 hn2).mp (hall n hn1 hn2) hn
    · intro hnone n hn1 hn2
      exact (hsub hn1 hn2).mpr fun hn => hnone ⟨n, hn1, hn2, hn⟩

/-- Equal trees show no difference. -/
lemma SameTree.not_seenDifference (h : SameTree fs dir1 dir2) : ¬ SeenDifference fs dir1 dir2 := by
  rintro ⟨rel, n, -, -, hone | ⟨bytes1, bytes2, hn1, hn2, hne⟩⟩
  · have hkind := congrArg Option.isSome (h.kinds (n :: rel))
    rw [Option.isSome_map, Option.isSome_map] at hkind
    exact hone hkind
  · have hbytes := h.bytes (n :: rel)
    rw [List.cons_append, List.cons_append, Fs.content, Fs.content, hn1, hn2] at hbytes
    exact hne hbytes

lemma SameTree.not_kindClash (h : SameTree fs dir1 dir2) : ¬ KindClash fs dir1 dir2 := by
  rintro ⟨rel, bytes, ⟨h1, h2⟩ | ⟨h1, h2⟩⟩ <;>
  · have hkind := h.kinds rel
    rw [h1, h2] at hkind
    cases hkind

/-- Without a difference a name is on both sides, once the directories it could be in are. -/
lemma isSome_eq_of_not_seen (hseen : ¬ SeenDifference fs dir1 dir2) {rel : Loc}
    (hkind : (fs.entry (rel ++ dir1)).map Entry.kind = (fs.entry (rel ++ dir2)).map Entry.kind) :
    (fs.entry (n :: (rel ++ dir1))).isSome = (fs.entry (n :: (rel ++ dir2))).isSome := by
  by_contra hne
  have hdirs : fs.entry (rel ++ dir1) = some .dir ∧ fs.entry (rel ++ dir2) = some .dir := by
    cases hs : (fs.entry (n :: (rel ++ dir1))).isSome with
    | true =>
      have hdir := fs.parent n _ hs
      exact ⟨hdir, map_kind_eq_dir.mp (hkind.symm.trans (map_kind_eq_dir.mpr hdir))⟩
    | false =>
      have hdir := fs.parent n _ (Bool.eq_true_of_not_eq_false fun h => hne (hs.trans h.symm))
      exact ⟨map_kind_eq_dir.mp (hkind.trans (map_kind_eq_dir.mpr hdir)), hdir⟩
  exact hseen ⟨rel, n, hdirs.1, hdirs.2, Or.inl hne⟩

/-- Without a clash and a difference the kinds agree. -/
lemma kind_eq_of_not (h1 : IsPlainTree fs dir1) (h2 : IsPlainTree fs dir2)
    (hclash : ¬ KindClash fs dir1 dir2) (hseen : ¬ SeenDifference fs dir1 dir2) (rel : Loc) :
    (fs.entry (rel ++ dir1)).map Entry.kind = (fs.entry (rel ++ dir2)).map Entry.kind := by
  induction rel with
  | nil => rw [List.nil_append, List.nil_append, h1.root, h2.root]
  | cons n rel ih =>
    have hone := isSome_eq_of_not_seen (n := n) hseen ih
    rw [List.cons_append, List.cons_append]
    cases he1 : fs.entry (n :: (rel ++ dir1)) with
    | none =>
      rw [he1] at hone
      rw [Option.isSome_eq_false_iff.mp hone.symm |> Option.isNone_iff_eq_none.mp]
    | some e1 =>
      rw [he1] at hone
      obtain ⟨e2, he2⟩ := Option.isSome_iff_exists.mp hone.symm
      rw [he2]
      have hk1 := h1.kinds (n :: rel) e1 he1
      have hk2 := h2.kinds (n :: rel) e2 he2
      rw [Entry.kind_eq_dir, Entry.kind_eq_reg] at hk1 hk2
      rcases hk1 with rfl | ⟨bytes1, rfl⟩ <;> rcases hk2 with rfl | ⟨bytes2, rfl⟩
      · rfl
      · exact absurd ⟨n :: rel, bytes2, Or.inl ⟨he1, he2⟩⟩ hclash
      · exact absurd ⟨n :: rel, bytes1, Or.inr ⟨he1, he2⟩⟩ hclash
      · rfl

lemma content_eq_nil {l : Loc} (h : (fs.entry l).map Entry.kind ≠ some .reg) :
    fs.content l = [] := by
  unfold Fs.content
  split
  · rename_i bytes he
    exact absurd (map_kind_eq_reg.mpr ⟨bytes, he⟩) h
  · rfl

/-- Two plain trees without a clash and a difference are equal. -/
lemma SameTree.of_not (h1 : IsPlainTree fs dir1) (h2 : IsPlainTree fs dir2)
    (hclash : ¬ KindClash fs dir1 dir2) (hseen : ¬ SeenDifference fs dir1 dir2) :
    SameTree fs dir1 dir2 := by
  refine ⟨kind_eq_of_not h1 h2 hclash hseen, fun rel => ?_⟩
  have hkind := kind_eq_of_not h1 h2 hclash hseen rel
  by_cases hreg : (fs.entry (rel ++ dir1)).map Entry.kind = some .reg
  · obtain ⟨bytes1, he1⟩ := map_kind_eq_reg.mp hreg
    obtain ⟨bytes2, he2⟩ := map_kind_eq_reg.mp (hkind.symm.trans hreg)
    cases rel with
    | nil => exact absurd (he1.symm.trans h1.root) (by simp)
    | cons n rel =>
      have hd1 := fs.parent n (rel ++ dir1) (by rw [← List.cons_append, he1]; rfl)
      have hd2 := fs.parent n (rel ++ dir2) (by rw [← List.cons_append, he2]; rfl)
      rw [Fs.content, Fs.content, he1, he2]
      by_contra hne
      exact hseen ⟨rel, n, hd1, hd2, Or.inr ⟨bytes1, bytes2, he1, he2, hne⟩⟩
  · rw [content_eq_nil hreg, content_eq_nil (hkind ▸ hreg)]

/-- Two plain trees are equal if and only if they have no clash and no difference. -/
lemma sameTree_iff (h1 : IsPlainTree fs dir1) (h2 : IsPlainTree fs dir2) :
    SameTree fs dir1 dir2 ↔ ¬ KindClash fs dir1 dir2 ∧ ¬ SeenDifference fs dir1 dir2 :=
  ⟨fun h => ⟨h.not_kindClash, h.not_seenDifference⟩, fun h => .of_not h1 h2 h.1 h.2⟩

/-- Trees that are equal are accepted. -/
lemma SameTree.isSame (h1 : IsPlainTree fs dir1) (h2 : IsPlainTree fs dir2)
    (h : SameTree fs dir1 dir2) : isSame fs dir1 dir2 = true :=
  (isSame_iff h1.root h2.root).mpr h.not_seenDifference

/-- A wrong copy is accepted only if a directory and a file have one name in the two trees. -/
lemma kindClash_of_isSame (h1 : IsPlainTree fs dir1) (h2 : IsPlainTree fs dir2)
    (h : isSame fs dir1 dir2 = true) (hne : ¬ SameTree fs dir1 dir2) : KindClash fs dir1 dir2 := by
  by_contra hclash
  exact hne (.of_not h1 h2 hclash ((isSame_iff h1.root h2.root).mp h))

/-- The answer of `is_same` is right if and only if no directory has the name of a file of the
other tree, or the trees also differ where `is_same` looks. -/
theorem isSame_exact_iff (h1 : IsPlainTree fs dir1) (h2 : IsPlainTree fs dir2) :
    (isSame fs dir1 dir2 = true ↔ SameTree fs dir1 dir2) ↔
      (KindClash fs dir1 dir2 → SeenDifference fs dir1 dir2) := by
  rw [isSame_iff h1.root h2.root, sameTree_iff h1 h2]
  tauto

end

/-- The directory `s` has an empty directory `a`, and the directory `d` has a file `a`. -/
def clashing : Fs :=
  ((emptyDir.create [['s']] ['a'] .dir entry_emptyDir rfl (by decide)).create [] ['d'] .dir rfl rfl
    flat.legalName_d).create [['d']] ['a'] (.reg [1]) rfl rfl (by decide)

lemma entry_clashing (l : Loc) :
    clashing.entry l = if l = [['a'], ['d']] then some (.reg [1]) else
      if l = [['d']] then some .dir else if l = [['a'], ['s']] then some .dir else
      if l = [['s']] then some .dir else if l = [] then some .dir else none := rfl

lemma isPlainTree_clashing {n : Name} (hn : clashing.entry [n] = some .dir) :
    IsPlainTree clashing [n] := by
  refine ⟨hn, fun rel e he => ?_⟩
  rw [entry_clashing] at he
  split_ifs at he <;> cases he <;> simp [Entry.kind]

lemma not_seenDifference_clashing : ¬ SeenDifference clashing [['s']] [['d']] := by
  rintro ⟨rel, n, h1, h2, hn⟩
  cases rel with
  | nil =>
    simp only [List.nil_append, Differs, entry_clashing] at hn
    by_cases ha : n = ['a'] <;> simp [ha] at hn
  | cons m rel => simp [entry_clashing, List.append_eq_singleton_iff] at h2

/-- The two trees pass for equal. -/
theorem isSame_clashing : ¬ ∀ (fs : Fs) (dir1 dir2 : Loc), IsPlainTree fs dir1 →
    IsPlainTree fs dir2 → (isSame fs dir1 dir2 = true ↔ SameTree fs dir1 dir2) := by
  intro h
  have hsame : isSame clashing [['s']] [['d']] = true :=
    (isSame_iff rfl rfl).mpr not_seenDifference_clashing
  have heq := (h clashing [['s']] [['d']] (isPlainTree_clashing rfl)
    (isPlainTree_clashing rfl)).mp hsame
  exact absurd (heq.kinds [['a']]) (by decide)

/-- Besides the clash the directory `s` has a file `b`. -/
def clashingMore : Fs := clashing.create [['s']] ['b'] (.reg [2]) rfl rfl (by decide)

lemma entry_clashingMore (l : Loc) :
    clashingMore.entry l = if l = [['b'], ['s']] then some (.reg [2]) else clashing.entry l := rfl

lemma isPlainTree_clashingMore {n : Name} (hn : clashing.entry [n] = some .dir) :
    IsPlainTree clashingMore [n] := by
  refine ⟨(if_neg (by simp)).trans hn, fun rel e he => ?_⟩
  rw [entry_clashingMore] at he
  split_ifs at he
  · cases he
    exact Or.inr rfl
  · exact (isPlainTree_clashing hn).kinds rel e he

/-- The answer is right about two trees with a clash, of which one has a name more. -/
theorem isSame_exact_iff_clashing : KindClash clashingMore [['s']] [['d']] ∧
    SeenDifference clashingMore [['s']] [['d']] ∧
    ((isSame clashingMore [['s']] [['d']] = true ↔ SameTree clashingMore [['s']] [['d']]) ↔
      (KindClash clashingMore [['s']] [['d']] → SeenDifference clashingMore [['s']] [['d']])) := by
  have hclash : KindClash clashingMore [['s']] [['d']] := ⟨[['a']], [1], Or.inl ⟨rfl, rfl⟩⟩
  have hseen : SeenDifference clashingMore [['s']] [['d']] :=
    ⟨[], ['b'], rfl, rfl, Or.inl (by decide)⟩
  exact ⟨hclash, hseen,
    isSame_exact_iff (isPlainTree_clashingMore rfl) (isPlainTree_clashingMore rfl)⟩

/-! ### The copies that the program makes -/

section

variable {t : Task} {s : Sys} {ok : Sys → Label → Prop} {batchSize : ℤ}

/-- The source is not touched. -/
lemma Confined.isPlainTree_root (h : Confined t.toSetting s) (hdir : t.kind [] = some .dir) :
    IsPlainTree s.world.fs t.root where
  root := by
    have hroot : s.world.fs.entry ([] ++ t.root) = t.fs.entry ([] ++ t.root) := h.source
    exact hroot.trans (map_kind_eq_dir.mp hdir)
  kinds rel e he := t.kinds rel e (h.source.symm.trans he)

lemma Confined.isPlainTree_target (h : Confined t.toSetting s)
    (hmade : s.world.fs.entry t.target = some .dir) : IsPlainTree s.world.fs t.target where
  root := hmade
  kinds rel e he := by
    obtain ⟨e', he', hkind⟩ := Setting.kind_eq_some.mp (h.copied rel e he)
    exact hkind ▸ t.kinds rel e' he'

/-- What the program makes has the kind of what it copies. -/
lemma Confined.not_kindClash (h : Confined t.toSetting s) :
    ¬ KindClash s.world.fs t.root t.target := by
  rintro ⟨rel, bytes, ⟨hroot, htarget⟩ | ⟨hroot, htarget⟩⟩ <;>
  · obtain ⟨e, he, hkind⟩ := Setting.kind_eq_some.mp (h.copied rel _ htarget)
    rw [h.source, he] at hroot
    obtain rfl := Option.some.inj hroot
    cases hkind

/-- The oracle is right about every copy of a directory that the program makes, finished or
not, for every schedule and whatever fails that the program does not exit on. -/
theorem isSame_iff_of_reaches (hdir : t.kind [] = some .dir)
    (h : Reaches Sys.step ok (t.init batchSize) s)
    (hended : s.prog.aio.ended = none ∨ s.prog.aio.ended = some (.exited 0))
    (hmade : s.world.fs.entry t.target = some .dir) :
    isSame s.world.fs t.root t.target = true ↔ SameTree s.world.fs t.root t.target := by
  obtain ⟨d, hcopy⟩ := Copying.of_reaches h hended
  have hconf : Confined t.toSetting s := hcopy.tree.toConfined
  have hsource := hconf.isPlainTree_root hdir
  have htarget := hconf.isPlainTree_target hmade
  refine ⟨fun hsame => ?_, fun hsame => hsame.isSame hsource htarget⟩
  by_contra hne
  exact hconf.not_kindClash (kindClash_of_isSame hsource htarget hsame hne)

/-- The copy of a directory passes the check, if no system call failed. -/
theorem isSame_of_faultless (hdir : t.kind [] = some .dir)
    (hsmall : ∀ rel, (t.content rel).length < 2 ^ 31) (hfiles : t.regularFiles.card < 2 ^ 32)
    (h : Reaches Sys.step Sys.Faultless (t.init batchSize) s) {x : Exit}
    (hended : s.prog.aio.ended = some x) : isSame s.world.fs t.root t.target = true := by
  obtain ⟨-, d, hcopy, hentry⟩ := copyOf_of_reaches hfiles h hended
  have hconf : Confined t.toSetting s := hcopy.tree.toConfined
  have heq (rel : Loc) :
      s.world.fs.entry (rel ++ t.root) = s.world.fs.entry (rel ++ t.target) := by
    rw [hentry rel, Setting.copyOf_of_lt (hsmall rel), hconf.source]
  have hsource := hconf.isPlainTree_root hdir
  have htarget := hconf.isPlainTree_target ((heq []).symm.trans hsource.root)
  refine SameTree.isSame hsource htarget ⟨fun rel => by rw [heq], fun rel => ?_⟩
  rw [Fs.content, Fs.content, heq]

end

end Cpr
