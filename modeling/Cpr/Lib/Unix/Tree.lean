/-
# Making and removing trees

What scripts do with whole directories: a file is written, a directory made, and a tree
removed.  These operations name a file by its place, and fail with `none`.
-/
import Cpr.Lib.Unix.Calls

namespace Cpr.Unix

namespace Fs

variable (fs : Fs) {fs' : Fs} {l k : Loc} {n : Name}

/-- `open(…, "wb")`, and the writing of the bytes. -/
def writeFile (l : Loc) (n : Name) (bytes : List UInt8) : Option Fs :=
  match fs.entry (n :: l) with
  | none => (fs.createAt l n (.reg bytes)).toOption
  | some (.reg _) => some (fs.setContent (n :: l) bytes)
  | some _ => none

/-- `os.mkdir`. -/
def makeDir (l : Loc) (n : Name) : Option Fs := (fs.createAt l n .dir).toOption

/-- `os.makedirs`: the directories on the way are made too, and only the last one must be
new. -/
def makeDirs : Fs → Loc → Option Fs
  | _, [] => none
  | fs, n :: l =>
    if (fs.entry l).isSome then fs.makeDir l n
    else (makeDirs fs l).bind fun fs => fs.makeDir l n

/-- The file system without what is at a place and below it. -/
def without (l : Loc) (hl : l ≠ []) : Fs where
  dom := fs.dom.filter fun k => ¬ l <:+ k
  entry k := if l <:+ k then none else fs.entry k
  mem_dom k := by
    by_cases hk : l <:+ k <;> simp [hk, fs.mem_dom]
  root := by
    rw [if_neg fun h => hl (List.suffix_nil.mp h), fs.root]
  parent n k h := by
    by_cases hk : l <:+ n :: k
    · rw [if_pos hk] at h
      cases h
    · rw [if_neg hk] at h
      rw [if_neg fun hsuf => hk (hsuf.trans (List.suffix_cons n k)), fs.parent n k h]
  legal n k h := by
    by_cases hk : l <:+ n :: k
    · rw [if_pos hk] at h
      cases h
    · rw [if_neg hk] at h
      exact fs.legal n k h

/-- `shutil.rmtree`. -/
def removeTree (l : Loc) : Option Fs :=
  if h : l ≠ [] ∧ fs.entry l = some .dir then some (fs.without l h.1) else none

/-- `shutil.rmtree`, if there is a directory. -/
def clearTree (l : Loc) : Option Fs := if fs.entry l = some .dir then fs.removeTree l else some fs

variable {fs}

/-- A file system is what it has at its places. -/
lemma ext_entry (h : ∀ l, fs.entry l = fs'.entry l) : fs = fs' := by
  have hentry : fs.entry = fs'.entry := funext h
  have hdom : fs.dom = fs'.dom := by
    ext l
    rw [fs.mem_dom, fs'.mem_dom, h]
  cases fs
  cases fs'
  cases hentry
  cases hdom
  rfl

lemma writeFile_new (bytes : List UInt8) (hdir : fs.entry l = some .dir)
    (hnew : fs.entry (n :: l) = none) (hn : LegalName n) :
    ∃ fs', fs.writeFile l n bytes = some fs' ∧ fs.Adds fs' (n :: l) (.reg bytes) := by
  refine ⟨fs.create l n (.reg bytes) hdir hnew hn, ?_, .create⟩
  rw [writeFile, hnew, createAt_of hdir hnew hn]
  rfl

lemma makeDir_new (hdir : fs.entry l = some .dir) (hnew : fs.entry (n :: l) = none)
    (hn : LegalName n) : ∃ fs', fs.makeDir l n = some fs' ∧ fs.Adds fs' (n :: l) .dir := by
  refine ⟨fs.create l n .dir hdir hnew hn, ?_, .create⟩
  rw [makeDir, createAt_of hdir hnew hn]
  rfl

/-- Nothing is below a place that is not in use. -/
lemma entry_append_eq_none {rel : Loc} (h : fs.entry l = none) : fs.entry (rel ++ l) = none := by
  by_contra hne
  have hsome := Option.isSome_iff_ne_none.mpr hne
  by_cases hrel : rel = []
  · simp [hrel, h] at hsome
  · simp [fs.entry_of_append hsome hrel] at h

/-- A new place has nothing below it. -/
lemma Adds.entry_append {e : Entry} (h : fs.Adds fs' l e) {rel : Loc} (hrel : rel ≠ []) :
    fs'.entry (rel ++ l) = none := by
  rw [h.other _ fun heq => hrel (by simpa using heq), entry_append_eq_none h.new]

/-- A file that can be written has the bytes. -/
lemma exists_writeFile (bytes : List UInt8) (hdir : fs.entry l = some .dir) (hn : LegalName n)
    (hold : ∀ e ∈ fs.entry (n :: l), e.kind = .reg) :
    ∃ fs', fs.writeFile l n bytes = some fs' ∧ fs'.entry (n :: l) = some (.reg bytes) ∧
      ∀ k, k ≠ n :: l → fs'.entry k = fs.entry k := by
  cases he : fs.entry (n :: l) with
  | none =>
    obtain ⟨fs', hwrite, hadds⟩ := writeFile_new bytes hdir he hn
    exact ⟨fs', hwrite, hadds.self, hadds.other⟩
  | some e =>
    obtain ⟨old, rfl⟩ := Entry.kind_eq_reg.mp (hold e he)
    refine ⟨fs.setContent (n :: l) bytes, by rw [writeFile, he], ?_, fun k hk => ?_⟩
    · rw [entry_setContent_self he]
    · rw [entry_setContent_of_ne hk]

/-- What is there at a place, if it is a directory, is removed. -/
lemma exists_clearTree (hl : l ≠ []) (hold : ∀ e ∈ fs.entry l, e = .dir) :
    ∃ fs', fs.clearTree l = some fs' ∧ (∀ rel, fs'.entry (rel ++ l) = none) ∧
      ∀ k, ¬ l <:+ k → fs'.entry k = fs.entry k := by
  rw [clearTree]
  cases he : fs.entry l with
  | none =>
    refine ⟨fs, if_neg (by simp), fun rel => entry_append_eq_none he, fun _ _ => rfl⟩
  | some e =>
    obtain rfl := hold e he
    refine ⟨fs.without l hl, ?_, fun rel => if_pos (List.suffix_append rel l),
      fun k hk => if_neg hk⟩
    rw [if_pos rfl, removeTree, dif_pos ⟨hl, he⟩]

/-- **Removing undoes making**: when everything that was done is below a new place, the
removal of the tree there leads back. -/
theorem removeTree_eq (hl : l ≠ []) (hnew : fs.entry l = none) (hmade : fs'.entry l = some .dir)
    (hframe : ∀ k, ¬ l <:+ k → fs'.entry k = fs.entry k) : fs'.removeTree l = some fs := by
  rw [removeTree, dif_pos ⟨hl, hmade⟩]
  refine congrArg some (ext_entry fun k => ?_)
  by_cases hk : l <:+ k
  · obtain ⟨rel, rfl⟩ := hk
    rw [entry_append_eq_none hnew]
    exact if_pos (List.suffix_append rel l)
  · exact (if_neg hk).trans (hframe k hk)

end Fs

end Cpr.Unix
