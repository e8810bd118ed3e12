/-
# The skeleton of a file system

What a walk along a path goes through are directories and symbolic links.  Two file systems
that have the same ones lead a path to the same place, although the one may have a file there
and the other may not; so a successful `mkdir` makes the same directory in both.
-/
import Cpr.Lib.Unix.Calls

namespace Cpr.Unix

namespace Fs

/-- The directories and the symbolic links. -/
def skeleton (fs : Fs) (l : Loc) : Option Entry :=
  match fs.entry l with
  | some .dir => some .dir
  | some (.lnk t) => some (.lnk t)
  | _ => none

variable {fs fs' gs gs' : Fs} {cwd l : Loc} {p t : Path}

lemma skeleton_eq_dir : fs.skeleton l = some .dir ↔ fs.entry l = some .dir := by
  unfold skeleton
  split <;> simp_all

lemma skeleton_eq_lnk : fs.skeleton l = some (.lnk t) ↔ fs.entry l = some (.lnk t) := by
  unfold skeleton
  split <;> simp_all

lemma skeleton_congr (h : fs.entry l = fs'.entry l) : fs.skeleton l = fs'.skeleton l := by
  rw [skeleton, skeleton, h]

/-- What path resolution sees of an entry decides whether it is in the skeleton. -/
lemma skeleton_eq_of_shape (h : (fs.entry l).map Entry.shape = (fs'.entry l).map Entry.shape) :
    fs.skeleton l = fs'.skeleton l := by
  unfold skeleton
  cases he : fs.entry l with
  | none =>
    rw [he] at h
    rw [Option.map_eq_none_iff.mp h.symm]
  | some e =>
    obtain ⟨e', he', hshape⟩ :=
      Option.map_eq_some_iff.mp (h.symm.trans (by rw [he, Option.map_some]))
    rw [he']
    cases e <;> cases e' <;> simp_all [Entry.shape]

/-- What is neither a directory nor a symbolic link is not in the skeleton. -/
lemma skeleton_eq_none (hdir : fs.entry l ≠ some .dir) (hlnk : ∀ t, fs.entry l ≠ some (.lnk t)) :
    fs.skeleton l = none := by
  unfold skeleton
  split
  · contradiction
  · rename_i h
    exact absurd h (hlnk _)
  · rfl

end Fs

namespace Resolves

variable {fs fs' : Fs} {follow : Bool} {k : ℕ} {cur l : Loc} {cs : List Name} {n : Name}

/-- A walk that finds its last component missing begins in a directory. -/
lemma entry_dir_of_missing (h : Resolves fs follow k cur cs (.missing l n)) :
    fs.entry cur = some .dir := by
  cases h <;> assumption

/-- A walk to a missing component leads to its place in every file system with the same
skeleton. -/
lemma exists_at_of_skeleton (h : Resolves fs follow k cur cs (.missing l n))
    (heq : fs.skeleton = fs'.skeleton) :
    ∃ r, r.At (n :: l) ∧ Resolves fs' follow k cur cs r := by
  have hdir : ∀ {c : Loc}, fs.entry c = some .dir → fs'.entry c = some .dir := by
    intro c hc
    rw [← Fs.skeleton_eq_dir] at hc ⊢
    rw [← heq, hc]
  have hlnk : ∀ {c : Loc} {t : Path}, fs.entry c = some (.lnk t) → fs'.entry c = some (.lnk t) := by
    intro c t hc
    rw [← Fs.skeleton_eq_lnk] at hc ⊢
    rw [← heq, hc]
  generalize hr : Found.missing l n = r₀ at h
  induction h with
  | done | lastLink => cases hr
  | stay hcur hc _ ih =>
    obtain ⟨r, hat, hwalk⟩ := ih hr
    exact ⟨r, hat, .stay (hdir hcur) hc hwalk⟩
  | up hcur _ ih =>
    obtain ⟨r, hat, hwalk⟩ := ih hr
    exact ⟨r, hat, .up (hdir hcur) hwalk⟩
  | down hcur hc _ _ hrest ih =>
    obtain ⟨r, hat, hwalk⟩ := ih hr
    have hdown := hdir (hr ▸ hrest).entry_dir_of_missing
    exact ⟨r, hat, .down (hdir hcur) hc hdown (by simp) hwalk⟩
  | link hcur hc he hrest ht _ ih =>
    obtain ⟨r, hat, hwalk⟩ := ih hr
    exact ⟨r, hat, .link (hdir hcur) hc (hlnk he) hrest ht hwalk⟩
  | @missing _ cur c hcur hc he =>
    obtain ⟨rfl, rfl⟩ := Found.missing.inj hr
    -- what is there in the other file system is neither a directory nor a link
    have hnone : fs'.skeleton (n :: l) = none := by
      rw [← heq]
      exact Fs.skeleton_eq_none (by simp [he]) (by simp [he])
    cases he' : fs'.entry (n :: l) with
    | none => exact ⟨.missing l n, rfl, .missing (hdir hcur) hc he'⟩
    | some e =>
      refine ⟨.here (n :: l), rfl, .down (hdir hcur) hc he' (fun t ht => ?_) .done⟩
      rw [ht] at he'
      simp [Fs.skeleton_eq_lnk.mpr he'] at hnone

end Resolves

/-- **`mkdir` makes the same directory** in two file systems with the same skeleton, where it
succeeds in both. -/
theorem Fs.skeleton_mkdir {fs fs' gs gs' : Fs} {cwd : Loc} {p : Path}
    (heq : fs.skeleton = gs.skeleton) (h : fs.mkdir cwd p = .ok fs')
    (h' : gs.mkdir cwd p = .ok gs') : fs'.skeleton = gs'.skeleton := by
  obtain ⟨l, n, hat, hat'⟩ : ∃ l n, (fs.resolveLast cwd p).At (n :: l) ∧
      (gs.resolveLast cwd p).At (n :: l) := by
    unfold Fs.mkdir at h
    cases hr : fs.resolveLast cwd p with
    | here _ => simp [hr] at h
    | error _ => simp [hr] at h
    | missing l n =>
      refine ⟨l, n, rfl, ?_⟩
      unfold Fs.resolveLast at hr ⊢
      split_ifs at hr ⊢
      obtain ⟨r, hat, hwalk⟩ :=
        (Fs.resolves_of_resolveFrom hr (by simp)).exists_at_of_skeleton heq
      rwa [Fs.resolveFrom_of_resolves hwalk]
  have hadds := Fs.mkdir_adds h hat
  have hadds' := Fs.mkdir_adds h' hat'
  funext k
  by_cases hk : k = n :: l
  · rw [hk, Fs.skeleton_congr (hadds.self.trans hadds'.self.symm)]
  · rw [Fs.skeleton_congr (hadds.other k hk), Fs.skeleton_congr (hadds'.other k hk), heq]

end Cpr.Unix
