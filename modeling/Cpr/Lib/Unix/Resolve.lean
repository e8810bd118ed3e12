/-
# Path resolution

The walk of the kernel along the components of a path: `.` and empty components stay, `..`
goes up, a symbolic link is replaced by its target, at most forty times in one walk.  The
last component may be missing; system calls that create a file rely on that.

The function is what the kernel computes.  The relation `Resolves` describes its successful
walks, one constructor for each kind of component; facts about path resolution are proved
by induction on it.
-/
import Cpr.Lib.Unix.Fs

namespace Cpr.Unix

/-- The error codes that the system calls here can give for a path. -/
inductive Errno
  | noent
  | notdir
  | loop
  | exist
  | isdir
  | inval
deriving DecidableEq, Repr

/-- The outcome of a walk. -/
inductive Found
  | here (l : Loc)
  /-- The path leads into the directory `l`, which has no entry `n`. -/
  | missing (l : Loc) (n : Name)
  | error (e : Errno)
deriving DecidableEq, Repr

/-- The walk came to the place `l`, whether there is a file or not. -/
def Found.At (l : Loc) : Found → Prop
  | .here k => k = l
  | .missing k n => n :: k = l
  | .error _ => False

/-- Where the walk along a path starts. -/
def start (cwd : Loc) (p : Path) : Loc := if p.head? = some '/' then [] else cwd

/-- The number of symbolic links that one walk may follow. -/
def maxLinks : ℕ := 40

namespace Fs

/-- The walk from `cur` along the components.  `follow` says whether a symbolic link in the
last place is followed; `jump` is the walk on from a symbolic link. -/
def walkWith (fs : Fs) (follow : Bool) (jump : Loc → List Name → Found) :
    Loc → List Name → Found
  | cur, [] => .here cur
  | cur, c :: rest =>
    if fs.entry cur ≠ some .dir then .error .notdir
    else if c = [] ∨ c = dot then fs.walkWith follow jump cur rest
    else if c = dotdot then fs.walkWith follow jump cur.tail rest
    else
      match fs.entry (c :: cur) with
      | none => if rest = [] then .missing cur c else .error .noent
      | some (.lnk target) =>
        if rest = [] ∧ follow = false then .here (c :: cur)
        else if target = [] then .error .noent
        else jump (start cur target) (components target ++ rest)
      | some _ => fs.walkWith follow jump (c :: cur) rest

/-- The walk that may follow so many symbolic links. -/
def resolveFrom (fs : Fs) (follow : Bool) : ℕ → Loc → List Name → Found
  | 0 => fs.walkWith follow fun _ _ => .error .loop
  | k + 1 => fs.walkWith follow (fs.resolveFrom follow k)

/-- Path resolution. -/
def resolve (fs : Fs) (follow : Bool) (cwd : Loc) (p : Path) : Found :=
  if p = [] then .error .noent
  else fs.resolveFrom follow maxLinks (start cwd p) (components p)

end Fs

/-- A component that names an entry. -/
def Ordinary (c : Name) : Prop := ¬ (c = [] ∨ c = dot) ∧ c ≠ dotdot

lemma LegalName.ordinary {c : Name} (hc : LegalName c) : Ordinary c :=
  ⟨not_or.mpr ⟨hc.ne_nil, hc.ne_dot⟩, hc.ne_dotdot⟩

lemma Ordinary.legal {c : Name} (hc : Ordinary c) (hslash : '/' ∉ c) : LegalName c :=
  ⟨fun h => hc.1 (Or.inl h), hslash, fun h => hc.1 (Or.inr h), hc.2⟩

/-- The successful walks. -/
inductive Resolves (fs : Fs) (follow : Bool) : ℕ → Loc → List Name → Found → Prop
  | done {k : ℕ} {cur : Loc} : Resolves fs follow k cur [] (.here cur)
  | stay {k : ℕ} {cur : Loc} {c : Name} {rest : List Name} {r : Found}
      (hdir : fs.entry cur = some .dir) (hc : c = [] ∨ c = dot)
      (walk : Resolves fs follow k cur rest r) : Resolves fs follow k cur (c :: rest) r
  | up {k : ℕ} {cur : Loc} {rest : List Name} {r : Found}
      (hdir : fs.entry cur = some .dir) (walk : Resolves fs follow k cur.tail rest r) :
      Resolves fs follow k cur (dotdot :: rest) r
  | down {k : ℕ} {cur : Loc} {c : Name} {rest : List Name} {r : Found} {e : Entry}
      (hdir : fs.entry cur = some .dir) (hc : Ordinary c) (he : fs.entry (c :: cur) = some e)
      (hlnk : ∀ t, e ≠ .lnk t) (walk : Resolves fs follow k (c :: cur) rest r) :
      Resolves fs follow k cur (c :: rest) r
  | missing {k : ℕ} {cur : Loc} {c : Name}
      (hdir : fs.entry cur = some .dir) (hc : Ordinary c) (he : fs.entry (c :: cur) = none) :
      Resolves fs follow k cur [c] (.missing cur c)
  | link {k : ℕ} {cur : Loc} {c : Name} {rest : List Name} {r : Found} {t : Path}
      (hdir : fs.entry cur = some .dir) (hc : Ordinary c)
      (he : fs.entry (c :: cur) = some (.lnk t)) (hrest : ¬ (rest = [] ∧ follow = false))
      (ht : t ≠ []) (walk : Resolves fs follow k (start cur t) (components t ++ rest) r) :
      Resolves fs follow (k + 1) cur (c :: rest) r
  | lastLink {k : ℕ} {cur : Loc} {c : Name} {t : Path}
      (hdir : fs.entry cur = some .dir) (hc : Ordinary c)
      (he : fs.entry (c :: cur) = some (.lnk t)) (hfollow : follow = false) :
      Resolves fs follow k cur [c] (.here (c :: cur))

namespace Fs

variable {fs fs' : Fs} {follow : Bool} {k : ℕ} {cur l : Loc} {c n : Name}
  {cs ds rest : List Name} {r : Found} {jump : Loc → List Name → Found} {p : Path} {cwd : Loc}

/-! ### The function and the relation agree -/

lemma resolves_of_walkWith
    (hjump : ∀ cur cs r, jump cur cs = r → (∀ e, r ≠ .error e) →
      ∃ k', k = k' + 1 ∧ Resolves fs follow k' cur cs r)
    (h : fs.walkWith follow jump cur cs = r) (hr : ∀ e, r ≠ .error e) :
    Resolves fs follow k cur cs r := by
  induction cs generalizing cur with
  | nil =>
    obtain rfl : Found.here cur = r := h
    exact .done
  | cons c rest ih =>
    rw [walkWith] at h
    by_cases hdir : fs.entry cur = some .dir
    swap
    · rw [if_pos hdir] at h
      exact absurd h.symm (hr _)
    rw [if_neg (not_not.mpr hdir)] at h
    by_cases hstay : c = [] ∨ c = dot
    · rw [if_pos hstay] at h
      exact .stay hdir hstay (ih h)
    rw [if_neg hstay] at h
    by_cases hup : c = dotdot
    · rw [if_pos hup] at h
      exact hup ▸ .up hdir (ih h)
    rw [if_neg hup] at h
    cases he : fs.entry (c :: cur) with
    | none =>
      simp only [he] at h
      split_ifs at h with hrest
      · obtain rfl : Found.missing cur c = r := h
        exact hrest ▸ .missing hdir ⟨hstay, hup⟩ he
      · exact absurd h.symm (hr _)
    | some e =>
      by_cases hlnk : ∃ t, e = .lnk t
      · obtain ⟨t, rfl⟩ := hlnk
        simp only [he] at h
        split_ifs at h with hlast ht
        · obtain rfl : Found.here (c :: cur) = r := h
          exact hlast.1 ▸ .lastLink hdir ⟨hstay, hup⟩ he hlast.2
        · exact absurd h.symm (hr _)
        · obtain ⟨k', rfl, hwalk⟩ := hjump _ _ _ h hr
          exact .link hdir ⟨hstay, hup⟩ he hlast ht hwalk
      · have hlnk' : ∀ t, e ≠ .lnk t := not_exists.mp hlnk
        refine .down hdir ⟨hstay, hup⟩ he hlnk' (ih ?_)
        cases e with
        | lnk t => exact absurd rfl (hlnk' t)
        | _ => simpa only [he] using h

lemma resolves_of_resolveFrom (h : fs.resolveFrom follow k cur cs = r)
    (hr : ∀ e, r ≠ .error e) : Resolves fs follow k cur cs r := by
  induction k generalizing cur cs r with
  | zero => exact resolves_of_walkWith (fun _ _ _ h hr => absurd h.symm (hr _)) h hr
  | succ k ih => exact resolves_of_walkWith (fun _ _ _ h hr => ⟨k, rfl, ih h hr⟩) h hr

lemma resolveFrom_of_resolves (h : Resolves fs follow k cur cs r) :
    fs.resolveFrom follow k cur cs = r := by
  induction h with
  | @done k => cases k <;> rfl
  | @stay k _ _ _ _ hdir hc _ ih =>
    cases k <;>
    · rw [resolveFrom, walkWith, if_neg (not_not.mpr hdir), if_pos hc]
      exact ih
  | @up k _ _ _ hdir _ ih =>
    cases k <;>
    · rw [resolveFrom, walkWith, if_neg (not_not.mpr hdir), if_neg (by decide), if_pos rfl]
      exact ih
  | @down k _ _ _ _ e hdir hc he hlnk _ ih =>
    cases k <;>
    · rw [resolveFrom, walkWith, if_neg (not_not.mpr hdir), if_neg hc.1, if_neg hc.2, he]
      cases e with
      | lnk t => exact absurd rfl (hlnk t)
      | _ => exact ih
  | @missing k _ _ hdir hc he =>
    cases k <;>
    · rw [resolveFrom, walkWith, if_neg (not_not.mpr hdir), if_neg hc.1, if_neg hc.2, he]
      rfl
  | link hdir hc he hrest ht _ ih =>
    rw [resolveFrom, walkWith, if_neg (not_not.mpr hdir), if_neg hc.1, if_neg hc.2, he]
    dsimp only
    rw [if_neg hrest, if_neg ht]
    exact ih
  | @lastLink k _ _ _ hdir hc he hfollow =>
    cases k <;>
    · rw [resolveFrom, walkWith, if_neg (not_not.mpr hdir), if_neg hc.1, if_neg hc.2, he]
      exact if_pos ⟨rfl, hfollow⟩

end Fs

/-! ## Rules -/

namespace Resolves

variable {fs fs' : Fs} {follow follow' : Bool} {k : ℕ} {cur l : Loc} {c n : Name}
  {cs ds rest : List Name} {r r' : Found}

/-- **Composition.**  A walk that ended in place, in a smaller file system, continued by a
walk from there. -/
lemma append (h : Resolves fs true k cur cs (.here l)) (hle : fs.Le fs')
    (hds : ds = [] → follow' = true) (hend : ∀ k, Resolves fs' follow' k l ds r) :
    Resolves fs' follow' k cur (cs ++ ds) r := by
  generalize hr : Found.here l = r₀ at h
  induction h with
  | done =>
    obtain rfl := Found.here.inj hr
    exact hend _
  | stay hdir hc _ ih => exact .stay (hle.entry_dir hdir) hc (ih hr)
  | up hdir _ ih => exact .up (hle.entry_dir hdir) (ih hr)
  | down hdir hc he hlnk _ ih =>
    obtain ⟨e', he', hlnk'⟩ := hle.entry_of_ne_lnk he hlnk
    exact .down (hle.entry_dir hdir) hc he' hlnk' (ih hr)
  | missing => cases hr
  | link hdir hc he hrest ht _ ih =>
    refine .link (hle.entry_dir hdir) hc (hle.entry_lnk he) ?_ ht ?_
    · rintro ⟨hnil, hfollow⟩
      simp [hds (List.append_eq_nil_iff.mp hnil).2] at hfollow
    · have hwalk := ih hr
      rwa [List.append_assoc] at hwalk
  | lastLink _ _ _ hfollow => cases hfollow

/-- A walk that ended in place goes the same way in a larger file system. -/
lemma mono_here (h : Resolves fs follow k cur cs (.here l)) (hle : fs.Le fs') :
    Resolves fs' follow k cur cs (.here l) := by
  generalize hr : Found.here l = r₀ at h
  induction h with
  | done => exact .done
  | stay hdir hc _ ih => exact .stay (hle.entry_dir hdir) hc (ih hr)
  | up hdir _ ih => exact .up (hle.entry_dir hdir) (ih hr)
  | down hdir hc he hlnk _ ih =>
    obtain ⟨e', he', hlnk'⟩ := hle.entry_of_ne_lnk he hlnk
    exact .down (hle.entry_dir hdir) hc he' hlnk' (ih hr)
  | missing => cases hr
  | link hdir hc he hrest ht _ ih =>
    exact .link (hle.entry_dir hdir) hc (hle.entry_lnk he) hrest ht (ih hr)
  | lastLink hdir hc he hfollow =>
    exact .lastLink (hle.entry_dir hdir) hc (hle.entry_lnk he) hfollow

/-- A walk that found its last component missing, in a smaller file system, ends as the
walk of that component alone. -/
lemma of_missing (h : Resolves fs follow k cur cs (.missing l n)) (hle : fs.Le fs')
    (hfollow : follow' = true ∨ follow' = follow)
    (hend : ∀ k, Resolves fs' follow' k l [n] r) : Resolves fs' follow' k cur cs r := by
  generalize hr : Found.missing l n = r₀ at h
  induction h with
  | done => cases hr
  | stay hdir hc _ ih => exact .stay (hle.entry_dir hdir) hc (ih hr)
  | up hdir _ ih => exact .up (hle.entry_dir hdir) (ih hr)
  | down hdir hc he hlnk _ ih =>
    obtain ⟨e', he', hlnk'⟩ := hle.entry_of_ne_lnk he hlnk
    exact .down (hle.entry_dir hdir) hc he' hlnk' (ih hr)
  | missing hdir hc _ =>
    obtain ⟨rfl, rfl⟩ := Found.missing.inj hr
    exact hend _
  | link hdir hc he hrest ht _ ih =>
    refine .link (hle.entry_dir hdir) hc (hle.entry_lnk he) ?_ ht (ih hr)
    rcases hfollow with rfl | rfl
    · simp
    · exact hrest
  | lastLink => cases hr

/-- The missing last component of a walk could be created. -/
lemma missing_facts (h : Resolves fs follow k cur cs (.missing l n))
    (hslash : ∀ c ∈ cs, '/' ∉ c) :
    fs.entry l = some .dir ∧ fs.entry (n :: l) = none ∧ LegalName n := by
  generalize hr : Found.missing l n = r₀ at h
  induction h with
  | done => cases hr
  | stay _ _ _ ih => exact ih (fun d hd => hslash d (List.mem_cons_of_mem _ hd)) hr
  | up _ _ ih => exact ih (fun d hd => hslash d (List.mem_cons_of_mem _ hd)) hr
  | down _ _ _ _ _ ih => exact ih (fun d hd => hslash d (List.mem_cons_of_mem _ hd)) hr
  | missing hdir hc he =>
    obtain ⟨rfl, rfl⟩ := Found.missing.inj hr
    exact ⟨hdir, he, hc.legal (hslash _ List.mem_cons_self)⟩
  | link _ _ _ _ _ _ ih =>
    refine ih (fun d hd => ?_) hr
    rcases List.mem_append.mp hd with hd | hd
    · exact noSlash_of_mem_components d hd
    · exact hslash d (List.mem_cons_of_mem _ hd)
  | lastLink => cases hr

/-- A walk ends at a file that is there. -/
lemma isSome (h : Resolves fs follow k cur cs (.here l)) (hcs : cs ≠ [] ∨ (fs.entry cur).isSome) :
    (fs.entry l).isSome := by
  generalize hr : Found.here l = r₀ at h
  induction h with
  | done =>
    obtain rfl := Found.here.inj hr
    exact hcs.resolve_left fun h => h rfl
  | stay hdir _ _ ih => exact ih (Or.inr (by simp [hdir])) hr
  | @up _ cur _ _ hdir _ ih =>
    refine ih (Or.inr ?_) hr
    cases cur with
    | nil => simp [hdir]
    | cons n cur => simp [fs.parent n cur (by simp [hdir])]
  | down _ _ he _ _ ih => exact ih (Or.inr (by simp [he])) hr
  | missing => cases hr
  | link _ _ _ _ _ _ ih =>
    exact ih (Or.inl fun h => components_ne_nil (List.append_eq_nil_iff.mp h).1) hr
  | lastLink _ _ he _ =>
    obtain rfl := Found.here.inj hr
    simp [he]

lemma ne_error (h : Resolves fs follow k cur cs r) (e : Errno) : r ≠ .error e := by
  induction h with
  | done | missing | lastLink => simp
  | stay _ _ _ ih | up _ _ ih | down _ _ _ _ _ ih | link _ _ _ _ _ _ ih => exact ih

/-- Following the last symbolic link makes a difference only when there is one. -/
lemma follow_or_link (h : Resolves fs false k cur cs r) :
    Resolves fs true k cur cs r ∨ ∃ l t, r = .here l ∧ fs.entry l = some (.lnk t) := by
  induction h with
  | done => exact Or.inl .done
  | stay hdir hc _ ih => exact ih.imp_left (.stay hdir hc)
  | up hdir _ ih => exact ih.imp_left (.up hdir)
  | down hdir hc he hlnk _ ih => exact ih.imp_left (.down hdir hc he hlnk)
  | missing hdir hc he => exact Or.inl (.missing hdir hc he)
  | link hdir hc he _ ht _ ih => exact ih.imp_left (.link hdir hc he (by simp) ht)
  | lastLink hdir hc he _ => exact Or.inr ⟨_, _, rfl, he⟩

/-- A walk that succeeds also does without following the last symbolic link. -/
lemma exists_noFollow (h : Resolves fs true k cur cs r) : ∃ r', Resolves fs false k cur cs r' := by
  induction h with
  | done => exact ⟨_, .done⟩
  | stay hdir hc _ ih =>
    obtain ⟨r', hr'⟩ := ih
    exact ⟨r', .stay hdir hc hr'⟩
  | up hdir _ ih =>
    obtain ⟨r', hr'⟩ := ih
    exact ⟨r', .up hdir hr'⟩
  | down hdir hc he hlnk _ ih =>
    obtain ⟨r', hr'⟩ := ih
    exact ⟨r', .down hdir hc he hlnk hr'⟩
  | missing hdir hc he => exact ⟨_, .missing hdir hc he⟩
  | @link _ _ _ rest _ _ hdir hc he _ ht _ ih =>
    obtain ⟨r', hr'⟩ := ih
    by_cases hrest : rest = []
    · subst hrest
      exact ⟨_, .lastLink hdir hc he rfl⟩
    · exact ⟨r', .link hdir hc he (fun h => hrest h.1) ht hr'⟩
  | lastLink _ _ _ hfollow => cases hfollow

/-- One more component, from a directory. -/
lemma down_one (hdir : fs.entry l = some .dir) (hn : LegalName n) {e : Entry}
    (he : fs.entry (n :: l) = some e) (hlnk : ∀ t, e ≠ .lnk t) :
    Resolves fs follow k l [n] (.here (n :: l)) :=
  .down hdir hn.ordinary he hlnk .done

lemma missing_one (hdir : fs.entry l = some .dir) (hn : LegalName n)
    (he : fs.entry (n :: l) = none) : Resolves fs follow k l [n] (.missing l n) :=
  .missing hdir hn.ordinary he

/-- One more component, from a directory, leads to the place of that name. -/
lemma exists_at (hdir : fs.entry l = some .dir) (hn : LegalName n)
    (hlnk : ∀ t, fs.entry (n :: l) ≠ some (.lnk t)) :
    ∃ r, r.At (n :: l) ∧ ∀ k, Resolves fs follow k l [n] r := by
  cases he : fs.entry (n :: l) with
  | none => exact ⟨.missing l n, rfl, fun _ => missing_one hdir hn he⟩
  | some e => exact ⟨.here (n :: l), rfl, fun _ => down_one hdir hn he fun t ht => hlnk t (ht ▸ he)⟩

/-- Empty components at the end of a path ask for a directory and nothing more. -/
lemma stay_all (hdir : fs.entry l = some .dir) (hds : ∀ d ∈ ds, d = []) :
    Resolves fs follow k l ds (.here l) := by
  induction ds with
  | nil => exact .done
  | cons d ds ih =>
    exact .stay hdir (Or.inl (hds d List.mem_cons_self))
      (ih fun d' hd' => hds d' (List.mem_cons_of_mem _ hd'))

end Resolves

end Cpr.Unix
