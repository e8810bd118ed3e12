/-
# System calls on path names

`stat`, `mkdir`, and `open` as they act on a file system.  The second half gives their
rules for the entries of a directory that is named by a path, which is how a program that
walks a tree uses them.
-/
import Cpr.Lib.Unix.Resolve

namespace Cpr.Unix

namespace Fs

variable (fs : Fs) (cwd : Loc) (p : Path)

/-- The file that a path names. -/
def fileAt : Option Loc :=
  match fs.resolve true cwd p with
  | .here l => some l
  | _ => none

/-- `stat`: the kind of the file that a path names. -/
def stat : Option Kind := (fs.fileAt cwd p).bind fun l => (fs.entry l).map Entry.kind

/-- `lstat`: the kind of the file that a path names, a symbolic link in the last place not
followed. -/
def lstat : Option Kind :=
  match fs.resolve false cwd p with
  | .here l => (fs.entry l).map Entry.kind
  | _ => none

/-- The walk to the last component, which is not followed; slashes at the end do not count. -/
def resolveLast : Found :=
  if p = [] then .error .noent
  else fs.resolveFrom false maxLinks (start cwd p) (dropTrailing (components p))

/-- The new entry, if it can be made. -/
def createAt (l : Loc) (n : Name) (e : Entry) : Except Errno Fs :=
  if h : fs.entry l = some .dir ∧ fs.entry (n :: l) = none ∧ LegalName n then
    .ok (fs.create l n e h.1 h.2.1 h.2.2)
  else .error .exist

/-- `mkdir`. -/
def mkdir : Except Errno Fs :=
  match fs.resolveLast cwd p with
  | .here _ => .error .exist
  | .missing l n => fs.createAt l n .dir
  | .error e => .error e

/-- `open` for reading and writing, with `O_CREAT` and `O_DIRECT`: the file, and the file
system afterwards.  A path with a slash at its end has an empty last component. -/
def openCreate : Except Errno (Loc × Fs) :=
  if (components p).getLast? = some [] then
    match fs.resolveLast cwd p with
    | .error e => .error e
    | _ => .error .isdir
  else
    match fs.resolve true cwd p with
    | .here l =>
      match (fs.entry l).map Entry.kind with
      | some .reg | some .blk => .ok (l, fs)
      | some .dir => .error .isdir
      | _ => .error .inval
    | .missing l n => (fs.createAt l n (.reg [])).map fun fs' => (n :: l, fs')
    | .error e => .error e

/-- `open` of a regular file for reading. -/
def openRead : Option Loc := (fs.fileAt cwd p).filter fun l =>
  decide ((fs.entry l).map Entry.kind = some .reg)

/-- The content of a regular file. -/
def content (l : Loc) : List UInt8 :=
  match fs.entry l with
  | some (.reg content) => content
  | _ => []

/-- The path names a directory. -/
def DirAt (l : Loc) : Prop := fs.resolve true cwd p = .here l ∧ fs.entry l = some .dir

/-- The directory part of the path leads to a directory. -/
def HasParent : Prop :=
  p ≠ [] ∧ ∃ l, fs.resolveFrom true maxLinks (start cwd p) (dropTrailing (components p)).dropLast =
    .here l ∧ fs.entry l = some .dir

variable {fs cwd p} {fs' : Fs} {l : Loc} {n : Name} {e : Entry} {follow : Bool}

/-! ### Resolution of a path -/

lemma resolves_of_resolve {r : Found} (h : fs.resolve follow cwd p = r)
    (hr : ∀ e, r ≠ .error e) :
    p ≠ [] ∧ Resolves fs follow maxLinks (start cwd p) (components p) r := by
  unfold resolve at h
  split_ifs at h with hp
  · exact absurd h.symm (hr _)
  · exact ⟨hp, resolves_of_resolveFrom h hr⟩

lemma resolve_of_resolves {r : Found} (hp : p ≠ [])
    (h : Resolves fs follow maxLinks (start cwd p) (components p) r) :
    fs.resolve follow cwd p = r := by
  rw [resolve, if_neg hp]
  exact resolveFrom_of_resolves h

lemma resolve_mono (h : fs.resolve true cwd p = .here l) (hle : fs.Le fs') :
    fs'.resolve true cwd p = .here l := by
  obtain ⟨hp, hw⟩ := resolves_of_resolve h (by simp)
  exact resolve_of_resolves hp (hw.mono_here hle)

@[simp] lemma fileAt_eq_some : fs.fileAt cwd p = some l ↔ fs.resolve true cwd p = .here l := by
  unfold fileAt
  cases fs.resolve true cwd p <;> simp

lemma stat_of_resolve (h : fs.resolve true cwd p = .here l) :
    fs.stat cwd p = (fs.entry l).map Entry.kind := by
  rw [stat, fileAt_eq_some.mpr h]
  rfl

lemma stat_eq_some {k : Kind} : fs.stat cwd p = some k ↔
    ∃ l, fs.resolve true cwd p = .here l ∧ (fs.entry l).map Entry.kind = some k := by
  simp only [stat, Option.bind_eq_some_iff, fileAt_eq_some]

lemma stat_mono {k : Kind} (h : fs.stat cwd p = some k) (hle : fs.Le fs') :
    fs'.stat cwd p = some k := by
  obtain ⟨l, hl, hk⟩ := stat_eq_some.mp h
  exact stat_eq_some.mpr ⟨l, resolve_mono hl hle, hle.kind hk⟩

lemma lstat_eq_some {k : Kind} : fs.lstat cwd p = some k ↔
    ∃ l, fs.resolve false cwd p = .here l ∧ (fs.entry l).map Entry.kind = some k := by
  unfold lstat
  cases fs.resolve false cwd p <;> simp

lemma lstat_mono {k : Kind} (h : fs.lstat cwd p = some k) (hle : fs.Le fs') :
    fs'.lstat cwd p = some k := by
  obtain ⟨l, hl, hk⟩ := lstat_eq_some.mp h
  obtain ⟨hp, hw⟩ := resolves_of_resolve hl (by simp)
  exact lstat_eq_some.mpr ⟨l, resolve_of_resolves hp (hw.mono_here hle), hle.kind hk⟩

/-- For what is not a symbolic link, `stat` gives the answer of `lstat`. -/
lemma stat_of_lstat {k : Kind} (h : fs.lstat cwd p = some k) (hk : k ≠ .lnk) :
    fs.stat cwd p = some k := by
  obtain ⟨l, hl, hkind⟩ := lstat_eq_some.mp h
  obtain ⟨hp, hw⟩ := resolves_of_resolve hl (by simp)
  refine stat_eq_some.mpr ⟨l, resolve_of_resolves hp (hw.follow_or_link.resolve_right ?_), hkind⟩
  rintro ⟨l', t, heq, ht⟩
  obtain rfl := Found.here.inj heq
  rw [ht] at hkind
  exact hk (Option.some.inj hkind).symm

/-- What is not followed at the end of a path is a symbolic link, or what the path names. -/
lemma resolve_or_lstat (h : ∀ e, fs.resolve true cwd p ≠ .error e) :
    fs.resolve false cwd p = fs.resolve true cwd p ∨ fs.lstat cwd p = some .lnk := by
  obtain ⟨hp, hw⟩ := resolves_of_resolve rfl h
  obtain ⟨r, hr⟩ := hw.exists_noFollow
  have hfalse := resolve_of_resolves hp hr
  rcases hr.follow_or_link with htrue | ⟨l, t, rfl, ht⟩
  · exact Or.inl (hfalse.trans (resolve_of_resolves hp htrue).symm)
  · exact Or.inr (lstat_eq_some.mpr ⟨l, hfalse, by rw [ht]; rfl⟩)

lemma DirAt.mono (h : fs.DirAt cwd p l) (hle : fs.Le fs') : fs'.DirAt cwd p l :=
  ⟨resolve_mono h.1 hle, hle.entry_dir h.2⟩

lemma DirAt.ne_nil (h : fs.DirAt cwd p l) : p ≠ [] := (resolves_of_resolve h.1 (by simp)).1

lemma stat_eq_dir : fs.stat cwd p = some .dir ↔ ∃ l, fs.DirAt cwd p l := by
  rw [stat_eq_some]
  refine exists_congr fun l => and_congr_right fun _ => ?_
  rw [Option.map_eq_some_iff]
  constructor
  · rintro ⟨e, he, hk⟩
    rw [he, Entry.kind_eq_dir.mp hk]
  · exact fun he => ⟨_, he, rfl⟩

/-- A path names a file that is there. -/
lemma isSome_of_resolve (h : fs.resolve follow cwd p = .here l) : (fs.entry l).isSome :=
  (resolves_of_resolve h (by simp)).2.isSome (Or.inl components_ne_nil)

/-! ### The entries of a directory -/

lemma start_join (hp : p ≠ []) : start cwd (join p n) = start cwd p := by
  cases p with
  | nil => exact absurd rfl hp
  | cons c p => rfl

/-- The walk to an entry of a named directory is the walk of the entry's name there. -/
lemma DirAt.resolve_join (h : fs.DirAt cwd p l) (hn : LegalName n) {r : Found}
    (hend : ∀ k, Resolves fs follow k l [n] r) : fs.resolve follow cwd (join p n) = r := by
  obtain ⟨hp, hw⟩ := resolves_of_resolve h.1 (by simp)
  refine resolve_of_resolves join_ne_nil ?_
  rw [start_join hp, components_join hn.noSlash]
  exact hw.append (Le.refl fs) (by simp) hend

lemma DirAt.resolve_join_some (h : fs.DirAt cwd p l) (he : fs.entry (n :: l) = some e)
    (hlnk : ∀ t, e ≠ .lnk t) : fs.resolve follow cwd (join p n) = .here (n :: l) :=
  have hn := fs.legal n l (by simp [he])
  h.resolve_join hn fun _ => .down_one h.2 hn he hlnk

lemma DirAt.resolve_join_none (h : fs.DirAt cwd p l) (hn : LegalName n)
    (he : fs.entry (n :: l) = none) : fs.resolve follow cwd (join p n) = .missing l n :=
  h.resolve_join hn fun _ => .missing_one h.2 hn he

lemma resolveLast_join (hn : LegalName n) :
    fs.resolveLast cwd (join p n) = fs.resolve false cwd (join p n) := by
  rw [resolveLast, resolve, components_join hn.noSlash, dropTrailing_concat _ hn.ne_nil]

lemma DirAt.join (h : fs.DirAt cwd p l) (he : fs.entry (n :: l) = some .dir) :
    fs.DirAt cwd (join p n) (n :: l) :=
  ⟨h.resolve_join_some he (by simp), he⟩

/-- The path of a directory of a tree leads to it. -/
lemma DirAt.extend {rel : Loc} (hp : fs.resolve true cwd p = .here l)
    (hdir : fs.entry (rel ++ l) = some .dir) : fs.DirAt cwd (Unix.extend p rel) (rel ++ l) := by
  induction rel with
  | nil => exact ⟨hp, hdir⟩
  | cons n rel ih =>
    exact (ih (fs.parent n (rel ++ l) (by rw [← List.cons_append, hdir]; rfl))).join hdir

/-- The path of a file of a tree that is not a symbolic link leads to it. -/
lemma resolve_extend {rel : Loc} (hp : fs.resolve true cwd p = .here l)
    (he : fs.entry (rel ++ l) = some e) (hlnk : ∀ t, e ≠ .lnk t) :
    fs.resolve true cwd (Unix.extend p rel) = .here (rel ++ l) := by
  cases rel with
  | nil => exact hp
  | cons n rel =>
    have hdir := fs.parent n (rel ++ l) (by rw [← List.cons_append, he]; rfl)
    exact (DirAt.extend hp hdir).resolve_join_some he hlnk

lemma DirAt.stat_join (h : fs.DirAt cwd p l) (he : fs.entry (n :: l) = some e)
    (hlnk : ∀ t, e ≠ .lnk t) : fs.stat cwd (Unix.join p n) = some e.kind := by
  rw [stat_of_resolve (h.resolve_join_some he hlnk), he]
  rfl

lemma createAt_ok {fs' : Fs} (h : fs.createAt l n e = .ok fs') :
    ∃ hdir hnew hn, fs' = fs.create l n e hdir hnew hn := by
  unfold createAt at h
  split_ifs at h with hc
  exact ⟨hc.1, hc.2.1, hc.2.2, (Except.ok.inj h).symm⟩

lemma createAt_of (hdir : fs.entry l = some .dir) (hnew : fs.entry (n :: l) = none)
    (hn : LegalName n) : fs.createAt l n e = .ok (fs.create l n e hdir hnew hn) :=
  dif_pos ⟨hdir, hnew, hn⟩

lemma getLast_components_join (hn : LegalName n) :
    (components (Unix.join p n)).getLast? ≠ some [] := by
  rw [components_join hn.noSlash, List.getLast?_concat]
  simpa using hn.ne_nil

lemma DirAt.openCreate_join_none (h : fs.DirAt cwd p l) (hn : LegalName n)
    (hnew : fs.entry (n :: l) = none) : fs.openCreate cwd (Unix.join p n) =
      .ok (n :: l, fs.create l n (.reg []) h.2 hnew hn) := by
  rw [openCreate, if_neg (getLast_components_join hn), h.resolve_join_none hn hnew]
  dsimp only
  rw [createAt_of h.2 hnew hn]
  rfl

/-! ### Successful calls -/

lemma noSlash_of_mem_dropTrailing {c : Name} (hc : c ∈ dropTrailing (components p)) :
    '/' ∉ c :=
  noSlash_of_mem_components c ((List.rdropWhile_prefix _ _).subset hc)

/-- Without a slash at the end of the path there is nothing to drop. -/
lemma resolveLast_of_getLast (h : (components p).getLast? ≠ some []) :
    fs.resolveLast cwd p = fs.resolve false cwd p := by
  have hne : dropTrailing (components p) = components p := by
    refine List.rdropWhile_eq_self_iff.mpr fun hl hnil => h ?_
    rw [List.getLast?_eq_some_getLast hl, of_decide_eq_true hnil]
  rw [resolveLast, resolve, hne]

/-- A path whose last component was missing names the directory that is made there. -/
lemma DirAt.of_missing (h : fs.resolveLast cwd p = .missing l n) (hle : fs.Le fs')
    (he : fs'.entry (n :: l) = some .dir) : fs'.DirAt cwd p (n :: l) := by
  unfold resolveLast at h
  split_ifs at h with hp
  have hw := resolves_of_resolveFrom h (by simp)
  obtain ⟨hdir, -, hn⟩ := hw.missing_facts fun c hc => noSlash_of_mem_dropTrailing hc
  have hw' : Resolves fs' true maxLinks (start cwd p) (dropTrailing (components p))
      (.here (n :: l)) :=
    hw.of_missing hle (Or.inl rfl) fun _ => .down_one (hle.entry_dir hdir) hn he (by simp)
  refine ⟨resolve_of_resolves hp ?_, he⟩
  obtain ⟨ds, hds, hnil⟩ := exists_dropTrailing_append (components p)
  rw [hds]
  exact hw'.append (Le.refl _) (fun _ => rfl) fun _ => .stay_all he hnil

/-- A directory made by `mkdir` is new, and its path names it. -/
lemma mkdir_ok (h : fs.mkdir cwd p = .ok fs') : ∃ l n hdir hnew hn,
    fs' = fs.create l n .dir hdir hnew hn ∧ fs'.DirAt cwd p (n :: l) := by
  unfold mkdir at h
  cases hr : fs.resolveLast cwd p with
  | here _ => simp [hr] at h
  | error _ => simp [hr] at h
  | missing l n =>
    rw [hr] at h
    obtain ⟨hdir, hnew, hn, rfl⟩ := createAt_ok h
    exact ⟨l, n, hdir, hnew, hn, rfl, .of_missing hr Le.create entry_create_self⟩

/-- The path of a directory made by `mkdir` names it without a symbolic link at its end. -/
lemma lstat_of_mkdir (h : fs.mkdir cwd p = .ok fs') : fs'.lstat cwd p = some .dir := by
  unfold mkdir at h
  cases hr : fs.resolveLast cwd p with
  | here _ => simp [hr] at h
  | error _ => simp [hr] at h
  | missing l n =>
    rw [hr] at h
    obtain ⟨hdir, hnew, hn, rfl⟩ := createAt_ok h
    unfold resolveLast at hr
    split_ifs at hr with hp
    have hw := resolves_of_resolveFrom hr (by simp)
    have hmade : (fs.create l n .dir hdir hnew hn).entry (n :: l) = some .dir := entry_create_self
    refine lstat_eq_some.mpr ⟨n :: l, resolve_of_resolves hp ?_, by rw [hmade]; rfl⟩
    have hend : ∀ follow' k, Resolves (fs.create l n .dir hdir hnew hn) follow' k l [n]
        (.here (n :: l)) := fun _ _ =>
      .down_one (Le.create.entry_dir hdir) hn hmade (by simp)
    obtain ⟨ds, hds, hnil⟩ := exists_dropTrailing_append (components p)
    rw [hds]
    -- slashes at the end ask for a directory, so they follow a symbolic link before them
    by_cases hne : ds = []
    · rw [hne, List.append_nil]
      exact hw.of_missing Le.create (Or.inr rfl) (hend false)
    · have hw' := hw.of_missing Le.create (Or.inl rfl) (hend true)
      exact hw'.append (Le.refl _) (fun h => absurd h hne) fun _ => .stay_all hmade hnil

/-- A file opened with `O_CREAT` was there, or it is new and empty; its path names it. -/
lemma openCreate_ok (h : fs.openCreate cwd p = .ok (l, fs')) :
    fs'.resolve true cwd p = .here l ∧
      ((fs' = fs ∧ ((fs.entry l).map Entry.kind = some .reg ∨
          (fs.entry l).map Entry.kind = some .blk)) ∨
        ∃ l' n hdir hnew hn, l = n :: l' ∧ fs' = fs.create l' n (.reg []) hdir hnew hn) := by
  unfold openCreate at h
  split_ifs at h with hslash
  · split at h <;> simp at h
  · cases hr : fs.resolve true cwd p with
    | error _ => simp [hr] at h
    | here k =>
      simp only [hr] at h
      cases hk : (fs.entry k).map Entry.kind with
      | none => simp [hk] at h
      | some kd =>
        cases kd with
        | reg | blk =>
          simp only [hk, Except.ok.injEq, Prod.mk.injEq] at h
          obtain ⟨rfl, rfl⟩ := h
          exact ⟨hr, Or.inl ⟨rfl, by simp [hk]⟩⟩
        | _ => simp [hk] at h
    | missing l' n =>
      simp only [hr] at h
      cases hc : fs.createAt l' n (.reg []) with
      | error _ => simp [hc, Except.map] at h
      | ok fs'' =>
        simp only [hc, Except.map, Except.ok.injEq, Prod.mk.injEq] at h
        obtain ⟨rfl, rfl⟩ := h
        obtain ⟨hdir, hnew, hn, rfl⟩ := createAt_ok hc
        obtain ⟨hp, hw⟩ := resolves_of_resolve hr (by simp)
        refine ⟨resolve_of_resolves hp ?_, Or.inr ⟨l', n, hdir, hnew, hn, rfl, rfl⟩⟩
        exact hw.of_missing Le.create (Or.inl rfl) fun _ =>
          .down_one (Le.create.entry_dir hdir) hn entry_create_self (by simp)

/-- A destination that is neither a block device nor a symbolic link is a regular file when it
is open. -/
lemma lstat_of_openCreate (h : fs.openCreate cwd p = .ok (l, fs'))
    (hblk : fs.lstat cwd p ≠ some .blk)
    (hlnk : fs.lstat cwd p ≠ some .lnk) : fs'.lstat cwd p = some .reg := by
  unfold openCreate at h
  split_ifs at h with hslash
  · split at h <;> simp at h
  cases hr : fs.resolve true cwd p with
  | error _ => simp [hr] at h
  | here k =>
    have hfalse := (resolve_or_lstat (by simp [hr])).resolve_right hlnk
    rw [hr] at hfalse
    have hlstat : fs.lstat cwd p = (fs.entry k).map Entry.kind := by simp only [lstat, hfalse]
    rw [hlstat] at hblk
    simp only [hr] at h
    split at h
    · rename_i hreg
      obtain ⟨-, rfl⟩ := Prod.mk.inj (Except.ok.inj h)
      exact hlstat.trans hreg
    · rename_i hkind
      exact absurd hkind hblk
    · simp at h
    · simp at h
  | missing l' n =>
    have hfalse := (resolve_or_lstat (by simp [hr])).resolve_right hlnk
    rw [hr] at hfalse
    simp only [hr] at h
    cases hc : fs.createAt l' n (.reg []) with
    | error _ => simp [hc, Except.map] at h
    | ok fs'' =>
      simp only [hc, Except.map, Except.ok.injEq, Prod.mk.injEq] at h
      obtain ⟨-, rfl⟩ := h
      obtain ⟨hdir, hnew, hn, rfl⟩ := createAt_ok hc
      obtain ⟨hp, hw⟩ := resolves_of_resolve hfalse (by simp)
      refine lstat_eq_some.mpr ⟨n :: l', resolve_of_resolves hp ?_, by rw [entry_create_self]; rfl⟩
      exact hw.of_missing Le.create (Or.inr rfl) fun _ =>
        .down_one (Le.create.entry_dir hdir) hn entry_create_self (by simp)

/-- The last component of a path in a directory leads to the place of that name. -/
lemma DirAt.resolveLast_join_at (h : fs.DirAt cwd p l) (hn : LegalName n)
    (hlnk : ∀ t, fs.entry (n :: l) ≠ some (.lnk t)) :
    (fs.resolveLast cwd (Unix.join p n)).At (n :: l) := by
  obtain ⟨r, hr, hwalk⟩ := Resolves.exists_at h.2 hn hlnk
  rwa [resolveLast_join hn, h.resolve_join hn hwalk]

/-- A path whose last component was missing leads to the same place later. -/
lemma resolveLast_at_of_missing (h : fs.resolveLast cwd p = .missing l n) (hle : fs.Le fs')
    (hlnk : ∀ t, fs'.entry (n :: l) ≠ some (.lnk t)) : (fs'.resolveLast cwd p).At (n :: l) := by
  unfold resolveLast at h ⊢
  split_ifs at h ⊢ with hp
  have hw := resolves_of_resolveFrom h (by simp)
  obtain ⟨hdir, -, hn⟩ := hw.missing_facts fun c hc => noSlash_of_mem_dropTrailing hc
  obtain ⟨r, hr, hwalk⟩ := Resolves.exists_at (hle.entry_dir hdir) hn hlnk
  rwa [resolveFrom_of_resolves (hw.of_missing hle (Or.inr rfl) hwalk)]

/-- A path that leads to a file, its last symbolic link not followed. -/
lemma isSome_of_resolveLast (h : fs.resolveLast cwd p = .here l) : (fs.entry l).isSome := by
  unfold resolveLast at h
  split_ifs at h with hp
  refine (resolves_of_resolveFrom h (by simp)).isSome ?_
  by_cases hnil : dropTrailing (components p) = []
  · refine Or.inr ?_
    rw [start, if_pos (head?_of_dropTrailing hp hnil), fs.root]
    rfl
  · exact Or.inl hnil

/-- `mkdir` succeeds only where a file is missing. -/
lemma missing_of_mkdir (h : fs.mkdir cwd p = .ok fs') :
    ∃ l n, fs.resolveLast cwd p = .missing l n := by
  unfold mkdir at h
  cases hr : fs.resolveLast cwd p with
  | here l => simp [hr] at h
  | error e => simp [hr] at h
  | missing l n => exact ⟨l, n, rfl⟩

/-- `mkdir` succeeds where there is no file yet. -/
lemma exists_mkdir (hat : (fs.resolveLast cwd p).At l) (hnew : fs.entry l = none) :
    ∃ fs', fs.mkdir cwd p = .ok fs' := by
  cases hr : fs.resolveLast cwd p with
  | error e => simp [hr, Found.At] at hat
  | here k =>
    have hsome := isSome_of_resolveLast hr
    rw [hr] at hat
    rw [show k = l from hat, hnew] at hsome
    cases hsome
  | missing k n =>
    have hw := hr
    unfold resolveLast at hw
    split_ifs at hw
    obtain ⟨hdir, hnone, hn⟩ := (resolves_of_resolveFrom hw (by simp)).missing_facts
      fun c hc => noSlash_of_mem_dropTrailing hc
    exact ⟨_, by rw [mkdir, hr]; exact createAt_of hdir hnone hn⟩

/-- `mkdir` makes the place that its path leads to a directory. -/
lemma mkdir_adds (h : fs.mkdir cwd p = .ok fs') (hat : (fs.resolveLast cwd p).At l) :
    Adds fs fs' l .dir := by
  unfold mkdir at h
  cases hr : fs.resolveLast cwd p with
  | here _ => simp [hr] at h
  | error _ => simp [hr] at h
  | missing k n =>
    rw [hr] at h hat
    obtain ⟨hdir, hnew, hn, rfl⟩ := createAt_ok h
    exact hat ▸ .create

/-- `open` with `O_CREAT` gives the file at the place that its path leads to. -/
lemma openCreate_adds {k : Loc} (h : fs.openCreate cwd p = .ok (k, fs'))
    (hat : (fs.resolveLast cwd p).At l) (hlnk : ∀ t, fs.entry l ≠ some (.lnk t)) :
    k = l ∧ (fs' = fs ∨ Adds fs fs' l (.reg [])) := by
  unfold openCreate at h
  split_ifs at h with hslash
  · split at h <;> simp at h
  rw [resolveLast_of_getLast hslash] at hat
  have hres : fs.resolve true cwd p = fs.resolve false cwd p := by
    cases hr : fs.resolve false cwd p with
    | error e => simp [hr, Found.At] at hat
    | here l' =>
      obtain ⟨hp, hw⟩ := resolves_of_resolve hr (by simp)
      rw [hr] at hat
      obtain rfl : l' = l := hat
      refine resolve_of_resolves hp (hw.follow_or_link.resolve_right ?_)
      rintro ⟨l'', t, heq, ht⟩
      obtain rfl := Found.here.inj heq
      exact hlnk t ht
    | missing l' n =>
      obtain ⟨hp, hw⟩ := resolves_of_resolve hr (by simp)
      exact resolve_of_resolves hp (hw.follow_or_link.resolve_right (by simp))
  rw [hres] at h
  cases hr : fs.resolve false cwd p with
  | error e => simp [hr, Found.At] at hat
  | here l' =>
    rw [hr] at hat
    obtain rfl : l' = l := hat
    simp only [hr] at h
    have hopen : (l', fs) = (k, fs') := by
      split at h
      · exact Except.ok.inj h
      · exact Except.ok.inj h
      · simp at h
      · simp at h
    obtain ⟨rfl, rfl⟩ := Prod.mk.inj hopen
    exact ⟨rfl, Or.inl rfl⟩
  | missing l' n =>
    rw [hr] at hat
    obtain rfl : n :: l' = l := hat
    simp only [hr] at h
    cases hc : fs.createAt l' n (.reg []) with
    | error _ => simp [hc, Except.map] at h
    | ok fs'' =>
      simp only [hc, Except.map, Except.ok.injEq, Prod.mk.injEq] at h
      obtain ⟨rfl, rfl⟩ := h
      obtain ⟨hdir, hnew, hn, rfl⟩ := createAt_ok hc
      exact ⟨rfl, Or.inr .create⟩

lemma mkdir_le (h : fs.mkdir cwd p = .ok fs') : fs.Le fs' := by
  obtain ⟨l, n, hdir, hnew, hn, rfl, -⟩ := mkdir_ok h
  exact Le.create

lemma openCreate_le (h : fs.openCreate cwd p = .ok (l, fs')) : fs.Le fs' := by
  obtain ⟨-, ⟨rfl, -⟩ | ⟨l', n, hdir, hnew, hn, -, rfl⟩⟩ := openCreate_ok h
  · exact Le.refl _
  · exact Le.create

/-! ### The directory part of a path -/

lemma HasParent.mono (h : fs.HasParent cwd p) (hle : fs.Le fs') : fs'.HasParent cwd p := by
  obtain ⟨hp, l, hl, hdir⟩ := h
  refine ⟨hp, l, ?_, hle.entry_dir hdir⟩
  exact resolveFrom_of_resolves ((resolves_of_resolveFrom hl (by simp)).mono_here hle)

lemma DirAt.hasParent_join (h : fs.DirAt cwd p l) (hn : LegalName n) :
    fs.HasParent cwd (Unix.join p n) := by
  refine ⟨join_ne_nil, l, ?_, h.2⟩
  rw [components_join hn.noSlash, dropTrailing_concat _ hn.ne_nil, List.dropLast_concat,
    start_join h.ne_nil]
  have hr := h.1
  rwa [resolve, if_neg h.ne_nil] at hr

/-- A walk of one component inside a directory that does not follow symbolic links always
succeeds. -/
lemma exists_resolves_one (hdir : fs.entry l = some .dir) (c : Name) :
    ∃ r, ∀ k, Resolves fs false k l [c] r := by
  by_cases hstay : c = [] ∨ c = dot
  · exact ⟨_, fun k => .stay hdir hstay .done⟩
  by_cases hup : c = dotdot
  · subst hup
    exact ⟨_, fun k => .up hdir .done⟩
  cases he : fs.entry (c :: l) with
  | none => exact ⟨_, fun k => .missing hdir ⟨hstay, hup⟩ he⟩
  | some e =>
    by_cases hlnk : ∃ t, e = .lnk t
    · obtain ⟨t, rfl⟩ := hlnk
      exact ⟨_, fun k => .lastLink hdir ⟨hstay, hup⟩ he rfl⟩
    · exact ⟨_, fun k => .down hdir ⟨hstay, hup⟩ he (not_exists.mp hlnk) .done⟩

/-- **A path whose directory part exists** resolves, its last symbolic link not followed. -/
theorem HasParent.resolveLast_ne (h : fs.HasParent cwd p) (e : Errno) :
    fs.resolveLast cwd p ≠ .error e := by
  obtain ⟨hp, l, hl, hdir⟩ := h
  have hw := resolves_of_resolveFrom hl (by simp)
  obtain ⟨r, hr⟩ :
      ∃ r, Resolves fs false maxLinks (start cwd p) (dropTrailing (components p)) r := by
    rcases List.eq_nil_or_concat (dropTrailing (components p)) with hnil | ⟨cs, c, hcs⟩
    · rw [hnil]
      exact ⟨_, .done⟩
    · rw [hcs, List.concat_eq_append] at hw ⊢
      rw [List.dropLast_concat] at hw
      obtain ⟨r, hr⟩ := exists_resolves_one hdir c
      exact ⟨r, hw.append (Le.refl fs) (by simp) hr⟩
  rw [resolveLast, if_neg hp, resolveFrom_of_resolves hr]
  exact hr.ne_error e

/-- `mkdir` fails in an existing directory only because the path is taken. -/
theorem HasParent.mkdir_error (h : fs.HasParent cwd p) {e : Errno}
    (he : fs.mkdir cwd p = .error e) : e = .exist := by
  unfold mkdir at he
  cases hr : fs.resolveLast cwd p with
  | here l =>
    rw [hr] at he
    exact (Except.error.inj he).symm
  | missing l n =>
    rw [hr] at he
    dsimp only [createAt] at he
    split_ifs at he
    exact (Except.error.inj he).symm
  | error e' => exact absurd hr (h.resolveLast_ne e')

/-- `open` with `O_CREAT` fails in an existing directory only because the path names
something that cannot be opened, unless it is a symbolic link. -/
theorem HasParent.openCreate_error (h : fs.HasParent cwd p) {e : Errno}
    (he : fs.openCreate cwd p = .error e) : e = .isdir ∨ e = .inval ∨
      ∃ l t, fs.resolveLast cwd p = .here l ∧ fs.entry l = some (.lnk t) := by
  unfold openCreate at he
  split_ifs at he with hslash
  · cases hr : fs.resolveLast cwd p with
    | error e' => exact absurd hr (h.resolveLast_ne e')
    | _ =>
      rw [hr] at he
      exact Or.inl (Except.error.inj he).symm
  · have hlast : fs.resolveLast cwd p = fs.resolve false cwd p := resolveLast_of_getLast hslash
    have hok : ∀ e, fs.resolve false cwd p ≠ .error e := fun e => hlast ▸ h.resolveLast_ne e
    obtain ⟨hp, hw⟩ := resolves_of_resolve rfl hok
    rcases hw.follow_or_link with hw | hlink
    · rw [resolve_of_resolves hp hw] at he
      cases hr : fs.resolve false cwd p with
      | error e' => exact absurd hr (hok e')
      | here l =>
        simp only [hr] at he
        split at he
        · simp at he
        · simp at he
        · exact Or.inl (Except.error.inj he).symm
        · exact Or.inr (Or.inl (Except.error.inj he).symm)
      | missing l n =>
        obtain ⟨hdir, hnew, hn⟩ := (hr ▸ hw).missing_facts noSlash_of_mem_components
        simp only [hr, createAt_of hdir hnew hn, Except.map] at he
        simp at he
    · rw [hlast]
      exact Or.inr (Or.inr hlink)

end Fs

end Cpr.Unix
