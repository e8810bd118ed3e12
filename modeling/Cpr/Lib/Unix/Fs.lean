/-
# A file system as a finite tree of entries

A file system assigns an entry to finitely many locations.  The root is a directory, every
other entry lies in a directory, and its name is legal: these invariants are fields of the
structure, so that every operation has to keep them.
-/
import Cpr.Lib.Unix.Path
import Mathlib.Data.Finset.Insert
import Mathlib.Data.Finset.Image

namespace Cpr.Unix

/-- The kinds of file. -/
inductive Kind
  | dir
  | reg
  | lnk
  | fifo
  | sock
  | blk
  | chr
deriving DecidableEq, Repr

/-- A file, with the content of a regular file and the target of a symbolic link. -/
inductive Entry
  | dir
  | reg (content : List UInt8)
  | lnk (target : Path)
  | fifo
  | sock
  | blk
  | chr
deriving DecidableEq

namespace Entry

def kind : Entry → Kind
  | dir => .dir
  | reg _ => .reg
  | lnk _ => .lnk
  | fifo => .fifo
  | sock => .sock
  | blk => .blk
  | chr => .chr

/-- What path resolution sees of an entry: everything but the content of a regular file. -/
def shape : Entry → Entry
  | reg _ => .reg []
  | e => e

/-- A regular file gets another content. -/
def withContent (content : List UInt8) : Entry → Entry
  | reg _ => .reg content
  | e => e

@[simp] lemma shape_withContent (content : List UInt8) (e : Entry) :
    (e.withContent content).shape = e.shape := by
  cases e <;> rfl

lemma kind_eq_of_shape_eq {e e' : Entry} (h : e.shape = e'.shape) : e.kind = e'.kind := by
  cases e <;> cases e' <;> simp_all [shape, kind]

@[simp] lemma shape_eq_dir {e : Entry} : e.shape = .dir ↔ e = .dir := by
  cases e <;> simp [shape]

@[simp] lemma shape_eq_lnk {e : Entry} {t : Path} : e.shape = .lnk t ↔ e = .lnk t := by
  cases e <;> simp [shape]

lemma kind_eq_dir {e : Entry} : e.kind = .dir ↔ e = .dir := by
  cases e <;> simp [kind]

lemma kind_eq_reg {e : Entry} : e.kind = .reg ↔ ∃ content, e = .reg content := by
  cases e <;> simp [kind]

end Entry

lemma map_kind_eq_dir {o : Option Entry} : o.map Entry.kind = some .dir ↔ o = some .dir := by
  rw [Option.map_eq_some_iff]
  constructor
  · rintro ⟨e, rfl, hk⟩
    rw [Entry.kind_eq_dir.mp hk]
  · exact fun h => ⟨.dir, h, rfl⟩

lemma map_kind_eq_reg {o : Option Entry} :
    o.map Entry.kind = some .reg ↔ ∃ bytes, o = some (.reg bytes) := by
  rw [Option.map_eq_some_iff]
  constructor
  · rintro ⟨e, rfl, hk⟩
    obtain ⟨bytes, rfl⟩ := Entry.kind_eq_reg.mp hk
    exact ⟨bytes, rfl⟩
  · exact fun ⟨bytes, h⟩ => ⟨.reg bytes, h, rfl⟩

/-- A file system. -/
structure Fs where
  /-- The locations in use. -/
  dom : Finset Loc
  entry : Loc → Option Entry
  mem_dom : ∀ l, l ∈ dom ↔ (entry l).isSome
  root : entry [] = some .dir
  parent : ∀ n l, (entry (n :: l)).isSome → entry l = some .dir
  legal : ∀ n l, (entry (n :: l)).isSome → LegalName n

namespace Fs

variable (fs : Fs) {l l' : Loc} {n : Name} {e : Entry}

/-- The file system that has nothing but its root. -/
def empty : Fs where
  dom := {[]}
  entry l := if l = [] then some .dir else none
  mem_dom l := by by_cases hl : l = [] <;> simp [hl]
  root := rfl
  parent n l h := by simp at h
  legal n l h := by simp at h

/-- The names in a directory. -/
def names (l : Loc) : Finset Name :=
  (fs.dom.filter fun k => k.tail = l ∧ k ≠ []).image fun k => k.headD []

lemma mem_names : n ∈ fs.names l ↔ (fs.entry (n :: l)).isSome := by
  rw [names, Finset.mem_image, ← fs.mem_dom]
  constructor
  · rintro ⟨k, hk, rfl⟩
    obtain ⟨hdom, rfl, hne⟩ := Finset.mem_filter.mp hk
    cases k with
    | nil => exact absurd rfl hne
    | cons m k => exact hdom
  · exact fun h => ⟨n :: l, Finset.mem_filter.mpr ⟨h, rfl, by simp⟩, rfl⟩

/-- A new entry in a directory. -/
def create (l : Loc) (n : Name) (e : Entry) (hdir : fs.entry l = some .dir)
    (hnew : fs.entry (n :: l) = none) (hn : LegalName n) : Fs where
  dom := insert (n :: l) fs.dom
  entry k := if k = n :: l then some e else fs.entry k
  mem_dom k := by
    by_cases hk : k = n :: l
    · simp [hk]
    · simp [hk, fs.mem_dom]
  root := by simpa using fs.root
  parent m k h := by
    have hl : l ≠ n :: l := fun heq => by simpa using congrArg List.length heq
    by_cases hm : m :: k = n :: l
    · obtain ⟨rfl, rfl⟩ := List.cons.inj hm
      rwa [if_neg hl]
    · rw [if_neg hm] at h
      have hk := fs.parent m k h
      rw [if_neg, hk]
      rintro rfl
      simp [hnew] at hk
  legal m k h := by
    by_cases hm : m :: k = n :: l
    · obtain ⟨rfl, rfl⟩ := List.cons.inj hm
      exact hn
    · rw [if_neg hm] at h
      exact fs.legal m k h

/-- The content of a regular file is replaced; nothing happens to other kinds. -/
def setContent (l : Loc) (content : List UInt8) : Fs where
  dom := fs.dom
  entry k := if k = l then (fs.entry k).map (Entry.withContent content) else fs.entry k
  mem_dom k := by
    by_cases hk : k = l <;> simp only [hk, if_true, if_false, Option.isSome_map, fs.mem_dom]
  root := by
    by_cases hl : [] = l <;> simp only [hl, if_true, if_false, ← fs.root]
    rw [← hl, fs.root]
    rfl
  parent m k h := by
    have hk : fs.entry k = some .dir := by
      apply fs.parent m k
      split_ifs at h
      · simpa using h
      · exact h
    split_ifs
    · rw [hk]
      rfl
    · exact hk
  legal m k h := by
    apply fs.legal m k
    split_ifs at h
    · simpa using h
    · exact h

variable {fs} {hdir : fs.entry l = some .dir} {hnew : fs.entry (n :: l) = none}
  {hn : LegalName n} {content : List UInt8} {k : Loc}

@[simp] lemma entry_create_self : (fs.create l n e hdir hnew hn).entry (n :: l) = some e :=
  if_pos rfl

lemma entry_create_of_ne (hk : k ≠ n :: l) :
    (fs.create l n e hdir hnew hn).entry k = fs.entry k := if_neg hk

lemma entry_setContent_of_ne (hk : k ≠ l) : (fs.setContent l content).entry k = fs.entry k :=
  if_neg hk

lemma entry_setContent_self {old : List UInt8} (h : fs.entry l = some (.reg old)) :
    (fs.setContent l content).entry l = some (.reg content) := by
  simp [setContent, h, Entry.withContent]

/-- Only a regular file gets a content. -/
lemma entry_setContent_of_not_reg (h : ∀ old, fs.entry l ≠ some (.reg old)) :
    (fs.setContent l content).entry = fs.entry := by
  funext k
  show (if k = l then (fs.entry k).map (Entry.withContent content) else fs.entry k) = fs.entry k
  split_ifs with hk
  · subst hk
    cases he : fs.entry k with
    | none => rfl
    | some e =>
      cases e with
      | reg old => exact absurd he (h old)
      | _ => rfl
  · rfl

/-- A regular file has the content that was put into it. -/
lemma eq_of_entry_setContent {bytes : List UInt8}
    (h : (fs.setContent l content).entry l = some (.reg bytes)) : bytes = content := by
  simp only [setContent, if_true] at h
  obtain ⟨e, -, he⟩ := Option.map_eq_some_iff.mp h
  cases e with
  | reg old => exact (Entry.reg.inj he).symm
  | _ => cases he

lemma shape_setContent :
    ((fs.setContent l content).entry k).map Entry.shape = (fs.entry k).map Entry.shape := by
  by_cases hk : k = l
  · subst hk
    cases h : fs.entry k <;> simp [setContent, h]
  · rw [entry_setContent_of_ne hk]

/-- The second file system has one entry more. -/
structure Adds (fs fs' : Fs) (l : Loc) (e : Entry) : Prop where
  new : fs.entry l = none
  self : fs'.entry l = some e
  other : ∀ k, k ≠ l → fs'.entry k = fs.entry k

lemma Adds.create : Adds fs (fs.create l n e hdir hnew hn) (n :: l) e :=
  ⟨hnew, entry_create_self, fun _ hk => entry_create_of_ne hk⟩

/-- Regular files keep their contents, and new ones are empty. -/
structure SameContents (fs fs' : Fs) : Prop where
  kept : ∀ l c, fs.entry l = some (.reg c) → fs'.entry l = some (.reg c)
  new : ∀ l c, fs'.entry l = some (.reg c) → c = [] ∨ fs.entry l = some (.reg c)

lemma SameContents.refl (fs : Fs) : SameContents fs fs := ⟨fun _ _ h => h, fun _ _ h => Or.inr h⟩

lemma SameContents.create (he : ∀ c, e = .reg c → c = []) :
    SameContents fs (fs.create l n e hdir hnew hn) := by
  refine ⟨fun k c hk => ?_, fun k c hk => ?_⟩
  · rw [entry_create_of_ne, hk]
    rintro rfl
    simp [hnew] at hk
  · by_cases hkn : k = n :: l
    · rw [hkn, entry_create_self] at hk
      exact Or.inl (he c (Option.some.inj hk))
    · rw [entry_create_of_ne hkn] at hk
      exact Or.inr hk

/-- A location in use lies in directories all the way up. -/
lemma entry_of_append {rel : Loc} (h : (fs.entry (rel ++ l)).isSome) (hrel : rel ≠ []) :
    fs.entry l = some .dir := by
  induction rel with
  | nil => exact absurd rfl hrel
  | cons n rel ih =>
    have hdir := fs.parent n (rel ++ l) h
    cases rel with
    | nil => exact hdir
    | cons m rel => exact ih (by rw [hdir]; rfl) (by simp)

lemma legal_of_append {rel : Loc} (h : (fs.entry (rel ++ l)).isSome) :
    ∀ n ∈ rel, LegalName n := by
  induction rel with
  | nil => simp
  | cons m rel ih =>
    intro n hn
    rcases List.mem_cons.mp hn with rfl | hn
    · exact fs.legal n (rel ++ l) h
    · exact ih (by simp [fs.parent m (rel ++ l) h]) n hn

/-! ## Growing file systems -/

/-- The second file system has every entry of the first one; regular files may have other
content. -/
def Le (fs fs' : Fs) : Prop :=
  ∀ l e, fs.entry l = some e → (fs'.entry l).map Entry.shape = some e.shape

lemma Le.refl (fs : Fs) : fs.Le fs := fun l e h => by rw [h]; rfl

lemma Le.trans {fs₁ fs₂ fs₃ : Fs} (h₁ : fs₁.Le fs₂) (h₂ : fs₂.Le fs₃) : fs₁.Le fs₃ := by
  intro l e h
  obtain ⟨e', he', hshape⟩ := Option.map_eq_some_iff.mp (h₁ l e h)
  rw [h₂ l e' he', hshape]

lemma Le.create : fs.Le (fs.create l n e hdir hnew hn) := by
  intro k e' h
  rw [entry_create_of_ne, h]
  · rfl
  · rintro rfl
    simp [hnew] at h

lemma Adds.le {fs' : Fs} (h : fs.Adds fs' l e) : fs.Le fs' := by
  intro k e' hk
  rw [h.other, hk]
  · rfl
  · rintro rfl
    simp [h.new] at hk

lemma Le.setContent : fs.Le (fs.setContent l content) := by
  intro k e h
  rw [shape_setContent, h]
  rfl

lemma Le.entry_dir {fs fs' : Fs} (h : fs.Le fs') (hl : fs.entry l = some .dir) :
    fs'.entry l = some .dir := by
  obtain ⟨e, he, hshape⟩ := Option.map_eq_some_iff.mp (h l .dir hl)
  rw [he, Entry.shape_eq_dir.mp hshape]

lemma Le.entry_lnk {fs fs' : Fs} (h : fs.Le fs') {t : Path} (hl : fs.entry l = some (.lnk t)) :
    fs'.entry l = some (.lnk t) := by
  obtain ⟨e, he, hshape⟩ := Option.map_eq_some_iff.mp (h l _ hl)
  rw [he, Entry.shape_eq_lnk.mp hshape]

lemma Le.entry_of_ne_lnk {fs fs' : Fs} (h : fs.Le fs') (hl : fs.entry l = some e)
    (hlnk : ∀ t, e ≠ .lnk t) : ∃ e', fs'.entry l = some e' ∧ ∀ t, e' ≠ .lnk t := by
  obtain ⟨e', he', hshape⟩ := Option.map_eq_some_iff.mp (h l e hl)
  refine ⟨e', he', fun t ht => ?_⟩
  subst ht
  exact hlnk t (Entry.shape_eq_lnk.mp hshape.symm)

lemma Le.kind {fs fs' : Fs} (h : fs.Le fs') {kd : Kind}
    (hl : (fs.entry l).map Entry.kind = some kd) :
    (fs'.entry l).map Entry.kind = some kd := by
  obtain ⟨e, he, rfl⟩ := Option.map_eq_some_iff.mp hl
  obtain ⟨e', he', hshape⟩ := Option.map_eq_some_iff.mp (h l e he)
  rw [he', Option.map_some, Entry.kind_eq_of_shape_eq hshape]

end Fs

end Cpr.Unix
