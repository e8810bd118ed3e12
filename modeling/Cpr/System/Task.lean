/-
# The copy of a tree to a new place

In a setting the source has no symbolic links, and the destination is not there yet and does
not lie inside the source.  The places below the source and those below the destination have
nothing in common.  A task is a setting with a source of directories and regular files.
-/
import Cpr.System.Flat
import Cpr.System.Tidy

namespace Cpr

open Transition Unix

/-- The copy of a tree without symbolic links to a new place outside it. -/
structure Setting where
  fs : Fs
  cwd : Loc
  srcName : CStr
  dstName : CStr
  /-- The place of the source. -/
  root : Loc
  /-- The directory of the destination, and its name there. -/
  parent : Loc
  name : Name
  src : fs.resolve true cwd srcName = .here root
  dst : fs.resolveLast cwd dstName = .missing parent name
  links : ∀ rel p, fs.entry (rel ++ root) ≠ some (.lnk p)
  outside : ¬ root <:+ name :: parent

/-- The copy of a tree of directories and regular files. -/
structure Task extends Setting where
  kinds : ∀ rel e, fs.entry (rel ++ root) = some e → e.kind = .dir ∨ e.kind = .reg
  links := fun rel _ he => by simpa [Entry.kind] using kinds rel _ he

namespace Setting

variable (t : Setting)

/-- The place of the destination. -/
def target : Loc := t.name :: t.parent

/-- The state when `main` starts. -/
def init (batchSize : ℤ) : Sys := .init t.fs t.cwd t.srcName t.dstName batchSize

/-- The kind of a file of the source. -/
def kind (rel : Loc) : Option Kind := (t.fs.entry (rel ++ t.root)).map Entry.kind

/-- The file that an operation for a place transfers. -/
def fileOf (rel : Loc) : Opcode → Loc
  | .pread => rel ++ t.root
  | .pwrite => rel ++ t.target

variable {t} {rel rel' : Loc} {e : Entry} {k : Kind}

lemma target_new : t.fs.entry t.target = none := by
  have h := t.dst
  unfold Fs.resolveLast at h
  split_ifs at h
  exact ((Fs.resolves_of_resolveFrom h (by simp)).missing_facts
    fun c hc => Fs.noSlash_of_mem_dropTrailing hc).2.1

/-- Nothing is below the destination. -/
lemma below_target_new : t.fs.entry (rel ++ t.target) = none := by
  by_contra h
  have hsome := Option.isSome_iff_ne_none.mpr h
  cases rel with
  | nil => simp [target_new] at h
  | cons n rel => simpa [target_new] using Fs.entry_of_append hsome (List.cons_ne_nil n rel)

lemma root_isSome : (t.fs.entry t.root).isSome := Fs.isSome_of_resolve t.src

/-- The source is not below the destination. -/
lemma not_target_suffix : ¬ t.target <:+ rel ++ t.root := by
  intro h
  rcases List.suffix_or_suffix_of_suffix h (List.suffix_append rel t.root) with hsuf | hsuf
  · obtain ⟨pre, hpre⟩ := hsuf
    have hroot := t.root_isSome
    rw [← hpre, below_target_new] at hroot
    cases hroot
  · exact t.outside hsuf

lemma kind_eq_some : t.kind rel = some k ↔ ∃ e, t.fs.entry (rel ++ t.root) = some e ∧ e.kind = k :=
  Option.map_eq_some_iff

lemma kind_ne_lnk : t.kind rel ≠ some .lnk := by
  intro h
  obtain ⟨e, he, hk⟩ := kind_eq_some.mp h
  cases e with
  | lnk p => exact t.links rel p he
  | _ => cases hk

lemma ne_lnk (h : t.fs.entry (rel ++ t.root) = some e) : ∀ p, e ≠ .lnk p := by
  rintro p rfl
  exact t.links rel p h

lemma legal_of_kind (h : (t.kind rel).isSome) : ∀ n ∈ rel, LegalName n :=
  Fs.legal_of_append (by simpa [kind] using h)

/-- A node is that of one file of the source. -/
lemma below_injective {argv : Node} (h : (t.kind rel).isSome) (h' : (t.kind rel').isSome)
    (heq : argv.below rel = argv.below rel') : rel = rel' :=
  extend_injective (legal_of_kind h) (legal_of_kind h') (congrArg Node.srcName heq)

/-- What holds in every state of a run. -/
structure Run (t : Setting) (s : Sys) : Prop where
  ready : Walk.Ready t.fs t.root s
  cwd : s.world.cwd = t.cwd
  argv : s.prog.argv = ⟨t.srcName, t.dstName⟩
  locks : Locks s.prog
  descriptors : Descriptors s.prog.aio
  buffers : Buffers s.prog.aio

namespace Run

variable {s : Sys} {ok : Sys → Label → Prop} {batchSize : ℤ}

/-- Where the program is in a run of its own. -/
theorem of_prog
    (hprog : Reaches Prog.step anyLabel (Prog.init t.srcName t.dstName batchSize) s.prog)
    (hle : t.fs.Le s.world.fs) (hcwd : s.world.cwd = t.cwd) : t.Run s := by
  have hmanager := Prog.manager_reaches_any hprog
  have hargv : s.prog.argv = ⟨t.srcName, t.dstName⟩ :=
    hprog.invariant (I := fun p => p.argv = ⟨t.srcName, t.dstName⟩)
      (fun hp _ hstep => (Prog.argv_of_fires (Prog.fires_of_step hstep).2).trans hp) rfl
  refine ⟨⟨hle, ?_, Prog.good_of_reaches hprog, (Locks.of_reaches hprog).inBody⟩, hcwd, hargv,
    .of_reaches hprog, .of_reaches hmanager, .of_reaches hmanager⟩
  rw [hcwd, hargv]
  exact t.src

theorem of_reaches (h : Reaches Sys.step ok (t.init batchSize) s) : t.Run s :=
  .of_prog (Sys.prog_reaches_any h) (Sys.fs_le h) (Sys.cwd_eq h)

/-- The source path of a place leads to its file. -/
lemma src_resolve (hr : t.Run s) (h : (t.kind rel).isSome) :
    s.world.fs.resolve true s.world.cwd (s.prog.argv.below rel).srcName =
      .here (rel ++ t.root) := by
  obtain ⟨e, he⟩ := Option.isSome_iff_exists.mp (by simpa [kind] using h)
  exact hr.ready.src_resolve he (ne_lnk he)

/-- What `aio_loop` opens for reading is the file of the place. -/
lemma openRead_eq (hr : t.Run s) (h : (t.kind rel).isSome) {loc : Loc}
    (hopen : s.world.fs.openRead s.world.cwd (s.prog.argv.below rel).srcName = some loc) :
    loc = rel ++ t.root := by
  obtain ⟨hloc, -⟩ := Option.filter_eq_some_iff.mp hopen
  rw [Fs.fileAt_eq_some, hr.src_resolve h] at hloc
  exact (Found.here.inj hloc).symm

lemma srcStat_eq (hr : t.Run s) (h : (t.kind rel).isSome) : s.srcStat rel = t.kind rel := by
  obtain ⟨k, hk⟩ := Option.isSome_iff_exists.mp h
  rw [Sys.srcStat, Fs.stat_of_resolve (hr.src_resolve h), hr.ready.le.kind hk, hk]

end Run

/-! ### Changes of the file system -/

/-- How the file system may change: below the destination, and as the source asks. -/
structure Change (t : Setting) (fs fs' : Fs) : Prop where
  frame : ∀ l, ¬ t.target <:+ l → fs'.entry l = fs.entry l
  copied : ∀ rel e', fs'.entry (rel ++ t.target) = some e' →
    t.kind rel = some e'.kind ∨ (fs.entry (rel ++ t.target)).map Entry.kind = some e'.kind

namespace Change

variable {fs fs' : Fs}

lemma refl (fs : Fs) : t.Change fs fs := ⟨fun _ _ => rfl, fun _ e' he' => Or.inr (by rw [he']; rfl)⟩

lemma of_adds (h : fs.Adds fs' (rel ++ t.target) e) (hkind : t.kind rel = some e.kind) :
    t.Change fs fs' where
  frame l hl := h.other l fun heq => hl (heq ▸ List.suffix_append rel t.target)
  copied rel' e' he' := by
    by_cases heq : rel' ++ t.target = rel ++ t.target
    · obtain rfl := List.append_cancel_right heq
      obtain rfl := Option.some.inj (h.self.symm.trans he')
      exact Or.inl hkind
    · rw [h.other _ heq] at he'
      exact Or.inr (by rw [he']; rfl)

lemma setContent {content : List UInt8} :
    t.Change fs (fs.setContent (rel ++ t.target) content) where
  frame l hl := Fs.entry_setContent_of_ne fun heq => hl (heq ▸ List.suffix_append rel t.target)
  copied rel' e' he' := by
    have hshape : ((fs.setContent (rel ++ t.target) content).entry (rel' ++ t.target)).map
      Entry.shape = _ := Fs.shape_setContent
    rw [he', Option.map_some] at hshape
    obtain ⟨e, he, heq⟩ := Option.map_eq_some_iff.mp hshape.symm
    exact Or.inr (by rw [he, Option.map_some, Entry.kind_eq_of_shape_eq heq])

end Change

end Setting

/-! ### Two sources -/

/-- The copy of the directory of `oneFile`. -/
def oneFileTask : Task where
  fs := oneFile
  cwd := []
  srcName := ['s']
  dstName := ['d']
  root := [['s']]
  parent := []
  name := ['d']
  src := by decide +kernel
  dst := by decide +kernel
  kinds rel e he := by
    have hdom := (oneFile.mem_dom _).mpr (Option.isSome_iff_exists.mpr ⟨e, he⟩)
    have hall : ∀ l ∈ oneFile.dom, ∀ e ∈ oneFile.entry l, e.kind = .dir ∨ e.kind = .reg := by
      decide +kernel
    exact hall _ hdom e he
  outside := by decide

/-- The copy of a directory with `n` files. -/
def flatTask (n : ℕ) : Task where
  fs := flat n
  cwd := []
  srcName := ['s']
  dstName := ['d']
  root := [['s']]
  parent := []
  name := ['d']
  src := (flat.src_dirAt n).1
  dst := flat.dst_missing n
  kinds rel e he := by
    rcases flatEntry_eq_some he with rfl | rfl <;> simp [Entry.kind]
  outside := by decide

end Cpr
