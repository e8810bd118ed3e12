/-
# The name buffers of the old program

`copy_internal` and `copy_dir` of the old program make their buffers for names one byte too
small: they ask `malloc` for as many bytes as the name has, and write its terminator, too.  What
`malloc` gives may be larger than what was asked for.  Where it is not, the terminator goes past
the end of the buffer, and the process may be aborted as soon as the allocator meets the damage.
-/
import Cpr.Lib.CString
import Cpr.Old.Agree

namespace Cpr

open Transition Unix

/-! ## The buffers -/

section

variable (usable : ℕ → ℕ)

/-- The buffer that `copy_internal` makes for an argument: `malloc`, whose block for `n` bytes has
`usable n`, and `strcpy`. -/
def OldProg.argBuffer (name : CStr) : Option (List (Byte Char)) :=
  CString.strcpy (CString.malloc (usable name.length)) name

/-- The buffer that `copy_dir` makes for the name of an entry: `malloc`, `strcpy` and two
`strcat`. -/
def OldProg.nameBuffer (nameIn entName : CStr) : Option (List (Byte Char)) :=
  (CString.strcpy (CString.malloc (usable (nameIn.length + entName.length + 1))) nameIn).bind
    fun b => (CString.strcat b ['/']).bind fun b => CString.strcat b entName

/-- A name and its terminator fit into the block for the name. -/
def NameFits (name : CStr) : Prop := name.length < usable name.length

instance (name : CStr) : Decidable (NameFits usable name) := inferInstanceAs (Decidable (_ < _))

/-- Both names of a node fit. -/
def Node.Fits (node : Node) : Prop := NameFits usable node.srcName ∧ NameFits usable node.dstName

instance (node : Node) : Decidable (node.Fits usable) := inferInstanceAs (Decidable (_ ∧ _))

variable {usable} {nameIn entName : CStr}

lemma OldProg.isSome_argBuffer {name : CStr} :
    (OldProg.argBuffer usable name).isSome = true ↔ NameFits usable name :=
  CString.isSome_strcpy_malloc

lemma OldProg.isSome_nameBuffer :
    (OldProg.nameBuffer usable nameIn entName).isSome = true ↔
      NameFits usable (join nameIn entName) := by
  have hlen : (join nameIn entName).length = nameIn.length + entName.length + 1 := by
    simp only [join, List.length_append, List.length_cons]
    omega
  rw [NameFits, hlen, nameBuffer]
  generalize usable (nameIn.length + entName.length + 1) = size
  rcases Nat.lt_or_ge nameIn.length size with hin | hin
  · obtain ⟨unused, hsize⟩ : ∃ unused, size = nameIn.length + 1 + unused :=
      Nat.exists_eq_add_of_le hin
    rw [CString.strcpy_malloc hsize, Option.bind_some]
    rcases Nat.lt_or_ge 0 unused with hslash | hslash
    · obtain ⟨rest, rfl⟩ : ∃ rest, unused = 1 + rest := Nat.exists_eq_add_of_le hslash
      rw [CString.strcat_filled (show 1 + rest = ['/'].length + rest from rfl), Option.bind_some]
      rcases Nat.lt_or_ge rest entName.length with hname | hname
      · rw [CString.strcat_filled_eq_none hname]
        simp only [Option.isSome_none, Bool.false_eq_true, false_iff]
        omega
      · obtain ⟨left, rfl⟩ := Nat.exists_eq_add_of_le hname
        rw [CString.strcat_filled rfl]
        simp only [Option.isSome_some, true_iff]
        omega
    · rw [CString.strcat_filled_eq_none (by simpa using hslash)]
      simp only [Option.bind_none, Option.isSome_none, Bool.false_eq_true, false_iff]
      omega
  · have hnone : CString.strcpy (CString.malloc size) nameIn = none := by
      rw [← Option.not_isSome_iff_eq_none, CString.isSome_strcpy_malloc]
      omega
    rw [hnone]
    simp only [Option.bind_none, Option.isSome_none, Bool.false_eq_true, false_iff]
    omega

end

/-! ## The program with its heap -/

/-- How the process of the parent ended. -/
inductive OldExit
  | exited (code : ℤ)
  /-- The allocator found a damaged heap: `SIGABRT`. -/
  | aborted
deriving DecidableEq, Repr

/-- The old program, with what the parent has done to its heap. -/
structure OldHeap where
  sys : OldSys
  /-- No name was written past the end of its buffer. -/
  intact : Bool
  aborted : Bool

namespace OldHeap

/-- How the parent ended, if it has. -/
def ended (o : OldHeap) : Option OldExit :=
  if o.aborted then some .aborted else o.sys.prog.ended.map .exited

variable (usable : ℕ → ℕ)

/-- The state when `copy_internal` has made the first node. -/
def init (fs : Fs) (cwd : Loc) (srcName dstName : CStr) : OldHeap where
  sys := .init fs cwd srcName dstName
  intact := (OldProg.argBuffer usable srcName).isSome && (OldProg.argBuffer usable dstName).isSome
  aborted := false

/-- The names that a step writes fit into their buffers. -/
def writesFit (p : OldProg) : OldLabel → Bool
  | .readdir (.entry name dtype) =>
    if name = dot ∨ name = dotdot then true
    else if dtype = .dir ∨ dtype = .reg then
      match p.queue with
      | curr :: _ =>
        (OldProg.nameBuffer usable curr.srcName name).isSome &&
          (OldProg.nameBuffer usable curr.dstName name).isSome
      | [] => true
    else true
  | _ => true

/-- The label is that of a child's step. -/
def ofChild : OldLabel → Bool
  | .child _ _ => true
  | _ => false

/-- One step, or, with the label `none`, the abort of a parent with a damaged heap.  Its children
go on. -/
def step (o : OldHeap) : Option OldLabel → Option OldHeap
  | some l =>
    if o.aborted = false ∨ ofChild l = true then
      (o.sys.step l).map fun s => ⟨s, o.intact && writesFit usable o.sys.prog l, o.aborted⟩
    else none
  | none =>
    if o.intact = false ∧ o.ended = none then some { o with aborted := true } else none

/-- Every system call succeeds. -/
def Faultless (o : OldHeap) : Option OldLabel → Prop
  | some l => o.sys.Faultless l
  | none => True

instance (o : OldHeap) (l : Option OldLabel) : Decidable (o.Faultless l) := by
  cases l <;> (unfold Faultless; infer_instance)

end OldHeap

/-- The state when `main` starts. -/
def Setting.oldHeap (t : Setting) (usable : ℕ → ℕ) : OldHeap :=
  .init usable t.fs t.cwd t.srcName t.dstName

/-- Every name that the walk makes for the source fits into its buffer. -/
def Setting.NamesFit (t : Setting) (usable : ℕ → ℕ) : Prop :=
  ∀ rel, (t.kind rel).isSome → (t.node rel).Fits usable

namespace OldHeap

variable {usable : ℕ → ℕ} {o o' : OldHeap} {l : OldLabel}

/-- Inversion of a step. -/
lemma step_cases {a : Option OldLabel} (h : o.step usable a = some o') :
    (∃ l s, a = some l ∧ (o.aborted = false ∨ ofChild l = true) ∧ o.sys.step l = some s ∧
      o' = ⟨s, o.intact && writesFit usable o.sys.prog l, o.aborted⟩) ∨
    (a = none ∧ o.intact = false ∧ o.ended = none ∧ o' = { o with aborted := true }) := by
  cases a with
  | some l =>
    obtain ⟨hgoes, hmap⟩ := Option.ite_none_right_eq_some.mp h
    obtain ⟨s, hs, rfl⟩ := Option.map_eq_some_iff.mp hmap
    exact Or.inl ⟨l, s, rfl, hgoes, hs, rfl⟩
  | none =>
    obtain ⟨⟨hdamaged, hended⟩, heq⟩ := Option.ite_none_right_eq_some.mp h
    exact Or.inr ⟨rfl, hdamaged, hended, (Option.some.inj heq).symm⟩

/-- Only the listing of an entry writes a name. -/
lemma writesFit_of_ne {p : OldProg} (h : ∀ name dtype, l ≠ .readdir (.entry name dtype)) :
    writesFit usable p l = true := by
  unfold writesFit
  split
  · exact absurd rfl (h _ _)
  · rfl

end OldHeap

/-! ## The names of a run -/

namespace Places

variable {d : Places} {rel : Loc}

/-- Steps that list no entry meet no place. -/
lemma mem_met_foldl_iff {ls : List Label} (hroot : [] ∈ d.met)
    (hls : ∀ l ∈ ls, l ≠ .startThread true ∧ ∀ name dtype, l ≠ .readdir (.entry name dtype)) :
    rel ∈ (ls.foldl Places.after d).met ↔ rel ∈ d.met := by
  induction ls generalizing d with
  | nil => rfl
  | cons l ls ih =>
    obtain ⟨hstart, hentry⟩ := hls l List.mem_cons_self
    rw [List.foldl_cons, ih (mem_met_after hstart hroot)
      fun l hl => hls l (List.mem_cons_of_mem _ hl)]
    constructor
    · intro h
      rcases mem_met_of_after h with h | rfl | ⟨name, dtype, rfl⟩
      · exact h
      · exact hroot
      · exact absurd rfl (hentry name dtype)
    · exact mem_met_after hstart

/-- An entry that is listed is met. -/
lemma mem_met_entry {done todo : List Loc} {head : Loc} {name : Name} {dtype : DType}
    (hname : ¬ (name = dot ∨ name = dotdot)) :
    rel ∈ (after ⟨done, head :: todo⟩ (.readdir (.entry name dtype))).met ↔
      rel ∈ met ⟨done, head :: todo⟩ ∨ rel = name :: head := by
  rw [after, if_neg hname]
  simp only [met, List.headD_cons, List.mem_append, List.mem_singleton]
  tauto

end Places

/-- The heap is intact exactly as long as every name that was made fits. -/
structure Named (t : Task) (usable : ℕ → ℕ) (o : OldHeap) (u : Sys) (d : Places) : Prop where
  shadow : Shadow t.toSetting o.sys u d
  data : OldData t.toSetting o.sys
  intact : o.intact = true ↔ ∀ rel ∈ d.met, (t.node rel).Fits usable
  aborted : o.aborted = true → o.intact = false

namespace Named

variable {t : Task} {usable : ℕ → ℕ} {o o' : OldHeap} {u : Sys} {d : Places} {l : OldLabel}
  {s : OldSys}

lemma root_mem (h : Named t usable o u d) : [] ∈ d.met := by
  refine h.shadow.copying.walk.top ?_
  rw [h.shadow.pc]
  cases o.sys.prog.pc <;> rfl

/-- What a step of the parent writes fits if the names of the places that it meets do. -/
lemma writesFit_iff (h : Named t usable o u d) (hok : o.sys.Faultless l)
    (hl : ∀ i act, l ≠ .child i act) (hstep : o.sys.step l = some s) :
    (o.intact && OldHeap.writesFit usable o.sys.prog l) = true ↔
      ∀ rel ∈ (l.calls.foldl Places.after d).met, (t.node rel).Fits usable := by
  by_cases hentry : ∃ name dtype, l = .readdir (.entry name dtype)
  · obtain ⟨name, dtype, rfl⟩ := hentry
    obtain ⟨-, hfires, hafter⟩ := OldSys.fires_of_step hstep
    have hlists : o.sys.world.main.Lists name dtype :=
      (Option.ite_none_right_eq_some.mp (OldWorld.after_parent hafter hl).1).1
    have hpc : o.sys.prog.pc = .readdir := by
      generalize s.prog = p' at hfires
      cases hfires with
      | fail _ _ hfails => exact hfails.elim
      | readdirSkip _ _ _ hpc | readdirEnqueue _ _ _ _ _ hpc => exact hpc
      | readdirEnd _ _ _ hanswer => simp at hanswer
    have hbody : u.prog.pc.inBody = true := by rw [h.shadow.pc, hpc]; rfl
    obtain ⟨head, todo, hd⟩ :=
      h.shadow.copying.walk.exists_head_of_inBody h.shadow.run.ready hbody
    obtain ⟨curr, rest, hqueue⟩ :=
      List.exists_cons_of_ne_nil (h.shadow.run.ready.inBody hbody)
    have hcurr : curr = t.node head := by
      rw [← h.shadow.below_eq]
      exact h.shadow.copying.walk.head_below hqueue (by rw [hd]; rfl)
    rw [show (OldLabel.readdir (.entry name dtype)).calls = [.readdir (.entry name dtype)] from rfl,
      List.foldl_cons, List.foldl_nil, Bool.and_eq_true, h.intact]
    by_cases hname : name = dot ∨ name = dotdot
    · rw [Places.after, if_pos hname, OldHeap.writesFit, if_pos hname]
      exact and_iff_left rfl
    · -- both names of the new node are written
      have htype := h.shadow.dtype_of_lists hpc hok hlists hname
      have hwrites : OldHeap.writesFit usable o.sys.prog (.readdir (.entry name dtype)) = true ↔
          (t.node (name :: head)).Fits usable := by
        rw [OldHeap.writesFit, if_neg hname, if_pos htype, ← h.shadow.queue, hqueue]
        dsimp only
        rw [Bool.and_eq_true, OldProg.isSome_nameBuffer, OldProg.isSome_nameBuffer, hcurr]
        rfl
      rw [hwrites, hd]
      simp only [Places.mem_met_entry hname, or_imp, forall_and, forall_eq]
  · have hne : ∀ name dtype, l ≠ .readdir (.entry name dtype) := fun name dtype heq =>
      hentry ⟨name, dtype, heq⟩
    have hcalls : ∀ call ∈ l.calls, call ≠ .startThread true ∧
        ∀ name dtype, call ≠ .readdir (.entry name dtype) := by
      intro call hcall
      cases l with
      | readdir answer =>
        obtain rfl := List.mem_singleton.mp hcall
        exact ⟨by simp, fun name dtype heq => hne name dtype (by rw [Label.readdir.inj heq])⟩
      | fork ok =>
        simp only [OldLabel.calls, List.mem_cons, List.not_mem_nil, or_false] at hcall
        rcases hcall with rfl | rfl | rfl | rfl | rfl <;> simp
      | _ => simp_all [OldLabel.calls]
    rw [OldHeap.writesFit_of_ne hne, Bool.and_true, h.intact]
    simp only [Places.mem_met_foldl_iff h.root_mem hcalls]

theorem step (h : Named t usable o u d) {a : Option OldLabel} (hok : o.Faultless a)
    (hstep : o.step usable a = some o') : ∃ u' d', Named t usable o' u' d' := by
  rcases OldHeap.step_cases hstep with ⟨l, s, rfl, hgoes, hs, rfl⟩ | ⟨rfl, hdamaged, -, rfl⟩
  · by_cases hl : ∃ i act, l = .child i act
    · obtain ⟨i, act, rfl⟩ := hl
      obtain ⟨u', hshadow, hdata⟩ := h.data.child h.shadow hok hs
      refine ⟨u', d, hshadow, hdata, ?_, fun hab => ?_⟩
      · rw [OldHeap.writesFit_of_ne (by simp), Bool.and_true]
        exact h.intact
      · rw [h.aborted hab, Bool.false_and]
    · have hparent : ∀ i act, l ≠ .child i act := fun i act heq => hl ⟨i, act, heq⟩
      obtain ⟨u', hshadow, hdata⟩ := h.data.parent h.shadow hok hparent hs
      refine ⟨u', _, hshadow, hdata, h.writesFit_iff hok hparent hs, fun hab => ?_⟩
      rw [h.aborted hab, Bool.false_and]
  · exact ⟨u, d, h.shadow, h.data, h.intact, fun _ => hdamaged⟩

/-- **The whole run.** -/
theorem of_reaches (h : Reaches (OldHeap.step usable) OldHeap.Faultless (t.oldHeap usable) o) :
    ∃ u d, Named t usable o u d := by
  refine h.invariant (I := fun o => ∃ u d, Named t usable o u d)
    (fun ⟨_, _, hs⟩ hok hstep => hs.step hok hstep) ?_
  obtain ⟨u, hs⟩ := Shadow.init t.toSetting
  refine ⟨u, _, hs, .init, ?_, by simp [Setting.oldHeap, OldHeap.init]⟩
  simp only [Setting.oldHeap, OldHeap.init, Bool.and_eq_true, OldProg.isSome_argBuffer,
    Places.met, List.nil_append, List.mem_singleton, forall_eq]
  rfl

/-- Names that fit are written where they fit. -/
lemma intact_of_namesFit (h : Named t usable o u d) (hfit : t.NamesFit usable) :
    o.intact = true :=
  h.intact.mpr fun rel hrel => hfit rel (h.shadow.copying.tree.real rel hrel)

/-- When the walk is over, it has written all names. -/
lemma intact_iff (h : Named t usable o u d) (hpc : o.sys.prog.pc = .wait)
    (hqueue : o.sys.prog.queue = []) : o.intact = true ↔ t.NamesFit usable := by
  refine ⟨fun hintact rel hrel => ?_, h.intact_of_namesFit⟩
  have hdone := h.shadow.copying.walk.mem_done (h.shadow.queue.trans hqueue)
    (by rw [h.shadow.pc, hpc]; rfl) rel (by simpa [Setting.kind] using hrel)
  exact h.intact.mp hintact rel (List.mem_append_left _ hdone)

end Named

namespace OldHeap

variable {t : Task} {usable : ℕ → ℕ} {o o' : OldHeap} {a : Option OldLabel}

/-- A run of the program with its heap is one of the program. -/
lemma sys_reaches {ok : OldSys → OldLabel → Prop} {okH : OldHeap → Option OldLabel → Prop}
    (hok : ∀ (o : OldHeap) l, okH o (some l) → ok o.sys l)
    (h : Reaches (OldHeap.step usable) okH (t.oldHeap usable) o) :
    Reaches OldSys.step ok t.oldInit o.sys := by
  refine h.simulate OldHeap.sys fun {o a o'} hallowed hstep => ?_
  rcases step_cases hstep with ⟨l, s, rfl, -, hs, rfl⟩ | ⟨-, -, -, rfl⟩
  · exact Reaches.single (hok o l hallowed) hs
  · exact Reaches.refl

lemma ended_eq_exited {r : ℤ} : o.ended = some (.exited r) ↔
    o.aborted = false ∧ o.sys.prog.ended = some r := by
  unfold ended
  cases o.aborted <;> simp

lemma ended_eq_none : o.ended = none ↔ o.aborted = false ∧ o.sys.prog.ended = none := by
  unfold ended
  cases o.aborted <;> simp

/-- The step with which the parent ends, and those after it, write no name. -/
lemma intact_of_ended (hstep : o.step usable a = some o') (hended : o'.ended ≠ none) :
    o'.intact = o.intact := by
  rcases step_cases hstep with ⟨l, s, rfl, hgoes, hs, rfl⟩ | ⟨-, -, -, rfl⟩
  · rw [writesFit_of_ne, Bool.and_true]
    rintro name dtype rfl
    obtain ⟨-, hfires, -⟩ := OldSys.fires_of_step hs
    refine hended (ended_eq_none.mpr ⟨hgoes.resolve_right (by simp [ofChild]), ?_⟩)
    generalize s.prog = p' at hfires
    cases hfires with
    | fail _ _ hfails => exact hfails.elim
    | readdirSkip _ _ hrun | readdirEnqueue _ _ _ _ hrun | readdirEnd _ hrun => exact hrun
  · rfl

/-- A parent that ended with a damaged heap could have been aborted. -/
lemma exists_aborted (h : Reaches (OldHeap.step usable) OldHeap.Faultless (t.oldHeap usable) o)
    (hended : o.ended ≠ none) (hdamaged : o.intact = false) :
    ∃ o', Reaches (OldHeap.step usable) OldHeap.Faultless (t.oldHeap usable) o' ∧
      o'.ended = some .aborted := by
  obtain ⟨u, hu, hrun, hintact⟩ : ∃ u, Reaches (OldHeap.step usable) OldHeap.Faultless
      (t.oldHeap usable) u ∧ u.ended = none ∧ u.intact = false := by
    refine h.invariant_of (J := fun o => Reaches (OldHeap.step usable) OldHeap.Faultless
      (t.oldHeap usable) o) (I := fun o => o.ended ≠ none → o.intact = false →
        ∃ u, Reaches (OldHeap.step usable) OldHeap.Faultless (t.oldHeap usable) u ∧
          u.ended = none ∧ u.intact = false) (fun _ ho => ho)
      (fun {o a o'} ho _ hI _ hstep hended' hdamaged' => ?_) (fun hne => absurd rfl hne) hended
      hdamaged
    rw [intact_of_ended hstep hended'] at hdamaged'
    by_cases hrun : o.ended = none
    · exact ⟨o, ho, hrun, hdamaged'⟩
    · exact hI hrun hdamaged'
  exact ⟨_, hu.tail (a := none) trivial (by rw [step, if_pos ⟨hintact, hrun⟩]), rfl⟩

/-- Names that fit do not damage the heap, and when the parent has ended others have. -/
lemma intact_iff_of_ended
    (h : Reaches (OldHeap.step usable) OldHeap.Faultless (t.oldHeap usable) o)
    (hended : o.ended ≠ none) : o.intact = true ↔ t.NamesFit usable := by
  obtain ⟨u, d, hnamed⟩ := Named.of_reaches h
  refine ⟨fun hintact => ?_, hnamed.intact_of_namesFit⟩
  have hab : o.aborted = false := by
    by_contra hab
    simp [hnamed.aborted (by simpa using hab)] at hintact
  obtain ⟨r, hr⟩ := Option.ne_none_iff_exists'.mp fun hnone =>
    hended (ended_eq_none.mpr ⟨hab, hnone⟩)
  obtain ⟨-, hpc, hqueue⟩ := OldProg.Returns.of_reaches (sys_reaches (fun _ _ hok => hok) h) hr
  exact (hnamed.intact_iff hpc hqueue).mp hintact

end OldHeap

/-! ## The two programs -/

/-- Whenever both programs end, they exit with 0 and leave the same copy. -/
def Agree (t : Task) (usable : ℕ → ℕ) : Prop :=
  ∀ (batchSize : ℤ) (s : Sys) (o : OldHeap) (x : Exit) (y : OldExit),
    Reaches Sys.step Sys.Faultless (t.init batchSize) s →
    Reaches (OldHeap.step usable) OldHeap.Faultless (t.oldHeap usable) o →
    s.prog.aio.ended = some x → o.ended = some y →
      x = .exited 0 ∧ y = .exited 0 ∧ SameCopies t.toSetting s o.sys

section

variable {t : Task} {usable : ℕ → ℕ}

/-- Where the names fit, the programs agree. -/
lemma agree_of_namesFit (hfiles : t.regularFiles.card < 2 ^ 32) (hfit : t.NamesFit usable) :
    Agree t usable := by
  intro batchSize s o x y h ho hended hoended
  have hintact := (OldHeap.intact_iff_of_ended ho (by simp [hoended])).mpr hfit
  obtain ⟨u, d, hnamed⟩ := Named.of_reaches ho
  have hab : o.aborted = false := by
    by_contra hab
    simp [hnamed.aborted (by simpa using hab)] at hintact
  obtain ⟨r, hr⟩ := Option.ne_none_iff_exists'.mp fun hnone => by
    simp [OldHeap.ended_eq_none.mpr ⟨hab, hnone⟩] at hoended
  have hagree := sameCopies_of_reaches hfiles h (OldHeap.sys_reaches (fun _ _ hok => hok) ho)
    hended hr
  rw [OldHeap.ended_eq_exited.mpr ⟨hab, hr⟩, Option.some.injEq] at hoended
  exact ⟨hagree.1, hoended ▸ congrArg OldExit.exited hagree.2.1, hagree.2.2⟩

/-- **The two programs agree exactly where the names fit**, for every schedule of each of them, on
a source that both can copy without a failing call. -/
theorem agree_iff_namesFit (hfiles : t.regularFiles.card < 2 ^ 32)
    (hnew : ∃ batchSize s, Reaches Sys.step Sys.Faultless (t.init batchSize) s ∧
      s.prog.aio.ended ≠ none)
    (hold : ∃ o, Reaches (OldHeap.step usable) OldHeap.Faultless (t.oldHeap usable) o ∧
      o.ended ≠ none) :
    Agree t usable ↔ t.NamesFit usable := by
  refine ⟨fun hagree => ?_, agree_of_namesFit hfiles⟩
  obtain ⟨batchSize, s, hs, hended⟩ := hnew
  obtain ⟨o, ho, hoended⟩ := hold
  obtain ⟨x, hx⟩ := Option.ne_none_iff_exists'.mp hended
  refine (OldHeap.intact_iff_of_ended ho hoended).mp ?_
  by_contra hdamaged
  obtain ⟨o', ho', haborted⟩ := OldHeap.exists_aborted ho hoended (by simpa using hdamaged)
  obtain ⟨-, hy, -⟩ := hagree batchSize s o' x .aborted hs ho' hx haborted
  cases hy

end

/-- The sizes of the blocks of `malloc` on 64-bit Linux: 24, 40, 56 and so on. -/
def usableSize (size : ℕ) : ℕ := max 24 ((size + 23) / 16 * 16 - 8)

/-- The names for the directory with one file fit. -/
lemma oneFileTask_namesFit : oneFileTask.NamesFit usableSize := by
  intro rel hrel
  rw [Setting.kind, Option.isSome_map] at hrel
  have hdom := (oneFile.mem_dom (rel ++ [['s']])).mpr hrel
  have hall : ∀ l ∈ oneFile.dom, l.dropLast = [] ∨ l.dropLast = [['f']] := by decide +kernel
  have hrel' := hall _ hdom
  rw [List.dropLast_concat] at hrel'
  rcases hrel' with rfl | rfl <;> decide

/-- A directory with one file, and names that fit. -/
theorem agree_iff_namesFit_oneFile : oneFileTask.NamesFit usableSize ∧
    Agree oneFileTask usableSize := by
  have hrun : (execOk Sys.step Sys.Faultless (oneFileTask.init 1)
      (oneFileWalk ++ oneFileDrain)).map (fun s => s.prog.aio.ended) = some (some (.exited 0)) := by
    decide +kernel
  have hrun' : (execOk (OldHeap.step usableSize) OldHeap.Faultless
      (oneFileTask.oldHeap usableSize) (oneFileOld.map some)).map OldHeap.ended =
        some (some (.exited 0)) := by
    decide +kernel
  obtain ⟨s, hs, hended⟩ := Option.map_eq_some_iff.mp hrun
  obtain ⟨o, ho, hoended⟩ := Option.map_eq_some_iff.mp hrun'
  have hfiles : oneFileTask.regularFiles.card < 2 ^ 32 := by decide +kernel
  exact ⟨oneFileTask_namesFit,
    (agree_iff_namesFit hfiles ⟨1, s, reaches_of_execOk hs, by simp [hended]⟩
      ⟨o, reaches_of_execOk ho, by simp [hoended]⟩).mpr oneFileTask_namesFit⟩

/-- A name of 24 characters. -/
def longName : Name := List.replicate 24 's'

lemma legalName_longName : LegalName longName := by decide

/-- A file system with nothing but one file, whose name has 24 characters. -/
def longFile : Fs := Fs.empty.create [] longName (.reg [1, 2, 3]) rfl rfl legalName_longName

/-- The copy of that file. -/
def longTask : Task where
  fs := longFile
  cwd := []
  srcName := longName
  dstName := ['d']
  root := [longName]
  parent := []
  name := ['d']
  src := by decide +kernel
  dst := by decide +kernel
  kinds rel e he := by
    have hdom := (longFile.mem_dom _).mpr (Option.isSome_iff_exists.mpr ⟨e, he⟩)
    have hall : ∀ l ∈ longFile.dom, ∀ e ∈ longFile.entry l, e.kind = .dir ∨ e.kind = .reg := by
      decide +kernel
    exact hall _ hdom e he
  outside := by decide

/-- The walk over the file. -/
def longWalk : List Label :=
  [.initManager true, .startThread true, .stat (some .reg), .bumpReqCount, .copyReg, .addLock true,
    .addLink, .addUnlock true, .walkEnd]

/-- The terminator of the long name goes past its buffer, and the old program is aborted. -/
theorem not_agree_longTask : ¬ Agree longTask usableSize := by
  intro hagree
  have hrun : (execOk Sys.step Sys.Faultless (longTask.init 1) (longWalk ++ oneFileDrain)).map
      (fun s => s.prog.aio.ended) = some (some (.exited 0)) := by
    decide +kernel
  have hrun' : (execOk (OldHeap.step usableSize) OldHeap.Faultless (longTask.oldHeap usableSize)
      [some (.stat (some .reg)), some (.fork true), none]).map OldHeap.ended =
        some (some .aborted) := by
    decide +kernel
  obtain ⟨s, hs, hended⟩ := Option.map_eq_some_iff.mp hrun
  obtain ⟨o, ho, hoended⟩ := Option.map_eq_some_iff.mp hrun'
  obtain ⟨-, hy, -⟩ := hagree 1 s o _ _ (reaches_of_execOk hs) (reaches_of_execOk ho) hended hoended
  cases hy

end Cpr
