/-
# Directory entries without a type

`readdir` may give `DT_UNKNOWN` for an entry, and `copy_internal` then learns the kind from
`stat`.  This file compares two runs in which the main thread gets the same answers, except
that in the second one `readdir` does not tell the types of some entries; `aio_loop` and the
kernel may take any steps in between.  The runs have the same outcome as long as those entries
are directories and regular files.  For any other kind they have not: `copy_dir` exits on the
type, and `copy_internal` drops the file.
-/
import Cpr.Lib.Unix.Skeleton
import Cpr.Program.View
import Cpr.System.Parents

namespace Cpr

open Transition Unix

/-- The answer of a file system that does not tell the types of the entries in `hidden`. -/
def World.hide (hidden : Loc → Bool) (w : World) : Label → Label
  | .readdir (.entry name dtype) =>
    .readdir (.entry name (if hidden (name :: w.dir.loc) then .unknown else dtype))
  | l => l

/-- What `copy_internal` returned: `some true` for 0, `some false` when the process ended in
the walk. -/
def Prog.returned (p : Prog) : Option Bool :=
  if p.pc.afterWalk then some true else if p.aio.ended.isSome then some false else none

/-- The result of `copy_internal`, the directories that are there, and the files that were
requested. -/
@[ext] structure Outcome where
  returned : Option Bool
  dirs : Set Loc
  requests : List (Option Node)

namespace Sys

/-- The outcome of `copy_internal`. -/
def outcome (s : Sys) : Outcome where
  returned := s.prog.returned
  dirs := {l | s.world.fs.entry l = some .dir}
  requests := s.prog.aio.log.accepted.map s.prog.aio.node

variable (hidden : Loc → Bool) (s : Sys)

/-- A step of the program where `readdir` does not tell the types of the entries in
`hidden`. -/
def hidingStep (l : Label) : Option Sys := s.step (s.world.hide hidden l)

/-- The label has the true type of an entry in `hidden`. -/
def Tells : Label → Prop
  | .readdir (.entry name dtype) => hidden (name :: s.world.dir.loc) = true →
      ∀ e ∈ s.world.fs.entry (name :: s.world.dir.loc), dtype = .ofKind e.kind
  | _ => True

/-- An entry in `hidden` that `readdir` returns is a directory or a regular file. -/
def HidesCopied : Label → Prop
  | .readdir (.entry name _) => hidden (name :: s.world.dir.loc) = true →
      ∀ e ∈ s.world.fs.entry (name :: s.world.dir.loc), e.kind = .dir ∨ e.kind = .reg
  | _ => True

instance (l : Label) : Decidable (s.Tells hidden l) := by
  induction l using Label.casesOn with
  | readdir answer =>
    induction answer using ReaddirAnswer.casesOn <;> (unfold Tells; infer_instance)
  | _ => unfold Tells; infer_instance

instance (l : Label) : Decidable (s.HidesCopied hidden l) := by
  induction l using Label.casesOn with
  | readdir answer =>
    induction answer using ReaddirAnswer.casesOn <;> (unfold HidesCopied; infer_instance)
  | _ => unfold HidesCopied; infer_instance

variable {hidden s} {s' : Sys} {l : Label}

/-- `readdir` returns an entry that is there, with its type or without it. -/
lemma lists_unknown_iff {name : Name} {dtype : DType}
    (htells : ∀ e ∈ s.world.fs.entry (name :: s.world.dir.loc), dtype = .ofKind e.kind) :
    s.world.Lists name .unknown ↔ s.world.Lists name dtype := by
  refine or_congr_right (or_congr_right (and_congr_right fun _ => ?_))
  constructor
  · rintro ⟨e, he, -⟩
    exact ⟨e, he, Or.inr (htells e he)⟩
  · rintro ⟨e, he, -⟩
    exact ⟨e, he, Or.inl rfl⟩

/-- The program does the same for a directory or a regular file without a type. -/
lemma hidingStep_eq (htells : s.Tells hidden l) (hcopied : s.HidesCopied hidden l) :
    s.hidingStep hidden l = s.step l := by
  cases l with
  | readdir answer =>
    cases answer with
    | entry name dtype =>
      rw [hidingStep, World.hide]
      by_cases hh : hidden (name :: s.world.dir.loc) = true
      swap
      · rw [if_neg hh]
      rw [if_pos hh]
      have hlists := lists_unknown_iff (htells hh)
      have hafter : s.world.after s.prog (.readdir (.entry name .unknown)) =
          s.world.after s.prog (.readdir (.entry name dtype)) := by
        simp only [World.after, hlists]
      by_cases hl : s.world.Lists name dtype
      swap
      · have hnone : s.world.after s.prog (.readdir (.entry name dtype)) = none := if_neg hl
        rw [Sys.step, Sys.step, hafter, hnone]
        simp only [Option.map_none, Option.bind_fun_none]
      suffices hprog : s.prog.step (.readdir (.entry name .unknown)) =
          s.prog.step (.readdir (.entry name dtype)) by
        rw [Sys.step, Sys.step, hprog, hafter]
      suffices hbody : ∀ curr, s.prog.readdirStep curr (.entry name .unknown) =
          s.prog.readdirStep curr (.entry name dtype) by
        simp only [Prog.step, Prog.mainStep, hbody]
      intro curr
      rw [Prog.readdirStep, Prog.readdirStep]
      by_cases hname : name = dot ∨ name = dotdot
      · rw [if_pos hname, if_pos hname]
      have htype : dtype = .dir ∨ dtype = .reg ∨ dtype = .unknown := by
        obtain ⟨-, e, he, -⟩ := (hl.resolve_left fun h => hname (Or.inl h)).resolve_left
          fun h => hname (Or.inr h)
        rw [htells hh e he]
        rcases hcopied hh e he with hk | hk <;> simp [hk, DType.ofKind]
      rw [if_neg hname, if_neg hname, if_pos (by simp), if_pos htype]
    | _ => rfl
  | _ => rfl

end Sys

/-! ### After `copy_internal` -/

/-- Only `mkdir` changes the skeleton of the file system. -/
lemma World.Permits.skeleton_eq {w w' : World} {p : Prog} {l : Label} (h : World.Permits w p l w')
    (hl : l ≠ .mkdir true) : w'.fs.skeleton = w.fs.skeleton := by
  cases h with
  | mkdir => exact absurd rfl hl
  | openDst fd q loc fs' _ _ hopen =>
    dsimp only
    rcases (Fs.openCreate_ok hopen).2 with ⟨rfl, -⟩ | ⟨d, n, hdir, hnew, hn, rfl, rfl⟩
    · rfl
    · funext k
      by_cases hk : k = n :: d
      · rw [hk, Fs.skeleton_eq_none (by simp [Fs.entry_create_self])
          (by simp [Fs.entry_create_self]),
          Fs.skeleton_eq_none (by simp [hnew]) (by simp [hnew])]
      · exact Fs.skeleton_congr (Fs.entry_create_of_ne hk)
  | complete c res =>
    funext k
    exact Fs.skeleton_eq_of_shape (World.shape_transfer ..)
  | _ => rfl

namespace Sys

variable {hidden : Loc → Bool} {s s' : Sys} {l : Label} {fs : Fs} {cwd : Loc}
  {srcName dstName : CStr} {batchSize : ℤ}

/-- The outcome is settled when `copy_internal` has returned. -/
lemma outcome_step (hgood : Good s.prog.aio) (hret : s.prog.returned ≠ none)
    (hstep : s.step l = some s') : s'.outcome = s.outcome := by
  obtain ⟨hended, hfires, hperm⟩ := fires_of_step hstep
  have hafter : s.prog.pc.afterWalk = true := by
    by_contra hpc
    simp [Prog.returned, hpc, hended] at hret
  have hcopy : l ≠ .copyReg := by
    rintro rfl
    generalize s'.prog = p' at hfires
    cases hfires with
    | fail _ _ hfails => cases hfails
    | copyReg _ _ hpc => simp [hpc, MainPc.afterWalk] at hafter
  have hnode := Prog.node_of_fires hgood hended hfires hcopy
  have hkept : s'.prog.pc.afterWalk = true ∧
      s'.prog.aio.log.accepted = s.prog.aio.log.accepted ∧ l ≠ .mkdir true := by
    obtain ⟨p', w'⟩ := s'
    cases hfires with
    | aio act a ha => exact ⟨hafter, (aioFrame_of_aioStep hended ha).accepted, by simp⟩
    | fail l _ hfails =>
      refine ⟨hafter, rfl, ?_⟩
      rintro rfl
      cases hfails
    | waitLock | waitSet | waitUnlock | join | destroy =>
      refine ⟨?_, rfl, by simp⟩
      first | rfl | exact hafter
    | initManager hpc | startThread hpc | statDir _ _ hpc | statReg _ _ hpc
    | statOther _ _ _ hpc | walkEnd hpc | mkdir hpc | opendir hpc | readdirSkip _ _ hpc
    | readdirEnqueue _ _ _ _ hpc | readdirExit _ _ hpc | readdirEnd hpc | closedir hpc
    | bumpReqCount hpc | copyReg _ _ hpc | addLock hpc | addLink _ hpc | addUnlock hpc =>
      simp [hpc, MainPc.afterWalk] at hafter
  obtain ⟨hpc, hacc, hl⟩ := hkept
  ext1
  · simp only [outcome, Prog.returned, hpc, hafter, if_true]
  · ext k
    simp only [outcome, Set.mem_ofPred_eq]
    rw [← Fs.skeleton_eq_dir, ← Fs.skeleton_eq_dir, hperm.skeleton_eq hl]
  · simp only [outcome, hacc, hnode]

lemma outcome_of_reaches (h : Reaches Sys.step anyLabel (init fs cwd srcName dstName batchSize) s)
    (hret : s.prog.returned ≠ none) (h' : Reaches Sys.step anyLabel s s') :
    s'.outcome = s.outcome := by
  refine h'.invariant_of (J := fun s => Good s.prog.aio) (I := fun t => t.outcome = s.outcome)
    (fun t ht => Prog.good_of_reaches (prog_reaches_any (h.trans ht)))
    (fun {t _ _} hgood _ ht _ hstep => ?_) rfl
  have hret' : t.prog.returned = s.prog.returned := congrArg Outcome.returned ht
  exact (outcome_step hgood (hret' ▸ hret) hstep).trans ht

end Sys

/-! ### Two runs -/

/-- What the walk determines: what the main thread has in hand, the directory it started in,
and the directories and links. -/
def Sys.seen (s : Sys) : View × Loc × (Loc → Option Entry) :=
  (s.prog.view, s.world.cwd, s.world.fs.skeleton)

/-- `aio_loop` does not end the process while the main thread is in `copy_internal`. -/
def Sys.AioGoesOn (s : Sys) : Label → Prop
  | .aio act => s.prog.pc.afterWalk = false → ∀ a ∈ Prog.aioStep s.prog.aio act, a.ended = none
  | _ => True

instance (s : Sys) (l : Label) : Decidable (s.AioGoesOn l) := by
  induction l using Label.casesOn <;> (unfold Sys.AioGoesOn; infer_instance)

/-- The labels of a run that tells the types of the entries in `hidden`, and in which
`copy_internal` comes to its own end. -/
def Sys.TellsTypes (hidden : Loc → Bool) (s : Sys) (l : Label) : Prop :=
  s.Tells hidden l ∧ s.AioGoesOn l

instance (hidden : Loc → Bool) (s : Sys) (l : Label) : Decidable (s.TellsTypes hidden l) :=
  inferInstanceAs (Decidable (_ ∧ _))

/-- The labels of such a run whose hidden entries are directories and regular files. -/
def Sys.TellsCopied (hidden : Loc → Bool) (s : Sys) (l : Label) : Prop :=
  s.TellsTypes hidden l ∧ s.HidesCopied hidden l

instance (hidden : Loc → Bool) (s : Sys) (l : Label) : Decidable (s.TellsCopied hidden l) :=
  inferInstanceAs (Decidable (_ ∧ _))

namespace Sys

variable {s s' u u' : Sys} {l : Label} {hidden : Loc → Bool}

/-- A step of `aio_loop` or of the kernel is not seen. -/
lemma seen_aio (hgood : Good s.prog.aio) (hl : l.ofMain = false) (hgo : s.AioGoesOn l)
    (hstep : s.step l = some s') : s'.seen = s.seen := by
  obtain ⟨act, rfl⟩ : ∃ act, l = .aio act := by
    cases l with
    | aio act => exact ⟨act, rfl⟩
    | _ => cases hl
  obtain ⟨hended, hfires, hperm⟩ := fires_of_step hstep
  have hview : s'.prog.view = s.prog.view := by
    refine Prog.view_of_fires hgood hended hfires fun _ _ hafter => ?_
    generalize s'.prog = p' at hfires
    cases hfires with
    | aio _ a ha => exact hgo hafter a ha
    | fail _ hmain => exact absurd rfl (hmain act)
  rw [seen, seen, hview, hperm.cwd, hperm.skeleton_eq (by simp)]

/-- A step of the main thread is seen in the same way wherever it is possible. -/
lemma seen_main (hgood : Good s.prog.aio) (hgood' : Good u.prog.aio) (hseen : s.seen = u.seen)
    (hl : l.ofMain = true) (hstep : s.step l = some s') (hstep' : u.step l = some u') :
    s'.seen = u'.seen := by
  obtain ⟨hended, hfires, hperm⟩ := fires_of_step hstep
  obtain ⟨hended', hfires', hperm'⟩ := fires_of_step hstep'
  simp only [seen, Prod.mk.injEq] at hseen ⊢
  obtain ⟨hview, hcwd, hskel⟩ := hseen
  have haio : ∀ act, l ≠ .aio act := by
    rintro act rfl
    cases hl
  refine ⟨?_, by rw [hperm.cwd, hperm'.cwd, hcwd], ?_⟩
  · rw [Prog.view_of_fires hgood hended hfires fun act h => absurd h (haio act),
      Prog.view_of_fires hgood' hended' hfires' fun act h => absurd h (haio act), hview]
  by_cases hmkdir : l = .mkdir true
  · subst hmkdir
    have hqueue : s.prog.queue = u.prog.queue := congrArg View.queue hview
    generalize s'.world = w at hperm
    generalize u'.world = w' at hperm'
    cases hperm with
    | mkdir curr rest fs' hcurr hok =>
      cases hperm' with
      | mkdir curr' rest' fs'' hcurr' hok' =>
        rw [hqueue, hcurr'] at hcurr
        obtain ⟨rfl, -⟩ := List.cons.inj hcurr
        rw [hcwd] at hok
        exact Fs.skeleton_mkdir hskel hok hok'
      | other _ _ h => exact absurd rfl h
    | other _ _ h => exact absurd rfl h
  · rw [hperm.skeleton_eq hmkdir, hperm'.skeleton_eq hmkdir, hskel]

end Sys

section

variable {fs : Fs} {cwd : Loc} {srcName dstName : CStr} {batchSize : ℤ} {hidden : Loc → Bool}
  {ls ls' : List Label} {s s' : Sys}

/-- The program does the same in both runs, one answer after the other. -/
lemma execOk_hidingStep : execOk (Sys.hidingStep hidden) (Sys.TellsCopied hidden) s ls =
    execOk Sys.step (Sys.TellsCopied hidden) s ls := by
  rw [execOk, execOk]
  congr 1
  funext t l
  by_cases hok : t.TellsCopied hidden l
  · rw [if_pos hok, if_pos hok, Sys.hidingStep_eq hok.1.1 hok.2]
  · rw [if_neg hok, if_neg hok]

/-- **What is seen is determined by the answers to the main thread.** -/
theorem seen_eq_of_execOk
    (h : execOk Sys.step (Sys.TellsCopied hidden) (.init fs cwd srcName dstName batchSize) ls =
      some s)
    (h' : execOk Sys.step (Sys.TellsCopied hidden) (.init fs cwd srcName dstName batchSize) ls' =
      some s') (hmain : ls.filter Label.ofMain = ls'.filter Label.ofMain) : s.seen = s'.seen := by
  have hgood : ∀ {t : Sys}, Reaches Sys.step anyLabel (.init fs cwd srcName dstName batchSize) t →
      Good t.prog.aio := fun ht => Prog.good_of_reaches (Sys.prog_reaches_any ht)
  refine exec_view_eq (J := Reaches Sys.step anyLabel (.init fs cwd srcName dstName batchSize))
    (p := Label.ofMain) (fun ht hstep => ?_) (fun ht hl hstep => ?_)
    (fun ht ht' hseen hl hstep hstep' => ?_) Reaches.refl Reaches.refl rfl h h' hmain
  · obtain ⟨-, hstep⟩ := Option.ite_none_right_eq_some.mp hstep
    exact ht.tail trivial hstep
  · obtain ⟨hok, hstep⟩ := Option.ite_none_right_eq_some.mp hstep
    exact Sys.seen_aio (hgood ht) hl hok.1.2 hstep
  · obtain ⟨-, hstep⟩ := Option.ite_none_right_eq_some.mp hstep
    obtain ⟨-, hstep'⟩ := Option.ite_none_right_eq_some.mp hstep'
    exact Sys.seen_main (hgood ht) (hgood ht') hseen hl hstep hstep'

/-- The outcome of `copy_internal` is seen. -/
lemma Sys.outcome_eq_of_seen (h : s.seen = s'.seen) : s.outcome = s'.outcome := by
  simp only [seen, Prod.mk.injEq] at h
  obtain ⟨hview, -, hskel⟩ := h
  have hpc : s.prog.pc = s'.prog.pc := congrArg View.pc hview
  have hended := congrArg View.ended hview
  simp only [Prog.view, hpc] at hended
  ext1
  · simp only [outcome, Prog.returned, hpc]
    split_ifs with hafter <;> simp_all
  · ext k
    simp only [outcome, Set.mem_ofPred_eq]
    rw [← Fs.skeleton_eq_dir, ← Fs.skeleton_eq_dir, hskel]
  · exact congrArg View.requests hview

/-- When `copy_internal` has ended, a run in which the main thread gets more answers has the
same outcome. -/
lemma outcome_eq_of_isPrefix
    (h : execOk Sys.step (Sys.TellsCopied hidden) (.init fs cwd srcName dstName batchSize) ls =
      some s)
    (h' : execOk Sys.step (Sys.TellsCopied hidden) (.init fs cwd srcName dstName batchSize) ls' =
      some s') (hmain : ls.filter Label.ofMain <+: ls'.filter Label.ofMain)
    (hret : s.prog.returned ≠ none) : s.outcome = s'.outcome := by
  -- the longer run goes on from a state that looks like the end of the shorter one
  obtain ⟨rest, hrest⟩ := hmain
  obtain ⟨before, after, rfl, hbefore, -⟩ := List.filter_eq_append_iff.mp hrest.symm
  rw [execOk, exec_append] at h'
  obtain ⟨u, hu, hafter⟩ := Option.bind_eq_some_iff.mp h'
  have hsame := Sys.outcome_eq_of_seen (seen_eq_of_execOk h hu hbefore.symm)
  have hreturned : s.prog.returned = u.prog.returned := congrArg Outcome.returned hsame
  have hreach : Reaches Sys.step anyLabel _ u := (reaches_of_execOk hu).weaken fun _ _ _ => trivial
  have hgo : Reaches Sys.step anyLabel u s' :=
    (reaches_of_execOk hafter).weaken fun _ _ _ => trivial
  rw [Sys.outcome_of_reaches hreach (hreturned ▸ hret) hgo, hsame]

/-- **The outcome does not depend on the types that `readdir` tells**, in the runs whose
hidden entries are directories and regular files, whatever `aio_loop` and the kernel do. -/
theorem sameOutcome_of_returned
    (h : execOk Sys.step (Sys.TellsCopied hidden) (.init fs cwd srcName dstName batchSize) ls =
      some s)
    (h' : execOk (Sys.hidingStep hidden) (Sys.TellsCopied hidden)
      (.init fs cwd srcName dstName batchSize) ls' = some s')
    (hanswers : ls.filter Label.ofMain <+: ls'.filter Label.ofMain ∨
      ls'.filter Label.ofMain <+: ls.filter Label.ofMain)
    (hret : s.prog.returned ≠ none) (hret' : s'.prog.returned ≠ none) :
    s.outcome = s'.outcome := by
  rw [execOk_hidingStep] at h'
  rcases hanswers with hmain | hmain
  · exact outcome_eq_of_isPrefix h h' hmain hret
  · exact (outcome_eq_of_isPrefix h' h hmain hret').symm

end

/-- The walk over a directory with one file, while `aio_loop` gets around once. -/
def oneFileBusyWalk : List Label :=
  oneFileWalk.take 6 ++ [.aio .lockFlush, .aio (.getEvents []), .aio .checkDone] ++
    (oneFileWalk.drop 6).take 4 ++ [.aio .lockRequest, .aio .readSize, .aio .unlockRequest] ++
    oneFileWalk.drop 10 ++ [.waitLock false]

/-- A walk over a directory with one file, whose type is hidden in the second run, in which
`aio_loop` moves as well. -/
theorem sameOutcome_of_returned_oneFile : ∃ s s' : Sys,
    execOk Sys.step (Sys.TellsCopied fun _ => true) (.init oneFile [] ['s'] ['d'] 1)
      oneFileWalk = some s ∧
    execOk (Sys.hidingStep fun _ => true) (Sys.TellsCopied fun _ => true)
      (.init oneFile [] ['s'] ['d'] 1) oneFileBusyWalk = some s' ∧
    s.prog.returned = some true ∧ s.outcome = s'.outcome := by
  have hrun : (execOk Sys.step (Sys.TellsCopied fun _ => true) (.init oneFile [] ['s'] ['d'] 1)
      oneFileWalk).map (fun s => s.prog.returned) = some (some true) := by
    decide +kernel
  have hrun' : (execOk (Sys.hidingStep fun _ => true) (Sys.TellsCopied fun _ => true)
      (.init oneFile [] ['s'] ['d'] 1) oneFileBusyWalk).map (fun s => s.prog.returned) =
        some (some true) := by
    decide +kernel
  obtain ⟨s, hs, hret⟩ := Option.map_eq_some_iff.mp hrun
  obtain ⟨s', hs', hret'⟩ := Option.map_eq_some_iff.mp hrun'
  exact ⟨s, s', hs, hs', hret,
    sameOutcome_of_returned hs hs' (Or.inl (by decide)) (by simp [hret]) (by simp [hret'])⟩

/-- A file system with one directory `s`, and in it a FIFO `p`. -/
def fifoDir : Fs := emptyDir.create [['s']] ['p'] .fifo entry_emptyDir rfl (by decide)

/-- The walk over `fifoDir` to the entry. -/
def fifoDirWalk : List Label :=
  [.initManager true, .startThread true, .stat (some .dir), .mkdir true, .opendir true,
    .readdir (.entry ['p'] .fifo)]

/-- With the type of the FIFO the process exits with status 1; without it `copy_internal`
returns 0. -/
theorem not_sameOutcome_of_fifo : ¬ ∀ (fs : Fs) (cwd : Loc) (srcName dstName : CStr)
    (batchSize : ℤ) (hidden : Loc → Bool) (ls ls' : List Label) (s s' : Sys),
    execOk Sys.step (Sys.TellsTypes hidden) (.init fs cwd srcName dstName batchSize) ls = some s →
    execOk (Sys.hidingStep hidden) (Sys.TellsTypes hidden)
      (.init fs cwd srcName dstName batchSize) ls' = some s' →
    (ls.filter Label.ofMain <+: ls'.filter Label.ofMain ∨
        ls'.filter Label.ofMain <+: ls.filter Label.ofMain) → s.prog.returned ≠ none →
      s'.prog.returned ≠ none → s.outcome = s'.outcome := by
  intro hall
  have hrun : (execOk Sys.step (Sys.TellsTypes fun _ => true) (.init fifoDir [] ['s'] ['d'] 1)
      fifoDirWalk).map (fun s => s.prog.returned) = some (some false) := by
    decide +kernel
  have hrun' : (execOk (Sys.hidingStep fun _ => true) (Sys.TellsTypes fun _ => true)
      (.init fifoDir [] ['s'] ['d'] 1) (fifoDirWalk ++ [.readdir .finished, .closedir true,
        .stat (some .fifo), .walkEnd])).map (fun s => s.prog.returned) = some (some true) := by
    decide +kernel
  obtain ⟨s, hs, hret⟩ := Option.map_eq_some_iff.mp hrun
  obtain ⟨s', hs', hret'⟩ := Option.map_eq_some_iff.mp hrun'
  have hsame := hall fifoDir [] _ _ 1 (fun _ => true) _ _ s s' hs hs'
    (Or.inl (by decide)) (by simp [hret]) (by simp [hret'])
  have hreturned : s.prog.returned = s'.prog.returned := congrArg Outcome.returned hsame
  simp [hret, hret'] at hreturned

end Cpr
