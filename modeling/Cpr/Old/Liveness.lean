/-
# Every fair run of the old program ends

When no call fails: the walk of the parent takes boundedly many steps, and so does every child,
since the loops on `io_getevents` end when the operation is completed.  So in the end the
parent waits, every child exits, and `main` returns 0 with the copy made.
-/
import Cpr.Lib.Fair
import Cpr.Old.Names
import Cpr.System.Termination
import Mathlib.Data.Set.Finite.Basic
import Mathlib.Order.Filter.Finite

namespace Cpr

open Filter Transition Unix

/-- A step of the parent in `copy_internal`. -/
def OldLabel.ofWalk : OldLabel → Bool
  | .wait _ | .waitEnd | .child _ _ => false
  | _ => true

/-- A step of the parent. -/
def OldLabel.ofParent : OldLabel → Bool
  | .child _ _ => false
  | _ => true

/-- `readdir` returns no name of a directory twice. -/
def OldSys.ListsOnce (o : OldSys) : OldLabel → Prop
  | .readdir (.entry name _) => name ∉ o.world.main.dir.seen
  | _ => True

instance OldSys.decidableListsOnce (o : OldSys) (l : OldLabel) : Decidable (o.ListsOnce l) := by
  induction l using OldLabel.casesOn with
  | readdir answer =>
    induction answer using ReaddirAnswer.casesOn <;> (unfold OldSys.ListsOnce; infer_instance)
  | _ => unfold OldSys.ListsOnce; infer_instance

/-- No call fails, and no name is listed twice. -/
def OldSys.Regular (o : OldSys) (l : OldLabel) : Prop := o.Faultless l ∧ o.ListsOnce l

instance OldSys.decidableRegular (o : OldSys) (l : OldLabel) : Decidable (o.Regular l) :=
  inferInstanceAs (Decidable (_ ∧ _))

/-! ## The steps of the walk -/

section

variable {t : Setting} {o o' : OldSys} {u u' : Sys} {d : Places} {us ls : List Label}
  {call : Label} {l : OldLabel}

/-- The state accounts for the steps of a walk among others. -/
lemma Tour.counted (h : Tour t u d) (hcount : Counted us u d) (honce : u.ListsOnce call)
    (hrest : ∀ l ∈ ls, ∀ s : Sys, s.ListsOnce l)
    (hrun : Transition.exec Sys.step u (call :: ls) = some u')
    (hended : u'.prog.aio.ended = none) :
    Counted (us ++ call :: ls) u' ((call :: ls).foldl Places.after d) := by
  induction ls generalizing us u d call with
  | nil =>
    obtain ⟨v, hv, hvu⟩ := Option.bind_eq_some_iff.mp hrun
    obtain rfl := Option.some.inj hvu
    exact hcount.step h.copying.walk h.run.ready honce hv (Or.inl hended)
  | cons call' ls ih =>
    obtain ⟨v, hv, hrest'⟩ := Option.bind_eq_some_iff.mp hrun
    obtain ⟨w, hw, -⟩ := Option.bind_eq_some_iff.mp hrest'
    -- a process that moves has not ended
    have hgoes := (Sys.fires_of_step hw).1
    have hnext := ih (h.step hv hgoes)
      (hcount.step h.copying.walk h.run.ready honce hv (Or.inl hgoes))
      (hrest call' List.mem_cons_self v) (fun l hl => hrest l (List.mem_cons_of_mem _ hl)) hrest'
    rwa [List.append_assoc] at hnext

/-- Only the place in the program and the stream count. -/
lemma Counted.congr (h : Counted us u d) (hpc : u'.prog.pc = u.prog.pc)
    (hdir : u'.world.dir = u.world.dir) : Counted us u' d where
  seen := hdir ▸ h.seen
  steps := by
    have hbudget : u'.budget d = u.budget d := by
      simp only [Sys.budget, hpc, hdir]
    exact hbudget ▸ h.steps
  start hbefore := h.start (hpc ▸ hbefore)

lemma OldLabel.calls_ne_nil (hl : l.ofWalk = true) : l.calls ≠ [] := by
  cases l <;> simp [ofWalk, calls] at hl ⊢

/-- The walk of `cpr.c` takes at least as many steps. -/
lemma OldLabel.length_calls (hl : l.ofWalk = true) :
    1 ≤ (l.calls.filter Label.ofWalk).length := by
  cases l <;> simp [ofWalk] at hl <;> simp [calls, Label.ofWalk, List.filter_cons]

/-- `readdir` lists for `cpr.c` what it lists for the old program. -/
lemma OldSys.ListsOnce.calls (h : o.ListsOnce l) (hdir : u.world.dir = o.world.main.dir)
    (hcalls : l.calls = call :: ls) :
    u.ListsOnce call ∧ ∀ l' ∈ ls, ∀ s : Sys, s.ListsOnce l' := by
  cases l with
  | readdir answer =>
    obtain ⟨rfl, rfl⟩ := List.cons.inj hcalls
    refine ⟨?_, by simp⟩
    cases answer with
    | entry name dtype =>
      show name ∉ u.world.dir.seen
      rw [hdir]
      exact h
    | _ => trivial
  | fork ok =>
    obtain ⟨rfl, rfl⟩ := List.cons.inj hcalls
    refine ⟨trivial, fun l' hl' s => ?_⟩
    simp only [List.mem_cons, List.not_mem_nil, or_false] at hl'
    rcases hl' with rfl | rfl | rfl | rfl <;> trivial
  | wait | waitEnd | child => cases hcalls
  | _ =>
    obtain ⟨rfl, rfl⟩ := List.cons.inj hcalls
    exact ⟨trivial, by simp⟩

end

/-- The steps of the walk so far are accounted for by a walk of `cpr.c`. -/
def Tally (t : Setting) (ls : List OldLabel) (o : OldSys) : Prop :=
  ∃ u d us, Shadow t o u d ∧ Counted us u d ∧
    (ls.filter OldLabel.ofWalk).length ≤ (us.filter Label.ofWalk).length

namespace Tally

variable {t : Task} {o o' : OldSys} {l : OldLabel} {ls : List OldLabel}

lemma init (t : Setting) : Tally t [] t.oldInit := by
  obtain ⟨u, hs⟩ := Shadow.init t
  refine ⟨u, _, [], hs, ⟨?_, Nat.zero_le _, fun hbefore => ?_⟩, Nat.zero_le _⟩
  · rw [hs.world]
    exact List.nodup_nil
  · rw [hs.pc] at hbefore
    cases hbefore

/-- A step outside the walk. -/
lemma other (h : Tally t.toSetting ls o) (hl : l.ofWalk = false) (hdata : OldData t.toSetting o)
    (hok : o.Faultless l) (hstep : o.step l = some o') :
    Tally t.toSetting (ls ++ [l]) o' := by
  obtain ⟨u, d, us, hs, hcount, hle⟩ := h
  obtain ⟨hprog, hfires, hafter⟩ := OldSys.fires_of_step hstep
  obtain ⟨u', hs', hpc, hdir⟩ : ∃ u', Shadow t.toSetting o' u' d ∧ o'.prog.pc = o.prog.pc ∧
      o'.world.main.dir = o.world.main.dir := by
    obtain ⟨p', w'⟩ := o'
    dsimp only at hfires hafter
    by_cases hchild : ∃ i act, l = .child i act
    · obtain ⟨i, act, rfl⟩ := hchild
      obtain ⟨u', hs', -⟩ := hdata.child hs hok hstep
      obtain ⟨c, v, -, -, rfl⟩ := OldWorld.after_child hafter
      refine ⟨u', hs', ?_, rfl⟩
      cases hfires with
      | fail _ _ hfails => exact hfails.elim
      | child => rfl
    · have hparent : ∀ i act, l ≠ .child i act := fun i act heq => hchild ⟨i, act, heq⟩
      have hidle : l.calls = [] := by
        cases l <;> simp [OldLabel.ofWalk] at hl <;> rfl
      obtain ⟨u', hs'⟩ := hs.idle hidle hok hparent hstep
      have hmain := (OldWorld.after_parent hafter hparent).1
      refine ⟨u', hs', ?_, ?_⟩
      · cases hfires with
        | fail | wait | waitEnd | child => rfl
        | _ => simp [OldLabel.calls] at hidle
      · cases l <;> simp [OldLabel.ofWalk] at hl
        all_goals exact congrArg World.dir (Option.some.inj hmain).symm
  refine ⟨u', d, us, hs', hcount.congr ?_ ?_, ?_⟩
  · rw [hs'.pc, hpc, hs.pc]
  · rw [hs'.world, hdir, hs.world]
  · rwa [List.filter_append, List.filter_cons_of_neg (by simp [hl]), List.filter_nil,
      List.append_nil]

/-- A step of the walk. -/
lemma walk (h : Tally t.toSetting ls o) (hl : l.ofWalk = true) (hok : o.Regular l)
    (hstep : o.step l = some o') : Tally t.toSetting (ls ++ [l]) o' := by
  obtain ⟨u, d, us, hs, hcount, hle⟩ := h
  have hne := OldLabel.calls_ne_nil hl
  have hone := OldLabel.length_calls hl
  obtain ⟨u', hrun, hs'⟩ := hs.parent_exec hok.1 hne hstep
  obtain ⟨call, rest, hcalls⟩ := List.exists_cons_of_ne_nil hne
  obtain ⟨honce, hrest⟩ := hok.2.calls (congrArg World.dir hs.world) hcalls
  rw [hcalls] at hrun hone hs'
  refine ⟨u', _, _, hs', hs.toTour.counted hcount honce hrest hrun hs'.running, ?_⟩
  rw [List.filter_append, List.filter_append, List.length_append, List.length_append,
    List.filter_cons_of_pos hl]
  exact Nat.add_le_add hle hone

theorem of_execOk {t : Task} (h : execOk OldSys.step OldSys.Regular t.oldInit ls = some o) :
    Tally t.toSetting ls o := by
  refine execOk_invariant (I := fun ls o => Tally t.toSetting ls o)
    (fun {ls o l o'} hls htally hok hstep => ?_) h (init _)
  have hreach : Reaches OldSys.step OldSys.Faultless t.oldInit o :=
    (reaches_of_execOk hls).weaken fun _ _ h => h.1
  obtain ⟨-, -, -, hdata⟩ := OldData.of_reaches hreach
  cases hl : l.ofWalk with
  | false => exact htally.other hl hdata hok.1 hstep
  | true => exact htally.walk hl hok hstep

/-- **The walk of the parent is bounded**, over all runs. -/
lemma length_le (h : Tally t.toSetting ls o) :
    (ls.filter OldLabel.ofWalk).length ≤ 8 * t.fs.dom.card + 9 := by
  obtain ⟨u, d, us, hs, hcount, hle⟩ := h
  exact hle.trans (hcount.steps.trans (hs.copying.budget_le hcount.seen))

end Tally

/-! ## The steps of the parent -/

/-- What the parent did outside its walk: it has waited for some of the children. -/
structure Spent (ls : List OldLabel) (p : OldProg) : Prop where
  steps : (ls.filter OldLabel.ofParent).length ≤ (ls.filter OldLabel.ofWalk).length +
    p.waited.length + if p.ended.isSome then 1 else 0
  nodup : p.waited.Nodup
  known : ∀ i ∈ p.waited, i < p.children.length
  children : p.children.length ≤ (ls.filter OldLabel.ofWalk).length

namespace Spent

variable {p p' : OldProg} {l : OldLabel} {ls : List OldLabel}

lemma init (srcName dstName : CStr) : Spent [] (.init srcName dstName) := by
  constructor <;> simp [OldProg.init]

lemma advance (h : Spent ls p) (hnodup : p'.waited.Nodup)
    (hknown : ∀ i ∈ p'.waited, i < p'.children.length)
    (hsteps : p.waited.length + (if p.ended.isSome then 1 else 0) + (if l.ofParent then 1 else 0) ≤
      p'.waited.length + (if p'.ended.isSome then 1 else 0) + if l.ofWalk then 1 else 0)
    (hchildren : p'.children.length ≤ p.children.length + if l.ofWalk then 1 else 0) :
    Spent (ls ++ [l]) p' := by
  have hconcat (f : OldLabel → Bool) : ((ls ++ [l]).filter f).length =
      (ls.filter f).length + if f l then 1 else 0 := by
    rw [List.filter_append, List.length_append]
    cases h : f l <;> simp [h]
  have hsteps' := h.steps
  have hchildren' := h.children
  refine ⟨?_, hnodup, hknown, ?_⟩ <;> rw [hconcat]
  · rw [hconcat]
    omega
  · omega

lemma step (h : Spent ls p) (hfires : p.Fires l p') (hok : ¬ l.Fails) : Spent (ls ++ [l]) p' := by
  cases hfires with
  | fail _ _ hfails => exact absurd hfails hok
  | child i act c c' =>
    refine h.advance h.nodup (fun j hj => ?_) (by simp [OldLabel.ofWalk, OldLabel.ofParent])
      (by simp)
    rw [List.length_set]
    exact h.known j hj
  | fork curr rest ok =>
    refine h.advance h.nodup (fun j hj => ?_) le_rfl ?_
    · have hlt := h.known j hj
      cases ok <;> simp [OldProg.copyReg] <;> omega
    · cases ok <;> simp [OldLabel.ofWalk, OldProg.copyReg]
  | wait i c _ _ hc _ hnew =>
    refine h.advance (List.nodup_cons.mpr ⟨hnew, h.nodup⟩) (fun j hj => ?_) ?_ (by simp)
    swap
    · exact (Nat.add_right_comm _ _ _).le
    rcases List.mem_cons.mp hj with rfl | hj
    · exact (List.getElem?_eq_some_iff.mp hc).1
    · exact h.known j hj
  | waitEnd hended =>
    exact h.advance h.nodup h.known
      (by simp [OldLabel.ofWalk, OldLabel.ofParent, OldProg.exit, hended]) (by simp [OldProg.exit])
  | _ => exact h.advance h.nodup h.known le_rfl (Nat.le_add_right _ _)

lemma length_waited_le (h : Spent ls p) : p.waited.length ≤ p.children.length := by
  have hsub : p.waited ⊆ List.range p.children.length := fun i hi =>
    List.mem_range.mpr (h.known i hi)
  simpa using (h.nodup.subperm hsub).length_le

theorem of_execOk {t : Task} {o : OldSys}
    (h : execOk OldSys.step OldSys.Regular t.oldInit ls = some o) : Spent ls o.prog := by
  refine execOk_invariant (I := fun ls o => Spent ls o.prog)
    (fun {ls o l o'} _ hspent hok hstep => ?_) h (init _ _)
  exact hspent.step (OldSys.fires_of_step hstep).2.1 hok.1.not_fails

end Spent

/-- **The steps of the parent are bounded**, over all runs. -/
theorem Task.old_steps_le {t : Task} {o : OldSys} {ls : List OldLabel}
    (h : execOk OldSys.step OldSys.Regular t.oldInit ls = some o) :
    (ls.filter OldLabel.ofParent).length ≤ 16 * t.fs.dom.card + 19 := by
  have hspent := Spent.of_execOk h
  have hwalk := (Tally.of_execOk h).length_le
  have hsteps := hspent.steps
  have hwaited := hspent.length_waited_le
  have hchildren := hspent.children
  split_ifs at hsteps <;> omega

/-! ## The steps of a child -/

/-- How far a child is from its end. -/
def ChildPc.rank : ChildPc → ℕ
  | .ioSetup => 8
  | .openSrc => 7
  | .readSubmit => 6
  | .readSpin => 5
  | .openDst => 4
  | .writeSubmit => 3
  | .writeSpin => 2
  | .ioDestroy => 1
  | .exited => 0

/-- How many steps there are left, the completion of what is in flight included. -/
def Child.rank (c : Child) : ℕ := 2 * c.pc.rank + c.flight.countP fun op => op.result.isNone

namespace Child

variable {c c' : Child} {act : ChildAct}

lemma rank_exit (hpc : c.pc ≠ .exited) (ret : ℤ) : (c.exit ret).rank < c.rank := by
  have hpos : 0 < c.pc.rank := by
    cases hc : c.pc <;> simp_all [ChildPc.rank]
  show 2 * 0 + c.flight.countP _ < 2 * c.pc.rank + c.flight.countP _
  omega

lemma countP_left_le (e : IoEvent) (returned : Bool) (f : Op → Bool) :
    (c.left e returned).countP f ≤ c.flight.countP f := by
  rw [left]
  split_ifs
  · exact List.erase_sublist.countP_le
  · exact le_rfl

lemma rank_submit {next : ChildPc} {ret : ℤ} {req : Iocb} (hpc : c.pc.rank = next.rank + 1) :
    (c.submit ret req next).rank < c.rank := by
  rw [submit]
  split_ifs
  · refine rank_exit (fun hexited => ?_) _
    simp [hexited, ChildPc.rank] at hpc
  · simp only [rank, Op.pending, List.countP_cons, Option.isNone_none, if_true, hpc]
    omega

lemma rank_complete {op : Iocb} {res : ℕ} (hmem : .pending op ∈ c.flight) :
    (c.complete op res).rank < c.rank := by
  have hpos : 0 < c.flight.countP fun op => op.result.isNone :=
    List.countP_pos_iff.mpr ⟨_, hmem, rfl⟩
  have herase : (c.flight.erase (.pending op)).countP (fun op => op.result.isNone) =
      (c.flight.countP fun op => op.result.isNone) - 1 := by
    rw [List.countP_erase, if_pos ⟨hmem, rfl⟩]
  rw [rank, rank, complete, List.countP_cons_of_neg (by simp), herase]
  dsimp only
  omega

/-- Each step of a child takes it closer to its end. -/
lemma rank_lt (h : Fires c act c') : c'.rank < c.rank := by
  have hexited := not_exited_of_fires h
  cases h with
  | ioSetup hpc => simp [rank, hpc, ChildPc.rank]
  | ioSetupFail | ioDestroy => exact rank_exit hexited _
  | openSrc o hpc =>
    rw [openSrc]
    by_cases hfd : o.fd < 0
    · rw [if_pos hfd]
      exact rank_exit hexited _
    rw [if_neg hfd]
    cases o.stSize with
    | none => exact rank_exit hexited _
    | some n =>
      dsimp only
      by_cases hbuf : o.buf = 0
      · rw [if_pos hbuf]
        exact rank_exit hexited _
      · simp [rank, hpc, hbuf, ChildPc.rank]
  | readSubmit ret hpc => exact rank_submit (by rw [hpc]; rfl)
  | writeSubmit ret hpc => exact rank_submit (by rw [hpc]; rfl)
  | openDst fd hpc =>
    rw [openDst]
    split_ifs
    · exact rank_exit hexited _
    · simp [rank, hpc, ChildPc.rank]
  | readReap e returned hpc =>
    have hle := c.countP_left_le e returned fun op => op.result.isNone
    rw [readReap_eq]
    simp only [rank, hpc, ChildPc.rank]
    omega
  | writeReap e returned hpc =>
    have hle := c.countP_left_le e returned fun op => op.result.isNone
    rw [writeReap_eq]
    simp only [rank, hpc, ChildPc.rank]
    omega
  | complete op res _ hmem => exact rank_complete hmem

end Child

/-- The rank of the child `i`. -/
def OldSys.rank (i : ℕ) (o : OldSys) : ℕ := (o.prog.children[i]?).elim 0 Child.rank

/-! ## Fairness -/

/-- A child takes a step itself; at a loop on `io_getevents` that is when an event ends it. -/
def ChildAct.ofChild : ChildAct → Bool
  | .complete _ _ => false
  | .readReap _ returned | .writeReap _ returned => returned
  | _ => true

/-- Those who take steps: the parent, the children, and the kernel for each child. -/
inductive OldParty
  | parent
  | child (i : ℕ)
  | kernel (i : ℕ)

/-- A step is one of a party. -/
def OldParty.Takes : OldParty → OldLabel → Prop
  | .parent, l => l.ofParent = true
  | .child i, .child j act => j = i ∧ act.ofChild = true
  | .kernel i, .child j (.complete _ _) => j = i
  | _, _ => False

/-- Every process goes on, and the kernel completes the operations of every child. -/
def OldFair {ok : OldSys → OldLabel → Prop} {o : OldSys} (path : Path OldSys.step ok o) : Prop :=
  ∀ party : OldParty, path.Fair party.Takes

/-! ## Who can move -/

section

variable {t : Setting} {o o' : OldSys} {u : Sys} {d : Places} {l : OldLabel} {i j : ℕ} {c : Child}
  {act : ChildAct} {fs : Fs} {proc : Proc} {rel : Loc}

lemma OldSys.isSome_step_child (hc : o.prog.children[i]? = some c) (hstep : (c.step act).isSome)
    (hafter : ((o.world.ofChild i).afterChild c act).isSome) :
    (o.step (.child i act)).isSome := by
  obtain ⟨c', hc'⟩ := Option.isSome_iff_exists.mp hstep
  obtain ⟨v, hv⟩ := Option.isSome_iff_exists.mp hafter
  simp [step, OldProg.step, OldWorld.after, hc, hc', hv]

lemma OldSys.isSome_step_parent (hended : o.prog.ended = none) (hl : l.ofParent = true)
    (hstep : (o.prog.mainStep l).isSome) (hafter : (o.world.main.afterParent o.prog l).isSome) :
    (o.step l).isSome := by
  obtain ⟨p, hp⟩ := Option.isSome_iff_exists.mp hstep
  obtain ⟨v, hv⟩ := Option.isSome_iff_exists.mp hafter
  cases l with
  | child => cases hl
  | _ => simp [step, OldProg.step, OldWorld.after, hended, hp, hv]

/-- A child that has not exited can move, or waits for the kernel. -/
lemma ChildStage.live (h : ChildStage t fs proc c rel c.pc) (hpc : c.pc ≠ .exited) :
    ∃ act : ChildAct, (act.ofChild = true ∨ ∃ op n, act = .complete op n) ∧ (c.step act).isSome ∧
      ∀ w : World, (w.afterChild c act).isSome := by
  generalize hpc' : c.pc = pc at h
  cases h with
  | ioSetup => exact ⟨.ioSetup false, Or.inl rfl, by simp [Child.step, hpc'], fun _ => rfl⟩
  | openSrc =>
    exact ⟨.openSrc ⟨-1, none, 0⟩, Or.inl rfl, by simp [Child.step, Child.Possible, hpc'],
      fun _ => rfl⟩
  | readSubmit => exact ⟨.readSubmit 0, Or.inl rfl, by simp [Child.step, hpc'], fun _ => rfl⟩
  | openDst => exact ⟨.openDst (-1), Or.inl rfl, by simp [Child.step, hpc'], fun _ => rfl⟩
  | writeSubmit => exact ⟨.writeSubmit 0, Or.inl rfl, by simp [Child.step, hpc'], fun _ => rfl⟩
  | ioDestroy => exact ⟨.ioDestroy true, Or.inl rfl, by simp [Child.step, hpc'], fun _ => rfl⟩
  | exited => exact absurd hpc' hpc
  | reading _ _ flight =>
    exact ⟨.complete c.readReq 0, Or.inr ⟨_, _, rfl⟩, by simp [Child.step, hpc', flight],
      fun _ => rfl⟩
  | writing _ _ _ _ flight =>
    exact ⟨.complete c.writeReq 0, Or.inr ⟨_, _, rfl⟩, by simp [Child.step, hpc', flight],
      fun _ => rfl⟩
  | read res _ _ flight =>
    exact ⟨.readReap ⟨c.readReq, res⟩ true, Or.inl rfl,
      by simp [Child.step, Child.Fills, IoEvent.op, hpc', flight], fun _ => rfl⟩
  | wrote res _ flight =>
    exact ⟨.writeReap ⟨c.writeReq, res⟩ true, Or.inl rfl,
      by simp [Child.step, Child.Fills, IoEvent.op, hpc', flight], fun _ => rfl⟩

/-- The parent can move, or waits for a child. -/
lemma Shadow.parent_live (h : Shadow t o u d) (hended : o.prog.ended = none) :
    (∃ l : OldLabel, l.ofParent = true ∧ (o.step l).isSome) ∨
      ∃ (i : ℕ) (c : Child), o.prog.children[i]? = some c ∧ c.pc ≠ .exited := by
  have hlive : ∀ l : OldLabel, l.ofParent = true → (o.prog.mainStep l).isSome →
      (o.world.main.afterParent o.prog l).isSome →
        ∃ l : OldLabel, l.ofParent = true ∧ (o.step l).isSome :=
    fun l hl hstep hafter => ⟨l, hl, OldSys.isSome_step_parent hended hl hstep hafter⟩
  have hqueue : o.prog.pc.call.inBody = true → ∃ curr rest, o.prog.queue = curr :: rest := by
    intro hbody
    rw [← h.queue]
    exact List.exists_cons_of_ne_nil (h.run.ready.inBody (h.pc ▸ hbody))
  cases hpc : o.prog.pc with
  | walk =>
    refine Or.inl ?_
    by_cases hnil : o.prog.queue = []
    · exact hlive .walkEnd rfl (by simp [OldProg.mainStep, hpc, hnil]) rfl
    · exact hlive (.stat none) rfl (by simp [OldProg.mainStep, hpc, hnil]) rfl
  | mkdir => exact Or.inl (hlive (.mkdir false) rfl (by simp [OldProg.mainStep, hpc]) rfl)
  | opendir => exact Or.inl (hlive (.opendir false) rfl (by simp [OldProg.mainStep, hpc]) rfl)
  | closedir => exact Or.inl (hlive (.closedir true) rfl (by simp [OldProg.mainStep, hpc]) rfl)
  | readdir =>
    obtain ⟨curr, rest, hcurr⟩ := hqueue (by rw [hpc]; rfl)
    exact Or.inl (hlive (.readdir .failed) rfl (by simp [OldProg.mainStep, hpc, hcurr]) rfl)
  | fork =>
    obtain ⟨curr, rest, hcurr⟩ := hqueue (by rw [hpc]; rfl)
    exact Or.inl (hlive (.fork true) rfl (by simp [OldProg.mainStep, hpc, hcurr]) rfl)
  | wait =>
    by_cases hall : ∀ i < o.prog.children.length, i ∈ o.prog.waited
    · refine Or.inl (hlive .waitEnd rfl ?_ rfl)
      rw [OldProg.mainStep, if_pos ⟨hpc, hall⟩]
      rfl
    obtain ⟨i, hi, hnew⟩ : ∃ i, i < o.prog.children.length ∧ i ∉ o.prog.waited := by
      simpa only [not_forall, exists_prop] using hall
    have hc := List.getElem?_eq_getElem hi
    by_cases hexited : (o.prog.children[i]).pc = .exited
    · exact Or.inl (hlive (.wait i) rfl (by simp [OldProg.mainStep, hpc, hc, hexited, hnew]) rfl)
    · exact Or.inr ⟨i, _, hc, hexited⟩

/-- Only the steps of a child, and those of the kernel for it, change its rank. -/
lemma OldSys.rank_step (h : o.step (.child j act) = some o') :
    (j = i → o'.rank i < o.rank i) ∧ (j ≠ i → o'.rank i = o.rank i) := by
  have hfires := (fires_of_step h).2.1
  generalize hp : o'.prog = p' at hfires
  cases hfires with
  | fail _ _ hfails => exact hfails.elim
  | child _ _ c c' hc hfires =>
    refine ⟨?_, fun hne => ?_⟩
    · rintro rfl
      obtain ⟨hlt, -⟩ := List.getElem?_eq_some_iff.mp hc
      rw [rank, rank, hp, List.getElem?_set_self hlt, hc]
      exact Child.rank_lt hfires
    · rw [rank, rank, hp, List.getElem?_set_ne hne]

end

/-! ## Fair runs -/

section

variable {t : Task} {ok : OldSys → OldLabel → Prop} {path : Path OldSys.step ok t.oldInit} {n N : ℕ}

/-- The parent stops. -/
lemma eventually_not_parent (hok : ∀ o l, ok o l → o.Regular l) :
    ∀ᶠ n in atTop, ¬ path.Moves (fun l => l.ofParent = true) n := by
  refine Path.eventually_not_moves (B := 16 * t.fs.dom.card + 19) fun n => ?_
  rw [show (fun l : OldLabel => decide (l.ofParent = true)) = OldLabel.ofParent from
    funext fun l => Bool.decide_eq_true]
  exact Task.old_steps_le ((path.weaken hok).execOk_labels n)

/-- So every child stops. -/
lemma eventually_not_child (hstill : ∀ᶠ n in atTop, ¬ path.Moves (fun l => l.ofParent = true) n)
    (i : ℕ) : ∀ᶠ n in atTop, ¬ path.Moves (fun l => ∃ act, l = .child i act) n := by
  obtain ⟨N, hN⟩ := eventually_atTop.mp hstill
  by_contra hfreq
  refine frequently_false atTop (Path.frequently_of_rank wellFounded_lt (OldSys.rank i)
    (Q := fun _ => False) (N := N) hfreq (fun n hn hnot => ?_) fun n _ hmove _ => Or.inr ?_)
  · cases hl : path.label n with
    | none => rw [path.idles n hl]
    | some l =>
      have hstep := (path.moves n l hl).2
      cases l with
      | child j act => exact (OldSys.rank_step hstep).2 fun h => hnot ⟨_, hl, act, by rw [h]⟩
      | _ => exact absurd ⟨_, hl, rfl⟩ (hN n hn)
  · obtain ⟨_, hl, act, rfl⟩ := hmove
    exact (OldSys.rank_step (path.moves n _ hl).2).1 rfl

namespace OldFair

/-- A child that has stopped could not have gone on. -/
lemma eventually_not_canMove (hfair : OldFair path) {P : OldLabel → Prop} (party : OldParty)
    (hP : ∀ l, party.Takes l → P l) (hstill : ∀ᶠ n in atTop, ¬ path.Moves P n) :
    ∀ᶠ n in atTop, ¬ path.CanMove party.Takes n := by
  by_contra hcan
  refine hfair party hcan (hstill.mono fun n hn hmove => hn ?_)
  obtain ⟨l, hl, htakes⟩ := hmove
  exact ⟨l, hl, hP l htakes⟩

/-- **Every child exits.** -/
theorem eventually_exited (hfair : OldFair path) (hok : ∀ o l, ok o l → o.Regular l) (i : ℕ) :
    ∀ᶠ n in atTop, ∀ c, (path.state n).prog.children[i]? = some c → c.pc = .exited := by
  have hstill : ∀ᶠ n in atTop, ¬ path.Moves (fun l => ∃ act, l = .child i act) n :=
    eventually_not_child (eventually_not_parent hok) i
  have hchild := hfair.eventually_not_canMove (.child i) (fun l hl => by
    cases l with
    | child j act => exact ⟨act, by rw [hl.1]⟩
    | _ => exact hl.elim) hstill
  have hkernel := hfair.eventually_not_canMove (.kernel i) (fun l hl => by
    cases l with
    | child j act =>
      cases act with
      | complete op res =>
        obtain rfl : j = i := hl
        exact ⟨_, rfl⟩
      | _ => exact hl.elim
    | _ => exact hl.elim) hstill
  filter_upwards [hchild, hkernel] with n hchild hkernel c hc
  by_contra hpc
  obtain ⟨u, d, hs, hdata⟩ := OldData.of_reaches
    ((path.reaches n).weaken fun o l h => (hok o l h).1)
  obtain ⟨rel, -, hreg, hnode⟩ := hs.exists_place (List.mem_of_getElem? hc)
  obtain ⟨act, hact, hstep, hafter⟩ := (hdata.stage i c rel hc hnode hreg).live hpc
  have hsome := OldSys.isSome_step_child hc hstep (hafter _)
  rcases hact with hact | ⟨op, res, rfl⟩
  · exact hchild ⟨.child i act, ⟨rfl, hact⟩, hsome⟩
  · exact hkernel ⟨.child i (.complete op res), rfl, hsome⟩

/-- **The old program ends.** -/
theorem exists_ended (hfair : OldFair path) (hok : ∀ o l, ok o l → o.Regular l) :
    ∃ n r, (path.state n).prog.ended = some r := by
  by_contra hnot
  have hrun : ∀ n, (path.state n).prog.ended = none := fun n =>
    Option.eq_none_iff_forall_ne_some.mpr fun r hr => hnot ⟨n, r, hr⟩
  have hcannot := hfair.eventually_not_canMove .parent (fun _ h => h)
    (eventually_not_parent hok)
  -- there are few children
  have hexited := (eventually_all_finite (Set.finite_lt_nat (8 * t.fs.dom.card + 9))).mpr
    fun i _ => hfair.eventually_exited hok i
  obtain ⟨n, hcannot, hexited⟩ := (hcannot.and hexited).exists
  obtain ⟨u, d, hs, -⟩ := OldData.of_reaches ((path.reaches n).weaken fun o l h => (hok o l h).1)
  rcases hs.parent_live (hrun n) with ⟨l, hl, hsome⟩ | ⟨i, c, hc, hpc⟩
  · exact hcannot ⟨l, hl, hsome⟩
  · have hlabels := (path.weaken hok).execOk_labels n
    have hlt := (List.getElem?_eq_some_iff.mp hc).1
    refine hpc (hexited i ?_ c hc)
    exact (hlt.trans_le (Spent.of_execOk hlabels).children).trans_le
      (Tally.of_execOk hlabels).length_le

end OldFair

/-- Every fair run without a fault ends with status 0, and then every child has exited, the copy is
there, and the rest of the file system is as it was. -/
theorem old_copied_of_fair (hok : ∀ o l, ok o l → o.Regular l) (hfair : OldFair path) :
    ∃ n, (path.state n).prog.ended = some 0 ∧
      (∀ c ∈ (path.state n).prog.children, c.pc = .exited) ∧
      (∀ rel, (path.state n).world.main.fs.entry (rel ++ t.target) = t.copyOf rel) ∧
      ∀ l, ¬ t.target <:+ l → (path.state n).world.main.fs.entry l = t.fs.entry l := by
  obtain ⟨n, r, hended⟩ := hfair.exists_ended hok
  have hreach : Reaches OldSys.step OldSys.Faultless t.oldInit (path.state n) :=
    (path.reaches n).weaken fun o l h => (hok o l h).1
  obtain ⟨rfl, hcopy⟩ := old_copyOf_of_reaches hreach hended
  have hexited := (Attended.of_reaches (OldSys.prog_reaches hreach)).exited hended
  obtain ⟨u, d, hs, -⟩ := OldData.of_reaches hreach
  refine ⟨n, hended, hexited, hcopy, fun l hl => ?_⟩
  rw [← hs.world]
  exact hs.copying.tree.toConfined.frame l hl

end

/-! ## With the heap -/

/-- No call fails, and no name is listed twice. -/
def OldHeap.Regular (o : OldHeap) : Option OldLabel → Prop
  | some l => o.sys.Regular l
  | none => True

instance OldHeap.decidableRegular (o : OldHeap) : (a : Option OldLabel) → Decidable (o.Regular a)
  | some l => OldSys.decidableRegular o.sys l
  | none => .isTrue trivial

lemma OldHeap.Regular.faultless {o : OldHeap} {a : Option OldLabel} (h : o.Regular a) :
    o.Faultless a := by
  cases a with
  | none => trivial
  | some l => exact h.1

section

variable {t : Task} {usable : ℕ → ℕ} {ok : OldHeap → Option OldLabel → Prop}
  {path : Path (OldHeap.step usable) ok (t.oldHeap usable)}

/-- Every process goes on, and the kernel completes the operations of every child; the allocator
need not abort anything. -/
def OldHeapFair (path : Path (OldHeap.step usable) ok (t.oldHeap usable)) : Prop :=
  ∀ party : OldParty, path.Fair fun a => ∃ l ∈ a, party.Takes l

/-- The run of the program in a run with its heap. -/
def OldHeap.sysPath (path : Path (OldHeap.step usable) ok (t.oldHeap usable))
    (hok : ∀ o a, ok o a → o.Regular a) : Path OldSys.step OldSys.Regular t.oldInit where
  state n := (path.state n).sys
  label n := (path.label n).join
  start := by rw [path.start]; rfl
  idles n hn := by
    cases ha : path.label n with
    | none => rw [path.idles n ha]
    | some a =>
      obtain rfl : a = none := by simpa [ha] using hn
      rcases OldHeap.step_cases (path.moves n none ha).2 with ⟨l, s, hl, -⟩ | ⟨-, -, -, heq⟩
      · cases hl
      · rw [heq]
  moves n l hl := by
    have ha : path.label n = some (some l) := Option.join_eq_some_iff.mp hl
    obtain ⟨hregular, hstep⟩ := path.moves n _ ha
    rcases OldHeap.step_cases hstep with ⟨l', s, hl', -, hs, heq⟩ | ⟨hnone, -⟩
    · obtain rfl := Option.some.inj hl'
      exact ⟨hok _ _ hregular, by rw [heq]; exact hs⟩
    · cases hnone

/-- While the heap is intact, the program with its heap can do what the program can. -/
lemma OldHeapFair.sysPath (hfair : OldHeapFair path) (hok : ∀ o a, ok o a → o.Regular a)
    (hintact : ∀ n, (path.state n).aborted = false) : OldFair (OldHeap.sysPath path hok) := by
  intro party hcan
  refine (hfair party (hcan.mono fun n ⟨l, htakes, hsome⟩ => ?_)).mono fun n hmoves => ?_
  · refine ⟨some l, ⟨l, rfl, htakes⟩, ?_⟩
    rw [OldHeap.step, if_pos (Or.inl (hintact n)), Option.isSome_map]
    exact hsome
  · obtain ⟨a, ha, l, hl, htakes⟩ := hmoves
    obtain rfl : a = some l := hl
    exact ⟨l, Option.join_eq_some_iff.mpr ha, htakes⟩

/-- **Total correctness of the old program** for names that fit: in every fair run without a fault
the heap stays intact and `main` returns 0, and then every child has exited, the copy is there, and
the rest of the file system is as it was. -/
theorem heap_copied_of_fair (hfit : t.NamesFit usable) (hok : ∀ o a, ok o a → o.Regular a)
    (hfair : OldHeapFair path) :
    (∀ n, (path.state n).intact = true) ∧ ∃ n, (path.state n).ended = some (.exited 0) ∧
      (∀ c ∈ (path.state n).sys.prog.children, c.pc = .exited) ∧
      (∀ rel, (path.state n).sys.world.main.fs.entry (rel ++ t.target) = t.copyOf rel) ∧
      ∀ l, ¬ t.target <:+ l → (path.state n).sys.world.main.fs.entry l = t.fs.entry l := by
  have hnamed : ∀ n, ∃ u d, Named t usable (path.state n) u d := fun n =>
    Named.of_reaches ((path.reaches n).weaken fun o a h => (hok o a h).faultless)
  have hintact : ∀ n, (path.state n).intact = true := fun n => by
    obtain ⟨u, d, h⟩ := hnamed n
    exact h.intact_of_namesFit hfit
  have hrun : ∀ n, (path.state n).aborted = false := fun n => by
    obtain ⟨u, d, h⟩ := hnamed n
    by_contra hab
    have hdamaged := h.aborted (by simpa using hab)
    rw [hintact n] at hdamaged
    cases hdamaged
  obtain ⟨n, hended, hrest⟩ := old_copied_of_fair (fun _ _ h => h) (hfair.sysPath hok hrun)
  exact ⟨hintact, n, OldHeap.ended_eq_exited.mpr ⟨hrun n, hended⟩, hrest⟩

/-- A run that ended, and idling after it, is fair. -/
lemma OldHeapFair.ofExec [∀ o a, Decidable (ok o a)] {o : OldHeap} {as : List (Option OldLabel)}
    (h : execOk (OldHeap.step usable) ok (t.oldHeap usable) as = some o)
    (hended : o.sys.prog.ended ≠ none) (hexited : ∀ c ∈ o.sys.prog.children, c.pc = .exited) :
    OldHeapFair (Path.ofExec as (by rw [h]; rfl) :
      Path (OldHeap.step usable) ok (t.oldHeap usable)) := by
  refine fun party => Path.fair_of_not_canMove (eventually_atTop.mpr ⟨as.length, ?_⟩)
  rintro n hn ⟨a, ⟨l, hl, -⟩, hsome⟩
  obtain rfl : a = some l := hl
  rw [Path.ofExec_state h hn] at hsome
  obtain ⟨o', ho'⟩ := Option.isSome_iff_exists.mp hsome
  rcases OldHeap.step_cases ho' with ⟨l', s, hl', -, hs, -⟩ | ⟨hnone, -⟩
  · have hfires := (OldSys.fires_of_step hs).2.1
    generalize s.prog = p at hfires
    cases hfires with
    | child i act c c' hc hfires =>
      exact Child.not_exited_of_fires hfires (hexited c (List.mem_of_getElem? hc))
    | _ => exact hended ‹_›
  · cases hnone

end

/-- The copy of a directory with one file of three bytes ends. -/
theorem heap_copied_of_fair_oneFile :
    ∃ path : Path (OldHeap.step usableSize) OldHeap.Regular (oneFileTask.oldHeap usableSize),
      OldHeapFair path ∧ (∀ n, (path.state n).intact = true) ∧
      ∃ n, (path.state n).ended = some (.exited 0) ∧
        (∀ c ∈ (path.state n).sys.prog.children, c.pc = .exited) ∧
        (∀ rel, (path.state n).sys.world.main.fs.entry (rel ++ oneFileTask.target) =
          oneFileTask.copyOf rel) ∧
        ∀ l, ¬ oneFileTask.target <:+ l →
          (path.state n).sys.world.main.fs.entry l = oneFileTask.fs.entry l := by
  have hrun : (execOk (OldHeap.step usableSize) OldHeap.Regular (oneFileTask.oldHeap usableSize)
      (oneFileOld.map some)).map (fun o => (o.sys.prog.ended, o.sys.prog.children.map Child.pc)) =
        some (some 0, [.exited]) := by
    decide +kernel
  obtain ⟨o, ho, hfacts⟩ := Option.map_eq_some_iff.mp hrun
  obtain ⟨hended, hpcs⟩ := Prod.mk.inj hfacts
  have hfair := OldHeapFair.ofExec ho (by simp [hended]) fun c hc => by
    simpa [hpcs] using List.mem_map_of_mem (f := Child.pc) hc
  exact ⟨_, hfair, heap_copied_of_fair oneFileTask_namesFit (fun _ _ h => h) hfair⟩

end Cpr
