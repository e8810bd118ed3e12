/-
# When the walk fails

When a call of `copy_internal` or `copy_dir` fails, `main` returns -1: it neither sets `flush`
nor joins `aio_loop`, as it does when the walk succeeds.  So the destination is left as it is
when the process ends.  It has no half-made file if `aio_loop` happened to have caught up by
then.
-/
import Cpr.Program.Phase
import Cpr.System.Data
import Cpr.System.Leaving

namespace Cpr

open Transition Unix

/-- A call of `copy_internal` or `copy_dir` fails. -/
def Label.WalkFails (l : Label) : Prop :=
  l = .stat none ∨ l = .mkdir false ∨ l = .opendir false ∨ l = .readdir .failed ∨
    l = .closedir false

instance (l : Label) : Decidable l.WalkFails := inferInstanceAs (Decidable (_ ∨ _ ∨ _ ∨ _ ∨ _))

/-- Only the calls of the walk may fail. -/
def Sys.WalkMayFail (s : Sys) (l : Label) : Prop := l.WalkFails ∨ s.Faultless l

instance (s : Sys) (l : Label) : Decidable (s.WalkMayFail l) := inferInstanceAs (Decidable (_ ∨ _))

/-- Every file that was created has its complete content, and no request is under way. -/
structure NoHalfMade (t : Setting) (s : Sys) : Prop where
  complete : ∀ rel bytes, s.world.fs.entry (rel ++ t.target) = some (.reg bytes) →
    bytes = t.content rel
  drained : Drained s.prog.aio

/-- The counters that `aio_loop` compares in its stop test agree, and no size was cut off. -/
structure CaughtUp (t : Setting) (s : Sys) : Prop where
  counters : s.prog.aio.reqCount = s.prog.aio.mgr.finishedCount
  few : s.prog.aio.unfinished < 2 ^ 32
  small : ∀ rel, s.Requested rel → (t.content rel).length < 2 ^ 31

/-- The main thread is in `copy_internal` or `copy_dir`, at a call. -/
def MainPc.inWalk : MainPc → Bool
  | .walk | .mkdir | .opendir | .readdir | .closedir => true
  | _ => false

section

variable {t : Setting} {s s' : Sys} {d : Places} {l : Label} {rel : Loc} {batchSize : ℤ}

lemma Prog.inWalk_of_walkFails {p p' : Prog} (hstep : p.step l = some p') (hl : l.WalkFails) :
    p.pc.inWalk = true := by
  obtain ⟨hended, -⟩ := Prog.fires_of_step hstep
  unfold Prog.step at hstep
  rw [if_neg (by simp [hended])] at hstep
  rcases hl with rfl | rfl | rfl | rfl | rfl
  · obtain ⟨⟨hpc, -⟩, -⟩ := Option.ite_none_right_eq_some.mp hstep
    rw [hpc]
    rfl
  · rw [(Option.ite_none_right_eq_some.mp hstep).1]
    rfl
  · rw [(Option.ite_none_right_eq_some.mp hstep).1]
    rfl
  · simp only [Prog.mainStep] at hstep
    split at hstep
    · rw [(Option.ite_none_right_eq_some.mp hstep).1]
      rfl
    · cases hstep
  · rw [(Option.ite_none_right_eq_some.mp hstep).1]
    rfl

lemma Sys.WalkMayFail.aio (h : s.WalkMayFail l) : s.AioFaultless l := by
  rcases h with (rfl | rfl | rfl | rfl | rfl) | h
  · trivial
  · trivial
  · trivial
  · trivial
  · trivial
  · exact h.aio

/-! ### The created files -/

/-- The files below the destination are those of requests. -/
def Created (t : Setting) (s : Sys) : Prop :=
  ∀ rel bytes, s.world.fs.entry (rel ++ t.target) = some (.reg bytes) → s.Requested rel

/-- Only the write phase creates a file, and only for a request. -/
lemma Created.step (h : Created t s) (hcopy : Copying t s d) (hr : t.Run s)
    (hstep : s.step l = some s') : Created t s' := by
  have g := Sys.grows_of_step hr.ready.good hstep
  obtain ⟨hended, hfires, hperm⟩ := Sys.fires_of_step hstep
  have hold : ∀ rel bytes, s.world.fs.entry (rel ++ t.target) = some (.reg bytes) →
      s'.Requested rel := fun rel bytes he => g.requested (h rel bytes he)
  obtain ⟨p', w'⟩ := s'
  dsimp only at hfires hperm
  intro rel bytes he
  cases hperm with
  | mkdir curr rest fs' hqueue hmkdir =>
    obtain ⟨loc, n, hdir, hnew, hn, rfl, -⟩ := Fs.mkdir_ok hmkdir
    dsimp only at he
    by_cases heq : rel ++ t.target = n :: loc
    · rw [heq, Fs.entry_create_self] at he
      cases he
    · rw [Fs.entry_create_of_ne heq] at he
      exact hold rel bytes he
  | openDst fd q loc fs' _ hhead hopen =>
    obtain ⟨r, -, hq⟩ := Option.bind_eq_some_iff.mp hhead
    have hlast := Heap.last?_of_get? hq
    obtain ⟨rel', hfor⟩ := hcopy.tree.requests r q hlast
    obtain ⟨q', hq', hnames⟩ := hfor.request
    obtain rfl := Option.some.inj (hlast.symm.trans hq')
    rw [hnames.dstName] at hopen
    obtain ⟨-, rfl | hadds⟩ := Fs.openCreate_adds hopen
      (hcopy.tree.dst_at hcopy.tree.toMirror hr hfor.met) (hcopy.tree.ne_lnk rel')
    · exact hold rel bytes he
    · by_cases heq : rel = rel'
      · subst heq
        exact g.requested ⟨r, q, hlast, hnames⟩
      · rw [hadds.other _ fun h => heq (List.append_cancel_right h)] at he
        exact hold rel bytes he
  | complete c res =>
    have hshape := World.shape_transfer (w := s.world) c res (rel ++ t.target)
    have hnew : (s.world.transfer c res).fs.entry (rel ++ t.target) = some (.reg bytes) := he
    rw [hnew] at hshape
    obtain ⟨e, he', heq⟩ := Option.map_eq_some_iff.mp hshape.symm
    obtain ⟨old, rfl⟩ := Entry.kind_eq_reg.mp (Entry.kind_eq_of_shape_eq heq)
    exact hold rel old he'
  | _ => exact hold rel bytes he

theorem Created.of_reaches {ok : Sys → Label → Prop}
    (h : Reaches Sys.step ok (t.init batchSize) s) (hended : s.prog.aio.ended = none) :
    Created t s := by
  refine h.invariant_of (J := fun s => Reaches Sys.step ok (t.init batchSize) s)
    (I := fun s => s.prog.aio.ended = none → Created t s) (fun _ hr => hr)
    (fun {s l s'} hs _ hcreated _ hstep _ => ?_) (fun _ rel bytes he => ?_) hended
  · have hended := (Sys.fires_of_step hstep).1
    obtain ⟨d, hcopy⟩ := Copying.of_reaches hs (Or.inl hended)
    exact (hcreated hended).step hcopy (.of_reaches hs) hstep
  · simp [Setting.init, Sys.init, Setting.below_target_new] at he

/-! ### What the failure leaves behind -/

lemma Prog.counters_eq_iff {p : Prog} (hc : Counting p) (hgood : Good p.aio)
    (hpc : p.pc.counted = false) (hfew : p.aio.unfinished < 2 ^ 32) :
    p.aio.reqCount = p.aio.mgr.finishedCount ↔
      p.aio.log.finished.length = p.aio.log.accepted.length := by
  obtain ⟨xs, ys, b, hinv, -⟩ := hgood
  have hlen := hinv.lengths
  have hreq := hc.reqCount
  simp only [hpc, Bool.false_eq_true, if_false, add_zero] at hreq
  rw [hreq, hinv.finishedCount, toInt32_nat_inj (by omega)
    (by simp only [AioState.unfinished] at hfew; omega)]
  exact eq_comm

/-- A regular file has content only as part of the source. -/
lemma Setting.kind_of_content (h : t.content rel ≠ []) : t.kind rel = some .reg := by
  unfold Setting.content Fs.content at h
  split at h
  · rename_i bytes he
    rw [Setting.kind, he]
    rfl
  · exact absurd rfl h

/-- At a call of the walk, the destination has no half-made file exactly if `aio_loop` has
caught up. -/
lemma Data.noHalfMade_iff (h : Data t s) (hcreated : Created t s) (hcopy : Copying t s d)
    (hprog : Reaches Prog.step anyLabel (Prog.init t.srcName t.dstName batchSize) s.prog)
    (hpc : s.prog.pc.inWalk = true) : NoHalfMade t s ↔ CaughtUp t s := by
  have hc := Counting.of_reaches hprog
  have hgood := Prog.good_of_reaches hprog
  obtain ⟨xs, ys, b, hinv, -⟩ := id hgood
  obtain ⟨hcounted, halloc⟩ : s.prog.pc.counted = false ∧ s.prog.pc.allocated = false := by
    revert hpc
    cases s.prog.pc <;> simp [MainPc.inWalk, MainPc.counted, MainPc.allocated]
  constructor
  · rintro ⟨hcomplete, hdrained⟩
    have hfin : s.prog.aio.log.finished.Nodup := by
      have hnd := hinv.nodup_holds .finished
      rwa [hinv.finished, Multiset.coe_nodup] at hnd
    have hperm : s.prog.aio.log.finished.Perm s.prog.aio.log.accepted :=
      (List.perm_ext_iff_of_nodup hfin hinv.acceptedNodup).mpr fun r => (hdrained.finished r).symm
    have hlen := hperm.length_eq
    have hfew : s.prog.aio.unfinished < 2 ^ 32 := by
      rw [AioState.unfinished, hlen, Nat.sub_self]
      decide
    refine ⟨(Prog.counters_eq_iff hc hgood hcounted hfew).mpr hlen, hfew, fun rel hreq => ?_⟩
    by_cases hnil : t.content rel = []
    · rw [hnil]
      decide
    · have hreg := Setting.kind_of_content hnil
      have hself := hcomplete rel _ (h.entry_of_request hprog halloc hlen hreg hreq)
      exact hself ▸ t.length_transferred_lt rel
  · rintro ⟨hcounters, hfew, hsmall⟩
    have hlen := (Prog.counters_eq_iff hc hgood hcounted hfew).mp hcounters
    refine ⟨fun rel bytes he => ?_, hinv.drained hlen⟩
    have hreq := hcreated rel bytes he
    have hreg := hcopy.tree.copied rel _ he
    rw [h.entry_of_request hprog halloc hlen hreg hreq, Setting.transferred_of_lt (hsmall rel hreq)]
      at he
    exact (Entry.reg.inj (Option.some.inj he)).symm

/-- What is left behind when a failed call of the walk ends the process at once. -/
lemma noHalfMade_iff_of_ended (h : Reaches Sys.step Sys.WalkMayFail (t.init batchSize) s)
    (hended : s.prog.aio.ended = some (.exited (-1))) : NoHalfMade t s ↔ CaughtUp t s := by
  rcases Relation.ReflTransGen.cases_tail h with rfl | ⟨s₀, h₀, l, hok, hstep⟩
  · cases hended
  have hrun := (Sys.fires_of_step hstep).1
  have hdata := Data.of_reaches (fun _ _ hok => hok.aio) h₀ (Or.inl hrun)
  have hr := Setting.Run.of_reaches h₀
  rcases hdata.ended_cases hr hok.aio hstep with
    hnone | ⟨-, haio, -⟩ | ⟨hfails, hprog⟩ | ⟨-, hexit⟩
  · simp [hnone] at hended
  · simp [haio, AioState.exit] at hended
  · have hl : l.WalkFails := hok.resolve_right fun hok => Data.not_fails_of_faultless hok hfails
    have hperm := (Sys.fires_of_step hstep).2.2
    obtain ⟨p', w'⟩ := s
    dsimp only at hprog hperm
    obtain rfl : w' = s₀.world := by
      rcases hl with rfl | rfl | rfl | rfl | rfl <;> cases hperm <;> rfl
    obtain ⟨d, hcopy⟩ := Copying.of_reaches h₀ (Or.inl hrun)
    have hiff := hdata.noHalfMade_iff (.of_reaches h₀ hrun) hcopy (Sys.prog_reaches_any h₀)
      (Prog.inWalk_of_walkFails (Sys.prog_step hstep) hl)
    subst hprog
    -- the failure changes neither the counters nor the files
    constructor
    · rintro ⟨hcomplete, hdrained⟩
      obtain ⟨hcounters, hfew, hsmall⟩ := hiff.mp ⟨hcomplete, hdrained.1, hdrained.2, hdrained.3,
        hdrained.4⟩
      exact ⟨hcounters, hfew, hsmall⟩
    · rintro ⟨hcounters, hfew, hsmall⟩
      obtain ⟨hcomplete, hdrained⟩ := hiff.mpr ⟨hcounters, hfew, hsmall⟩
      exact ⟨hcomplete, hdrained.1, hdrained.2, hdrained.3, hdrained.4⟩
  · simp [hexit] at hended

/-- **What a failed walk leaves behind**: when `aio_loop` meets no fault and `main` returns -1,
there is no half-made file exactly if `aio_loop` has caught up by the end of the process. -/
theorem noHalfMade_iff_of_reaches {s : Leaving}
    (h : Reaches Leaving.step (Leaving.Allows Sys.WalkMayFail) (.init (t.init batchSize)) s)
    (hended : s.sys.prog.aio.ended = some (.exited (-1))) :
    NoHalfMade t s.sys ↔ CaughtUp t s.sys := by
  refine noHalfMade_iff_of_ended (Leaving.sys_reaches (fun s u l hfails hok => ?_) h).1 hended
  exact Or.inl (hok.resolve_right fun hok => Data.not_fails_of_faultless hok hfails)

end

/-- A directory with two files: the walk has met both, and the first is read and its destination
created. -/
def twoFilesCreate : List Label :=
  [.initManager true, .startThread true, .stat (some .dir), .mkdir true, .opendir true,
    .readdir (.entry ['0'] .reg), .readdir (.entry ['1'] .reg), .readdir .finished, .closedir true,
    .stat (some .reg), .bumpReqCount, .copyReg, .addLock true, .addLink, .addUnlock true,
    .aio .lockFlush, .aio (.getEvents []), .aio .checkDone, .aio .lockRequest, .aio .readSize,
    .aio (.readOne ⟨3, some 1, 4096⟩), .aio (.readSubmit 1), .aio .unlockRequest, .aio .writeSize,
    .aio .unlockFlush, .aio (.complete ⟨0, .pread, 3, 4096, 1, 0, 0⟩ 1), .aio .lockFlush,
    .aio (.getEvents [⟨⟨0, .pread, 3, 4096, 1, 0, 0⟩, 1⟩]), .aio .handleEvent, .aio .checkDone,
    .aio .lockRequest, .aio .readSize, .aio .unlockRequest, .aio .writeSize, .aio (.writeOne 4)]

/-- What remains to be done for the first file. -/
def twoFilesWrite : List Label :=
  [.aio (.writeSubmit 1), .aio .unlockFlush, .aio (.complete ⟨1, .pwrite, 4, 4096, 1, 0, 0⟩ 1),
    .aio .lockFlush, .aio (.getEvents [⟨⟨1, .pwrite, 4, 4096, 1, 0, 0⟩, 1⟩]), .aio .handleEvent]

/-- A run in which the `stat` of the second file fails, and more happens until the process
ends. -/
def twoFilesFailed (rest : List Label) : List (Option Label) :=
  (twoFilesCreate ++ .stat none :: rest).map some ++ [none]

/-- The first file is copied completely between the failure of the `stat` of the second one
and the end of the process. -/
theorem noHalfMade_iff_of_reaches_twoFiles : ∃ s : Leaving,
    Reaches Leaving.step (Leaving.Allows Sys.WalkMayFail) (.init ((flatTask 2).init 1)) s ∧
      s.sys.prog.aio.ended = some (.exited (-1)) ∧ s.sys.prog.aio.log.finished = [0] ∧
      (NoHalfMade (flatTask 2).toSetting s.sys ↔ CaughtUp (flatTask 2).toSetting s.sys) := by
  have hrun : (execOk Leaving.step (Leaving.Allows Sys.WalkMayFail) (.init ((flatTask 2).init 1))
      (twoFilesFailed twoFilesWrite)).map
      (fun s => (s.sys.prog.aio.ended, s.sys.prog.aio.log.finished)) =
        some (some (.exited (-1)), [0]) := by
    decide +kernel
  obtain ⟨s, hs, hfacts⟩ := Option.map_eq_some_iff.mp hrun
  obtain ⟨hended, hfin⟩ := Prod.mk.inj hfacts
  have hreach := reaches_of_execOk hs
  exact ⟨s, hreach, hended, hfin, noHalfMade_iff_of_reaches hreach hended⟩

/-- The `stat` of the second file fails when the destination of the first one was just created,
and the process ends before anything more happens: the file stays empty. -/
theorem not_noHalfMade_of_created : ¬ ∀ (t : Setting) (batchSize : ℤ) (s : Leaving),
    Reaches Leaving.step (Leaving.Allows Sys.WalkMayFail) (.init (t.init batchSize)) s →
      s.sys.prog.aio.ended = some (.exited (-1)) → NoHalfMade t s.sys := by
  intro hall
  have hrun : (execOk Leaving.step (Leaving.Allows Sys.WalkMayFail) (.init ((flatTask 2).init 1))
      (twoFilesFailed [])).map
      (fun s => (s.sys.prog.aio.ended, s.sys.world.fs.entry [['0'], ['d']])) =
        some (some (.exited (-1)), some (.reg [])) := by
    decide +kernel
  obtain ⟨s, hs, hfacts⟩ := Option.map_eq_some_iff.mp hrun
  obtain ⟨hended, hentry⟩ := Prod.mk.inj hfacts
  have hhalf := hall _ 1 s (reaches_of_execOk hs) hended
  have hcontent : (flatTask 2).content [['0']] = [1] := by decide +kernel
  have hnil := hhalf.complete [['0']] [] hentry
  rw [hcontent] at hnil
  cases hnil

end Cpr
