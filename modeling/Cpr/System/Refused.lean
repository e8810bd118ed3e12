/-
# A destination that cannot be made is left alone

When the source is a directory and the first `mkdir` must fail, because the destination is
there already or its parent is not, nothing is ever requested: `aio_loop` turns in its empty
loop until `main` returns -1.
-/
import Cpr.System.Parents

namespace Cpr

open Transition Unix

/-- `aio_loop` is not among any requests. -/
def AioPc.idle : AioPc → Bool
  | .handle events => events.isEmpty
  | .unlockBreak | .readLoop _ _ | .writeLoop _ _ | .returned => false
  | _ => true

/-- The manager has never had a request, and `flush` was not set. -/
structure Idle (a : AioState) : Prop where
  flight : a.flight = []
  readLen : a.mgr.readLen = 0
  writeLen : a.mgr.writeLen = 0
  flush : a.mgr.flush = false
  log : a.log = []
  pc : a.pc.idle = true

namespace Idle

variable {a a' : AioState} {act : Act}

lemma chooseReadSize_le (h : Idle a) : a.chooseReadSize ≤ 0 := by
  have := h.readLen
  rw [AioState.chooseReadSize, h.flush]
  simp only [Bool.false_eq_true, if_false]
  split_ifs <;> omega

lemma chooseWriteSize_le (h : Idle a) : a.chooseWriteSize ≤ 0 := by
  have := h.writeLen
  rw [AioState.chooseWriteSize, h.flush]
  simp only [Bool.false_eq_true, if_false]
  split_ifs <;> omega

/-- `aio_loop` turns without doing anything. -/
lemma step (h : Idle a) (hfires : AioState.Fires a act a') (hact : act.ofClient = false) :
    Idle a' ∧ a'.ended = a.ended := by
  have hidle := h.pc
  cases hfires with
  | startThread | bumpReqCount | newRequest | clientLockRequest | addCopyReq
  | clientUnlockRequest | clientLockFlush | setFlush | clientUnlockFlush | exit =>
    simp [Act.ofClient] at hact
  | unlockBreak hpc | readOne _ _ _ hpc | readSubmit _ _ _ hpc | writeOne _ _ _ hpc
  | writeSubmit _ _ _ hpc => simp [hpc, AioPc.idle] at hidle
  | handleEvent e rest hpc => simp [hpc, AioPc.idle] at hidle
  | complete c res hmem => simp [h.flight] at hmem
  | lockFlush hpc | lockRequest hpc | unlockRequest hpc | unlockFlush hpc =>
    exact ⟨⟨h.flight, h.readLen, h.writeLen, h.flush, h.log, rfl⟩, rfl⟩
  | getEvents events hpc hten hsub =>
    obtain rfl : events = [] := by simpa [h.flight] using hsub.length_le
    exact ⟨⟨by simp [h.flight], h.readLen, h.writeLen, h.flush, by simp [h.log], rfl⟩, rfl⟩
  | checkDone hpc =>
    have htest : a.stopTest = false := by simp [AioState.stopTest, h.flush]
    refine ⟨⟨h.flight, h.readLen, h.writeLen, h.flush, h.log, ?_⟩, rfl⟩
    simp [AioState.checkDone, htest, AioPc.idle]
  | readSize hpc =>
    refine ⟨⟨h.flight, h.readLen, h.writeLen, h.flush, h.log, ?_⟩, rfl⟩
    rw [AioState.readSize, if_neg (by have := h.chooseReadSize_le; omega)]
    rfl
  | writeSize hpc =>
    refine ⟨⟨h.flight, h.readLen, h.writeLen, h.flush, h.log, ?_⟩, rfl⟩
    rw [AioState.writeSize, if_neg (by have := h.chooseWriteSize_le; omega)]
    rfl

/-- The environment has no part in it. -/
lemma world_eq {p : Prog} {w w' : World} (h : Idle p.aio) (hfires : AioState.Fires p.aio act a')
    (hpermits : w.Permits p (.aio act) w') : w' = w := by
  have hidle := h.pc
  cases hpermits with
  | openSrc o =>
    cases hfires with
    | readOne _ _ _ hpc => simp [hpc, AioPc.idle] at hidle
  | openDst fd =>
    cases hfires with
    | writeOne _ _ _ hpc => simp [hpc, AioPc.idle] at hidle
  | complete c res =>
    cases hfires with
    | complete _ _ hmem => simp [h.flight] at hmem
  | _ => rfl

end Idle

section

variable {fs : Fs} {cwd : Loc} {srcName dstName : CStr} {batchSize : ℤ} {s s' : Sys} {l : Label}

/-- The main thread has not got past its first `mkdir`. -/
structure Refused (fs : Fs) (cwd : Loc) (srcName dstName : CStr) (s : Sys) : Prop where
  world : s.world.fs = fs ∧ s.world.cwd = cwd
  idle : Idle s.prog.aio
  argv : s.prog.argv = ⟨srcName, dstName⟩
  place : s.prog.pc = .initManager ∨ s.prog.pc = .startThread ∨
    ((s.prog.pc = .walk ∨ s.prog.pc = .mkdir) ∧ s.prog.queue = [⟨srcName, dstName⟩])
  ended : s.prog.aio.ended = none ∨ s.prog.aio.ended = some (.exited (-1))

namespace Refused

lemma init : Refused fs cwd srcName dstName (.init fs cwd srcName dstName batchSize) where
  world := ⟨rfl, rfl⟩
  idle := ⟨rfl, rfl, rfl, rfl, rfl, rfl⟩
  argv := rfl
  place := Or.inl rfl
  ended := Or.inl rfl

lemma step (h : Refused fs cwd srcName dstName s) (hdir : fs.stat cwd srcName = some .dir)
    (hmkdir : ∀ fs', fs.mkdir cwd dstName ≠ .ok fs') (hstep : s.step l = some s') :
    Refused fs cwd srcName dstName s' := by
  obtain ⟨hended, hfires, hpermits⟩ := Sys.fires_of_step hstep
  obtain ⟨⟨aio, pc, queue, argv⟩, world⟩ := s
  obtain ⟨prog', world'⟩ := s'
  obtain ⟨hworld, hidle, hargv, hplace, -⟩ := h
  dsimp only at hended hfires hpermits hworld hidle hargv hplace
  cases hfires with
  | aio act a ha =>
    obtain ⟨hact, hclient⟩ := Prog.step_of_aioStep hended ha
    obtain ⟨hidle', hended'⟩ := hidle.step (AioState.fires_of_step hact).2 hclient
    obtain rfl := hidle.world_eq (AioState.fires_of_step hact).2 hpermits
    exact ⟨hworld, hidle', hargv, hplace, Or.inl (hended'.trans hended)⟩
  | fail l haio hfails =>
    obtain rfl : world' = world := by
      cases hpermits with
      | mkdir | opendir | complete | openSrc | openDst => simp [Label.Fails] at hfails
      | entry => simp [Label.Fails] at hfails
      | _ => rfl
    exact ⟨hworld, ⟨hidle.flight, hidle.readLen, hidle.writeLen, hidle.flush, hidle.log,
      hidle.pc⟩, hargv, hplace, Or.inr rfl⟩
  | initManager hpc =>
    cases hpermits
    exact ⟨hworld, hidle, hargv, Or.inr (Or.inl rfl), Or.inl hended⟩
  | startThread hpc =>
    cases hpermits
    refine ⟨hworld, ⟨hidle.flight, hidle.readLen, hidle.writeLen, hidle.flush, hidle.log, rfl⟩,
      hargv, Or.inr (Or.inr ⟨Or.inl rfl, ?_⟩), Or.inl hended⟩
    exact congrArg (fun n => [n]) hargv
  | statDir curr rest hpc hqueue =>
    have hfirst : queue = [⟨srcName, dstName⟩] := by simpa [show pc = _ from hpc] using hplace
    cases hpermits <;> exact ⟨hworld, hidle, hargv, Or.inr (Or.inr ⟨Or.inr rfl, hfirst⟩),
      Or.inl hended⟩
  | statReg curr rest hpc hqueue =>
    have hfirst : queue = [⟨srcName, dstName⟩] := by simpa [show pc = _ from hpc] using hplace
    cases hpermits with
    | stat k curr rest hqueue hstat =>
      obtain ⟨rfl, -⟩ := List.cons.inj (hqueue.symm.trans hfirst)
      simp [hworld, hdir] at hstat
    | other _ hne => exact absurd rfl (hne _)
  | statOther curr rest k hpc hqueue hne =>
    have hfirst : queue = [⟨srcName, dstName⟩] := by simpa [show pc = _ from hpc] using hplace
    cases hpermits with
    | stat k curr rest hqueue hstat =>
      obtain ⟨rfl, -⟩ := List.cons.inj (hqueue.symm.trans hfirst)
      rw [hworld.1, hworld.2, hdir] at hstat
      exact absurd (Option.some.inj hstat).symm hne
    | other _ hother => exact absurd rfl (hother _)
  | mkdir hpc =>
    have hfirst : queue = [⟨srcName, dstName⟩] := by simpa [show pc = _ from hpc] using hplace
    cases hpermits with
    | mkdir curr rest fs' hqueue hmade =>
      obtain ⟨rfl, -⟩ := List.cons.inj (hqueue.symm.trans hfirst)
      rw [hworld.1, hworld.2] at hmade
      exact absurd hmade (hmkdir fs')
    | other _ _ hne => exact absurd rfl hne
  | walkEnd hpc hqueue => simp [show pc = .walk from hpc, show queue = [] from hqueue] at hplace
  | opendir hpc | readdirSkip _ _ hpc | readdirEnqueue _ _ _ _ hpc | readdirExit _ _ hpc
  | readdirEnd hpc | closedir hpc | bumpReqCount hpc | copyReg _ _ hpc | addLock hpc
  | addLink _ hpc | addUnlock hpc | waitLock hpc | waitSet hpc | waitUnlock hpc | join hpc
  | destroy hpc => simp [show pc = _ from hpc] at hplace

end Refused

/-- **A destination that cannot be made is left alone**: when the source is a directory and
`mkdir` of the destination must fail, no run changes the file system or asks for a copy, and
the only way it ends is that `main` returns -1. -/
theorem refused_of_reaches (hdir : fs.stat cwd srcName = some .dir)
    (hmkdir : ∀ fs', fs.mkdir cwd dstName ≠ .ok fs')
    (h : Reaches Sys.step anyLabel (.init fs cwd srcName dstName batchSize) s) :
    s.world.fs = fs ∧ s.prog.aio.log = [] ∧
      (s.prog.aio.ended = none ∨ s.prog.aio.ended = some (.exited (-1))) := by
  have hrefused : Refused fs cwd srcName dstName s :=
    h.invariant (fun hs _ hstep => hs.step hdir hmkdir hstep) Refused.init
  exact ⟨hrefused.world.1, hrefused.idle.log, hrefused.ended⟩

end

/-- Copying the directory `s` to itself. -/
theorem refused_of_reaches_existing : ∃ s : Sys,
    Reaches Sys.step anyLabel (Sys.init oneFile [] ['s'] ['s'] 1) s ∧ s.world.fs = oneFile ∧
      s.prog.aio.log = [] ∧
      (s.prog.aio.ended = none ∨ s.prog.aio.ended = some (.exited (-1))) := by
  have hrun : (exec Sys.step (Sys.init oneFile [] ['s'] ['s'] 1) [.initManager true,
      .startThread true, .aio .lockFlush, .stat (some .dir), .aio (.getEvents []),
      .mkdir false]).isSome := by
    decide +kernel
  obtain ⟨s, hs⟩ := Option.isSome_iff_exists.mp hrun
  have hreach : Reaches Sys.step anyLabel _ s := reaches_of_exec (fun _ _ => trivial) hs
  have hmkdir : ∀ fs', oneFile.mkdir [] ['s'] ≠ .ok fs' := by
    intro fs' hmade
    have hfails : (oneFile.mkdir [] ['s']).isOk = false := by decide +kernel
    rw [hmade] at hfails
    cases hfails
  exact ⟨s, hreach, refused_of_reaches (by decide +kernel) hmkdir hreach⟩

end Cpr
