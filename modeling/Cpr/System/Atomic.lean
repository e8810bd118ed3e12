/-
# `add_copy_req` is atomic

Between its lock and its unlock of a mutex the main thread may be interrupted by `aio_loop`
and by the kernel.  None of that can be told from the outside: every state of the system
outside these sections is reached by a run in which nobody interrupts them.
-/
import Cpr.Lib.Atomic
import Cpr.Program.Exchange
import Cpr.System.Parents

namespace Cpr

open Transition Unix

/-- The main thread holds one of the mutexes. -/
def MainPc.holds (pc : MainPc) : Bool := pc.holdsFlush || pc.holdsRequest

/-- The label of `aio_loop` or of the kernel. -/
def Label.ofAio : Label → Bool
  | .aio _ => true
  | _ => false

namespace Prog

variable {p p' : Prog} {l : Label} {log : Log}

/-- The state with another history. -/
def relog (p : Prog) (log : Log) : Prog := { p with aio := p.aio.relog log }

lemma proceed_relog {ok : Bool} {next next' : Prog} (h : next' = next.relog log) :
    (p.relog log).proceed ok next' = (p.proceed ok next).relog log := by
  rw [h]
  cases ok <;> rfl

lemma branch_relog (answer : Option Kind) :
    (p.relog log).branch answer = (p.branch answer).relog log := by
  cases answer with
  | none => rfl
  | some k => cases k <;> rfl

lemma readdirStep_relog (curr : Node) (answer : ReaddirAnswer) :
    (p.relog log).readdirStep curr answer = (p.readdirStep curr answer).relog log := by
  cases answer with
  | entry name dtype =>
    rw [readdirStep, readdirStep]
    split_ifs <;> rfl
  | _ => rfl

/-- The main thread does not read the history. -/
lemma mainStep_relog (h : p.mainStep l = some p') (log : Log) :
    ∃ log', (p.relog log).mainStep l = some (p'.relog log') := by
  cases l with
  | aio act => simp [mainStep] at h
  | initManager ok | startThread ok | mkdir ok | opendir ok | closedir ok | addUnlock ok
  | waitUnlock ok | join ok | destroy ok =>
    obtain ⟨hat, heq⟩ := Option.ite_none_right_eq_some.mp h
    obtain rfl := Option.some.inj heq
    exact ⟨log, (if_pos hat).trans (congrArg some (proceed_relog rfl))⟩
  | stat answer =>
    obtain ⟨hat, heq⟩ := Option.ite_none_right_eq_some.mp h
    obtain rfl := Option.some.inj heq
    exact ⟨log, (if_pos hat).trans (congrArg some (branch_relog answer))⟩
  | walkEnd | bumpReqCount | waitSet =>
    obtain ⟨hat, heq⟩ := Option.ite_none_right_eq_some.mp h
    obtain rfl := Option.some.inj heq
    exact ⟨log, if_pos hat⟩
  | readdir answer =>
    have hqueue : (p.relog log).queue = p.queue := rfl
    rw [mainStep] at h ⊢
    rw [hqueue]
    split at h
    · obtain ⟨hat, heq⟩ := Option.ite_none_right_eq_some.mp h
      obtain rfl := Option.some.inj heq
      exact ⟨log, (if_pos hat).trans (congrArg some (readdirStep_relog _ answer))⟩
    · simp at h
  | copyReg =>
    have hqueue : (p.relog log).queue = p.queue := rfl
    rw [mainStep] at h ⊢
    rw [hqueue]
    split at h
    · obtain ⟨hat, heq⟩ := Option.ite_none_right_eq_some.mp h
      obtain rfl := Option.some.inj heq
      exact ⟨log, if_pos hat⟩
    · simp at h
  | addLock ok =>
    obtain ⟨hat, heq⟩ := Option.ite_none_right_eq_some.mp h
    refine ⟨log, (if_pos hat).trans ?_⟩
    cases ok with
    | false =>
      obtain rfl := Option.some.inj heq
      rfl
    | true =>
      obtain ⟨a, ha, rfl⟩ := Option.map_eq_some_iff.mp heq
      obtain ⟨hfree, ha⟩ := Option.ite_none_right_eq_some.mp ha
      obtain rfl := Option.some.inj ha
      exact Option.map_eq_some_iff.mpr ⟨_, if_pos hfree, rfl⟩
  | waitLock ok =>
    obtain ⟨hat, heq⟩ := Option.ite_none_right_eq_some.mp h
    refine ⟨log, (if_pos hat).trans ?_⟩
    cases ok with
    | false =>
      obtain rfl := Option.some.inj heq
      rfl
    | true =>
      obtain ⟨a, ha, rfl⟩ := Option.map_eq_some_iff.mp heq
      obtain ⟨hfree, ha⟩ := Option.ite_none_right_eq_some.mp ha
      obtain rfl := Option.some.inj ha
      exact Option.map_eq_some_iff.mpr ⟨_, if_pos hfree, rfl⟩
  | addLink =>
    have hmain : (p.relog log).aio.mainReq = p.aio.mainReq := rfl
    have hreqs : (p.relog log).aio.reqs = p.aio.reqs := rfl
    rw [mainStep] at h ⊢
    split at h
    · rename_i r hr
      obtain ⟨hat, heq⟩ := Option.ite_none_right_eq_some.mp h
      obtain rfl := Option.some.inj heq
      simp only [hmain, hr]
      rw [if_pos (show (p.relog log).pc = .addLink from hat), AioState.addCopyReq,
        AioState.addCopyReq, hreqs]
      cases p.aio.reqs.get? r <;> exact ⟨_, rfl⟩
    · simp at h

lemma step_relog (h : p.step l = some p') (log : Log) :
    ∃ log', (p.relog log).step l = some (p'.relog log') := by
  obtain ⟨hended, -⟩ := fires_of_step h
  have hrunning : ¬ (p.relog log).aio.ended.isSome := by
    rw [show (p.relog log).aio.ended = none from hended]
    simp
  unfold step at h ⊢
  rw [if_neg (by simp [hended])] at h
  rw [if_neg hrunning]
  cases l with
  | aio act =>
    obtain ⟨a, ha, rfl⟩ := Option.map_eq_some_iff.mp h
    obtain ⟨hact, hclient⟩ := step_of_aioStep hended ha
    obtain ⟨log', hfires⟩ := (AioState.fires_of_step hact).2.relog hclient log
    exact ⟨log', Option.map_eq_some_iff.mpr
      ⟨_, AioState.aioStep_of_fires hfires hclient, rfl⟩⟩
  | _ => exact mainStep_relog h log

end Prog

namespace Sys

/-- The state with another history. -/
def relog (s : Sys) (log : Log) : Sys := { s with prog := s.prog.relog log }

variable {s t u : Sys} {l : Label} {act : Act} {log : Log} {fs : Fs} {cwd : Loc}
  {srcName dstName : CStr} {batchSize : ℤ}

lemma after_relog (w : World) (p : Prog) (l : Label) : w.after (p.relog log) l = w.after p l := by
  cases l with
  | aio act => cases act <;> rfl
  | _ => rfl

lemma step_relog (h : s.step l = some t) (log : Log) :
    ∃ log', (s.relog log).step l = some (t.relog log') := by
  obtain ⟨p, hp, hmap⟩ := Option.bind_eq_some_iff.mp h
  obtain ⟨w, hw, rfl⟩ := Option.map_eq_some_iff.mp hmap
  obtain ⟨log', hp'⟩ := Prog.step_relog hp log
  refine ⟨log', Option.bind_eq_some_iff.mpr ⟨_, hp', Option.map_eq_some_iff.mpr ⟨w, ?_, rfl⟩⟩⟩
  exact (after_relog s.world s.prog l).trans hw

/-- A step of `aio_loop` or of the kernel, from the manager's step and the environment's. -/
lemma step_aio {p : Prog} {a : AioState} {w w' : World} (hended : p.aio.ended = none)
    (h : AioState.Fires p.aio act a) (hact : act.ofClient = false)
    (hw : w.afterAio p.aio act = some w') :
    Sys.step ⟨p, w⟩ (.aio act) = some ⟨{ p with aio := a }, w'⟩ := by
  have hp : p.step (.aio act) = some { p with aio := a } := by
    unfold Prog.step
    rw [if_neg (by simp [hended])]
    simp only [AioState.aioStep_of_fires h hact, Option.map_some]
  rw [step, hp]
  exact Option.map_eq_some_iff.mpr ⟨w', hw, rfl⟩

lemma aio_of_step (h : s.step (.aio act) = some t) : s.prog.aio.ended = none ∧
    act.ofClient = false ∧ s.world.afterAio s.prog.aio act = some t.world ∧
    ∃ a, AioState.Fires s.prog.aio act a ∧ t.prog = { s.prog with aio := a } := by
  obtain ⟨p, hp, hmap⟩ := Option.bind_eq_some_iff.mp h
  obtain ⟨w, hw, rfl⟩ := Option.map_eq_some_iff.mp hmap
  obtain ⟨hended, hfires⟩ := Prog.fires_of_step hp
  exact ⟨hended, (Prog.aio_step hp).2.1, hw, Prog.aio_fires hended hfires⟩

/-- The steps of the others do not move the main thread. -/
lemma pc_of_aio (h : s.step (.aio act) = some t) : t.prog.pc = s.prog.pc := by
  obtain ⟨-, -, -, a, -, heq⟩ := aio_of_step h
  rw [heq]

/-! ## Exchanging two steps -/

section

variable {p : Prog} {w : World}

lemma exchange_addLock (hlocks : Locks p) (hended : p.aio.ended = none) (hpc : p.pc = .addLock)
    (hfree : p.aio.mgr.requestMutex = none)
    (hnext : Sys.step ⟨{ p with aio := p.aio.hold, pc := .addLink }, w⟩ (.aio act) = some u)
    (hlive : u.prog.aio.ended = none) :
    ∃ t', Sys.step ⟨p, w⟩ (.aio act) = some t' ∧ t'.step (.addLock true) = some u := by
  obtain ⟨prog, world⟩ := u
  obtain ⟨-, hact, hworld, a, hfires, hprog⟩ := aio_of_step hnext
  dsimp only at hworld hprog hlive
  have hheld : p.aio.pc.holdsRequest = false := by
    rw [← Bool.not_eq_true, ← hlocks.aioRequest, hfree]
    simp
  obtain ⟨a', hfires', hmutex, rfl⟩ := hfires.of_hold hact hheld
  subst hprog
  -- the environment looks at the names of the requests only
  have hworld' : w.afterAio p.aio act = some world := by
    cases act <;> exact hworld
  refine ⟨_, step_aio hended hfires' hact hworld', ?_⟩
  have hended' : a'.ended = none := hlive
  have hfree' : a'.mgr.requestMutex = none := hmutex.trans hfree
  simp [step, Prog.step, Prog.mainStep, hended', hpc, AioState.lockRequest, hfree', World.after,
    AioState.hold]

/-- A request that is linked in is not the one that `aio_loop` opens a file for. -/
lemma afterAio_linkIn {a b : AioState} {r : ReqId} {q : CopyRequest} (w : World)
    (h : AioState.Fires a act b) (hout : a.pc.holdsRequest = false)
    (hne : ∀ x ∈ a.mgr.writeHead, x ≠ r) :
    w.afterAio (a.linkIn r q) act = w.afterAio a act := by
  cases h with
  | readOne o size cs hat => simp [hat, AioPc.holdsRequest] at hout
  | writeOne fd =>
    have hhead : (a.linkIn r q).mgr.writeHead = a.mgr.writeHead := rfl
    have hbind : a.mgr.writeHead.bind (a.linkIn r q).reqs.get? =
        a.mgr.writeHead.bind a.reqs.get? :=
      Option.bind_congr fun x hx => Heap.get?_set_of_ne (hne x hx)
    simp only [World.afterAio, hhead, hbind]
  | _ => rfl

lemma exchange_addLink (hlocks : Locks p) (hgood : Good p.aio) (hended : p.aio.ended = none)
    {r : ReqId} (hpc : p.pc = .addLink) (hr : p.aio.mainReq = some r)
    (hnext : Sys.step ⟨{ p with aio := p.aio.addCopyReq r, pc := .addUnlock }, w⟩ (.aio act) =
      some u) (hlive : u.prog.aio.ended = none) :
    ∃ t' log, Sys.step ⟨p, w⟩ (.aio act) = some t' ∧
      t'.step .addLink = some (u.relog log) := by
  obtain ⟨prog, world⟩ := u
  obtain ⟨-, hact, hworld, a, hfires, hprog⟩ := aio_of_step hnext
  dsimp only at hworld hprog hlive
  obtain ⟨q, hq, heq⟩ := hgood.addCopyReq_eq hr
  have hheld : p.aio.mgr.requestMutex = some .main := hlocks.mainRequest.mpr (by rw [hpc]; rfl)
  have hout : p.aio.pc.holdsRequest = false := by
    rw [← Bool.not_eq_true, ← hlocks.aioRequest, hheld]
    simp
  rw [heq] at hworld
  obtain ⟨a', log, hfires', hq', rfl⟩ :=
    (heq ▸ hfires : AioState.Fires (p.aio.linkIn r q) act a).of_linkIn hact hout hheld hgood hr hq
  subst hprog
  have hworld' : w.afterAio p.aio act = some world :=
    (afterAio_linkIn w hfires' hout (AioState.writeHead_ne_mainReq hgood hr)).symm.trans hworld
  refine ⟨_, (a'.linkIn r q).log, step_aio hended hfires' hact hworld', ?_⟩
  have hended' : a'.ended = none := hlive
  have hr' : a'.mainReq = some r := (aioFrame_of_fires hfires' hact).mainReq.trans hr
  have hlink : a'.addCopyReq r = a'.linkIn r q := by rw [AioState.addCopyReq, hq']
  simp only [step, Prog.step, hended', Prog.mainStep, hr', hpc, World.after, hlink]
  rfl

/-- While the main thread holds `flush_mutex`, an operation may complete. -/
lemma exchange_complete {a : AioState} {pc : MainPc} (hended : p.aio.ended = none)
    (hflight : a.flight = p.aio.flight) (hheld : a.mgr.flushMutex = some .main)
    (hpc : a.pc.holdsFlush = false)
    (hnext : Sys.step ⟨{ p with aio := a, pc := pc }, w⟩ (.aio act) = some u) :
    ∃ c res, ∃ flight, act = .complete c res ∧
      u = ⟨{ p with aio := { a with flight := flight }, pc := pc }, w.transfer c res⟩ ∧
      Sys.step ⟨p, w⟩ (.aio act) =
        some ⟨{ p with aio := { p.aio with flight := flight } }, w.transfer c res⟩ := by
  obtain ⟨prog, world⟩ := u
  obtain ⟨-, hact, hworld, b, hfires, hprog⟩ := aio_of_step hnext
  dsimp only at hworld hprog
  obtain ⟨c, res, rfl, hmem, hres, rfl⟩ := hfires.eq_complete hact hheld hpc
  obtain rfl := Option.some.inj hworld
  refine ⟨c, res, _, rfl, by rw [hprog], ?_⟩
  rw [hflight] at hmem ⊢
  exact step_aio hended (.complete c res hmem hres) hact rfl

end

/-- **A step by which the main thread takes a mutex, or works under it, can be exchanged with the
step of `aio_loop` or of the kernel that follows it.** -/
lemma exchange (hlocks : Locks s.prog) (hgood : Good s.prog.aio) (hown : l.ofAio = false)
    (hstep : s.step l = some t) (hin : t.prog.pc.holds = true)
    (hnext : t.step (.aio act) = some u) (hlive : u.prog.aio.ended = none) :
    ∃ t' log, s.step (.aio act) = some t' ∧ t'.step l = some (u.relog log) := by
  obtain ⟨prog, world⟩ := s
  obtain ⟨p, hp, hmap⟩ := Option.bind_eq_some_iff.mp hstep
  obtain ⟨w, hw, rfl⟩ := Option.map_eq_some_iff.mp hmap
  obtain ⟨hended, hfires⟩ := Prog.fires_of_step hp
  obtain ⟨hended', -⟩ := aio_of_step hnext
  dsimp only at hin hended' hlocks hgood hended hfires
  cases hfires with
  | aio => simp [Label.ofAio] at hown
  | fail => simp [Prog.fail, AioState.exit] at hended'
  | addLock hpc hfree =>
    obtain rfl := Option.some.inj hw
    obtain ⟨t', ht', hu⟩ := exchange_addLock hlocks hended hpc hfree hnext hlive
    exact ⟨t', u.prog.aio.log, ht', hu⟩
  | addLink r hpc hr =>
    obtain rfl := Option.some.inj hw
    exact exchange_addLink hlocks hgood hended hpc hr hnext hlive
  | waitLock hpc hfree =>
    obtain rfl := Option.some.inj hw
    have hout : prog.aio.pc.holdsFlush = false := by
      rw [← Bool.not_eq_true, ← hlocks.aioFlush, hfree]
      simp
    obtain ⟨c, res, flight, rfl, rfl, ht'⟩ := exchange_complete
      (a := { prog.aio with mgr := { prog.aio.mgr with flushMutex := some .main } }) hended rfl rfl
      hout hnext
    refine ⟨_, prog.aio.log, ht', ?_⟩
    simp [step, Prog.step, hended, Prog.mainStep, hpc, AioState.lockFlush, hfree, World.after,
      relog, Prog.relog, AioState.relog]
  | waitSet hpc =>
    obtain rfl := Option.some.inj hw
    have hheld : prog.aio.mgr.flushMutex = some .main := hlocks.mainFlush.mpr (by rw [hpc]; rfl)
    have hout : prog.aio.pc.holdsFlush = false := by
      rw [← Bool.not_eq_true, ← hlocks.aioFlush, hheld]
      simp
    obtain ⟨c, res, flight, rfl, rfl, ht'⟩ := exchange_complete (a := prog.aio.setFlush) hended rfl
      hheld hout hnext
    refine ⟨_, prog.aio.log, ht', ?_⟩
    simp [step, Prog.step, hended, Prog.mainStep, hpc, AioState.setFlush, World.after, relog,
      Prog.relog, AioState.relog]
  | readdirExit | destroy => simp [AioState.exit] at hended'
  -- the other steps end outside the sections
  | initManager | startThread | statDir | statReg | walkEnd | mkdir | opendir | readdirEnd
  | closedir | bumpReqCount | copyReg | addUnlock | waitUnlock | join =>
    simp [MainPc.holds, MainPc.holdsFlush, MainPc.holdsRequest, Prog.next] at hin
  | statOther _ _ _ hpc | readdirSkip _ _ hpc | readdirEnqueue _ _ _ _ hpc =>
    simp [hpc, MainPc.holds, MainPc.holdsFlush, MainPc.holdsRequest] at hin

lemma movable : Movable Sys.step (fun s => s.prog.pc.holds = true) (fun l => l.ofAio = true)
    (fun s => Locks s.prog ∧ Good s.prog.aio) (fun s t => ∃ log, t = s.relog log) where
  refl s := ⟨s.prog.aio.log, rfl⟩
  trans := by
    rintro s _ _ ⟨log, rfl⟩ ⟨log', rfl⟩
    exact ⟨log', rfl⟩
  answer := by
    rintro s _ l t ⟨log, rfl⟩ hstep
    obtain ⟨log', ht⟩ := step_relog hstep log
    exact ⟨_, ht, log', rfl⟩
  inner_iff := by
    rintro s _ ⟨log, rfl⟩
    rfl
  stays := by
    intro s l t hl hstep
    cases l with
    | aio act => rw [pc_of_aio hstep]
    | _ => simp [Label.ofAio] at hl
  moves := by
    rintro s l t b u ⟨hlocks, hgood⟩ hown hstep hin hb hnext ⟨c, hc⟩
    obtain ⟨v, hv⟩ := Option.isSome_iff_exists.mp hc
    cases b with
    | aio act =>
      obtain ⟨t', log, ht', hu⟩ := exchange hlocks hgood (Bool.eq_false_iff.mpr hown) hstep hin
        hnext (Prog.fires_of_step (prog_step hv)).1
      exact ⟨t', _, ht', hu, log, rfl⟩
    | _ => simp [Label.ofAio] at hb

end Sys

/-- **The sections of the main thread under a mutex are atomic**: every state of a run in which
the main thread holds no mutex is reached, but for the history, which no step reads, by a run in
which neither `aio_loop` nor the kernel moves while the main thread holds one; whatever calls
fail. -/
theorem atomic_of_reaches {fs : Fs} {cwd : Loc} {srcName dstName : CStr} {batchSize : ℤ} {s : Sys}
    (h : Reaches Sys.step anyLabel (.init fs cwd srcName dstName batchSize) s)
    (hout : s.prog.pc.holds = false) : ∃ log, Reaches Sys.step
      (Undisturbed (fun s : Sys => s.prog.pc.holds = true) fun l : Label => l.ofAio = true)
      (.init fs cwd srcName dstName batchSize) (s.relog log) := by
  have hgood (t : Sys) (ht : Reaches Sys.step anyLabel (.init fs cwd srcName dstName batchSize) t) :
      Locks t.prog ∧ Good t.prog.aio :=
    have hprog := Sys.prog_reaches_any ht
    ⟨Locks.of_reaches hprog, Prog.good_of_reaches hprog⟩
  obtain ⟨_, hreach, log, rfl⟩ := Sys.movable.exists_undisturbed hgood
    (by simp [Sys.init, Prog.init, MainPc.holds, MainPc.holdsFlush, MainPc.holdsRequest]) h
    (by simp [hout])
  exact ⟨log, hreach⟩

/-- A run in which `aio_loop` moves twice while a request is linked in. -/
theorem atomic_of_reaches_interrupted : ∃ (s : Sys) (log : Log),
    s.prog.aio.pc = .handle [] ∧ s.prog.aio.log.accepted = [0] ∧ Reaches Sys.step
      (Undisturbed (fun s : Sys => s.prog.pc.holds = true) fun l : Label => l.ofAio = true)
      (.init oneFile [] ['s'] ['d'] 1) (s.relog log) := by
  have hrun : (exec Sys.step (Sys.init oneFile [] ['s'] ['d'] 1) [.initManager true,
      .startThread true, .stat (some .dir), .mkdir true, .opendir true,
      .readdir (.entry ['f'] .reg), .readdir .finished, .closedir true, .stat (some .reg),
      .bumpReqCount, .copyReg, .addLock true, .aio .lockFlush, .addLink, .aio (.getEvents []),
      .addUnlock true]).map (fun s => (s.prog.pc, s.prog.aio.pc, s.prog.aio.log.accepted)) =
        some (.walk, .handle [], [0]) := by
    decide +kernel
  obtain ⟨s, hs, hfacts⟩ := Option.map_eq_some_iff.mp hrun
  simp only [Prod.mk.injEq] at hfacts
  obtain ⟨hpc, haio, hacc⟩ := hfacts
  obtain ⟨log, hreach⟩ := atomic_of_reaches (reaches_of_exec (fun _ _ => trivial) hs)
    (by rw [hpc]; rfl)
  exact ⟨s, log, haio, hacc, hreach⟩

end Cpr
