/-
# What a step of the program can do

The inversion of `Prog.step`: what each label asks of the state and what it does to it.
-/
import Cpr.Program.Main

namespace Cpr

open Unix

/-- A call of the main thread fails. -/
def Label.Fails : Label → Prop
  | .initManager ok | .startThread ok | .mkdir ok | .opendir ok | .closedir ok | .addLock ok
  | .addUnlock ok | .waitLock ok | .waitUnlock ok | .join ok | .destroy ok => ok = false
  | .stat answer => answer = none
  | .readdir answer => answer = .failed
  | _ => False

instance (l : Label) : Decidable l.Fails := by
  induction l using Label.casesOn <;> (unfold Label.Fails; infer_instance)

namespace Prog

/-- What each label asks of the state and what it does to it. -/
inductive Fires (p : Prog) : Label → Prog → Prop
  | aio (act : Act) (a : AioState) (ha : aioStep p.aio act = some a) :
      Fires p (.aio act) { p with aio := a }
  /-- A call failed: `main` returns -1. -/
  | fail (l : Label) (hl : ∀ act, l ≠ .aio act) (hfails : l.Fails) : Fires p l p.fail
  | initManager (hpc : p.pc = .initManager) :
      Fires p (.initManager true) { p with pc := .startThread }
  | startThread (hpc : p.pc = .startThread) :
      Fires p (.startThread true)
        { p with aio := { p.aio with pc := .lockFlush }, pc := .walk, queue := [p.argv] }
  | statDir (curr : Node) (rest : List Node) (hpc : p.pc = .walk)
      (hqueue : p.queue = curr :: rest) : Fires p (.stat (some .dir)) { p with pc := .mkdir }
  | statReg (curr : Node) (rest : List Node) (hpc : p.pc = .walk)
      (hqueue : p.queue = curr :: rest) :
      Fires p (.stat (some .reg)) { p with pc := .bumpReqCount }
  /-- Neither a directory nor a regular file: the node is dropped. -/
  | statOther (curr : Node) (rest : List Node) (k : Kind) (hpc : p.pc = .walk)
      (hqueue : p.queue = curr :: rest) (hdir : k ≠ .dir) (hreg : k ≠ .reg) :
      Fires p (.stat (some k)) { p with queue := rest }
  | walkEnd (hpc : p.pc = .walk) (hqueue : p.queue = []) :
      Fires p .walkEnd { p with pc := .waitLock }
  | mkdir (hpc : p.pc = .mkdir) : Fires p (.mkdir true) { p with pc := .opendir }
  | opendir (hpc : p.pc = .opendir) : Fires p (.opendir true) { p with pc := .readdir }
  | readdirSkip (name : Name) (dtype : DType) (hpc : p.pc = .readdir)
      (hname : name = dot ∨ name = dotdot) : Fires p (.readdir (.entry name dtype)) p
  | readdirEnqueue (curr : Node) (rest : List Node) (name : Name) (dtype : DType)
      (hpc : p.pc = .readdir) (hqueue : p.queue = curr :: rest)
      (hname : ¬ (name = dot ∨ name = dotdot))
      (htype : dtype = .dir ∨ dtype = .reg ∨ dtype = .unknown) :
      Fires p (.readdir (.entry name dtype))
        { p with queue := curr :: (rest ++ [child curr name]) }
  | readdirExit (name : Name) (dtype : DType) (hpc : p.pc = .readdir)
      (hname : ¬ (name = dot ∨ name = dotdot))
      (htype : ¬ (dtype = .dir ∨ dtype = .reg ∨ dtype = .unknown)) :
      Fires p (.readdir (.entry name dtype)) { p with aio := p.aio.exit 1 }
  | readdirEnd (hpc : p.pc = .readdir) :
      Fires p (.readdir .finished) { p with pc := .closedir }
  | closedir (hpc : p.pc = .closedir) : Fires p (.closedir true) p.next
  | bumpReqCount (hpc : p.pc = .bumpReqCount) :
      Fires p .bumpReqCount { p with aio := p.aio.bumpReqCount, pc := .copyReg }
  | copyReg (curr : Node) (rest : List Node) (hpc : p.pc = .copyReg)
      (hqueue : p.queue = curr :: rest) :
      Fires p .copyReg
        { p with aio := p.aio.newRequest curr.srcName curr.dstName, pc := .addLock }
  | addLock (hpc : p.pc = .addLock) (hfree : p.aio.mgr.requestMutex = none) :
      Fires p (.addLock true)
        { p with
          aio := { p.aio with mgr := { p.aio.mgr with requestMutex := some .main } }
          pc := .addLink }
  | addLink (r : ReqId) (hpc : p.pc = .addLink) (hr : p.aio.mainReq = some r) :
      Fires p .addLink { p with aio := p.aio.addCopyReq r, pc := .addUnlock }
  | addUnlock (hpc : p.pc = .addUnlock) :
      Fires p (.addUnlock true) { p.next with aio := p.aio.unlockRequest }
  | waitLock (hpc : p.pc = .waitLock) (hfree : p.aio.mgr.flushMutex = none) :
      Fires p (.waitLock true)
        { p with
          aio := { p.aio with mgr := { p.aio.mgr with flushMutex := some .main } }
          pc := .waitSet }
  | waitSet (hpc : p.pc = .waitSet) :
      Fires p .waitSet { p with aio := p.aio.setFlush, pc := .waitUnlock }
  | waitUnlock (hpc : p.pc = .waitUnlock) :
      Fires p (.waitUnlock true) { p with aio := p.aio.unlockFlush, pc := .join }
  | join (hpc : p.pc = .join) (hret : p.aio.pc = .returned) :
      Fires p (.join true) { p with pc := .destroy }
  | destroy (hpc : p.pc = .destroy) : Fires p (.destroy true) { p with aio := p.aio.exit 0 }

variable {p p' : Prog} {l : Label}

lemma argv_of_fires (h : Fires p l p') : p'.argv = p.argv := by
  cases h <;> rfl

lemma fires_of_proceed {ok : Bool} {next : Prog} (hl : ∀ act, l ≠ .aio act)
    (hfails : ok = false → l.Fails) (hok : ok = true → Fires p l next) :
    Fires p l (p.proceed ok next) := by
  cases ok with
  | false => exact .fail l hl (hfails rfl)
  | true => exact hok rfl

lemma fires_of_branch {answer : Option Kind} (hpc : p.pc = .walk) (hqueue : p.queue ≠ []) :
    Fires p (.stat answer) (p.branch answer) := by
  obtain ⟨curr, rest, hcurr⟩ := List.exists_cons_of_ne_nil hqueue
  have hnext : p.next = { p with queue := rest } := by
    rw [next, hcurr, ← hpc]
    rfl
  cases answer with
  | none => exact .fail _ (by simp) rfl
  | some k =>
    cases k with
    | dir => exact .statDir curr rest hpc hcurr
    | reg => exact .statReg curr rest hpc hcurr
    | _ =>
      rw [branch]
      · rw [hnext]
        exact .statOther curr rest _ hpc hcurr (by simp) (by simp)
      all_goals simp

lemma fires_of_readdirStep {curr : Node} {rest : List Node} {answer : ReaddirAnswer}
    (hpc : p.pc = .readdir) (hqueue : p.queue = curr :: rest) :
    Fires p (.readdir answer) (p.readdirStep curr answer) := by
  cases answer with
  | failed => exact .fail _ (by simp) rfl
  | finished => exact .readdirEnd hpc
  | entry name dtype =>
    rw [readdirStep]
    split_ifs with hname htype
    · exact .readdirSkip name dtype hpc hname
    · rw [hqueue]
      exact .readdirEnqueue curr rest name dtype hpc hqueue hname htype
    · exact .readdirExit name dtype hpc hname htype

lemma fires_of_mainStep (h : p.mainStep l = some p') (hl : ∀ act, l ≠ .aio act) :
    Fires p l p' := by
  cases l <;>
    simp only [mainStep, AioState.lockRequest, AioState.lockFlush,
      Option.ite_none_right_eq_some, Option.some.injEq] at h
  case aio act => exact absurd rfl (hl act)
  case initManager ok =>
    obtain ⟨hpc, rfl⟩ := h
    exact fires_of_proceed hl id fun hok => hok ▸ .initManager hpc
  case startThread ok =>
    obtain ⟨hpc, rfl⟩ := h
    exact fires_of_proceed hl id fun hok => hok ▸ .startThread hpc
  case stat answer =>
    obtain ⟨⟨hpc, hqueue⟩, rfl⟩ := h
    exact fires_of_branch hpc hqueue
  case walkEnd =>
    obtain ⟨⟨hpc, hqueue⟩, rfl⟩ := h
    exact .walkEnd hpc hqueue
  case mkdir ok =>
    obtain ⟨hpc, rfl⟩ := h
    exact fires_of_proceed hl id fun hok => hok ▸ .mkdir hpc
  case opendir ok =>
    obtain ⟨hpc, rfl⟩ := h
    exact fires_of_proceed hl id fun hok => hok ▸ .opendir hpc
  case readdir answer =>
    split at h
    · rename_i curr rest hqueue
      obtain ⟨hpc, h⟩ := Option.ite_none_right_eq_some.mp h
      obtain rfl := Option.some.inj h
      exact fires_of_readdirStep hpc hqueue
    · simp at h
  case closedir ok =>
    obtain ⟨hpc, rfl⟩ := h
    exact fires_of_proceed hl id fun hok => hok ▸ .closedir hpc
  case bumpReqCount =>
    obtain ⟨hpc, rfl⟩ := h
    exact .bumpReqCount hpc
  case copyReg =>
    split at h
    · rename_i curr rest hqueue
      obtain ⟨hpc, h⟩ := Option.ite_none_right_eq_some.mp h
      obtain rfl := Option.some.inj h
      exact .copyReg curr rest hpc hqueue
    · simp at h
  case addLock ok =>
    obtain ⟨hpc, h⟩ := h
    cases ok with
    | false =>
      obtain rfl : p.fail = p' := by simpa using h
      exact .fail _ hl rfl
    | true =>
      obtain ⟨hfree, rfl⟩ := by simpa using h
      exact .addLock hpc hfree
  case addLink =>
    split at h
    · rename_i r hr
      obtain ⟨hpc, h⟩ := Option.ite_none_right_eq_some.mp h
      obtain rfl := Option.some.inj h
      exact .addLink r hpc hr
    · simp at h
  case addUnlock ok =>
    obtain ⟨hpc, rfl⟩ := h
    exact fires_of_proceed hl id fun hok => hok ▸ .addUnlock hpc
  case waitLock ok =>
    obtain ⟨hpc, h⟩ := h
    cases ok with
    | false =>
      obtain rfl : p.fail = p' := by simpa using h
      exact .fail _ hl rfl
    | true =>
      obtain ⟨hfree, rfl⟩ := by simpa using h
      exact .waitLock hpc hfree
  case waitSet =>
    obtain ⟨hpc, rfl⟩ := h
    exact .waitSet hpc
  case waitUnlock ok =>
    obtain ⟨hpc, rfl⟩ := h
    exact fires_of_proceed hl id fun hok => hok ▸ .waitUnlock hpc
  case join ok =>
    obtain ⟨⟨hpc, hret⟩, rfl⟩ := h
    exact fires_of_proceed hl id fun hok => hok ▸ .join hpc (hret hok)
  case destroy ok =>
    obtain ⟨hpc, rfl⟩ := h
    exact fires_of_proceed hl id fun hok => hok ▸ .destroy hpc

/-- Inversion of a step. -/
theorem fires_of_step (h : p.step l = some p') : p.aio.ended = none ∧ Fires p l p' := by
  have hended : p.aio.ended = none := by
    cases he : p.aio.ended with
    | none => rfl
    | some x => simp [step, he] at h
  refine ⟨hended, ?_⟩
  unfold step at h
  rw [if_neg (by simp [hended])] at h
  cases l with
  | aio act =>
    obtain ⟨a, ha, rfl⟩ := Option.map_eq_some_iff.mp h
    exact .aio act a ha
  | _ => exact fires_of_mainStep h (by simp)

end Prog

end Cpr
