/-
# What a step of the old program can do

The inversions of `Child.step` and `OldProg.step`.
-/
import Cpr.Lib.Transition
import Cpr.Old.Main

namespace Cpr

open Transition Unix

namespace Child

variable {c c' : Child} {act : ChildAct}

/-- What each label asks of a child and what it does to it. -/
inductive Fires (c : Child) : ChildAct → Child → Prop
  | ioSetup (hpc : c.pc = .ioSetup) : Fires c (.ioSetup true) { c with pc := .openSrc }
  | ioSetupFail (hpc : c.pc = .ioSetup) : Fires c (.ioSetup false) (c.exit (-1))
  | openSrc (o : AioState.ReadAnswer) (hpc : c.pc = .openSrc) (hposs : c.Possible o) :
      Fires c (.openSrc o) (c.openSrc o)
  | readSubmit (ret : ℤ) (hpc : c.pc = .readSubmit) (hret : ret ≤ 1) :
      Fires c (.readSubmit ret) (c.submit ret c.readReq .readSpin)
  | readReap (e : IoEvent) (returned : Bool) (hpc : c.pc = .readSpin) (he : c.Fills e returned) :
      Fires c (.readReap e returned) (c.readReap e returned)
  | openDst (fd : ℤ) (hpc : c.pc = .openDst) (hfresh : 0 ≤ fd → fd ∉ c.openFds) :
      Fires c (.openDst fd) (c.openDst fd)
  | writeSubmit (ret : ℤ) (hpc : c.pc = .writeSubmit) (hret : ret ≤ 1) :
      Fires c (.writeSubmit ret) (c.submit ret c.writeReq .writeSpin)
  | writeReap (e : IoEvent) (returned : Bool) (hpc : c.pc = .writeSpin) (he : c.Fills e returned) :
      Fires c (.writeReap e returned) (c.writeReap e returned)
  | ioDestroy (ok : Bool) (hpc : c.pc = .ioDestroy) :
      Fires c (.ioDestroy ok) (c.exit (if ok then 0 else -1))
  | complete (op : Iocb) (res : ℕ) (hpc : c.pc ≠ .exited) (hmem : .pending op ∈ c.flight)
      (hres : res < 2 ^ 64) : Fires c (.complete op res) (c.complete op res)

/-- Inversion of a child's step. -/
theorem fires_of_step (h : c.step act = some c') : Fires c act c' := by
  cases act <;> simp only [step, Option.ite_none_right_eq_some, Option.some.injEq] at h
  case ioSetup ok =>
    obtain ⟨hpc, rfl⟩ := h
    cases ok with
    | false => exact .ioSetupFail hpc
    | true => exact .ioSetup hpc
  case openSrc o =>
    obtain ⟨⟨hpc, hposs⟩, rfl⟩ := h
    exact .openSrc o hpc hposs
  case readSubmit ret =>
    obtain ⟨⟨hpc, hret⟩, rfl⟩ := h
    exact .readSubmit ret hpc hret
  case readReap e returned =>
    obtain ⟨⟨hpc, he⟩, rfl⟩ := h
    exact .readReap e returned hpc he
  case openDst fd =>
    obtain ⟨⟨hpc, hfresh⟩, rfl⟩ := h
    exact .openDst fd hpc hfresh
  case writeSubmit ret =>
    obtain ⟨⟨hpc, hret⟩, rfl⟩ := h
    exact .writeSubmit ret hpc hret
  case writeReap e returned =>
    obtain ⟨⟨hpc, he⟩, rfl⟩ := h
    exact .writeReap e returned hpc he
  case ioDestroy ok =>
    obtain ⟨hpc, rfl⟩ := h
    exact .ioDestroy ok hpc
  case complete op res =>
    obtain ⟨⟨hpc, hmem, hres⟩, rfl⟩ := h
    exact .complete op res hpc hmem hres

/-- The completion check is made on an unsigned number: it always passes. -/
lemma readReap_eq (c : Child) (e : IoEvent) (returned : Bool) : c.readReap e returned =
    { c with
      flight := c.left e returned
      readRes := reported e returned
      pc := .openDst
      openFds := c.openFds.erase c.srcFd } := by
  rw [readReap, if_neg (Nat.not_lt_zero _)]

lemma writeReap_eq (c : Child) (e : IoEvent) (returned : Bool) : c.writeReap e returned =
    { c with
      flight := c.left e returned
      writeRes := reported e returned
      pc := .ioDestroy } := by
  rw [writeReap, if_neg (Nat.not_lt_zero _)]

lemma node_openSrc (o : AioState.ReadAnswer) : (c.openSrc o).node = c.node := by
  unfold openSrc
  by_cases hfd : o.fd < 0
  · rw [if_pos hfd]
    rfl
  · rw [if_neg hfd]
    cases o.stSize with
    | none => rfl
    | some n =>
      dsimp only
      split_ifs <;> rfl

/-- A child copies one file all along. -/
lemma node_of_fires (h : Fires c act c') : c'.node = c.node := by
  cases h with
  | openSrc o => exact node_openSrc o
  | readSubmit | writeSubmit =>
    rw [submit]
    split_ifs <;> rfl
  | openDst =>
    rw [openDst]
    split_ifs <;> rfl
  | readReap => rw [readReap_eq]
  | writeReap => rw [writeReap_eq]
  | _ => rfl

lemma map_node_set {cs : List Child} {i : ℕ} (hc : cs[i]? = some c) (h : Fires c act c') :
    (cs.set i c').map Child.node = cs.map Child.node := by
  obtain ⟨hi, rfl⟩ := List.getElem?_eq_some_iff.mp hc
  rw [List.map_set, node_of_fires h]
  refine List.ext_getElem? fun j => ?_
  by_cases hj : i = j
  · subst hj
    simp [hi]
  · rw [List.getElem?_set_ne hj]

lemma not_exited_of_fires (h : Fires c act c') : c.pc ≠ .exited := by
  cases h with
  | complete _ _ hpc => exact hpc
  | ioSetup hpc | ioSetupFail hpc | openSrc _ hpc | readSubmit _ hpc | readReap _ _ hpc
  | openDst _ hpc | writeSubmit _ hpc | writeReap _ _ hpc | ioDestroy _ hpc => simp [hpc]

end Child

/-- A call of the parent fails, and `main` returns -1. -/
def OldLabel.Fails : OldLabel → Prop
  | .stat answer => answer = none
  | .mkdir ok | .opendir ok => ok = false
  | _ => False

instance OldLabel.decidableFails (l : OldLabel) : Decidable l.Fails := by
  induction l using OldLabel.casesOn <;> (unfold OldLabel.Fails; infer_instance)

namespace OldProg

variable {p p' : OldProg} {l : OldLabel}

/-- What each label asks of the state and what it does to it. -/
inductive Fires (p : OldProg) : OldLabel → OldProg → Prop
  | child (i : ℕ) (act : ChildAct) (c c' : Child) (hc : p.children[i]? = some c)
      (hfires : c.Fires act c') :
      Fires p (.child i act) { p with children := p.children.set i c' }
  | fail (l : OldLabel) (hended : p.ended = none) (hfails : l.Fails) : Fires p l (p.exit (-1))
  | statDir (curr : Node) (rest : List Node) (hended : p.ended = none) (hpc : p.pc = .walk)
      (hqueue : p.queue = curr :: rest) : Fires p (.stat (some .dir)) { p with pc := .mkdir }
  | statReg (curr : Node) (rest : List Node) (hended : p.ended = none) (hpc : p.pc = .walk)
      (hqueue : p.queue = curr :: rest) : Fires p (.stat (some .reg)) { p with pc := .fork }
  | statOther (curr : Node) (rest : List Node) (k : Kind) (hended : p.ended = none)
      (hpc : p.pc = .walk) (hqueue : p.queue = curr :: rest) (hdir : k ≠ .dir) (hreg : k ≠ .reg) :
      Fires p (.stat (some k)) { p with queue := rest }
  | walkEnd (hended : p.ended = none) (hpc : p.pc = .walk) (hqueue : p.queue = []) :
      Fires p .walkEnd { p with pc := .wait }
  | mkdir (hended : p.ended = none) (hpc : p.pc = .mkdir) :
      Fires p (.mkdir true) { p with pc := .opendir }
  | opendir (hended : p.ended = none) (hpc : p.pc = .opendir) :
      Fires p (.opendir true) { p with pc := .readdir }
  /-- `.` and `..`, and entries of another type. -/
  | readdirSkip (name : Name) (dtype : DType) (hended : p.ended = none) (hpc : p.pc = .readdir)
      (hskip : (name = dot ∨ name = dotdot) ∨ ¬ (dtype = .dir ∨ dtype = .reg)) :
      Fires p (.readdir (.entry name dtype)) p
  | readdirEnqueue (curr : Node) (rest : List Node) (name : Name) (dtype : DType)
      (hended : p.ended = none) (hpc : p.pc = .readdir) (hqueue : p.queue = curr :: rest)
      (hname : ¬ (name = dot ∨ name = dotdot)) (htype : dtype = .dir ∨ dtype = .reg) :
      Fires p (.readdir (.entry name dtype))
        { p with queue := curr :: (rest ++ [Prog.child curr name]) }
  | readdirEnd (answer : ReaddirAnswer) (hended : p.ended = none) (hpc : p.pc = .readdir)
      (hanswer : answer = .finished ∨ answer = .failed) :
      Fires p (.readdir answer) { p with pc := .closedir }
  | closedir (ok : Bool) (hended : p.ended = none) (hpc : p.pc = .closedir) :
      Fires p (.closedir ok) p.next
  | fork (curr : Node) (rest : List Node) (ok : Bool) (hended : p.ended = none)
      (hpc : p.pc = .fork) (hqueue : p.queue = curr :: rest) :
      Fires p (.fork ok) (p.copyReg curr ok)
  | wait (i : ℕ) (c : Child) (hended : p.ended = none) (hpc : p.pc = .wait)
      (hc : p.children[i]? = some c) (hexited : c.pc = .exited) (hnew : i ∉ p.waited) :
      Fires p (.wait i) { p with waited := i :: p.waited }
  | waitEnd (hended : p.ended = none) (hpc : p.pc = .wait)
      (hall : ∀ i < p.children.length, i ∈ p.waited) : Fires p .waitEnd (p.exit 0)

lemma fires_of_branch {answer : Option Kind} (hended : p.ended = none) (hpc : p.pc = .walk)
    (hqueue : p.queue ≠ []) : Fires p (.stat answer) (p.branch answer) := by
  obtain ⟨curr, rest, hcurr⟩ := List.exists_cons_of_ne_nil hqueue
  have hnext : p.next = { p with queue := rest } := by
    rw [next, hcurr, ← hpc]
    rfl
  cases answer with
  | none => exact .fail _ hended rfl
  | some k =>
    cases k with
    | dir => exact .statDir curr rest hended hpc hcurr
    | reg => exact .statReg curr rest hended hpc hcurr
    | _ =>
      rw [branch]
      · rw [hnext]
        exact .statOther curr rest _ hended hpc hcurr (by simp) (by simp)
      all_goals simp

lemma fires_of_readdirStep {curr : Node} {rest : List Node} {answer : ReaddirAnswer}
    (hended : p.ended = none) (hpc : p.pc = .readdir) (hqueue : p.queue = curr :: rest) :
    Fires p (.readdir answer) (p.readdirStep curr answer) := by
  cases answer with
  | failed => exact .readdirEnd _ hended hpc (Or.inr rfl)
  | finished => exact .readdirEnd _ hended hpc (Or.inl rfl)
  | entry name dtype =>
    rw [readdirStep]
    split_ifs with hname htype
    · exact .readdirSkip name dtype hended hpc (Or.inl hname)
    · rw [hqueue]
      exact .readdirEnqueue curr rest name dtype hended hpc hqueue hname htype
    · exact .readdirSkip name dtype hended hpc (Or.inr htype)

lemma fires_of_proceed {ok : Bool} {next : OldProg} (hended : p.ended = none)
    (hfails : ok = false → l.Fails) (hok : ok = true → Fires p l next) :
    Fires p l (p.proceed ok next) := by
  cases ok with
  | false => exact .fail l hended (hfails rfl)
  | true => exact hok rfl

lemma fires_of_mainStep (hended : p.ended = none) (h : p.mainStep l = some p') : Fires p l p' := by
  cases l <;> simp only [mainStep, Option.ite_none_right_eq_some, Option.some.injEq] at h
  case stat answer =>
    obtain ⟨⟨hpc, hqueue⟩, rfl⟩ := h
    exact fires_of_branch hended hpc hqueue
  case walkEnd =>
    obtain ⟨⟨hpc, hqueue⟩, rfl⟩ := h
    exact .walkEnd hended hpc hqueue
  case mkdir ok =>
    obtain ⟨hpc, rfl⟩ := h
    exact fires_of_proceed hended id fun hok => hok ▸ .mkdir hended hpc
  case opendir ok =>
    obtain ⟨hpc, rfl⟩ := h
    exact fires_of_proceed hended id fun hok => hok ▸ .opendir hended hpc
  case readdir answer =>
    split at h
    · rename_i curr rest hqueue
      obtain ⟨hpc, h⟩ := Option.ite_none_right_eq_some.mp h
      obtain rfl := Option.some.inj h
      exact fires_of_readdirStep hended hpc hqueue
    · simp at h
  case closedir ok =>
    obtain ⟨hpc, rfl⟩ := h
    exact .closedir ok hended hpc
  case fork ok =>
    split at h
    · rename_i curr rest hqueue
      obtain ⟨hpc, h⟩ := Option.ite_none_right_eq_some.mp h
      obtain rfl := Option.some.inj h
      exact .fork curr rest ok hended hpc hqueue
    · simp at h
  case wait i =>
    split at h
    · rename_i c hc
      obtain ⟨⟨hpc, hexited, hnew⟩, h⟩ := Option.ite_none_right_eq_some.mp h
      obtain rfl := Option.some.inj h
      exact .wait i c hended hpc hc hexited hnew
    · simp at h
  case waitEnd =>
    obtain ⟨⟨hpc, hall⟩, rfl⟩ := h
    exact .waitEnd hended hpc hall
  case child => cases h

/-- Inversion of a step. -/
theorem fires_of_step (h : p.step l = some p') : Fires p l p' := by
  have hmain : (if p.ended.isSome then none else p.mainStep l) = some p' → Fires p l p' := by
    intro h
    obtain ⟨hended, h⟩ := Option.ite_none_left_eq_some.mp h
    exact fires_of_mainStep (by simpa using hended) h
  cases l with
  | child i act =>
    rw [step] at h
    split at h
    · rename_i c hc
      obtain ⟨c', hc', rfl⟩ := Option.map_eq_some_iff.mp h
      exact .child i act c c' hc (Child.fires_of_step hc')
    · cases h
  | _ => exact hmain h

/-- The parent only makes children. -/
lemma Fires.children (h : Fires p l p') (hl : ∀ i act, l ≠ .child i act) :
    p'.children = p.children ∨ ∃ curr, p'.children = p.children ++ [.new curr] := by
  cases h with
  | child i act => exact absurd rfl (hl i act)
  | fork curr rest ok =>
    cases ok with
    | false => exact Or.inl rfl
    | true => exact Or.inr ⟨curr, rfl⟩
  | _ => exact Or.inl rfl

end OldProg

end Cpr
