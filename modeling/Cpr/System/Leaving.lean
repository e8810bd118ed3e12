/-
# Between a failed call and the end of the process

When a call of the main thread fails, `main` prints the error and returns, and only then does
the process end; until then `aio_loop` and the kernel go on.  In `Sys` the failed call ends the
process at once.  Here the two are steps of their own.  The main thread touches nothing in
between, so the call could as well have failed at the end: every state of the program that
leaves is one that `Sys` reaches.
-/
import Cpr.Program.View
import Cpr.System.Steps

namespace Cpr

open Transition

/-- The program, whose main thread may be on its way out. -/
structure Leaving where
  sys : Sys
  /-- The call that failed. -/
  failed : Option Label

namespace Leaving

/-- The state when `main` starts. -/
def init (s : Sys) : Leaving := ⟨s, none⟩

/-- One step: of a thread or of the kernel, or, with the label `none`, the end of the process
after a failed call. -/
def step (s : Leaving) : Option Label → Option Leaving
  | some l =>
    if l.Fails then
      if s.failed = none then (s.sys.step l).map fun _ => ⟨s.sys, some l⟩ else none
    else if s.failed = none ∨ l.ofMain = false then (s.sys.step l).map fun t => ⟨t, s.failed⟩
    else none
  | none =>
    if s.failed ≠ none ∧ s.sys.prog.aio.ended = none then
      some ⟨{ s.sys with prog := s.sys.prog.fail }, s.failed⟩
    else none

/-- The labels that the restriction `ok` allows to the program. -/
def Allows (ok : Sys → Label → Prop) (s : Leaving) : Option Label → Prop
  | some l => ok s.sys l
  | none => True

instance (ok : Sys → Label → Prop) [∀ s l, Decidable (ok s l)] (s : Leaving) (o : Option Label) :
    Decidable (s.Allows ok o) := by
  cases o <;> (unfold Allows; infer_instance)

end Leaving

/-- A call that can fail in one state of the main thread can fail in every other one. -/
lemma Prog.mainStep_of_fails {p p' q : Prog} {l : Label} (hfails : l.Fails)
    (hstep : p.mainStep l = some p') (hpc : q.pc = p.pc) (hqueue : q.queue = p.queue) :
    q.mainStep l = some q.fail := by
  cases l with
  | aio | bumpReqCount | copyReg | addLink | waitSet | walkEnd => cases hfails
  | stat answer =>
    obtain rfl : answer = none := hfails
    obtain ⟨hwalk, -⟩ := Option.ite_none_right_eq_some.mp hstep
    rw [← hpc, ← hqueue] at hwalk
    exact if_pos hwalk
  | readdir answer =>
    obtain rfl : answer = .failed := hfails
    simp only [mainStep] at hstep ⊢
    rw [hqueue]
    split at hstep
    · obtain ⟨hread, -⟩ := Option.ite_none_right_eq_some.mp hstep
      rw [← hpc] at hread
      rw [if_pos hread]
      rfl
    · cases hstep
  | _ ok =>
    obtain rfl : ok = false := hfails
    obtain ⟨hat, -⟩ := Option.ite_none_right_eq_some.mp hstep
    rw [← hpc] at hat
    simp [mainStep, proceed, hat]

/-- A failed call leaves the environment as it is. -/
lemma World.after_of_fails {w : World} {p : Prog} {l : Label} (hfails : l.Fails) :
    w.after p l = some w := by
  cases l with
  | aio | bumpReqCount | copyReg | addLink | waitSet | walkEnd => cases hfails
  | stat answer =>
    obtain rfl : answer = none := hfails
    rfl
  | readdir answer =>
    obtain rfl : answer = .failed := hfails
    rfl
  | _ ok =>
    obtain rfl : ok = false := hfails
    rfl

/-- The call fails in every state of the system that the main thread sees in the same way. -/
lemma Sys.step_of_fails {s s' u : Sys} {l : Label} (hfails : l.Fails) (hstep : s.step l = some s')
    (hpc : u.prog.pc = s.prog.pc) (hqueue : u.prog.queue = s.prog.queue)
    (hended : u.prog.aio.ended = none) : u.step l = some { u with prog := u.prog.fail } := by
  have hstep := Sys.prog_step hstep
  obtain ⟨hrun, -⟩ := Prog.fires_of_step hstep
  have hprog : ∀ p : Prog, p.aio.ended = none → p.step l = p.mainStep l := by
    intro p hp
    unfold Prog.step
    rw [if_neg (by simp [hp])]
    cases l with
    | aio => cases hfails
    | _ => rfl
  rw [hprog _ hrun] at hstep
  rw [Sys.step, hprog _ hended, Prog.mainStep_of_fails hfails hstep hpc hqueue, Option.bind_some,
    World.after_of_fails hfails]
  rfl

namespace Leaving

variable {ok : Sys → Label → Prop} {s₀ : Sys} {s s' : Leaving} {l : Label} {o : Option Label}

/-- Inversion of a step. -/
lemma step_cases (h : s.step o = some s') :
    (∃ l, o = some l ∧ l.Fails ∧ s.failed = none ∧ (s.sys.step l).isSome ∧
      s' = ⟨s.sys, some l⟩) ∨
    (∃ l t, o = some l ∧ ¬ l.Fails ∧ (s.failed = none ∨ l.ofMain = false) ∧
      s.sys.step l = some t ∧ s' = ⟨t, s.failed⟩) ∨
    (o = none ∧ s.failed ≠ none ∧ s.sys.prog.aio.ended = none ∧
      s' = ⟨{ s.sys with prog := s.sys.prog.fail }, s.failed⟩) := by
  cases o with
  | none =>
    obtain ⟨⟨hfailed, hended⟩, heq⟩ := Option.ite_none_right_eq_some.mp h
    exact Or.inr (Or.inr ⟨rfl, hfailed, hended, (Option.some.inj heq).symm⟩)
  | some l =>
    simp only [step] at h
    split_ifs at h with hfails hfailed hmoves
    · obtain ⟨t, ht, rfl⟩ := Option.map_eq_some_iff.mp h
      exact Or.inl ⟨l, rfl, hfails, hfailed, by rw [ht]; rfl, rfl⟩
    · obtain ⟨t, ht, rfl⟩ := Option.map_eq_some_iff.mp h
      exact Or.inr (Or.inl ⟨l, t, rfl, hfails, hmoves, ht, rfl⟩)

/-- The call that failed can still fail. -/
def CanFail (ok : Sys → Label → Prop) (s : Leaving) : Prop :=
  ∀ l ∈ s.failed, l.Fails ∧ ok s.sys l ∧ (s.sys.prog.aio.ended = none →
    s.sys.step l = some { s.sys with prog := s.sys.prog.fail })

/-- **The failed call could be the last step.** -/
theorem sys_reaches (hok : ∀ s t l, l.Fails → ok s l → ok t l)
    (h : Reaches Leaving.step (Leaving.Allows ok) (.init s₀) s) :
    Reaches Sys.step ok s₀ s.sys ∧ s.CanFail ok := by
  refine h.invariant (I := fun s => Reaches Sys.step ok s₀ s.sys ∧ s.CanFail ok)
    (fun {s o s'} hI hallows hstep => ?_) ⟨Reaches.refl, by simp [CanFail, init]⟩
  obtain ⟨hreach, hcan⟩ := hI
  rcases step_cases hstep with ⟨l, rfl, hfails, -, hsome, rfl⟩ |
    ⟨l, t, rfl, hnot, hmoves, ht, rfl⟩ | ⟨rfl, hfailed, hended, rfl⟩
  · -- the call fails, and the process goes on
    refine ⟨hreach, fun l' hl' => ?_⟩
    obtain rfl := Option.some.inj hl'
    obtain ⟨t, ht⟩ := Option.isSome_iff_exists.mp hsome
    exact ⟨hfails, hallows, Sys.step_of_fails hfails ht rfl rfl⟩
  · refine ⟨hreach.tail hallows ht, fun l' hl' => ?_⟩
    obtain ⟨hfails, hok', hstep'⟩ := hcan l' hl'
    refine ⟨hfails, hok _ _ l' hfails hok', fun hrun => ?_⟩
    -- only `aio_loop` and the kernel have moved since
    have hl : l.ofMain = false := hmoves.resolve_left fun hnone => by
      rw [show s.failed = some l' from hl'] at hnone
      cases hnone
    obtain ⟨hended, hfires, -⟩ := Sys.fires_of_step ht
    obtain ⟨p', w'⟩ := t
    cases hfires with
    | aio => exact Sys.step_of_fails hfails (hstep' hended) rfl rfl hrun
    | fail _ _ hf => exact absurd hf hnot
    | _ => cases hl
  · obtain ⟨l, hl⟩ := Option.ne_none_iff_exists'.mp hfailed
    obtain ⟨hfails, hok', hstep'⟩ := hcan l hl
    refine ⟨hreach.tail hok' (hstep' hended), fun l' hl' => ?_⟩
    obtain ⟨hfails', hok'', -⟩ := hcan l' hl'
    exact ⟨hfails', hok _ _ l' hfails' hok'',
      fun hrun => by simp [Prog.fail, AioState.exit] at hrun⟩

end Leaving

end Cpr
