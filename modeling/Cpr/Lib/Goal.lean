/-
# Work towards a goal

A goal gives some places a value, and a place may lie in another one, its parent.  The work
makes a place, blank at first, once its parent is there, and fills it with its value.  What
is there at any time is a part of the goal, and every such part can be worked on until the
goal is reached: no order of the work leads astray.
-/
import Cpr.Lib.Transition
import Mathlib.Data.Set.Card
import Mathlib.Logic.Function.Basic
import Mathlib.Order.CompletePartialOrder
import Mathlib.Order.WellFounded

namespace Cpr

open Transition

/-- The values that the places are to have. -/
structure Goal (ι β : Type*) where
  value : ι → Option β
  parent : ι → Option ι
  /-- A value as it is when its place was just made. -/
  blank : β → β
  closed : ∀ i, (value i).isSome → ∀ p ∈ parent i, (value p).isSome

/-- A unit of work. -/
inductive Work (ι : Type*)
  | make (i : ι)
  | fill (i : ι)

namespace Goal

variable {ι β : Type*} (g : Goal ι β)

/-- A unit of work changes the values that are there. -/
def step [DecidableEq ι] (f : ι → Option β) : Work ι → Option (ι → Option β)
  | .make i =>
    match g.value i with
    | none => none
    | some b =>
      if f i = none ∧ ∀ p ∈ g.parent i, (f p).isSome then
        some (Function.update f i (some (g.blank b)))
      else none
  | .fill i =>
    match g.value i with
    | none => none
    | some b => if (f i).isSome then some (Function.update f i (some b)) else none

/-- A part of the goal, in which some places are blank. -/
structure Partial (f : ι → Option β) : Prop where
  value : ∀ i b, f i = some b → ∃ c, g.value i = some c ∧ (b = g.blank c ∨ b = c)
  parent : ∀ i, (f i).isSome → ∀ p ∈ g.parent i, (f p).isSome

variable {g} {f f' : ι → Option β} {i : ι} {b : β}

lemma Partial.none : g.Partial fun _ => none := ⟨by simp, by simp⟩

/-- Nothing is where the goal has nothing. -/
lemma Partial.eq_none (h : g.Partial f) (hi : g.value i = .none) : f i = .none := by
  by_contra hne
  obtain ⟨b, hb⟩ := Option.ne_none_iff_exists'.mp hne
  obtain ⟨c, hc, -⟩ := h.value i b hb
  simp [hi] at hc

/-- There is a place to work on next. -/
lemma Partial.exists_next (hwf : WellFounded fun p i => p ∈ g.parent i) (h : g.Partial f)
    (hne : f ≠ g.value) :
    ∃ i b, g.value i = some b ∧ f i ≠ some b ∧ ∀ p ∈ g.parent i, (f p).isSome := by
  obtain ⟨j, hj⟩ := Function.ne_iff.mp hne
  -- a first place that is not as it should be has its parent
  obtain ⟨i, hi, hmin⟩ := hwf.has_min {i | f i ≠ g.value i} ⟨j, hj⟩
  cases hv : g.value i with
  | none => exact absurd ((h.eq_none hv).trans hv.symm) hi
  | some b =>
    refine ⟨i, b, hv, fun hf => hi (hf.trans hv.symm), fun p hp => ?_⟩
    have hright : f p = g.value p := by
      by_contra hwrong
      exact hmin p hwrong hp
    rw [hright]
    exact g.closed i (by simp [hv]) p hp

section

variable [DecidableEq ι]

lemma step_make (hi : g.value i = some b) (hnew : f i = none)
    (hparent : ∀ p ∈ g.parent i, (f p).isSome) :
    g.step f (.make i) = some (Function.update f i (some (g.blank b))) := by
  simp only [step, hi]
  exact if_pos ⟨hnew, hparent⟩

lemma step_fill (hi : g.value i = some b) (hthere : (f i).isSome) :
    g.step f (.fill i) = some (Function.update f i (some b)) := by
  simp only [step, hi]
  exact if_pos hthere

/-- A place that is there, or may be made, gets a value that the goal allows. -/
lemma Partial.update (h : g.Partial f) {c : β} (hi : g.value i = some b)
    (hc : c = g.blank b ∨ c = b) (hparent : ∀ p ∈ g.parent i, (f p).isSome) :
    g.Partial (Function.update f i (some c)) := by
  have hmono : ∀ j, (f j).isSome → (Function.update f i (some c) j).isSome := by
    intro j hj
    by_cases hji : j = i
    · simp [hji]
    · rwa [Function.update_of_ne hji]
  constructor
  · intro j b' hj
    by_cases hji : j = i
    · subst hji
      rw [Function.update_self] at hj
      obtain rfl := Option.some.inj hj
      exact ⟨b, hi, hc⟩
    · rw [Function.update_of_ne hji] at hj
      exact h.value j b' hj
  · intro j hj p hp
    refine hmono p ?_
    by_cases hji : j = i
    · exact hparent p (hji ▸ hp)
    · rw [Function.update_of_ne hji] at hj
      exact h.parent j hj p hp

lemma Partial.step {w : Work ι} (h : g.Partial f) (hstep : g.step f w = some f') :
    g.Partial f' := by
  cases w with
  | make i =>
    simp only [Goal.step] at hstep
    split at hstep
    · cases hstep
    · rename_i b hb
      obtain ⟨⟨-, hparent⟩, heq⟩ := Option.ite_none_right_eq_some.mp hstep
      obtain rfl := Option.some.inj heq
      exact h.update hb (Or.inl rfl) hparent
  | fill i =>
    simp only [Goal.step] at hstep
    split at hstep
    · cases hstep
    · rename_i b hb
      obtain ⟨hthere, heq⟩ := Option.ite_none_right_eq_some.mp hstep
      obtain rfl := Option.some.inj heq
      exact h.update hb (Or.inr rfl) (h.parent i hthere)

/-- **What was worked out from nothing is a part of the goal.** -/
theorem partial_of_reaches (h : Reaches g.step anyLabel (fun _ => none) f) : g.Partial f :=
  h.invariant (fun hf _ hstep => hf.step hstep) .none

/-- A place is made if need be, and filled. -/
lemma reaches_update (hi : g.value i = some b) (hparent : ∀ p ∈ g.parent i, (f p).isSome) :
    Reaches g.step anyLabel f (Function.update f i (some b)) := by
  cases hf : f i with
  | some c => exact Reaches.single trivial (step_fill hi (by simp [hf]))
  | none =>
    refine (Reaches.single trivial (step_make hi hf hparent)).tail trivial
      (step_fill hi (by simp) |>.trans ?_)
    rw [Function.update_idem]

/-- A place that was filled is not wrong any more. -/
lemma wrong_update (hi : g.value i = some b) (hne : f i ≠ some b) :
    {j | Function.update f i (some b) j ≠ g.value j} ⊂ {j | f j ≠ g.value j} := by
  refine ⟨fun j hj => ?_, fun hsub => ?_⟩
  · by_cases hji : j = i
    · subst hji
      exact absurd (by rw [Function.update_self, hi]) hj
    · rwa [Set.mem_ofPred_eq, Function.update_of_ne hji] at hj
  · have hmem : i ∈ {j | Function.update f i (some b) j ≠ g.value j} := by
      refine hsub ?_
      rw [Set.mem_ofPred_eq, hi]
      exact hne
    exact hmem (by rw [Function.update_self, hi])

/-- **From every part of the goal the work leads to the goal.** -/
theorem Partial.reaches_value (hfin : {i | (g.value i).isSome}.Finite)
    (hwf : WellFounded fun p i => p ∈ g.parent i) (h : g.Partial f) :
    Reaches g.step anyLabel f g.value := by
  -- the induction is on the places that are not as they should be
  have hwrong : {i | f i ≠ g.value i}.Finite := by
    refine hfin.subset fun i hi => ?_
    cases hv : g.value i with
    | none => exact absurd ((h.eq_none hv).trans hv.symm) hi
    | some b => simp [hv]
  induction hn : {i | f i ≠ g.value i}.ncard using Nat.strong_induction_on generalizing f with
  | _ n ih =>
    subst hn
    by_cases heq : f = g.value
    · exact heq ▸ Reaches.refl
    obtain ⟨i, b, hi, hne, hparent⟩ := h.exists_next hwf heq
    have hlt := wrong_update hi hne
    exact (reaches_update hi hparent).trans
      (ih _ (Set.ncard_lt_ncard hlt hwrong) (h.update hi (Or.inr rfl) hparent)
        (hwrong.subset hlt.subset) rfl)

end

end Goal

end Cpr
