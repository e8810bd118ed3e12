/-
# Reduction: when a section of the code may be taken as atomic

One thread of a system has a section of its code during which the other parties may take
steps.  Suppose that every step by which the thread enters the section, or stays in it, can
be exchanged with a step of another party that follows it.  Then the steps of the others can
be moved in front of the section, one by one: up to a relation `sim` between states, every
run that ends outside the section is one in which nobody moves while the thread is inside.
-/
import Cpr.Lib.Transition

namespace Cpr.Transition

variable {σ α : Type*}

/-- No other party moves while the thread is inside its section. -/
def Undisturbed (inner : σ → Prop) (other : α → Prop) (s : σ) (a : α) : Prop :=
  inner s → ¬ other a

/-- What the section needs in order to be atomic.  Only states that are not final count: a
party that ends the run inside the section is not moved. -/
structure Movable (step : σ → α → Option σ) (inner : σ → Prop) (other : α → Prop)
    (good : σ → Prop) (sim : σ → σ → Prop) : Prop where
  refl : ∀ s, sim s s
  trans : ∀ {s t u}, sim s t → sim t u → sim s u
  /-- Similar states take the same steps. -/
  answer : ∀ {s s' a t}, sim s s' → step s a = some t → ∃ t', step s' a = some t' ∧ sim t t'
  inner_iff : ∀ {s s'}, sim s s' → (inner s ↔ inner s')
  /-- The other parties do not move the thread. -/
  stays : ∀ {s a t}, other a → step s a = some t → (inner t ↔ inner s)
  /-- A step into or within the section can be exchanged with the step that follows it. -/
  moves : ∀ {s a t b u}, good s → ¬ other a → step s a = some t → inner t → other b →
    step t b = some u → (∃ c, (step u c).isSome) →
    ∃ t' u', step s b = some t' ∧ step t' a = some u' ∧ sim u u'

/-- One step of the thread that ends inside its section. -/
def Enters (step : σ → α → Option σ) (inner : σ → Prop) (other : α → Prop) (s t : σ) : Prop :=
  inner t ∧ ∃ a, ¬ other a ∧ step s a = some t

/-- Steps of the thread into and within its section. -/
def Within (step : σ → α → Option σ) (inner : σ → Prop) (other : α → Prop) : σ → σ → Prop :=
  Relation.ReflTransGen (Enters step inner other)

section

variable {step : σ → α → Option σ} {inner good : σ → Prop} {other : α → Prop}
  {sim : σ → σ → Prop} {s₀ s t u : σ} {b : α}

lemma Within.reaches (h : Within step inner other s t) :
    Reaches step (Undisturbed inner other) s t := by
  induction h with
  | refl => exact Reaches.refl
  | tail _ hlast ih =>
    obtain ⟨-, a, hown, ha⟩ := hlast
    exact ih.tail (fun _ => hown) ha

/-- A step of another party is moved in front of the section. -/
lemma Movable.push (hm : Movable step inner other good sim)
    (hgood : ∀ t, Reaches step (Undisturbed inner other) s t → good t)
    (h : Within step inner other s t) (hb : other b) (hstep : step t b = some u)
    (hlive : ∃ c, (step u c).isSome) :
    ∃ t' u', step s b = some t' ∧ Within step inner other t' u' ∧ sim u u' := by
  induction h generalizing u with
  | refl => exact ⟨u, u, hstep, Relation.ReflTransGen.refl, hm.refl u⟩
  | @tail v t hpre hlast ih =>
    obtain ⟨hinner, a, hown, ha⟩ := hlast
    obtain ⟨v', u', hv', hu', hsim⟩ :=
      hm.moves (hgood v (Within.reaches hpre)) hown ha hinner hb hstep hlive
    obtain ⟨t', v'', ht', hwithin, hsim'⟩ := ih hv' ⟨a, by rw [hu']; rfl⟩
    obtain ⟨u'', hu'', hsim''⟩ := hm.answer hsim' hu'
    -- the section is entered again, in front of a similar state
    have hinner' : inner u'' := by
      rw [← hm.inner_iff (hm.trans hsim hsim''), hm.stays hb hstep]
      exact hinner
    exact ⟨t', u'', ht', hwithin.tail ⟨hinner', a, hown, hu''⟩, hm.trans hsim hsim''⟩

/-- Where a run is, up to similar states: outside the section, or in the middle of it with
nobody else having moved since the thread entered it. -/
structure Reduced (step : σ → α → Option σ) (inner : σ → Prop) (other : α → Prop)
    (sim : σ → σ → Prop) (s₀ s : σ) : Prop where
  outside : ¬ inner s → ∃ s', Reaches step (Undisturbed inner other) s₀ s' ∧ sim s s'
  inside : inner s → (∃ c, (step s c).isSome) → ∃ s₁ s', ¬ inner s₁ ∧
    Reaches step (Undisturbed inner other) s₀ s₁ ∧ Within step inner other s₁ s' ∧ sim s s'

lemma Reduced.step_other (h : Reduced step inner other sim s₀ s)
    (hm : Movable step inner other good sim)
    (hgood : ∀ t, Reaches step anyLabel s₀ t → good t) (hb : other b)
    (hstep : step s b = some t) : Reduced step inner other sim s₀ t := by
  constructor
  · intro hout
    rw [hm.stays hb hstep] at hout
    obtain ⟨s', hreach, hsim⟩ := h.outside hout
    obtain ⟨t', ht', hsim'⟩ := hm.answer hsim hstep
    rw [hm.inner_iff hsim] at hout
    exact ⟨t', hreach.tail (fun hin => absurd hin hout) ht', hsim'⟩
  · rintro hin ⟨c, hc⟩
    rw [hm.stays hb hstep] at hin
    obtain ⟨s₁, s', hout, hreach, hwithin, hsim⟩ := h.inside hin ⟨b, by rw [hstep]; rfl⟩
    obtain ⟨t', ht', hsim'⟩ := hm.answer hsim hstep
    obtain ⟨v, hv⟩ := Option.isSome_iff_exists.mp hc
    obtain ⟨v', hv', -⟩ := hm.answer hsim' hv
    obtain ⟨t₁, u', ht₁, hwithin', hsim''⟩ := hm.push
      (fun w hw => hgood w ((hreach.trans hw).weaken fun _ _ _ => trivial)) hwithin hb ht'
      ⟨c, by rw [hv']; rfl⟩
    refine ⟨t₁, u', ?_, hreach.tail (fun hin => absurd hin hout) ht₁, hwithin',
      hm.trans hsim' hsim''⟩
    rwa [hm.stays hb ht₁]

lemma Reduced.step_own (h : Reduced step inner other sim s₀ s)
    (hm : Movable step inner other good sim) (hb : ¬ other b) (hstep : step s b = some t) :
    Reduced step inner other sim s₀ t := by
  -- where the thread was before this step, and what it has done since
  obtain ⟨s₁, s', hout, hreach, hwithin, hsim⟩ : ∃ s₁ s', ¬ inner s₁ ∧
      Reaches step (Undisturbed inner other) s₀ s₁ ∧ Within step inner other s₁ s' ∧ sim s s' := by
    by_cases hin : inner s
    · exact h.inside hin ⟨b, by rw [hstep]; rfl⟩
    · obtain ⟨s', hreach, hsim⟩ := h.outside hin
      rw [hm.inner_iff hsim] at hin
      exact ⟨s', s', hin, hreach, Relation.ReflTransGen.refl, hsim⟩
  obtain ⟨t', ht', hsim'⟩ := hm.answer hsim hstep
  constructor
  · exact fun _ => ⟨t', (hreach.trans hwithin.reaches).tail (fun _ => hb) ht', hsim'⟩
  · intro hin _
    rw [hm.inner_iff hsim'] at hin
    exact ⟨s₁, t', hout, hreach, hwithin.tail ⟨hin, b, hb, ht'⟩, hsim'⟩

/-- **Reduction**: up to similar states, every state that a run reaches outside the section is
reached by a run in which nobody else moves while the thread is inside. -/
theorem Movable.exists_undisturbed (hm : Movable step inner other good sim)
    (hgood : ∀ t, Reaches step anyLabel s₀ t → good t) (h₀ : ¬ inner s₀)
    (h : Reaches step anyLabel s₀ s) (hout : ¬ inner s) :
    ∃ s', Reaches step (Undisturbed inner other) s₀ s' ∧ sim s s' := by
  have hred : Reduced step inner other sim s₀ s := by
    refine h.invariant (I := Reduced step inner other sim s₀) (fun {s a t} hs _ hstep => ?_) ?_
    · by_cases hb : other a
      · exact hs.step_other hm hgood hb hstep
      · exact hs.step_own hm hb hstep
    · exact ⟨fun _ => ⟨s₀, Reaches.refl, hm.refl s₀⟩, fun hin => absurd hin h₀⟩
  exact hred.outside hout

end

end Cpr.Transition
