/-
# Labelled transition systems given by a partial step function

A system is a partial function `step : σ → α → Option σ`: the label resolves every choice
that the system leaves open (which thread moves, what the environment answers), and `none`
says that the label is not possible in the state.  A second argument `ok : σ → α → Prop`
restricts the labels of a run, for instance to the answers of a well-behaved environment.

This file has the rules by which a fact about one step becomes a fact about a whole run:
the invariant rule, the simulation rule, and the evaluation of a concrete run.
-/
import Mathlib.Logic.Relation
import Mathlib.Data.List.Induction
import Mathlib.Data.Option.Basic

namespace Cpr.Transition

variable {σ τ α β : Type*}

/-- One step of the system, with some label that `ok` allows. -/
def Step (step : σ → α → Option σ) (ok : σ → α → Prop) (s t : σ) : Prop :=
  ∃ a, ok s a ∧ step s a = some t

/-- A run of the system: any number of steps, each with a label that `ok` allows. -/
def Reaches (step : σ → α → Option σ) (ok : σ → α → Prop) : σ → σ → Prop :=
  Relation.ReflTransGen (Step step ok)

/-- The restriction on labels that allows every label. -/
def anyLabel (_ : σ) (_ : α) : Prop := True

variable {step : σ → α → Option σ} {ok ok' : σ → α → Prop} {s t u : σ}

lemma Reaches.refl : Reaches step ok s s := Relation.ReflTransGen.refl

lemma Reaches.trans (h₁ : Reaches step ok s t) (h₂ : Reaches step ok t u) :
    Reaches step ok s u := Relation.ReflTransGen.trans h₁ h₂

lemma Reaches.tail {a : α} (h : Reaches step ok s t) (hok : ok t a) (hstep : step t a = some u) :
    Reaches step ok s u := Relation.ReflTransGen.tail h ⟨a, hok, hstep⟩

lemma Reaches.single {a : α} (hok : ok s a) (hstep : step s a = some t) :
    Reaches step ok s t := Relation.ReflTransGen.single ⟨a, hok, hstep⟩

/-- A run under a restriction is a run under every weaker one. -/
lemma Reaches.weaken (hok : ∀ s a, ok s a → ok' s a) (h : Reaches step ok s t) :
    Reaches step ok' s t := by
  induction h with
  | refl => exact Reaches.refl
  | tail _ hlast ih =>
    obtain ⟨a, ha, hstep⟩ := hlast
    exact ih.tail (hok _ a ha) hstep

/-- **The invariant rule.**  What holds at the start and is preserved by every step holds
in every state of the run. -/
theorem Reaches.invariant {I : σ → Prop}
    (hstep : ∀ {s a t}, I s → ok s a → step s a = some t → I t)
    (h : Reaches step ok s t) (h₀ : I s) : I t := by
  induction h with
  | refl => exact h₀
  | tail _ hlast ih =>
    obtain ⟨a, hok, ha⟩ := hlast
    exact hstep ih hok ha

/-- The invariant rule for a fact that is preserved only in the presence of another
invariant, already established for the run. -/
theorem Reaches.invariant_of {I J : σ → Prop}
    (hJ : ∀ t, Reaches step ok s t → J t)
    (hstep : ∀ {t a u}, J t → J u → I t → ok t a → step t a = some u → I u)
    (h : Reaches step ok s t) (h₀ : I s) : I t := by
  induction h with
  | refl => exact h₀
  | tail hpre hlast ih =>
    obtain ⟨a, hok, ha⟩ := hlast
    exact hstep (hJ _ hpre) (hJ _ (Reaches.tail hpre hok ha)) ih hok ha

/-- **The simulation rule.**  If every step of a system is answered by a run of another
one between the images of its states, then so is every run. -/
theorem Reaches.simulate {step' : τ → β → Option τ} {okβ : τ → β → Prop} (f : σ → τ)
    (hstep : ∀ {s a t}, ok s a → step s a = some t → Reaches step' okβ (f s) (f t))
    (h : Reaches step ok s t) : Reaches step' okβ (f s) (f t) := by
  induction h with
  | refl => exact Reaches.refl
  | tail _ hlast ih =>
    obtain ⟨a, hok, ha⟩ := hlast
    exact ih.trans (hstep hok ha)

/-! ## Concrete runs -/

/-- The state after a list of labels, if they are all possible in turn. -/
def exec (step : σ → α → Option σ) : σ → List α → Option σ
  | s, [] => some s
  | s, a :: as => (step s a).bind (exec step · as)

@[simp] lemma exec_nil : exec step s [] = some s := rfl

@[simp] lemma exec_cons (a : α) (as : List α) :
    exec step s (a :: as) = (step s a).bind (exec step · as) := rfl

lemma exec_append (as bs : List α) :
    exec step s (as ++ bs) = (exec step s as).bind (exec step · bs) := by
  induction as generalizing s with
  | nil => simp
  | cons a as ih =>
    simp only [List.cons_append, exec_cons]
    cases step s a with
    | none => simp
    | some t => simp [ih]

/-- The last step of a list of labels. -/
lemma exec_concat {as : List α} {a : α} :
    exec step s (as ++ [a]) = some u ↔ ∃ t, exec step s as = some t ∧ step t a = some u := by
  rw [exec_append, Option.bind_eq_some_iff]
  refine exists_congr fun t => and_congr_right fun _ => ?_
  rw [exec_cons, Option.bind_eq_some_iff]
  constructor
  · rintro ⟨v, hv, hvu⟩
    obtain rfl := Option.some.inj hvu
    exact hv
  · exact fun h => ⟨u, h, rfl⟩

/-- **The invariant rule with labels**: an invariant of the states and of the labels that led
to them. -/
theorem exec_invariant {I : List α → σ → Prop} {as : List α}
    (hstep : ∀ {as t a u}, exec step s as = some t → I as t → step t a = some u → I (as ++ [a]) u)
    (h : exec step s as = some t) (h₀ : I [] s) : I as t := by
  induction as using List.reverseRecOn generalizing t with
  | nil =>
    obtain rfl : s = t := by simpa using h
    exact h₀
  | append_singleton as a ih =>
    obtain ⟨u, hu, ha⟩ := exec_concat.mp h
    exact hstep hu (ih hu) ha

/-! ## Two runs side by side -/

section View

variable {view : σ → τ} {J : σ → Prop} {p : α → Bool} {as as' : List α} {s' t' : σ}

/-- Labels that do not change what is seen of a state. -/
lemma exec_view_of_skip (hJ : ∀ {s a t}, J s → step s a = some t → J t)
    (hskip : ∀ {s a t}, J s → p a = false → step s a = some t → view t = view s) (hs : J s)
    (hp : ∀ a ∈ as, ¬ p a = true) (h : exec step s as = some t) : J t ∧ view t = view s := by
  induction as generalizing s with
  | nil =>
    obtain rfl : s = t := by simpa using h
    exact ⟨hs, rfl⟩
  | cons a as ih =>
    rw [exec_cons] at h
    obtain ⟨u, hu, hrest⟩ := Option.bind_eq_some_iff.mp h
    obtain ⟨ht, hview⟩ := ih (hJ hs hu) (fun b hb => hp b (List.mem_cons_of_mem a hb)) hrest
    have ha : p a = false := by simpa using hp a List.mem_cons_self
    exact ⟨ht, hview.trans (hskip hs ha hu)⟩

/-- **The lockstep rule.**  If some labels do not change what is seen of a state, and each of
the others changes it in the same way wherever it is possible, then what is seen after a run
depends only on those others. -/
theorem exec_view_eq (hJ : ∀ {s a t}, J s → step s a = some t → J t)
    (hskip : ∀ {s a t}, J s → p a = false → step s a = some t → view t = view s)
    (hmatch : ∀ {s s' a t t'}, J s → J s' → view s = view s' → p a = true →
      step s a = some t → step s' a = some t' → view t = view t')
    (hs : J s) (hs' : J s') (hview : view s = view s') (h : exec step s as = some t)
    (h' : exec step s' as' = some t') (hp : as.filter p = as'.filter p) : view t = view t' := by
  induction as generalizing s s' as' with
  | nil =>
    obtain rfl : s = t := by simpa using h
    rw [List.filter_nil] at hp
    have hnone : ∀ a ∈ as', ¬ p a = true := List.filter_eq_nil_iff.mp hp.symm
    exact hview.trans (exec_view_of_skip hJ hskip hs' hnone h').2.symm
  | cons a as ih =>
    rw [exec_cons] at h
    obtain ⟨u, hu, hrest⟩ := Option.bind_eq_some_iff.mp h
    cases ha : p a with
    | false =>
      rw [List.filter_cons_of_neg (by simp [ha])] at hp
      exact ih (hJ hs hu) hs' ((hskip hs ha hu).trans hview) hrest h' hp
    | true =>
      rw [List.filter_cons_of_pos ha] at hp
      -- the other run gets to the same label after labels that are not seen
      obtain ⟨before, after, rfl, hbefore, -, hafter⟩ := List.filter_eq_cons_iff.mp hp.symm
      rw [exec_append] at h'
      obtain ⟨v, hv, hv'⟩ := Option.bind_eq_some_iff.mp h'
      rw [exec_cons] at hv'
      obtain ⟨w, hw, hrest'⟩ := Option.bind_eq_some_iff.mp hv'
      obtain ⟨hvJ, hvview⟩ := exec_view_of_skip hJ hskip hs' hbefore hv
      have hsame := hmatch hs hvJ (hview.trans hvview.symm) ha hu hw
      exact ih (hJ hs hu) (hJ hvJ hw) hsame hrest hrest' hafter.symm

end View

/-- Evaluation of a list of labels, with the restriction tested at every step. -/
def execOk (step : σ → α → Option σ) (ok : σ → α → Prop) [∀ s a, Decidable (ok s a)] :
    σ → List α → Option σ :=
  exec fun s a => if ok s a then step s a else none

lemma reaches_of_exec_mem {as : List α} (hok : ∀ a ∈ as, ∀ s, ok s a)
    (h : exec step s as = some t) : Reaches step ok s t := by
  induction as generalizing s with
  | nil =>
    obtain rfl : s = t := by simpa using h
    exact Reaches.refl
  | cons a as ih =>
    rw [exec_cons] at h
    obtain ⟨u, hu, hrest⟩ := Option.bind_eq_some_iff.mp h
    exact (Reaches.single (hok a List.mem_cons_self s) hu).trans
      (ih (fun b hb => hok b (List.mem_cons_of_mem a hb)) hrest)

lemma reaches_of_exec (hok : ∀ s a, ok s a) {as : List α} (h : exec step s as = some t) :
    Reaches step ok s t := reaches_of_exec_mem (fun a _ s => hok s a) h

lemma reaches_of_execOk [∀ s a, Decidable (ok s a)] {as : List α}
    (h : execOk step ok s as = some t) : Reaches step ok s t := by
  induction as generalizing s with
  | nil =>
    obtain rfl : s = t := by simpa [execOk] using h
    exact Reaches.refl
  | cons a as ih =>
    rw [execOk, exec_cons] at h
    obtain ⟨u, hu, hrest⟩ := Option.bind_eq_some_iff.mp h
    obtain ⟨hok, hstep⟩ := Option.ite_none_right_eq_some.mp hu
    exact (Reaches.single hok hstep).trans (ih hrest)

/-- The last step of a run. -/
lemma execOk_concat [∀ s a, Decidable (ok s a)] {as : List α} {a : α} :
    execOk step ok s (as ++ [a]) = some u ↔
      ∃ t, execOk step ok s as = some t ∧ ok t a ∧ step t a = some u :=
  exec_concat.trans (exists_congr fun _ => and_congr_right fun _ => Option.ite_none_right_eq_some)

/-- The invariant rule with labels, for restricted labels. -/
theorem execOk_invariant [∀ s a, Decidable (ok s a)] {I : List α → σ → Prop} {as : List α}
    (hstep : ∀ {as t a u}, execOk step ok s as = some t → I as t → ok t a → step t a = some u →
      I (as ++ [a]) u)
    (h : execOk step ok s as = some t) (h₀ : I [] s) : I as t := by
  refine exec_invariant (fun has hi ha => ?_) h h₀
  obtain ⟨hok, ha⟩ := Option.ite_none_right_eq_some.mp ha
  exact hstep has hi hok ha

end Cpr.Transition
