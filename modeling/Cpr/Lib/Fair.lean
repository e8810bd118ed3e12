/-
# Infinite runs and fairness

An infinite run takes a step or idles at each instant.  It is fair to a party (a set of
labels) if the party moves infinitely often, provided that infinitely often it could.  The
rules below turn bounds and ranks into facts about all sufficiently late instants.
-/
import Cpr.Lib.Transition
import Mathlib.Order.Filter.AtTopBot.Basic
import Mathlib.Order.Lattice.Nat

namespace Cpr.Transition

open Filter

variable {σ α : Type*}

/-- A run that goes on forever.  At the label `none` it idles. -/
structure Path (step : σ → α → Option σ) (ok : σ → α → Prop) (s : σ) where
  state : ℕ → σ
  label : ℕ → Option α
  start : state 0 = s
  idles : ∀ n, label n = none → state (n + 1) = state n
  moves : ∀ n a, label n = some a → ok (state n) a ∧ step (state n) a = some (state (n + 1))

namespace Path

variable {step : σ → α → Option σ} {ok : σ → α → Prop} {s : σ} (path : Path step ok s)
  (P : α → Prop)

/-- A party takes a step. -/
def Moves (n : ℕ) : Prop := ∃ a ∈ path.label n, P a

/-- A party could take a step. -/
def CanMove (n : ℕ) : Prop := ∃ a, P a ∧ (step (path.state n) a).isSome

/-- A party that can move infinitely often does. -/
def Fair : Prop := (∃ᶠ n in atTop, path.CanMove P n) → ∃ᶠ n in atTop, path.Moves P n

/-- The labels of the first steps. -/
def labels (n : ℕ) : List α := (List.range n).filterMap path.label

variable {path P}

lemma reaches (n : ℕ) : Reaches step ok s (path.state n) := by
  induction n with
  | zero =>
    rw [path.start]
    exact Reaches.refl
  | succ n ih =>
    cases hl : path.label n with
    | none =>
      rw [path.idles n hl]
      exact ih
    | some a =>
      obtain ⟨hok, hstep⟩ := path.moves n a hl
      exact ih.tail hok hstep

lemma labels_succ (n : ℕ) : path.labels (n + 1) = path.labels n ++ (path.label n).toList := by
  rw [labels, List.range_succ, List.filterMap_append]
  cases hl : path.label n <;> simp [labels, hl]

/-- A party that cannot move any more is treated fairly. -/
lemma fair_of_not_canMove (h : ∀ᶠ n in atTop, ¬ path.CanMove P n) : path.Fair P :=
  fun hcan => absurd h hcan

/-- The beginning of a path is a run. -/
lemma execOk_labels [∀ s a, Decidable (ok s a)] (n : ℕ) :
    execOk step ok s (path.labels n) = some (path.state n) := by
  induction n with
  | zero => simp [labels, execOk, path.start]
  | succ n ih =>
    rw [labels_succ]
    cases hl : path.label n with
    | none => rw [Option.toList_none, List.append_nil, ih, path.idles n hl]
    | some a => exact execOk_concat.mpr ⟨_, ih, path.moves n a hl⟩

/-- A path under a restriction is a path under every weaker one. -/
def weaken {ok' : σ → α → Prop} (path : Path step ok s) (hok : ∀ s a, ok s a → ok' s a) :
    Path step ok' s where
  state := path.state
  label := path.label
  start := path.start
  idles := path.idles
  moves n a ha := (path.moves n a ha).imp_left (hok _ _)

/-! ### Bounds -/

/-- A sequence that grows up to a bound is constant in the end. -/
lemma eventually_eq_of_bounded {f : ℕ → ℕ} {N B : ℕ} (hmono : ∀ n, N ≤ n → f n ≤ f (n + 1))
    (hB : ∀ n, N ≤ n → f n ≤ B) : ∃ M, N ≤ M ∧ ∀ n, M ≤ n → f n = f M := by
  have hle : ∀ {m}, N ≤ m → ∀ k, f m ≤ f (m + k) := by
    intro m hm k
    induction k with
    | zero => exact le_rfl
    | succ k ih => exact ih.trans (hmono _ (by omega))
  have hne : {v | ∃ n, N ≤ n ∧ f n = v}.Nonempty := ⟨f N, N, le_rfl, rfl⟩
  have hbdd : BddAbove {v | ∃ n, N ≤ n ∧ f n = v} := ⟨B, by
    rintro v ⟨n, hn, rfl⟩
    exact hB n hn⟩
  obtain ⟨M, hM, hmax⟩ := Nat.sSup_mem hne hbdd
  refine ⟨M, hM, fun n hn => ?_⟩
  have hlow := hle hM (n - M)
  rw [Nat.add_sub_cancel' hn] at hlow
  have hhigh : f n ≤ f M := hmax ▸ le_csSup hbdd ⟨n, hM.trans hn, rfl⟩
  exact le_antisymm hhigh hlow

/-- A party whose steps are bounded stops moving. -/
theorem eventually_not_moves [DecidablePred P] {B : ℕ}
    (h : ∀ n, ((path.labels n).filter P).length ≤ B) : ∀ᶠ n in atTop, ¬ path.Moves P n := by
  have hmono : ∀ n, 0 ≤ n →
      ((path.labels n).filter P).length ≤ ((path.labels (n + 1)).filter P).length := by
    intro n _
    rw [labels_succ, List.filter_append, List.length_append]
    exact Nat.le_add_right _ _
  obtain ⟨M, -, hM⟩ := eventually_eq_of_bounded hmono fun n _ => h n
  refine eventually_atTop.mpr ⟨M, fun n hn ⟨a, ha, hP⟩ => ?_⟩
  have hsame := (hM (n + 1) (by omega)).trans (hM n hn).symm
  rw [labels_succ, List.filter_append, List.length_append, Option.mem_def.mp ha] at hsame
  simp [hP] at hsame

/-! ### Ranks -/

/-- What only the party can change is still so when the party moves next. -/
lemma exists_moves {Q : σ → Prop} (hP : ∃ᶠ n in atTop, path.Moves P n) {N : ℕ}
    (hkeep : ∀ n, N ≤ n → ¬ path.Moves P n → Q (path.state n) → Q (path.state (n + 1)))
    (hN : Q (path.state N)) : ∃ m, N ≤ m ∧ Q (path.state m) ∧ path.Moves P m := by
  classical
  obtain ⟨k, hk, hmove⟩ := frequently_atTop.mp hP N
  have hex : ∃ j, path.Moves P (N + j) := ⟨k - N, by rwa [Nat.add_sub_cancel' hk]⟩
  -- the first time that the party moves
  refine ⟨N + Nat.find hex, Nat.le_add_right _ _, ?_, Nat.find_spec hex⟩
  have hall : ∀ j, j ≤ Nat.find hex → Q (path.state (N + j)) := by
    intro j hj
    induction j with
    | zero => exact hN
    | succ j ih =>
      exact hkeep _ (Nat.le_add_right _ _) (Nat.find_min hex (by omega)) (ih (by omega))
  exact hall _ le_rfl

/-- **The rank rule.**  A party that moves infinitely often, and comes closer to `Q` with
each move, while nothing else leads away from it, gets there infinitely often. -/
theorem frequently_of_rank {β : Type*} {r : β → β → Prop} (hwf : WellFounded r) (rank : σ → β)
    {Q : σ → Prop} {N : ℕ} (hP : ∃ᶠ n in atTop, path.Moves P n)
    (hkeep : ∀ n, N ≤ n → ¬ path.Moves P n → rank (path.state (n + 1)) = rank (path.state n))
    (hstep : ∀ n, N ≤ n → path.Moves P n → ¬ Q (path.state n) →
      Q (path.state (n + 1)) ∨ r (rank (path.state (n + 1))) (rank (path.state n))) :
    ∃ᶠ n in atTop, Q (path.state n) := by
  refine frequently_atTop.mpr fun M => ?_
  -- the induction is on the rank at an instant from which `Q` is looked for
  suffices h : ∀ b n, N ≤ n → M ≤ n → rank (path.state n) = b → ∃ m ≥ M, Q (path.state m) from
    h _ (max N M) (le_max_left _ _) (le_max_right _ _) rfl
  intro b
  induction b using hwf.induction with
  | _ b ih =>
    intro n hN hM hb
    obtain ⟨m, hnm, hm, hmove⟩ := exists_moves (Q := fun s => rank s = b) hP
      (fun k hk hnot hb => (hkeep k (hN.trans hk) hnot).trans hb) hb
    by_cases hQ : Q (path.state m)
    · exact ⟨m, hM.trans hnm, hQ⟩
    rcases hstep m (hN.trans hnm) hmove hQ with hQ' | hlt
    · exact ⟨m + 1, by omega, hQ'⟩
    · exact ih _ (hm ▸ hlt) (m + 1) (by omega) (by omega) rfl

/-! ### A run that has ended -/

/-- A run, and idling after it. -/
def ofExec [∀ s a, Decidable (ok s a)] (as : List α) (h : (execOk step ok s as).isSome) :
    Path step ok s where
  state n := (execOk step ok s (as.take n)).getD s
  label n := as[n]?
  start := by rw [List.take_zero]; rfl
  idles n hn := by
    have hlen := List.getElem?_eq_none_iff.mp hn
    rw [List.take_of_length_le hlen, List.take_of_length_le (by omega)]
  moves n a ha := by
    obtain ⟨hn, rfl⟩ := List.getElem?_eq_some_iff.mp ha
    obtain ⟨t, ht⟩ := Option.isSome_iff_exists.mp h
    rw [← List.take_append_drop (n + 1) as, execOk, exec_append, Option.bind_eq_some_iff] at ht
    obtain ⟨u, hu, -⟩ := ht
    have hu' : execOk step ok s (as.take (n + 1)) = some u := hu
    rw [← List.take_concat_get' as n hn] at hu' ⊢
    obtain ⟨v, hv, hok, hstep⟩ := execOk_concat.mp hu'
    rw [execOk_concat.mpr ⟨v, hv, hok, hstep⟩, hv]
    exact ⟨hok, hstep⟩

lemma ofExec_state [∀ s a, Decidable (ok s a)] {as : List α} {t : σ}
    (h : execOk step ok s as = some t) {n : ℕ} (hn : as.length ≤ n) :
    (ofExec as (by rw [h]; rfl) : Path step ok s).state n = t := by
  show (execOk step ok s (as.take n)).getD s = t
  rw [List.take_of_length_le hn, h, Option.getD_some]

end Path

end Cpr.Transition
