/-
# Loops that succeed

The rule for a `for` loop in a monad of failures: an invariant of the items done so far, kept
by every iteration, which then does not fail.
-/
import Mathlib.Control.Basic
import Mathlib.Data.List.Induction
import Mathlib.Data.List.Range

namespace Cpr

section

variable {m : Type → Type*} [Monad m] [LawfulMonad m] {σ : Type} {α : Type*} {s : σ}

/-- **The rule for a loop over a list**: the invariant is about the items that are done. -/
theorem foldlM_eq_pure {xs : List α} {body : σ → α → m σ} {I : List α → σ → Prop}
    (hbody : ∀ pre x post, xs = pre ++ x :: post → ∀ s, I pre s →
      ∃ t, body s x = pure t ∧ I (pre ++ [x]) t) (h₀ : I [] s) :
    ∃ t, xs.foldlM body s = pure t ∧ I xs t := by
  induction xs using List.reverseRecOn with
  | nil => exact ⟨s, rfl, h₀⟩
  | append_singleton xs x ih =>
    obtain ⟨u, hu, hI⟩ := ih fun pre y post h s hs =>
      hbody pre y (post ++ [x]) (by rw [h, List.append_assoc, List.cons_append]) s hs
    obtain ⟨t, ht, hI'⟩ := hbody xs x [] rfl u hI
    refine ⟨t, ?_, hI'⟩
    rw [List.foldlM_append, hu, pure_bind, List.foldlM_cons, ht, pure_bind, List.foldlM_nil]

/-- The same for the first `n` numbers. -/
theorem foldlM_range_eq_pure {n : ℕ} {body : σ → ℕ → m σ} {I : ℕ → σ → Prop}
    (hbody : ∀ i, i < n → ∀ s, I i s → ∃ t, body s i = pure t ∧ I (i + 1) t) (h₀ : I 0 s) :
    ∃ t, (List.range n).foldlM body s = pure t ∧ I n t := by
  induction n with
  | zero => exact ⟨s, rfl, h₀⟩
  | succ n ih =>
    obtain ⟨u, hu, hI⟩ := ih fun i hi => hbody i (by omega)
    obtain ⟨t, ht, hI'⟩ := hbody n (by omega) u hI
    refine ⟨t, ?_, hI'⟩
    rw [List.range_succ, List.foldlM_append, hu, pure_bind, List.foldlM_cons, ht, pure_bind,
      List.foldlM_nil]

end

end Cpr
