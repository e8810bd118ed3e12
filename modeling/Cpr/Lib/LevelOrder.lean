/-
# Level order

The nodes of a tree, level by level, and the traversal with a queue that meets them in this
order.  A tree is given by its root and by the list of the children of each node.
-/
import Mathlib.Data.List.Infix
import Mathlib.Data.List.Nodup

namespace Cpr.LevelOrder

variable {α : Type*}

/-- The nodes at depth `n`. -/
def level (children : α → List α) (root : α) : ℕ → List α
  | 0 => [root]
  | n + 1 => (level children root n).flatMap children

/-- The first `n` levels, one after the other. -/
def levels (children : α → List α) (root : α) : ℕ → List α
  | 0 => []
  | n + 1 => levels children root n ++ level children root n

/-- A traversal with a queue, after some steps: the nodes that were visited, and the queue. -/
inductive Traversal (children : α → List α) (root : α) : List α → List α → Prop
  | start : Traversal children root [] [root]
  | visit (done todo : List α) (x : α) (h : Traversal children root done (x :: todo)) :
      Traversal children root (done ++ [x]) (todo ++ children x)

variable {children : α → List α} {root : α} {n : ℕ} {done todo : List α}

lemma levels_succ_eq (n : ℕ) :
    levels children root (n + 1) = root :: (levels children root n).flatMap children := by
  induction n with
  | zero => rfl
  | succ n ih =>
    have hlevels : levels children root (n + 1) =
        levels children root n ++ level children root n := rfl
    rw [levels, level, ih, List.cons_append, ← List.flatMap_append, ← hlevels, ih]

/-- All levels together are the root and the children of them all. -/
lemma levels_eq_of_level (h : level children root n = []) :
    levels children root n = root :: (levels children root n).flatMap children := by
  rw [← levels_succ_eq, levels, h, List.append_nil]

namespace Traversal

/-- The visited nodes and the queue are the root and the children of the visited ones. -/
lemma append_eq (h : Traversal children root done todo) :
    done ++ todo = root :: done.flatMap children := by
  induction h with
  | start => rfl
  | visit done todo x _ ih =>
    rw [List.flatMap_append, List.flatMap_singleton, ← List.cons_append, ← ih]
    simp

/-- **The visited nodes and the queue come in level order.** -/
theorem prefix_levels (h : Traversal children root done todo)
    (hn : level children root n = []) : done ++ todo <+: levels children root n := by
  induction h with
  | start =>
    rw [levels_eq_of_level hn]
    exact ⟨_, rfl⟩
  | visit done todo x h ih =>
    have hdone : done ++ [x] <+: levels children root n :=
      List.IsPrefix.trans ⟨todo, by simp⟩ ih
    rw [(h.visit done todo x).append_eq, levels_eq_of_level hn]
    exact List.cons_prefix_cons.mpr ⟨rfl, hdone.flatMap children⟩

/-- **A finished traversal has visited the levels in their order.** -/
theorem eq_levels (h : Traversal children root done []) (hn : level children root n = []) :
    done = levels children root n := by
  have hfix := h.append_eq
  rw [List.append_nil] at hfix
  have hpre : ∀ k, levels children root k <+: done := by
    intro k
    induction k with
    | zero => exact List.nil_prefix
    | succ k ih =>
      rw [levels_succ_eq, hfix]
      exact List.cons_prefix_cons.mpr ⟨rfl, ih.flatMap children⟩
  have hle := h.prefix_levels hn
  rw [List.append_nil] at hle
  exact hle.eq_of_length_le (hpre n).length_le

end Traversal

end Cpr.LevelOrder
