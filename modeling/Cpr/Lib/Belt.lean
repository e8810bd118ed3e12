/-
# A belt of stages

Tokens enter a belt at its first stage and move from a stage to the next one, never back.
A belt records, for each stage, the tokens that are there and the tokens that ever arrived
there; the invariant of the structure says that what ever arrived at a stage is exactly
what is now at that stage or at a later one.  Conservation (no token is lost or duplicated)
and "each token passes each stage at most once" are consequences.
-/
import Mathlib.Data.Multiset.AddSub
import Mathlib.Algebra.BigOperators.Group.Finset.Basic
import Mathlib.Algebra.Order.BigOperators.Group.Finset
import Mathlib.Order.Cover
import Mathlib.Order.Interval.Finset.Basic
import Mathlib.Data.Multiset.UnionInter
import Mathlib.Algebra.Order.Group.Multiset

namespace Cpr

variable {ι α : Type*} [LinearOrder ι] [LocallyFiniteOrderTop ι]

/-- A belt with stages `ι` and tokens `α`. -/
structure Belt (ι α : Type*) [LinearOrder ι] [LocallyFiniteOrderTop ι] where
  /-- The tokens at a stage. -/
  holds : ι → Multiset α
  /-- The tokens that ever arrived at a stage. -/
  arrived : ι → Multiset α
  law : ∀ i, arrived i = ∑ j ∈ Finset.Ici i, holds j

namespace Belt

/-- The belt that no token has entered. -/
def empty : Belt ι α := ⟨fun _ => 0, fun _ => 0, fun i => by simp⟩

/-- A token enters at the first stage. -/
def enter [OrderBot ι] (b : Belt ι α) (x : α) : Belt ι α where
  holds i := if i = ⊥ then x ::ₘ b.holds i else b.holds i
  arrived i := if i = ⊥ then x ::ₘ b.arrived i else b.arrived i
  law i := by
    by_cases hi : i = ⊥
    · subst hi
      have hbot : (⊥ : ι) ∈ Finset.Ici (⊥ : ι) := by simp
      rw [if_pos rfl, b.law, ← Finset.add_sum_erase _ _ hbot, ← Finset.add_sum_erase _ _ hbot,
        if_pos rfl, Multiset.cons_add]
      congr 2
      refine Finset.sum_congr rfl fun j hj => ?_
      rw [if_neg (Finset.ne_of_mem_erase hj)]
    · rw [if_neg hi, b.law]
      refine Finset.sum_congr rfl fun j hj => ?_
      have hlt : ⊥ < j := lt_of_lt_of_le (bot_lt_iff_ne_bot.mpr hi) (Finset.mem_Ici.mp hj)
      rw [if_neg hlt.ne']

variable [DecidableEq α]

/-- A token at stage `i` moves to the next stage `j`. -/
def advance (b : Belt ι α) (hij : i ⋖ j) {x : α} (hx : x ∈ b.holds i) : Belt ι α where
  holds k := if k = i then (b.holds i).erase x else if k = j then x ::ₘ b.holds j else b.holds k
  arrived k := if k = j then x ::ₘ b.arrived j else b.arrived k
  law k := by
    have hne : i ≠ j := hij.lt.ne
    rcases lt_trichotomy k j with hk | rfl | hk
    · -- both stages are summed: the token stays inside the sum
      have hki : k ≤ i := not_lt.mp fun hik => hij.2 hik hk
      have hi : i ∈ Finset.Ici k := Finset.mem_Ici.mpr hki
      have hj : j ∈ (Finset.Ici k).erase i :=
        Finset.mem_erase.mpr ⟨hne.symm, Finset.mem_Ici.mpr hk.le⟩
      rw [if_neg hk.ne, b.law, ← Finset.add_sum_erase _ _ hi, ← Finset.add_sum_erase _ _ hi,
        ← Finset.add_sum_erase _ _ hj, ← Finset.add_sum_erase _ _ hj, if_pos rfl,
        if_neg hne.symm, if_pos rfl, Multiset.cons_add, Multiset.add_cons, ← Multiset.cons_add,
        Multiset.cons_erase hx]
      congr 2
      refine Finset.sum_congr rfl fun l hl => ?_
      have hl' := Finset.mem_erase.mp hl
      rw [if_neg (Finset.ne_of_mem_erase hl'.2), if_neg hl'.1]
    · -- only the later stage is summed
      have hk : k ∈ Finset.Ici k := by simp
      rw [if_pos rfl, b.law, ← Finset.add_sum_erase _ _ hk, ← Finset.add_sum_erase _ _ hk,
        if_neg hne.symm, if_pos rfl, Multiset.cons_add]
      congr 2
      refine Finset.sum_congr rfl fun l hl => ?_
      have hl' := Finset.mem_erase.mp hl
      have hil : i < l := lt_of_lt_of_le hij.lt (Finset.mem_Ici.mp hl'.2)
      rw [if_neg hil.ne', if_neg hl'.1]
    · rw [if_neg hk.ne', b.law]
      refine Finset.sum_congr rfl fun l hl => ?_
      have hjl : j < l := lt_of_lt_of_le hk (Finset.mem_Ici.mp hl)
      rw [if_neg (hij.lt.trans hjl).ne', if_neg hjl.ne']

variable {b : Belt ι α} {i j k : ι} {x : α}

lemma holds_advance {hij : i ⋖ j} {hx : x ∈ b.holds i} : (b.advance hij hx).holds k =
    if k = i then (b.holds i).erase x else if k = j then x ::ₘ b.holds j else b.holds k := rfl

omit [DecidableEq α]

lemma holds_enter [OrderBot ι] :
    (b.enter x).holds k = if k = ⊥ then x ::ₘ b.holds k else b.holds k := rfl

lemma arrived_enter [OrderBot ι] :
    (b.enter x).arrived k = if k = ⊥ then x ::ₘ b.arrived k else b.arrived k := rfl

/-- What arrived at a stage had arrived at every earlier one. -/
lemma arrived_antitone (b : Belt ι α) (hij : i ≤ j) : b.arrived j ≤ b.arrived i := by
  rw [b.law, b.law]
  exact Finset.sum_le_sum_of_subset (Finset.Ici_subset_Ici.mpr hij)

lemma holds_le_arrived (b : Belt ι α) (hij : i ≤ j) : b.holds j ≤ b.arrived i := by
  rw [b.law]
  exact Finset.single_le_sum (fun _ _ => Multiset.zero_le _) (Finset.mem_Ici.mpr hij)

/-- What arrived at a stage is there, or it arrived at the next one. -/
lemma arrived_eq_add (b : Belt ι α) (hij : i ⋖ j) :
    b.arrived i = b.holds i + b.arrived j := by
  have hnext : (Finset.Ici i).erase i = Finset.Ici j := by
    ext k
    rw [Finset.mem_erase, Finset.mem_Ici, Finset.mem_Ici]
    constructor
    · rintro ⟨hne, hle⟩
      exact not_lt.mp (hij.2 (lt_of_le_of_ne hle hne.symm))
    · exact fun hle => ⟨(hij.lt.trans_le hle).ne', hij.le.trans hle⟩
  rw [b.law, b.law, ← Finset.add_sum_erase _ _ (Finset.mem_Ici.mpr le_rfl), hnext]

/-- What arrived at the last stage is there. -/
lemma arrived_of_isMax (b : Belt ι α) (hi : IsMax i) : b.arrived i = b.holds i := by
  have hlast : Finset.Ici i = {i} := by
    ext k
    rw [Finset.mem_Ici, Finset.mem_singleton]
    exact ⟨fun hle => hi.eq_of_ge hle, fun h => h.ge⟩
  rw [b.law, hlast, Finset.sum_singleton]

/-- **Each token passes each stage at most once**, when each token enters at most once. -/
theorem nodup_arrived (b : Belt ι α) (hij : i ≤ j) (h : (b.arrived i).Nodup) :
    (b.arrived j).Nodup :=
  Multiset.nodup_of_le (b.arrived_antitone hij) h

/-- Two stages hold no common token, when each token enters at most once. -/
theorem disjoint_holds (b : Belt ι α) (hi : k ≤ i) (hj : k ≤ j) (hij : i ≠ j)
    (h : (b.arrived k).Nodup) : Disjoint (b.holds i) (b.holds j) := by
  have hj' : j ∈ (Finset.Ici k).erase i :=
    Finset.mem_erase.mpr ⟨hij.symm, Finset.mem_Ici.mpr hj⟩
  rw [b.law, ← Finset.add_sum_erase _ _ (Finset.mem_Ici.mpr hi),
    ← Finset.add_sum_erase _ _ hj', Multiset.nodup_add] at h
  have hle : b.holds j ≤ b.holds j + ∑ l ∈ ((Finset.Ici k).erase i).erase j, b.holds l :=
    Multiset.le_add_right _ _
  exact h.2.2.mono_right hle

end Belt

end Cpr
