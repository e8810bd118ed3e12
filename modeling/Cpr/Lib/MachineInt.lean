/-
# Machine integers as reduced mathematical integers

The value held by a 32-bit `int` after an arithmetic operation is the two's complement
representative of the mathematical result, and the conversion of an `int` to a 64-bit
unsigned type is its representative modulo `2 ^ 64`.
-/
import Mathlib.Tactic.NormNum
import Mathlib.Tactic.Linarith

namespace Cpr

/-- The representative of an integer in the range of a 32-bit `int`. -/
def toInt32 (x : ℤ) : ℤ := (x + 2 ^ 31) % 2 ^ 32 - 2 ^ 31

/-- The conversion of an `int` to a 64-bit unsigned type. -/
def toUlong (x : ℤ) : ℕ := (x % 2 ^ 64).toNat

/-- The value of a 64-bit pattern as a signed integer. -/
def toInt64 (n : ℕ) : ℤ := if n < 2 ^ 63 then n else n - 2 ^ 64

lemma toInt32_of_mem {x : ℤ} (h₁ : -2 ^ 31 ≤ x) (h₂ : x < 2 ^ 31) : toInt32 x = x := by
  unfold toInt32
  omega

lemma toInt32_nat {n : ℕ} (h : n < 2 ^ 31) : toInt32 n = n :=
  toInt32_of_mem (by omega) (by omega)

@[simp] lemma toInt32_zero : toInt32 0 = 0 := by decide

/-- Reducing before an increment does not change the reduced result. -/
lemma toInt32_add_toInt32 (x y : ℤ) : toInt32 (toInt32 x + y) = toInt32 (x + y) := by
  unfold toInt32
  omega

lemma toInt32_eq_iff (x y : ℤ) : toInt32 x = toInt32 y ↔ (x - y) % 2 ^ 32 = 0 := by
  unfold toInt32
  omega

/-- Two counts less than `2 ^ 32` apart have the same reduced value only when equal. -/
lemma toInt32_nat_inj {m n : ℕ} (hle : m ≤ n) (hlt : n < m + 2 ^ 32) :
    toInt32 n = toInt32 m ↔ n = m := by
  rw [toInt32_eq_iff]
  omega

lemma toInt32_range (x : ℤ) : -2 ^ 31 ≤ toInt32 x ∧ toInt32 x < 2 ^ 31 := by
  unfold toInt32
  omega

lemma toInt32_le_of_nat (n : ℕ) : toInt32 n ≤ n := by
  unfold toInt32
  omega

lemma toUlong_nat {n : ℕ} (h : n < 2 ^ 31) : toUlong n = n := by
  unfold toUlong
  omega

/-- Widening an `int` keeps its value. -/
lemma toInt64_toUlong {x : ℤ} (h : -2 ^ 31 ≤ x ∧ x < 2 ^ 31) : toInt64 (toUlong x) = x := by
  unfold toInt64 toUlong
  split_ifs <;> omega

end Cpr
