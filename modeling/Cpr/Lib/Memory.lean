/-
# Byte-addressed memory

Reading and writing a range of bytes.
-/
import Mathlib.Data.List.Basic

namespace Cpr

/-- A memory assigns a byte to every address. -/
def Memory : Type := ℕ → UInt8

namespace Memory

variable (m : Memory) (addr : ℕ) (bytes : List UInt8)

/-- The `n` bytes from an address on. -/
def load (n : ℕ) : List UInt8 := (List.range n).map fun i => m (addr + i)

/-- The memory after bytes were written from an address on. -/
def store : Memory := fun x => if addr ≤ x then (bytes[x - addr]?).getD (m x) else m x

variable {m addr bytes} {addr' n : ℕ}

@[simp] lemma length_load : (m.load addr n).length = n := by simp [load]

@[simp] lemma load_zero : m.load addr 0 = [] := rfl

/-- The beginning of a range. -/
lemma load_eq_take {k : ℕ} (h : k ≤ n) : m.load addr k = (m.load addr n).take k := by
  rw [load, load, ← List.map_take, List.take_range, Nat.min_eq_left h]

lemma load_store_self : (m.store addr bytes).load addr bytes.length = bytes := by
  refine List.ext_getElem (by simp) fun i _ hi => ?_
  simp [load, store, hi]

/-- The bytes after the written ones stay. -/
lemma load_store (h : bytes.length ≤ n) :
    (m.store addr bytes).load addr n = bytes ++ (m.load addr n).drop bytes.length := by
  refine List.ext_getElem (by simp [h]) fun i hi _ => ?_
  by_cases hlt : i < bytes.length
  · simp [load, store, hlt]
  · have hle := Nat.le_of_not_lt hlt
    simp [load, store, List.getElem_append_right hle, List.getElem?_eq_none hle,
      Nat.add_sub_cancel' hle]

@[simp] lemma store_nil : m.store addr [] = m := by
  funext x
  simp [store]

/-- A range is not affected by writes outside it. -/
lemma load_store_of_disjoint (h : addr + n ≤ addr' ∨ addr' + bytes.length ≤ addr) :
    (m.store addr' bytes).load addr n = m.load addr n := by
  refine List.map_congr_left fun i hi => ?_
  have hi := List.mem_range.mp hi
  rw [store]
  split_ifs with hle
  · rw [List.getElem?_eq_none (by omega), Option.getD_none]
  · rfl

end Memory

end Cpr
