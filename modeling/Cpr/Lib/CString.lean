/-
# C strings in a buffer

A buffer from `malloc` is a list of bytes without a value.  A string is written into it with
its terminator; writing past the end of the buffer is an error, and so is looking for the
terminator of a string in bytes without a value.
-/
import Mathlib.Data.List.Basic

namespace Cpr

/-- A byte of a buffer. -/
inductive Byte (α : Type*)
  /-- It was never written. -/
  | garbage
  | nul
  | char (c : α)
deriving DecidableEq, Repr

namespace CString

variable {α : Type*}

/-- `malloc`. -/
def malloc (size : ℕ) : List (Byte α) := List.replicate size .garbage

/-- A string with its terminator. -/
def terminated (s : List α) : List (Byte α) := s.map Byte.char ++ [.nul]

/-- `strlen`. -/
def strlen : List (Byte α) → Option ℕ
  | .nul :: _ => some 0
  | .char _ :: b => (strlen b).map (· + 1)
  | _ => none

/-- A string is written at an offset. -/
def put (dst : List (Byte α)) (offset : ℕ) (src : List α) : Option (List (Byte α)) :=
  if offset + src.length + 1 ≤ dst.length then
    some (dst.take offset ++ terminated src ++ dst.drop (offset + src.length + 1))
  else none

/-- `strcpy`. -/
def strcpy (dst : List (Byte α)) (src : List α) : Option (List (Byte α)) := put dst 0 src

/-- `strcat`. -/
def strcat (dst : List (Byte α)) (src : List α) : Option (List (Byte α)) :=
  (strlen dst).bind fun n => put dst n src

/-- A buffer with a string, and bytes that were never written. -/
def filled (s : List α) (unused : ℕ) : List (Byte α) := terminated s ++ malloc unused

variable {s t : List α} {size unused : ℕ}

@[simp] lemma length_terminated : (terminated s).length = s.length + 1 := by
  simp [terminated]

@[simp] lemma filled_zero : filled s 0 = terminated s := List.append_nil _

lemma strlen_filled : strlen (filled s unused) = some s.length := by
  induction s with
  | nil => rfl
  | cons c s ih =>
    rw [show filled (c :: s) unused = .char c :: filled s unused from rfl, strlen, ih]
    rfl

/-- `strcpy` into a new buffer. -/
lemma strcpy_malloc (h : size = s.length + 1 + unused) :
    strcpy (malloc size) s = some (filled s unused) := by
  subst h
  rw [strcpy, put, if_pos (by simp [malloc])]
  simp [malloc, filled]

/-- `strcpy` needs a byte more than the string has. -/
lemma isSome_strcpy_malloc : (strcpy (malloc size) s).isSome = true ↔ s.length < size := by
  rw [strcpy, put]
  split_ifs with h
  · simp only [malloc, List.length_replicate] at h
    simp only [Option.isSome_some, true_iff]
    omega
  · simp only [malloc, List.length_replicate] at h
    simp only [Option.isSome_none, Bool.false_eq_true, false_iff]
    omega

/-- `strcat` writes over the terminator and takes from the unused bytes. -/
lemma strcat_filled (h : size = t.length + unused) :
    strcat (filled s size) t = some (filled (s ++ t) unused) := by
  subst h
  have htake : (filled s (t.length + unused)).take s.length = s.map Byte.char := by
    rw [filled, terminated, List.append_assoc]
    exact List.take_left' (by simp)
  have hdrop : (filled s (t.length + unused)).drop (s.length + t.length + 1) = malloc unused := by
    rw [filled, List.drop_append, List.drop_eq_nil_of_le (by simp), length_terminated, malloc,
      List.drop_replicate, List.nil_append, malloc]
    congr 1
    omega
  rw [strcat, strlen_filled, Option.bind_some, put, if_pos (by simp [filled, malloc]; omega),
    htake, hdrop]
  simp [filled, terminated]

/-- `strcat` fails where the unused bytes are too few. -/
lemma strcat_filled_eq_none (h : unused < t.length) : strcat (filled s unused) t = none := by
  rw [strcat, strlen_filled, Option.bind_some, put, if_neg]
  simp only [filled, malloc, List.length_append, length_terminated, List.length_replicate]
  omega

end CString

end Cpr
