/-
# A heap of blocks, and linked lists in it

`malloc` returns a block that was never handed out before, `free` ends the life of a block,
and an access through a pointer is defined only while its block is alive.  A freed block
keeps its last content: the program cannot read it any more, statements about the program
can.

A singly linked list is described by the relation `Linked`: following the links from a
head pointer visits exactly the given blocks, in order, and ends in a null pointer.
-/
import Mathlib.Data.List.Nodup
import Mathlib.Data.List.Basic

namespace Cpr

/-- The state of one block of the heap. -/
inductive Block (β : Type*)
  | unallocated
  | live (content : β)
  | freed (content : β)

namespace Block

variable {β : Type*}

/-- The content of a block, if it is alive. -/
def get? : Block β → Option β
  | .live b => some b
  | _ => none

/-- The last content of a block, alive or freed. -/
def last? : Block β → Option β
  | .unallocated => none
  | .live b => some b
  | .freed b => some b

/-- The content of a live block is overwritten. -/
def set (b : Block β) (c : β) : Block β :=
  match b with
  | .live _ => .live c
  | d => d

/-- A live block is freed. -/
def free : Block β → Block β
  | .live b => .freed b
  | d => d

@[simp] lemma get?_free (b : Block β) : b.free.get? = none := by
  cases b <;> rfl

@[simp] lemma last?_free (b : Block β) : b.free.last? = b.last? := by
  cases b <;> rfl

lemma get?_set {b : Block β} {c : β} (d : β) (hc : b.get? = some c) : (b.set d).get? = some d := by
  cases b with
  | live _ => rfl
  | _ => simp [get?] at hc

lemma last?_of_get? {b : Block β} {c : β} (hc : b.get? = some c) : b.last? = some c := by
  cases b with
  | live _ => exact hc
  | _ => simp [get?] at hc

end Block

/-- A heap: its blocks, and the next pointer that `malloc` hands out. -/
structure Heap (β : Type*) where
  block : ℕ → Block β
  next : ℕ
  fresh : ∀ p, next ≤ p → block p = .unallocated

namespace Heap

variable {β : Type*} (h : Heap β) {p q : ℕ} {b c : β}

/-- The heap before the first `malloc`. -/
def empty : Heap β := ⟨fun _ => .unallocated, 0, fun _ _ => rfl⟩

/-- The content of a block, if it is alive. -/
def get? (p : ℕ) : Option β := (h.block p).get?

/-- The last content of a block, alive or freed. -/
def last? (p : ℕ) : Option β := (h.block p).last?

/-- `malloc` followed by the initialisation of the block.  The pointer is `h.next`. -/
def alloc (b : β) : Heap β where
  block q := if q = h.next then .live b else h.block q
  next := h.next + 1
  fresh q hq := by
    rw [if_neg (by omega)]
    exact h.fresh q (by omega)

/-- Overwrite the content of a live block. -/
def set (p : ℕ) (b : β) : Heap β where
  block q := if q = p then (h.block q).set b else h.block q
  next := h.next
  fresh q hq := by
    rw [h.fresh q hq]
    simp [Block.set]

/-- `free`. -/
def free (p : ℕ) : Heap β where
  block q := if q = p then (h.block q).free else h.block q
  next := h.next
  fresh q hq := by
    rw [h.fresh q hq]
    simp [Block.free]

variable {h}

lemma get?_eq_none_of_le (hp : h.next ≤ p) : h.get? p = none := by
  simp [get?, h.fresh p hp, Block.get?]

lemma lt_next_of_get? (hb : h.get? p = some b) : p < h.next := by
  by_contra hlt
  rw [get?_eq_none_of_le (by omega)] at hb
  simp at hb

lemma last?_of_get? (hb : h.get? p = some b) : h.last? p = some b :=
  Block.last?_of_get? hb

@[simp] lemma next_alloc : (h.alloc b).next = h.next + 1 := rfl
@[simp] lemma next_set : (h.set p b).next = h.next := rfl
@[simp] lemma next_free : (h.free p).next = h.next := rfl

lemma get?_alloc (q : ℕ) : (h.alloc b).get? q = if q = h.next then some b else h.get? q := by
  by_cases hq : q = h.next <;> simp [alloc, get?, hq, Block.get?]

@[simp] lemma get?_alloc_self : (h.alloc b).get? h.next = some b := by
  simp [get?_alloc]

lemma get?_alloc_of_get? (hc : h.get? q = some c) : (h.alloc b).get? q = some c := by
  rw [get?_alloc, if_neg (Nat.ne_of_lt (lt_next_of_get? hc)), hc]

lemma get?_set_self (hc : h.get? p = some c) : (h.set p b).get? p = some b := by
  simpa [set, get?] using Block.get?_set b hc

lemma get?_set_of_ne (hq : q ≠ p) : (h.set p b).get? q = h.get? q := by
  simp [set, get?, hq]

@[simp] lemma get?_free_self : (h.free p).get? p = none := by
  simp [free, get?]

lemma get?_free_of_ne (hq : q ≠ p) : (h.free p).get? q = h.get? q := by
  simp [free, get?, hq]

@[simp] lemma last?_free (q : ℕ) : (h.free p).last? q = h.last? q := by
  by_cases hq : q = p <;> simp [free, last?, hq]

lemma last?_set_of_ne (hq : q ≠ p) : (h.set p b).last? q = h.last? q := by
  simp [set, last?, hq]

lemma last?_alloc_of_ne (hq : q ≠ h.next) : (h.alloc b).last? q = h.last? q := by
  simp [alloc, last?, hq]

lemma last?_eq_none_of_le (hp : h.next ≤ p) : h.last? p = none := by
  simp [last?, h.fresh p hp, Block.last?]

/-- Writes to different blocks commute. -/
lemma set_set_comm (hne : q ≠ p) : (h.set p b).set q c = (h.set q c).set p b := by
  have hblock : ((h.set p b).set q c).block = ((h.set q c).set p b).block := by
    funext x
    by_cases hp : x = p
    · simp [set, hp, hne.symm]
    · simp [set, hp]
  simp only [set] at hblock ⊢
  congr

lemma free_set_comm (hne : q ≠ p) : (h.set p b).free q = (h.free q).set p b := by
  have hblock : ((h.set p b).free q).block = ((h.free q).set p b).block := by
    funext x
    by_cases hp : x = p
    · simp [set, free, hp, hne.symm]
    · simp [set, free, hp]
  simp only [set, free] at hblock ⊢
  congr

lemma alloc_set_comm (hne : p ≠ h.next) : (h.set p b).alloc c = (h.alloc c).set p b := by
  have hblock : ((h.set p b).alloc c).block = ((h.alloc c).set p b).block := by
    funext x
    by_cases hp : x = p
    · simp [set, alloc, hp, hne]
    · simp [set, alloc, hp]
  simp only [set, alloc] at hblock ⊢
  congr

end Heap

/-! ## Linked lists -/

section Linked

variable {α : Type*}

/-- Following the links `nxt` from the pointer `head` visits the blocks `xs` in order and
ends in a null pointer.  `nxt x = none` says that `x` is not a live block. -/
def Linked (nxt : α → Option (Option α)) : Option α → List α → Prop
  | head, [] => head = none
  | head, x :: xs => head = some x ∧ ∃ tl, nxt x = some tl ∧ Linked nxt tl xs

variable {nxt nxt' : α → Option (Option α)} {head : Option α} {x : α} {xs ys : List α}

@[simp] lemma linked_nil : Linked nxt head [] ↔ head = none := Iff.rfl

lemma linked_cons :
    Linked nxt head (x :: xs) ↔ head = some x ∧ ∃ tl, nxt x = some tl ∧ Linked nxt tl xs :=
  Iff.rfl

lemma linked_none : Linked nxt none xs ↔ xs = [] := by
  cases xs with
  | nil => simp
  | cons x xs => simp [linked_cons]

/-- Every block of a linked list is live. -/
lemma Linked.isSome (hl : Linked nxt head xs) : ∀ x ∈ xs, (nxt x).isSome := by
  induction xs generalizing head with
  | nil => simp
  | cons y ys ih =>
    obtain ⟨-, tl, hy, htl⟩ := hl
    intro x hx
    rcases List.mem_cons.mp hx with rfl | hx
    · simp [hy]
    · exact ih htl x hx

/-- A linked list only depends on the links of its own blocks. -/
lemma Linked.congr (hl : Linked nxt head xs) (heq : ∀ x ∈ xs, nxt' x = nxt x) :
    Linked nxt' head xs := by
  induction xs generalizing head with
  | nil => exact hl
  | cons y ys ih =>
    obtain ⟨hhead, tl, hy, htl⟩ := hl
    refine ⟨hhead, tl, ?_, ih htl fun x hx => heq x (List.mem_cons_of_mem _ hx)⟩
    rw [heq y List.mem_cons_self, hy]

/-- The head pointer determines the list. -/
lemma Linked.unique (hx : Linked nxt head xs) (hy : Linked nxt head ys) : xs = ys := by
  induction xs generalizing head ys with
  | nil =>
    obtain rfl : head = none := hx
    exact (linked_none.mp hy).symm
  | cons x xs ih =>
    obtain ⟨rfl, tl, htl, hrest⟩ := hx
    cases ys with
    | nil => simp at hy
    | cons y ys =>
      obtain ⟨hhead, tl', htl', hrest'⟩ := hy
      obtain rfl : x = y := by simpa using hhead
      obtain rfl : tl = tl' := by simpa [htl] using htl'
      rw [ih hrest hrest']

lemma Linked.suffix (hl : Linked nxt head (ys ++ x :: xs)) : Linked nxt (some x) (x :: xs) := by
  induction ys generalizing head with
  | nil =>
    obtain ⟨rfl, htl⟩ := hl
    exact ⟨rfl, htl⟩
  | cons y ys ih =>
    obtain ⟨-, tl, -, htl⟩ := hl
    exact ih htl

/-- The links of a linked list stay inside it. -/
lemma Linked.next_mem {y : α} (hl : Linked nxt head xs) (hx : x ∈ xs)
    (hy : nxt x = some (some y)) : y ∈ xs := by
  induction xs generalizing head with
  | nil => simp at hx
  | cons z zs ih =>
    obtain ⟨-, tl, hz, htl⟩ := hl
    rcases List.mem_cons.mp hx with rfl | hx
    · obtain rfl : tl = some y := Option.some.inj (hz.symm.trans hy)
      obtain ⟨tl, rfl⟩ : ∃ tl, zs = y :: tl := by
        cases zs with
        | nil => simp at htl
        | cons w ws => exact ⟨ws, by rw [show y = w from Option.some.inj htl.1]⟩
      exact List.mem_cons_of_mem _ List.mem_cons_self
    · exact List.mem_cons_of_mem _ (ih htl hx)

/-- A linked list that ends in a null pointer has no cycle. -/
theorem Linked.nodup (hl : Linked nxt head xs) : xs.Nodup := by
  induction xs generalizing head with
  | nil => exact List.nodup_nil
  | cons x xs ih =>
    obtain ⟨rfl, tl, hx, htl⟩ := hl
    refine List.nodup_cons.mpr ⟨fun hmem => ?_, ih htl⟩
    obtain ⟨as, bs, rfl⟩ := List.append_of_mem hmem
    have hall : Linked nxt (some x) (x :: (as ++ x :: bs)) := ⟨rfl, tl, hx, htl⟩
    have heq := congrArg List.length (hall.unique htl.suffix)
    simp only [List.length_cons, List.length_append] at heq
    omega

/-- The blocks visited by following the links, at most so many. -/
def chase (nxt : α → Option (Option α)) : ℕ → Option α → List α
  | 0, _ => []
  | _ + 1, none => []
  | n + 1, some x => x :: chase nxt n ((nxt x).getD none)

/-- Following the links visits a whole linked list. -/
lemma Linked.chase_eq {n : ℕ} (hl : Linked nxt head xs) (hn : xs.length ≤ n) :
    chase nxt n head = xs := by
  induction n generalizing head xs with
  | zero =>
    obtain rfl := List.length_eq_zero_iff.mp (Nat.le_zero.mp hn)
    rfl
  | succ n ih =>
    cases xs with
    | nil =>
      obtain rfl : head = none := hl
      rfl
    | cons x xs =>
      obtain ⟨rfl, tl, htl, hrest⟩ := hl
      rw [chase, htl, Option.getD_some, ih hrest (by simpa using hn)]

/-- The first block of a list whose head pointer is not null. -/
lemma Linked.cons_of_some (hl : Linked nxt (some x) xs) : ∃ tl, xs = x :: tl := by
  cases xs with
  | nil => simp at hl
  | cons y ys =>
    obtain ⟨hhead, -⟩ := hl
    obtain rfl : x = y := by simpa using hhead
    exact ⟨ys, rfl⟩

end Linked

end Cpr
