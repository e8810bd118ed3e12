/-
# Tail queues

The tail queues of `<sys/queue.h>`.  A cell has the address of the next cell, and a pointer
back to where its own address is stored: the head of the queue, or the cell before it.  The
head also knows where the address of the next new cell goes.

The relation `Chain` describes a segment of a queue.  The operations of the queue cut it into
segments and put it together again.
-/
import Cpr.Lib.Heap

namespace Cpr

/-- Where the address of a cell is stored. -/
inductive Link
  /-- `tqh_first` of the head. -/
  | first
  /-- `tqe_next` of a cell. -/
  | next (elm : ℕ)
deriving DecidableEq, Repr

/-- An element of a queue. -/
structure Cell (α : Type*) where
  val : α
  tqeNext : Option ℕ
  tqePrev : Link

/-- A head, and the heap of the cells. -/
structure Tailq (α : Type*) where
  cells : Heap (Cell α)
  tqhFirst : Option ℕ
  tqhLast : Link

namespace Tailq

variable {α : Type*}

/-- Reading a cell through a pointer.  If the allocator `keeps` what it gets back, a cell
that was freed still has its last content. -/
def read (keeps : Bool) (cells : Heap (Cell α)) (p : ℕ) : Option (Cell α) :=
  if keeps then cells.last? p else cells.get? p

/-- `TAILQ_INIT` of a head, before the first cell. -/
def empty : Tailq α := ⟨Heap.empty, none, .first⟩

variable (q : Tailq α)

/-- `*link = p`. -/
def store (link : Link) (p : Option ℕ) : Option (Tailq α) :=
  match link with
  | .first => some { q with tqhFirst := p }
  | .next elm =>
    (q.cells.get? elm).map fun c => { q with cells := q.cells.set elm { c with tqeNext := p } }

/-- `malloc` of a cell and the assignment of its value.  The links have no value yet. -/
def malloc (val : α) : Tailq α := { q with cells := q.cells.alloc ⟨val, none, .first⟩ }

/-- `TAILQ_INSERT_TAIL`. -/
def insertTail (elm : ℕ) : Option (Tailq α) :=
  (q.cells.get? elm).bind fun c =>
    let linked : Tailq α :=
      { q with cells := q.cells.set elm { c with tqeNext := none, tqePrev := q.tqhLast } }
    (linked.store q.tqhLast (some elm)).map fun q' => { q' with tqhLast := .next elm }

/-- A new cell at the tail. -/
def push (val : α) : Option (Tailq α) := (q.malloc val).insertTail q.cells.next

/-- The first half of `TAILQ_REMOVE`: the back pointer to the cell `c` skips it. -/
def unlinkPrev (c : Cell α) : Option (Tailq α) :=
  match c.tqeNext with
  | some n =>
    (q.cells.get? n).map fun d =>
      { q with cells := q.cells.set n { d with tqePrev := c.tqePrev } }
  | none => some { q with tqhLast := c.tqePrev }

/-- `TAILQ_REMOVE`. -/
def remove (keeps : Bool) (elm : ℕ) : Option (Tailq α) :=
  (read keeps q.cells elm).bind fun c =>
    (q.unlinkPrev c).bind fun q' => q'.store c.tqePrev c.tqeNext

/-- `free` of a cell. -/
def free (elm : ℕ) : Option (Tailq α) :=
  (q.cells.get? elm).map fun _ => { q with cells := q.cells.free elm }

/-- The value of `TAILQ_FIRST`, if the queue is not `TAILQ_EMPTY`. -/
def front (keeps : Bool) : Option (List α) :=
  match q.tqhFirst with
  | none => some []
  | some elm => (read keeps q.cells elm).map fun c => [c.val]

end Tailq

section

variable {α : Type*}

/-- The cells `ns`, with their addresses and values, are a segment of a queue: the address of
the first of them is stored at `prev` and is `head`; after the last of them the address `tail`
is stored at `last`. -/
def Chain (cells : Heap (Cell α)) (last : Link) (tail : Option ℕ) :
    Link → Option ℕ → List (ℕ × α) → Prop
  | prev, head, [] => head = tail ∧ last = prev
  | prev, head, (p, x) :: ns =>
    head = some p ∧ ∃ next, cells.get? p = some ⟨x, next, prev⟩ ∧
      Chain cells last tail (.next p) next ns

variable {cells cells' : Heap (Cell α)} {prev last mid : Link} {head tail : Option ℕ}
  {ns ns' : List (ℕ × α)} {p : ℕ} {x : α}

lemma chain_cons : Chain cells last tail prev head ((p, x) :: ns) ↔
    head = some p ∧ ∃ next, cells.get? p = some ⟨x, next, prev⟩ ∧
      Chain cells last tail (.next p) next ns := Iff.rfl

lemma chain_append : Chain cells last tail prev head (ns ++ ns') ↔
    ∃ mid h, Chain cells mid h prev head ns ∧ Chain cells last tail mid h ns' := by
  induction ns generalizing prev head with
  | nil =>
    constructor
    · exact fun h => ⟨prev, head, ⟨rfl, rfl⟩, h⟩
    · rintro ⟨_, _, ⟨rfl, rfl⟩, h⟩
      exact h
  | cons n ns ih =>
    obtain ⟨p, x⟩ := n
    rw [List.cons_append, chain_cons]
    constructor
    · rintro ⟨rfl, next, hp, hrest⟩
      obtain ⟨mid, h, hns, hns'⟩ := ih.mp hrest
      exact ⟨mid, h, ⟨rfl, next, hp, hns⟩, hns'⟩
    · rintro ⟨mid, h, ⟨rfl, next, hp, hns⟩, hns'⟩
      exact ⟨rfl, next, hp, ih.mpr ⟨mid, h, hns, hns'⟩⟩

/-- A segment depends on its own cells only. -/
lemma Chain.congr (h : Chain cells last tail prev head ns)
    (heq : ∀ n ∈ ns, cells'.get? n.1 = cells.get? n.1) : Chain cells' last tail prev head ns := by
  induction ns generalizing prev head with
  | nil => exact h
  | cons n ns ih =>
    obtain ⟨p, x⟩ := n
    obtain ⟨rfl, next, hp, hrest⟩ := h
    refine ⟨rfl, next, ?_, ih hrest fun n hn => heq n (List.mem_cons_of_mem _ hn)⟩
    rw [heq (p, x) List.mem_cons_self, hp]

/-- The cells of a segment are alive. -/
lemma Chain.isSome (h : Chain cells last tail prev head ns) :
    ∀ n ∈ ns, (cells.get? n.1).isSome := by
  induction ns generalizing prev head with
  | nil => simp
  | cons n ns ih =>
    obtain ⟨p, x⟩ := n
    obtain ⟨rfl, next, hp, hrest⟩ := h
    intro m hm
    rcases List.mem_cons.mp hm with rfl | hm
    · rw [hp]
      rfl
    · exact ih hrest m hm

/-- Following the links visits the cells of the queue. -/
lemma Chain.linked (h : Chain cells last none prev head ns) :
    Linked (fun p => (cells.get? p).map Cell.tqeNext) head (ns.map Prod.fst) := by
  induction ns generalizing prev head with
  | nil => exact h.1
  | cons n ns ih =>
    obtain ⟨p, x⟩ := n
    obtain ⟨rfl, next, hp, hrest⟩ := h
    exact ⟨rfl, next, by simp [hp], ih hrest⟩

lemma Chain.nodup (h : Chain cells last none prev head ns) : (ns.map Prod.fst).Nodup :=
  h.linked.nodup

end

namespace Tailq

variable {α : Type*} {q : Tailq α} {ns : List (ℕ × α)} {xs : List α} {p : ℕ} {x : α} {c : Cell α}
  {keeps : Bool}

/-- The queue has these cells: following `tqe_next` from `tqh_first` visits them in order, the
back pointers point back, and `tqh_last` designates the last link. -/
def Holds (q : Tailq α) (ns : List (ℕ × α)) : Prop :=
  Chain q.cells q.tqhLast none .first q.tqhFirst ns

/-- The values in the queue. -/
def Represents (q : Tailq α) (xs : List α) : Prop :=
  ∃ ns, q.Holds ns ∧ ns.map Prod.snd = xs

lemma read_of_get? (h : q.cells.get? p = some c) : read keeps q.cells p = some c := by
  unfold read
  split_ifs
  · exact Heap.last?_of_get? h
  · exact h

lemma represents_empty : (empty : Tailq α).Represents [] := ⟨[], ⟨rfl, rfl⟩, rfl⟩

lemma Represents.front (h : q.Represents xs) : q.front keeps = some (xs.take 1) := by
  obtain ⟨ns, hns, rfl⟩ := h
  cases ns with
  | nil =>
    have hfirst : q.tqhFirst = none := hns.1
    simp [Tailq.front, hfirst]
  | cons n ns =>
    obtain ⟨p, x⟩ := n
    obtain ⟨hfirst, next, hp, -⟩ := hns
    simp [Tailq.front, hfirst, read_of_get? hp]

/-- The chain of a queue, cut before its last cell. -/
lemma Holds.last_cases (h : q.Holds ns) : (ns = [] ∧ q.tqhFirst = none ∧ q.tqhLast = .first) ∨
    ∃ ns' r y mid, ns = ns' ++ [(r, y)] ∧ Chain q.cells mid (some r) .first q.tqhFirst ns' ∧
      q.cells.get? r = some ⟨y, none, mid⟩ ∧ q.tqhLast = .next r := by
  rcases List.eq_nil_or_concat ns with rfl | ⟨ns', ⟨r, y⟩, rfl⟩
  · exact Or.inl ⟨rfl, h⟩
  · rw [List.concat_eq_append] at h ⊢
    obtain ⟨mid, head, hns', rfl, next, hr, rfl, hlast⟩ := chain_append.mp h
    exact Or.inr ⟨ns', r, y, mid, rfl, hns', hr, hlast⟩

/-- **`TAILQ_INSERT_TAIL`** appends a cell that is not in the queue. -/
theorem Holds.insertTail (h : q.Holds ns) (hp : q.cells.get? p = some c)
    (hnew : p ∉ ns.map Prod.fst) :
    ∃ q', q.insertTail p = some q' ∧ q'.Holds (ns ++ [(p, c.val)]) := by
  have hself : (q.cells.set p { c with tqeNext := none, tqePrev := q.tqhLast }).get? p =
      some ⟨c.val, none, q.tqhLast⟩ := Heap.get?_set_self hp
  have hother {r : ℕ} (hr : r ≠ p) :
      (q.cells.set p { c with tqeNext := none, tqePrev := q.tqhLast }).get? r = q.cells.get? r :=
    Heap.get?_set_of_ne hr
  unfold Tailq.insertTail
  rw [hp, Option.bind_some]
  generalize q.cells.set p { c with tqeNext := none, tqePrev := q.tqhLast } = cells at hself hother
  rcases h.last_cases with ⟨rfl, -, hlast⟩ | ⟨ns', r, y, mid, rfl, hns', hr, hlast⟩
  · rw [hlast] at hself ⊢
    exact ⟨_, rfl, rfl, none, hself, rfl, rfl⟩
  · rw [hlast] at hself ⊢
    have hrp : r ≠ p := by
      rintro rfl
      simp at hnew
    have hr' : cells.get? r = some ⟨y, none, mid⟩ := (hother hrp).trans hr
    have hold : ∀ n ∈ ns', n.1 ≠ r ∧ n.1 ≠ p := by
      intro n hn
      have hmem : n.1 ∈ ns'.map Prod.fst := List.mem_map_of_mem hn
      have hnodup := h.nodup
      rw [List.map_append, List.map_singleton, List.nodup_append] at hnodup
      refine ⟨hnodup.2.2 _ hmem _ List.mem_cons_self, ?_⟩
      rintro rfl
      exact hnew (by rw [List.map_append]; exact List.mem_append_left _ hmem)
    -- the last cell now leads to the new one
    refine ⟨⟨cells.set r ⟨y, some p, mid⟩, q.tqhFirst, .next p⟩, by simp [store, hr'], ?_⟩
    refine chain_append.mpr ⟨.next r, some p, chain_append.mpr ⟨mid, some r, hns'.congr ?_, rfl,
      some p, Heap.get?_set_self hr', rfl, rfl⟩, rfl, none, ?_, rfl, rfl⟩
    · intro n hn
      obtain ⟨hnr, hnp⟩ := hold n hn
      exact (Heap.get?_set_of_ne hnr).trans (hother hnp)
    · exact (Heap.get?_set_of_ne hrp.symm).trans hself

/-- **`TAILQ_REMOVE`** of the first cell, which has to be read, but not to be alive. -/
theorem remove_first {next : Option ℕ} (hread : read keeps q.cells p = some ⟨x, next, .first⟩)
    (hrest : Chain q.cells q.tqhLast none (.next p) next ns) :
    ∃ q', q.remove keeps p = some q' ∧ q'.Holds ns := by
  unfold remove
  rw [hread, Option.bind_some]
  cases ns with
  | nil =>
    obtain ⟨rfl, -⟩ := hrest
    exact ⟨_, rfl, rfl, rfl⟩
  | cons n ns =>
    obtain ⟨n, y⟩ := n
    have hnodup := hrest.nodup
    obtain ⟨rfl, next, hn, hns⟩ := hrest
    have hold : ∀ m ∈ ns, m.1 ≠ n := by
      intro m hm heq
      exact (List.nodup_cons.mp hnodup).1 (List.mem_map.mpr ⟨m, hm, heq⟩)
    refine ⟨⟨q.cells.set n ⟨y, next, .first⟩, some n, q.tqhLast⟩, by simp [unlinkPrev, hn, store],
      rfl, next, Heap.get?_set_self hn, hns.congr fun m hm => Heap.get?_set_of_ne (hold m hm)⟩

/-- A new cell is appended. -/
theorem Represents.push (h : q.Represents xs) (x : α) :
    ∃ q', q.push x = some q' ∧ q'.Represents (xs ++ [x]) := by
  obtain ⟨ns, hns, rfl⟩ := h
  have hold : ∀ n ∈ ns, n.1 ≠ q.cells.next := by
    intro n hn
    obtain ⟨c, hc⟩ := Option.isSome_iff_exists.mp (hns.isSome n hn)
    exact Nat.ne_of_lt (Heap.lt_next_of_get? hc)
  have hmalloc : (q.malloc x).Holds ns := hns.congr fun n hn => by
    rw [malloc, Heap.get?_alloc, if_neg (hold n hn)]
  obtain ⟨q', hq', hns'⟩ := hmalloc.insertTail Heap.get?_alloc_self (by
    rintro hmem
    obtain ⟨n, hn, heq⟩ := List.mem_map.mp hmem
    exact hold n hn heq)
  exact ⟨q', hq', _, hns', by rw [List.map_append]; rfl⟩

lemma Represents.foldlM_push (h : q.Represents xs) (ys : List α) :
    ∃ q', ys.foldlM (fun q y => q.push y) q = some q' ∧ q'.Represents (xs ++ ys) := by
  induction ys generalizing q xs with
  | nil => exact ⟨q, rfl, by rwa [List.append_nil]⟩
  | cons y ys ih =>
    obtain ⟨q₁, hq₁, h₁⟩ := h.push y
    obtain ⟨q', hq', h'⟩ := ih h₁
    refine ⟨q', by simp [hq₁, hq'], ?_⟩
    rwa [List.append_assoc, List.singleton_append] at h'

/-! ### The first cell is freed, and then removed -/

variable {first : ℕ}

lemma Represents.first_cases (h : q.Represents (x :: xs)) :
    ∃ p next ns, q.tqhFirst = some p ∧ q.cells.get? p = some ⟨x, next, .first⟩ ∧
      (∀ n ∈ ns, n.1 ≠ p) ∧ Chain q.cells q.tqhLast none (.next p) next ns ∧
      ns.map Prod.snd = xs := by
  obtain ⟨ns, hns, hxs⟩ := h
  obtain ⟨⟨p, y⟩, ns, rfl, rfl, rfl⟩ := List.map_eq_cons_iff.mp hxs
  have hnodup := hns.nodup
  obtain ⟨hfirst, next, hp, hrest⟩ := hns
  refine ⟨p, next, ns, hfirst, hp, ?_, hrest, rfl⟩
  intro n hn heq
  exact (List.nodup_cons.mp hnodup).1 (List.mem_map.mpr ⟨n, hn, heq⟩)

/-- If the allocator keeps the cell, this removes the first element. -/
theorem Represents.free_remove (h : q.Represents (x :: xs)) (hfirst : q.tqhFirst = some first) :
    ∃ q', (q.free first).bind (fun q' => q'.remove true first) = some q' ∧ q'.Represents xs := by
  obtain ⟨p, next, ns, hp, hget, hne, hrest, rfl⟩ := h.first_cases
  obtain rfl : p = first := Option.some.inj (hp.symm.trans hfirst)
  have hread : read true (q.cells.free p) p = some ⟨x, next, .first⟩ := by
    rw [read, if_pos rfl, Heap.last?_free, Heap.last?_of_get? hget]
  have hfreed : Chain (q.cells.free p) q.tqhLast none (.next p) next ns :=
    hrest.congr fun n hn => Heap.get?_free_of_ne (hne n hn)
  obtain ⟨q', hq', hns⟩ :=
    remove_first (q := { q with cells := q.cells.free p }) hread hfreed
  exact ⟨q', by simp [free, hget, hq'], ns, hns, rfl⟩

/-- If it does not, `TAILQ_REMOVE` reads a cell that does not exist. -/
theorem free_remove_eq_none : (q.free p).bind (fun q' => q'.remove false p) = none := by
  refine Option.bind_eq_none_iff.mpr fun q' hq' => ?_
  obtain ⟨c, -, rfl⟩ := Option.map_eq_some_iff.mp hq'
  simp [remove, read]

end Tailq

end Cpr
