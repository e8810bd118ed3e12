/-
# The queue of the walk, from the labels

What was inserted in the queue of `copy_internal`, in the order of insertion, and how much of
it was processed, as functions of the labels of the run alone.  The queue has what was
inserted and not processed.  The elements can be the nodes, or anything else that has a root
and children with names.
-/
import Cpr.Program.Locks

namespace Cpr

open Transition Unix

namespace Label

/-- The label ends an iteration of the loop of `copy_internal`. -/
def endsIteration : Label → Bool
  | .stat (some k) => k ≠ .dir ∧ k ≠ .reg
  | .closedir ok | .addUnlock ok => ok
  | _ => false

section

variable {α : Type*} (root : α) (child : α → Name → α)

/-- What the step inserts at the tail of the queue: the root, or a child of the first element
`curr`. -/
def enqueues (curr : Option α) : Label → List α
  | .startThread true => [root]
  | .readdir (.entry name dtype) =>
    if name = dot ∨ name = dotdot then []
    else if dtype = .dir ∨ dtype = .reg ∨ dtype = .unknown then
      (curr.map fun a => child a name).toList
    else []
  | _ => []

/-- What the step does to a queue. -/
def onQueue (l : Label) (queue : List α) : List α :=
  if l.endsIteration then queue.tail else queue ++ l.enqueues root child queue.head?

end

end Label

/-- A queue with its history: what was inserted, and how much of it was processed. -/
structure Fifo (α : Type*) where
  enqueued : List α
  processed : ℕ

namespace Fifo

section

variable {α β : Type*} (f : Fifo α) (root : α) (child : α → Name → α)

def done : List α := f.enqueued.take f.processed

def pending : List α := f.enqueued.drop f.processed

/-- The same queue with other names for its elements. -/
def map (g : α → β) : Fifo β := ⟨f.enqueued.map g, f.processed⟩

/-- The queue after a step. -/
def after (l : Label) : Fifo α where
  enqueued := f.enqueued ++ l.enqueues root child f.pending.head?
  processed := f.processed + if l.endsIteration then 1 else 0

/-- The queue after the labels of a run. -/
def run (ls : List Label) : Fifo α := ls.foldl (fun f l => f.after root child l) ⟨[], 0⟩

variable {f root child} {l : Label} {ls : List Label} {g : α → β} {child' : β → Name → β}

@[simp] lemma run_nil : run root child [] = ⟨[], 0⟩ := rfl

@[simp] lemma run_concat : run root child (ls ++ [l]) = (run root child ls).after root child l := by
  rw [run, List.foldl_append]
  rfl

lemma done_append_pending : f.done ++ f.pending = f.enqueued := List.take_append_drop _ _

@[simp] lemma pending_map : (f.map g).pending = f.pending.map g := List.map_drop.symm

lemma enqueues_of_ends (h : l.endsIteration = true) (curr : Option α) :
    l.enqueues root child curr = [] := by
  unfold Label.enqueues
  split <;> simp_all [Label.endsIteration]

@[simp] lemma enqueued_after_of_ends (h : l.endsIteration = true) :
    (f.after root child l).enqueued = f.enqueued := by
  rw [after, enqueues_of_ends h, List.append_nil]

lemma map_enqueues (hchild : ∀ a n, g (child a n) = child' (g a) n) (curr : Option α) :
    (l.enqueues root child curr).map g = l.enqueues (g root) child' (curr.map g) := by
  unfold Label.enqueues
  split
  · rfl
  · split_ifs
    · rfl
    · cases curr <;> simp [hchild]
    · rfl
  · rfl

/-- The history depends on the names of the elements in no way. -/
lemma map_run (hchild : ∀ a n, g (child a n) = child' (g a) n) :
    (run root child ls).map g = run (g root) child' ls := by
  induction ls using List.reverseRecOn with
  | nil => rfl
  | append_singleton ls l ih =>
    rw [run_concat, run_concat, ← ih, after, after, pending_map, List.head?_map,
      ← map_enqueues hchild, map, List.map_append]
    rfl

/-- The history changes as the queue does. -/
lemma pending_after (hle : f.processed ≤ f.enqueued.length) :
    (f.after root child l).pending = l.onQueue root child f.pending := by
  unfold Label.onQueue
  split_ifs with hends
  · rw [pending, after, enqueues_of_ends hends, List.append_nil, if_pos hends, pending,
      List.tail_drop]
  · rw [pending, after, if_neg hends, Nat.add_zero, List.drop_append_of_le_length hle]
    rfl

end

/-- The nodes of `copy_internal`. -/
def nodes (argv : Node) (ls : List Label) : Fifo Node := run argv Prog.child ls

/-- The history is that of the queue of a state. -/
structure Describes (f : Fifo Node) (p : Prog) : Prop where
  queue : p.queue = f.pending
  le : f.processed ≤ f.enqueued.length
  start : p.pc.beforeStart = true → f = ⟨[], 0⟩

end Fifo

namespace Prog

variable {p p' : Prog} {l : Label}

lemma ends_of_fails (h : l.Fails) : l.endsIteration = false := by
  cases l <;> simp_all [Label.Fails, Label.endsIteration]

lemma enqueues_of_fails {α : Type*} {root : α} {child : α → Name → α} (h : l.Fails)
    (curr : Option α) : l.enqueues root child curr = [] := by
  cases l <;> simp_all [Label.Fails, Label.enqueues]

lemma queue_of_fires (hfires : Fires p l p') (hstart : p.pc.beforeStart = true → p.queue = []) :
    p'.queue = l.onQueue p.argv child p.queue := by
  cases hfires with
  | fail l hl hfails =>
    simp [Label.onQueue, ends_of_fails hfails, enqueues_of_fails hfails, fail]
  | startThread hpc =>
    rw [hstart (by rw [hpc]; rfl)]
    rfl
  | statOther curr rest k hpc hqueue hdir hreg =>
    simp [Label.onQueue, Label.endsIteration, hdir, hreg, hqueue]
  | readdirSkip name dtype hpc hname | readdirExit name dtype hpc hname htype =>
    simp [Label.onQueue, Label.endsIteration, Label.enqueues, *]
  | readdirEnqueue curr rest name dtype hpc hqueue hname htype =>
    simp [Label.onQueue, Label.endsIteration, Label.enqueues, hname, htype, hqueue]
  | closedir | addUnlock => rfl
  | _ => simp [Label.onQueue, Label.endsIteration, Label.enqueues]

/-- An iteration ends only where there is a first node. -/
lemma queue_ne_nil_of_ends (hfires : Fires p l p') (hbody : p.pc.inBody = true → p.queue ≠ [])
    (hends : l.endsIteration = true) : p.queue ≠ [] := by
  cases hfires with
  | statOther curr rest k hpc hqueue =>
    rw [hqueue]
    exact List.cons_ne_nil _ _
  | closedir hpc | addUnlock hpc => exact hbody (by rw [hpc]; rfl)
  | fail l hl hfails => cases l <;> simp_all [Label.Fails, Label.endsIteration]
  | _ => simp [Label.endsIteration] at hends

end Prog

namespace Fifo.Describes

variable {p p' : Prog} {f : Fifo Node} {l : Label} {ls : List Label} {srcName dstName : CStr}
  {batchSize : ℤ}

lemma init : Describes ⟨[], 0⟩ (Prog.init srcName dstName batchSize) := ⟨rfl, le_rfl, fun _ => rfl⟩

/-- **One step** keeps the account. -/
theorem step (h : f.Describes p) (hlocks : Locks p) (hfires : Prog.Fires p l p') :
    (f.after p.argv Prog.child l).Describes p' := by
  have hempty (hpc : p.pc.beforeStart = true) : p.queue = [] := by
    rw [h.queue, h.start hpc]
    rfl
  refine ⟨?_, ?_, fun hpc => ?_⟩
  · rw [pending_after h.le, ← h.queue]
    exact Prog.queue_of_fires hfires hempty
  · have hle := h.le
    rw [after, List.length_append]
    dsimp only
    split_ifs with hends
    · have hpos := List.length_pos_iff.mpr
        (Prog.queue_ne_nil_of_ends hfires hlocks.inBody hends)
      rw [h.queue, pending, List.length_drop] at hpos
      omega
    · omega
  · have hkeep (hpc : p.pc.beforeStart = true) (hends : l.endsIteration = false)
        (hnone : ∀ curr, l.enqueues p.argv Prog.child curr = []) :
        f.after p.argv Prog.child l = ⟨[], 0⟩ := by
      rw [after, hends, hnone, h.start hpc]
      rfl
    cases hfires with
    | fail l hl hfails =>
      exact hkeep hpc (Prog.ends_of_fails hfails) (Prog.enqueues_of_fails hfails)
    | aio => exact hkeep hpc rfl fun _ => rfl
    | initManager hpc' => exact hkeep (by rw [hpc']; rfl) rfl fun _ => rfl
    | statOther _ _ _ hpc' | readdirSkip _ _ hpc' | readdirEnqueue _ _ _ _ hpc'
    | readdirExit _ _ hpc' | destroy hpc' => simp [hpc', MainPc.beforeStart] at hpc
    | _ => simp [Prog.next, MainPc.beforeStart] at hpc

/-- The queue of a run has the nodes that were inserted and not processed, in the order of
insertion. -/
theorem of_exec (h : exec Prog.step (Prog.init srcName dstName batchSize) ls = some p) :
    (nodes ⟨srcName, dstName⟩ ls).Describes p := by
  refine (exec_invariant (I := fun ls p => (nodes ⟨srcName, dstName⟩ ls).Describes p ∧
    p.argv = ⟨srcName, dstName⟩) (fun {ls p l p'} hp h hstep => ?_) h ⟨init, rfl⟩).1
  obtain ⟨-, hfires⟩ := Prog.fires_of_step hstep
  have hlocks := Locks.of_reaches (reaches_of_exec (fun _ _ => trivial) hp)
  rw [nodes, run_concat, Prog.argv_of_fires hfires]
  exact ⟨h.2 ▸ h.1.step hlocks hfires, h.2⟩

end Fifo.Describes

end Cpr
