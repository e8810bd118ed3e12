/-
# The queue of the walk on the heap

The walk of `copy_internal` with its nodes on the heap, in a tail queue.  At the end of an
iteration the node is freed first and removed then, so that `TAILQ_REMOVE` reads the links of
a node that does not exist any more.  Until then the queue is the list of nodes that the
other modules have; and so it is for good, if the allocator happens to leave the links of the
freed node as they are.
-/
import Cpr.Lib.Tailq
import Cpr.Program.Fifo
import Cpr.System.Parents

namespace Cpr

open Transition Unix

/-- The state with another list of nodes. -/
def Sys.withQueue (s : Sys) (queue : List Node) : Sys :=
  { s with prog := { s.prog with queue := queue } }

/-- The system with the nodes in a tail queue. -/
structure HeapSys where
  /-- The state without the nodes: its list of nodes is empty. -/
  sys : Sys
  /-- `head`; `none` after an access to a node that does not exist. -/
  head : Option (Tailq Node)

namespace HeapSys

/-- The state when `main` starts, with the head of `copy_internal` after `TAILQ_INIT`. -/
def init (fs : Fs) (cwd : Loc) (srcName dstName : CStr) (batchSize : ℤ) : HeapSys :=
  ⟨.init fs cwd srcName dstName batchSize, some .empty⟩

variable (keeps : Bool)

/-- The end of an iteration: `free(curr)`, and then `TAILQ_REMOVE` of `curr`.  It is still
the first node, because `copy_dir` inserts at the tail. -/
def release (head : Tailq Node) : Option (Tailq Node) :=
  head.tqhFirst.bind fun curr => (head.free curr).bind fun head => head.remove keeps curr

/-- The queue after a step; `curr` is the content of the first node. -/
def onHead (argv : Node) (curr : Option Node) (head : Tailq Node) : Label → Option (Tailq Node)
  | .startThread true => head.push argv
  | .readdir (.entry name dtype) =>
    if name = dot ∨ name = dotdot then some head
    else if dtype = .dir ∨ dtype = .reg ∨ dtype = .unknown then
      curr.bind fun node => head.push (Prog.child node name)
    else some head
  | .closedir true | .addUnlock true => release keeps head
  | .stat (some k) => if k = .dir ∨ k = .reg then some head else release keeps head
  | _ => some head

/-- One step: the program sees of the queue what is at its front. -/
def step (s : HeapSys) (l : Label) : Option HeapSys :=
  s.head.bind fun head =>
    match head.front keeps with
    | none => some { s with head := none }
    | some front =>
      ((s.sys.withQueue front).step l).map fun sys =>
        ⟨sys.withQueue [], onHead keeps s.sys.prog.argv front.head? head l⟩

end HeapSys

/-! ### The program sees the front of its queue -/

lemma map_ite_congr {α β : Type*} {c c' : Prop} [Decidable c] [Decidable c'] {x x' y y' : Option α}
    {f : α → β} (hc : c ↔ c') (hx : c → x.map f = x'.map f) (hy : ¬ c → y.map f = y'.map f) :
    (if c then x else y).map f = (if c' then x' else y').map f := by
  by_cases h : c
  · rw [if_pos h, if_pos (hc.mp h), hx h]
  · rw [if_neg h, if_neg (fun h' => h (hc.mpr h')), hy h]

/-- The program with another list of nodes. -/
def Prog.withQueue (p : Prog) (queue : List Node) : Prog := { p with queue := queue }

namespace Prog

/-- A step of the main thread depends on the first node only. -/
lemma mainStep_withQueue_cons (p : Prog) (l : Label) (curr : Node) (xs ys : List Node) :
    ((p.withQueue (curr :: xs)).mainStep l).map (fun p' => p'.withQueue []) =
      ((p.withQueue (curr :: ys)).mainStep l).map fun p' => p'.withQueue [] := by
  cases l with
  | initManager ok | startThread ok | mkdir ok | opendir ok | closedir ok | addUnlock ok
  | waitUnlock ok | destroy ok | join ok =>
    exact map_ite_congr Iff.rfl (fun _ => by cases ok <;> rfl) fun _ => rfl
  | addLock ok | waitLock ok =>
    refine map_ite_congr Iff.rfl (fun _ => ?_) fun _ => rfl
    refine map_ite_congr Iff.rfl (fun _ => ?_) fun _ => rfl
    rw [Option.map_map, Option.map_map]
    rfl
  | stat answer =>
    refine map_ite_congr (by simp [withQueue]) (fun _ => ?_) fun _ => rfl
    rcases answer with _ | _ | _ | _ <;> rfl
  | walkEnd =>
    exact map_ite_congr (by simp [withQueue]) (fun h => absurd h.2 (List.cons_ne_nil _ _))
      fun _ => rfl
  | readdir answer =>
    refine map_ite_congr Iff.rfl (fun _ => ?_) fun _ => rfl
    cases answer with
    | entry name dtype =>
      simp only [readdirStep]
      split_ifs <;> rfl
    | _ => rfl
  | bumpReqCount | copyReg | waitSet => exact map_ite_congr Iff.rfl (fun _ => rfl) fun _ => rfl
  | addLink =>
    simp only [mainStep, withQueue]
    split
    · exact map_ite_congr Iff.rfl (fun _ => rfl) fun _ => rfl
    · rfl
  | aio act => rfl

/-- A step depends on the first node only. -/
lemma step_withQueue_cons (p : Prog) (l : Label) (curr : Node) (xs ys : List Node) :
    ((p.withQueue (curr :: xs)).step l).map (fun p' => p'.withQueue []) =
      ((p.withQueue (curr :: ys)).step l).map fun p' => p'.withQueue [] := by
  refine map_ite_congr Iff.rfl (fun _ => rfl) fun _ => ?_
  cases l with
  | aio act =>
    rw [Option.map_map, Option.map_map]
    rfl
  | _ => exact mainStep_withQueue_cons p _ curr xs ys

end Prog

namespace Sys

variable {s : Sys} {l : Label}

lemma after_withQueue_cons (w : World) (p : Prog) (l : Label) (curr : Node) (xs ys : List Node) :
    w.after (p.withQueue (curr :: xs)) l = w.after (p.withQueue (curr :: ys)) l := by
  unfold World.after
  rfl

/-- The list of nodes is not part of the environment. -/
lemma map_withQueue_bind (o : Option Prog) (ow : Option World) :
    (o.bind fun p => ow.map fun w => (⟨p, w⟩ : Sys)).map (fun s => s.withQueue []) =
      (o.map fun p => p.withQueue []).bind fun p => ow.map fun w => ⟨p, w⟩ := by
  cases o <;> cases ow <;> rfl

/-- A step depends on the first node only. -/
lemma step_withQueue {queue : List Node} (h : queue.head? = s.prog.queue.head?) :
    ((s.withQueue queue).step l).map (fun s' => s'.withQueue []) =
      (s.step l).map fun s' => s'.withQueue [] := by
  obtain ⟨⟨aio, pc, nodes, argv⟩, w⟩ := s
  cases queue with
  | nil =>
    cases nodes with
    | nil => rfl
    | cons => simp at h
  | cons curr xs =>
    cases nodes with
    | nil => simp at h
    | cons curr' ys =>
      obtain rfl : curr = curr' := Option.some.inj h
      have hprog := Prog.step_withQueue_cons ⟨aio, pc, [], argv⟩ l curr xs ys
      have hworld := after_withQueue_cons w ⟨aio, pc, [], argv⟩ l curr xs ys
      rw [step, step, map_withQueue_bind, map_withQueue_bind]
      exact congrArg₂ (fun o ow => o.bind fun p => ow.map fun w => (⟨p, w⟩ : Sys)) hprog hworld

end Sys

/-! ### The queue after a step -/

namespace HeapSys

variable {keeps : Bool} {s s' : HeapSys} {t t' : Sys} {l : Label} {ls : List Label}
  {head : Tailq Node} {argv : Node} {queue : List Node} {fs : Fs} {cwd : Loc}
  {srcName dstName : CStr} {batchSize : ℤ}

/-- The queue in terms of what a step inserts and whether it ends an iteration. -/
lemma onHead_eq {curr : Option Node} (hread : ∀ answer, l = .readdir answer → curr.isSome) :
    onHead keeps argv curr head l =
      if l.endsIteration then release keeps head
      else (l.enqueues argv Prog.child curr).foldlM (fun head node => head.push node) head := by
  cases l with
  | startThread ok | closedir ok | addUnlock ok =>
    cases ok <;> simp [onHead, Label.endsIteration, Label.enqueues]
  | stat answer =>
    cases answer with
    | none => rfl
    | some k =>
      by_cases hdir : k = .dir <;> by_cases hreg : k = .reg <;>
        simp [onHead, Label.endsIteration, Label.enqueues, hdir, hreg]
  | readdir answer =>
    obtain ⟨node, rfl⟩ := Option.isSome_iff_exists.mp (hread answer rfl)
    cases answer with
    | entry name dtype =>
      simp only [onHead, Label.endsIteration, Label.enqueues]
      split_ifs <;> simp_all
    | _ => rfl
  | _ => rfl

/-- The queue changes as the list does, if at the end of an iteration the node can still be
read. -/
lemma represents_onHead (argv : Node) (h : head.Represents queue)
    (hread : ∀ answer, l = .readdir answer → queue ≠ [])
    (hends : l.endsIteration = true → keeps = true ∧ queue ≠ []) :
    ∃ head', onHead keeps argv queue.head? head l = some head' ∧
      head'.Represents (l.onQueue argv Prog.child queue) := by
  rw [onHead_eq fun answer hl => List.isSome_head?.mpr (hread answer hl), Label.onQueue]
  split_ifs with hl
  · obtain ⟨rfl, hne⟩ := hends hl
    obtain ⟨node, rest, rfl⟩ := List.exists_cons_of_ne_nil hne
    obtain ⟨curr, _, _, hcurr, -⟩ := h.first_cases
    rw [release, hcurr]
    exact h.free_remove hcurr
  · exact h.foldlM_push _

/-- If it cannot, the end of an iteration accesses a node that does not exist. -/
lemma onHead_eq_none (hends : l.endsIteration = true) (curr : Option Node) :
    onHead false argv curr head l = none := by
  rw [onHead_eq (fun answer hl => by simp [hl, Label.endsIteration] at hends), if_pos hends]
  exact Option.bind_eq_none_iff.mpr fun _ _ => Tailq.free_remove_eq_none

/-! ### The two walks -/

/-- A step of the walk over the heap is the step of the walk over the list. -/
lemma step_eq (h : head.Represents t.prog.queue) :
    step keeps ⟨t.withQueue [], some head⟩ l = (t.step l).map fun t' =>
      ⟨t'.withQueue [], onHead keeps t.prog.argv t.prog.queue.head? head l⟩ := by
  have hfront : (t.prog.queue.take 1).head? = t.prog.queue.head? := by
    cases t.prog.queue <;> rfl
  have hstep := congrArg (Option.map fun sys =>
    (⟨sys, onHead keeps t.prog.argv (t.prog.queue.take 1).head? head l⟩ : HeapSys))
    (Sys.step_withQueue (l := l) hfront)
  rw [Option.map_map, Option.map_map] at hstep
  rw [step, Option.bind_some, h.front, ← hfront]
  exact hstep

/-- The queue has the nodes of the list. -/
def Tracks (s : HeapSys) (t : Sys) : Prop :=
  ∃ head, s = ⟨t.withQueue [], some head⟩ ∧ head.Represents t.prog.queue

lemma queue_ne_nil_of_readdir {p p' : Prog} {answer : ReaddirAnswer}
    (h : p.step (.readdir answer) = some p') : p.queue ≠ [] := by
  intro hqueue
  simp [Prog.step, Prog.mainStep, hqueue] at h

/-- One step of both walks, if the node can still be read at the end of an iteration. -/
lemma Tracks.step (keeps : Bool) (h : Tracks s t) {f : Fifo Node} (hf : f.Describes t.prog)
    (hlocks : Locks t.prog) (hstep : t.step l = some t')
    (hends : l.endsIteration = true → keeps = true) :
    ∃ s', HeapSys.step keeps s l = some s' ∧ Tracks s' t' := by
  obtain ⟨head, rfl, hhead⟩ := h
  obtain ⟨-, hfires, -⟩ := Sys.fires_of_step hstep
  have hqueue := Prog.queue_of_fires hfires fun hpc => by
    rw [hf.queue, hf.start hpc]
    rfl
  obtain ⟨head', hhead', hrep⟩ := represents_onHead t.prog.argv hhead
    (by rintro answer rfl; exact queue_ne_nil_of_readdir (Sys.prog_step hstep))
    fun hl => ⟨hends hl, Prog.queue_ne_nil_of_ends hfires hlocks.inBody hl⟩
  refine ⟨_, by rw [step_eq hhead, hstep, Option.map_some], head', ?_, ?_⟩
  · rw [hhead']
  · rwa [hqueue]

/-- The state when `main` starts has the empty queue. -/
lemma tracks_init : Tracks (init fs cwd srcName dstName batchSize)
    (Sys.init fs cwd srcName dstName batchSize) := ⟨.empty, rfl, Tailq.represents_empty⟩

/-- As long as the nodes can be read, a run over the heap is one over the list. -/
lemma tracks_of_exec (h : exec (step keeps) (init fs cwd srcName dstName batchSize) ls = some s)
    (hends : keeps = true ∨ ∀ l ∈ ls, l.endsIteration = false) :
    ∃ t, exec Sys.step (Sys.init fs cwd srcName dstName batchSize) ls = some t ∧ Tracks s t := by
  refine exec_invariant (I := fun ls s => (keeps = true ∨ ∀ l ∈ ls, l.endsIteration = false) →
    ∃ t, exec Sys.step (Sys.init fs cwd srcName dstName batchSize) ls = some t ∧ Tracks s t)
    (fun {ls s l s'} _ ih hstep hends => ?_) h (fun _ => ⟨_, rfl, tracks_init⟩) hends
  obtain ⟨t, ht, htracks⟩ := ih (hends.imp_right fun h l hl => h l (List.mem_append_left _ hl))
  obtain ⟨head, rfl, hhead⟩ := id htracks
  rw [step_eq hhead] at hstep
  obtain ⟨t', ht', rfl⟩ := Option.map_eq_some_iff.mp hstep
  have hlocks := Locks.of_reaches (reaches_of_exec (fun _ _ => trivial) (Sys.prog_exec ht))
  obtain ⟨s', hs', htracks'⟩ := htracks.step keeps
    (Fifo.Describes.of_exec (Sys.prog_exec ht)) hlocks ht' fun hl => hends.resolve_right fun h => by
      simp [h l (List.mem_append_right _ List.mem_cons_self)] at hl
  rw [step_eq hhead, ht', Option.map_some] at hs'
  obtain rfl := Option.some.inj hs'
  exact ⟨t', exec_concat.mpr ⟨t, ht, ht'⟩, htracks'⟩

/-- After the end of an iteration the node is gone, and no further step is defined. -/
lemma head_eq_none_of_exec
    (h : exec (step false) (init fs cwd srcName dstName batchSize) ls = some s)
    (hends : ∃ l ∈ ls, l.endsIteration = true) : s.head = none := by
  refine exec_invariant (I := fun ls s => (∃ l ∈ ls, l.endsIteration = true) → s.head = none)
    (fun {ls s l s'} hs ih hstep hends => ?_) h (fun hends => by simp at hends) hends
  by_cases hbefore : ∃ l ∈ ls, l.endsIteration = true
  · rw [step, ih hbefore] at hstep
    cases hstep
  · have hnone : ∀ l ∈ ls, l.endsIteration = false := fun l hl =>
      Bool.eq_false_iff.mpr fun h => hbefore ⟨l, hl, h⟩
    obtain ⟨t, -, head, rfl, hhead⟩ := tracks_of_exec hs (Or.inr hnone)
    rw [step_eq hhead] at hstep
    obtain ⟨t', -, rfl⟩ := Option.map_eq_some_iff.mp hstep
    obtain ⟨l', hl', hends⟩ := hends
    rcases List.mem_append.mp hl' with hl' | hl'
    · exact absurd ⟨l', hl', hends⟩ hbefore
    · obtain rfl := List.mem_singleton.mp hl'
      exact onHead_eq_none hends _

lemma Tracks.represents (h : Tracks s t)
    (ht : exec Sys.step (Sys.init fs cwd srcName dstName batchSize) ls = some t) :
    ∃ head, s.head = some head ∧ head.Represents (Fifo.nodes ⟨srcName, dstName⟩ ls).pending := by
  obtain ⟨head, rfl, hhead⟩ := h
  exact ⟨head, rfl, (Fifo.Describes.of_exec (Sys.prog_exec ht)).queue ▸ hhead⟩

/-- **With an allocator that keeps the freed node readable the queue is a list** with insertion
at one end and removal at the other: every run over the heap is one over the list, and the
queue has the nodes that were inserted and not processed. -/
theorem refines_of_keeps
    (h : exec (step true) (init fs cwd srcName dstName batchSize) ls = some s) :
    (∃ t, exec Sys.step (Sys.init fs cwd srcName dstName batchSize) ls = some t ∧ Tracks s t) ∧
      ∃ head, s.head = some head ∧
        head.Represents (Fifo.nodes ⟨srcName, dstName⟩ ls).pending := by
  obtain ⟨t, ht, htracks⟩ := tracks_of_exec h (Or.inl rfl)
  exact ⟨⟨t, ht, htracks⟩, htracks.represents ht⟩

/-- Every run over the list is one over the heap, with such an allocator. -/
theorem exists_exec_of_keeps
    (h : exec Sys.step (Sys.init fs cwd srcName dstName batchSize) ls = some t) :
    ∃ s, exec (step true) (init fs cwd srcName dstName batchSize) ls = some s ∧ Tracks s t := by
  refine exec_invariant (I := fun ls t =>
    ∃ s, exec (step true) (init fs cwd srcName dstName batchSize) ls = some s ∧ Tracks s t)
    (fun {ls t l t'} ht ih hstep => ?_) h ⟨_, rfl, tracks_init⟩
  obtain ⟨s, hs, htracks⟩ := ih
  have hprog := Sys.prog_exec ht
  have hlocks := Locks.of_reaches (reaches_of_exec (fun _ _ => trivial) hprog)
  obtain ⟨s', hs', htracks'⟩ :=
    htracks.step true (.of_exec hprog) hlocks hstep fun _ => rfl
  exact ⟨s', exec_concat.mpr ⟨s, hs, hs'⟩, htracks'⟩

/-- **The queue is right until the first iteration ends, and never after that**: then the node
that `TAILQ_REMOVE` removes does not exist any more. -/
theorem represents_iff_of_exec
    (h : exec (step false) (init fs cwd srcName dstName batchSize) ls = some s) :
    (∃ head, s.head = some head ∧
        head.Represents (Fifo.nodes ⟨srcName, dstName⟩ ls).pending) ↔
      ∀ l ∈ ls, l.endsIteration = false := by
  constructor
  · rintro ⟨head, hhead, -⟩ l hl
    by_contra hends
    rw [head_eq_none_of_exec h ⟨l, hl, Bool.eq_true_of_not_eq_false hends⟩] at hhead
    cases hhead
  · intro hends
    obtain ⟨t, ht, htracks⟩ := tracks_of_exec h (Or.inr hends)
    exact htracks.represents ht

/-- The first iteration of the walk over `oneFile`, before its end: the queue has the directory
and the file. -/
theorem represents_iff_of_exec_oneFile : ∃ s : HeapSys,
    exec (step false) (init oneFile [] ['s'] ['d'] 1) (oneFileWalk.take 8) = some s ∧
      ((∃ head, s.head = some head ∧
        head.Represents (Fifo.nodes ⟨['s'], ['d']⟩ (oneFileWalk.take 8)).pending) ↔
          ∀ l ∈ oneFileWalk.take 8, l.endsIteration = false) := by
  have hrun : (exec (step false) (init oneFile [] ['s'] ['d'] 1) (oneFileWalk.take 8)).isSome := by
    decide +kernel
  obtain ⟨s, hs⟩ := Option.isSome_iff_exists.mp hrun
  exact ⟨s, hs, represents_iff_of_exec hs⟩

/-- At the end of the first iteration `TAILQ_REMOVE` reads the freed node. -/
theorem not_represents_oneFile : ¬ ∀ (fs : Fs) (cwd : Loc) (srcName dstName : CStr) (batchSize : ℤ)
    (ls : List Label) (s : HeapSys),
    exec (step false) (init fs cwd srcName dstName batchSize) ls = some s →
      ∃ head, s.head = some head ∧
        head.Represents (Fifo.nodes ⟨srcName, dstName⟩ ls).pending := by
  intro hall
  have hrun : (exec (step false) (init oneFile [] ['s'] ['d'] 1) (oneFileWalk.take 9)).map
      (fun s => s.head.isSome) = some false := by
    decide +kernel
  obtain ⟨s, hs, hhead⟩ := Option.map_eq_some_iff.mp hrun
  obtain ⟨head, hsome, -⟩ := hall oneFile [] ['s'] ['d'] 1 _ s hs
  rw [hsome] at hhead
  cases hhead

end HeapSys

end Cpr
