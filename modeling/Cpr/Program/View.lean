/-
# What the main thread does is a function of its answers

The queue of `copy_internal`, the place where the main thread is and the requests that it has
made are determined by the answers that its own calls get: no step of `aio_loop` and no
completion changes them.
-/
import Cpr.Program.Refine
import Cpr.Program.Requests

namespace Cpr

open Unix

/-- A step of the main thread. -/
def Label.ofMain : Label → Bool
  | .aio _ => false
  | _ => true

/-- The names of a request. -/
def AioState.node (a : AioState) (r : ReqId) : Option Node :=
  (a.reqs.last? r).map fun q => ⟨q.srcName, q.dstName⟩

/-- What the main thread has in hand. -/
@[ext] structure View where
  pc : MainPc
  queue : List Node
  argv : Node
  /-- The names of the accepted requests, the last one first. -/
  requests : List (Option Node)
  /-- The names of the request that is not accepted yet. -/
  current : Option Node
  /-- How the process ended, if it ended before `copy_internal` returned 0. -/
  ended : Option Exit

namespace View

variable (v : View)

/-- `main` returns -1. -/
def fail : View := if v.pc.afterWalk then v else { v with ended := some (.exited (-1)) }

/-- The end of an iteration of `copy_internal`. -/
def next : View := { v with pc := .walk, queue := v.queue.tail }

/-- The body of the loop of `copy_dir` over an entry. -/
def entry (name : Name) (dtype : DType) : View :=
  if name = dot ∨ name = dotdot then v
  else if dtype = .dir ∨ dtype = .reg ∨ dtype = .unknown then
    { v with queue := v.queue ++ (v.queue.head?.map fun curr => Prog.child curr name).toList }
  else { v with ended := some (.exited 1) }

/-- What a step of the main thread makes of it. -/
def after : Label → View
  | .initManager true => { v with pc := .startThread }
  | .startThread true => { v with pc := .walk, queue := [v.argv] }
  | .stat (some .dir) => { v with pc := .mkdir }
  | .stat (some .reg) => { v with pc := .bumpReqCount }
  | .stat (some _) | .closedir true | .addUnlock true => v.next
  | .walkEnd => { v with pc := .waitLock }
  | .mkdir true => { v with pc := .opendir }
  | .opendir true => { v with pc := .readdir }
  | .readdir (.entry name dtype) => v.entry name dtype
  | .readdir .finished => { v with pc := .closedir }
  | .bumpReqCount => { v with pc := .copyReg }
  | .copyReg => { v with pc := .addLock, current := v.queue.head? }
  | .addLock true => { v with pc := .addLink }
  | .addLink => { v with pc := .addUnlock, requests := v.current :: v.requests, current := none }
  | .waitLock true => { v with pc := .waitSet }
  | .waitSet => { v with pc := .waitUnlock }
  | .waitUnlock true => { v with pc := .join }
  | .join true => { v with pc := .destroy }
  | .destroy true | .aio _ => v
  | _ => v.fail

end View

namespace Prog

variable {p p' : Prog} {l : Label}

/-- What the main thread has in hand. -/
def view (p : Prog) : View where
  pc := p.pc
  queue := p.queue
  argv := p.argv
  requests := p.aio.log.accepted.map p.aio.node
  current := p.aio.mainReq.bind p.aio.node
  ended := if p.pc.afterWalk then none else p.aio.ended

lemma view_of_fails (hfails : l.Fails) (hl : ∀ act, l ≠ .aio act) (v : View) :
    v.after l = v.fail := by
  cases l with
  | aio act => exact absurd rfl (hl act)
  | stat answer =>
    obtain rfl : answer = none := hfails
    rfl
  | readdir answer =>
    obtain rfl : answer = .failed := hfails
    rfl
  | bumpReqCount | copyReg | addLink | waitSet | walkEnd => cases hfails
  | _ ok =>
    obtain rfl : ok = false := hfails
    rfl

lemma view_fail (p : Prog) : p.fail.view = p.view.fail := by
  by_cases hafter : p.pc.afterWalk = true
  · rw [View.fail, if_pos (show p.view.pc.afterWalk = true from hafter)]
    ext1 <;> first | rfl | simp [view, Prog.fail, hafter]
  · rw [View.fail, if_neg (show ¬ p.view.pc.afterWalk = true from hafter)]
    ext1 <;> first | rfl | simp [view, Prog.fail, AioState.exit, hafter]

/-- Only `copy_reg` makes requests. -/
lemma node_of_fires (hgood : Good p.aio) (hended : p.aio.ended = none) (hfires : Fires p l p')
    (hl : l ≠ .copyReg) : p'.aio.node = p.aio.node := by
  funext r
  rw [AioState.node, AioState.node]
  cases hq : p.aio.reqs.last? r with
  | some q =>
    obtain ⟨q', hq', names⟩ := persist_of_fires hgood hended hfires r q hq
    rw [hq', Option.map_some, Option.map_some, names.srcName, names.dstName]
  | none =>
    cases hq' : p'.aio.reqs.last? r with
    | none => rfl
    | some q' =>
      cases descends_of_fires hgood hended hfires hq' with
      | fresh _ _ hcopy => exact absurd hcopy hl
      | old q hold => simp [hq] at hold
      | opened q _ hold => simp [Heap.last?_of_get? hold] at hq

/-- The accepted requests keep their names. -/
lemma requests_of_copyReg (hgood : Good p.aio) (srcName dstName : CStr) :
    p.aio.log.accepted.map (p.aio.newRequest srcName dstName).node =
      p.aio.log.accepted.map p.aio.node := by
  refine List.map_congr_left fun r hr => ?_
  obtain ⟨xs, ys, b, h, -⟩ := hgood
  have hlt := h.acceptedLt r hr
  rw [AioState.node, AioState.node, AioState.newRequest, Heap.last?_alloc_of_ne hlt.ne]

/-- **A step changes what the main thread has in hand as its label says**, unless it is a step
of `aio_loop` that ends the process. -/
theorem view_of_fires (hgood : Good p.aio) (hended : p.aio.ended = none) (hfires : Fires p l p')
    (haio : ∀ act, l = .aio act → p.pc.afterWalk = false → p'.aio.ended = none) :
    p'.view = p.view.after l := by
  by_cases hcopy : l = .copyReg
  · subst hcopy
    cases hfires with
    | fail _ _ hfails => cases hfails
    | copyReg curr rest hpc hqueue =>
      have hreq := requests_of_copyReg hgood curr.srcName curr.dstName
      have hnode : (p.aio.newRequest curr.srcName curr.dstName).node p.aio.reqs.next = curr := by
        rw [AioState.node, AioState.newRequest, Heap.last?_of_get? Heap.get?_alloc_self]
        rfl
      ext1 <;> simp only [view, View.after]
      · exact hreq
      · simpa [AioState.newRequest, hqueue] using hnode
      · simp [MainPc.afterWalk, AioState.newRequest, hended, hpc]
  have hnode := node_of_fires hgood hended hfires hcopy
  cases hfires with
  | aio act a ha =>
    have hframe := aioFrame_of_aioStep hended ha
    dsimp only at hnode haio
    ext1 <;> simp only [view, View.after, hframe.accepted, hframe.mainReq, hnode]
    split_ifs with hafter
    · rfl
    · rw [hended, haio act rfl (by simpa using hafter)]
  | fail _ hl hfails =>
    rw [view_of_fails hfails hl, view_fail]
  | copyReg => exact absurd rfl hcopy
  | addLink r hpc hr =>
    obtain ⟨q, -, hlink⟩ := hgood.addCopyReq_eq hr
    dsimp only at hnode
    ext1 <;> simp only [view, View.after, hnode]
    · simp [hlink, AioState.linkIn, Log.accepted, hr]
    · simp [hlink, AioState.linkIn]
    · simp [hlink, AioState.linkIn, MainPc.afterWalk, hended, hpc]
  | statOther curr rest k hpc hqueue hdir hreg =>
    have hafter : p.view.after (.stat (some k)) = p.view.next := by
      cases k with
      | dir | reg => contradiction
      | _ => rfl
    rw [hafter]
    ext1 <;> simp [view, View.next, MainPc.afterWalk, hended, hpc, hqueue]
  | readdirSkip name dtype hpc hname =>
    rw [View.after, View.entry, if_pos hname]
  | readdirEnqueue curr rest name dtype hpc hqueue hname htype =>
    rw [View.after, View.entry, if_neg hname, if_pos htype]
    ext1 <;> simp [view, hqueue]
  | readdirExit name dtype hpc hname htype =>
    rw [View.after, View.entry, if_neg hname, if_neg htype]
    ext1 <;> first | rfl | simp [view, AioState.exit, MainPc.afterWalk, hpc]
  | destroy hpc => ext1 <;> first | rfl | simp [view, View.after, MainPc.afterWalk, hpc]
  | _ => ext1 <;> first | rfl | simp [view, View.after, View.next, Prog.next,
      MainPc.afterWalk, AioState.bumpReqCount, AioState.setFlush, AioState.unlockFlush,
      AioState.unlockRequest, *]

end Prog

end Cpr
