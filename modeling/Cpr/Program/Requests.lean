/-
# The requests of the program

A request is made by `copy_reg` with the names of the node at the head of the queue, and
keeps them.  It gets to state 2 when `aio_loop` has opened its destination.
-/
import Cpr.Manager.Buffers
import Cpr.Program.Refine

namespace Cpr

open Transition Unix

/-- The two contents are those of a request for the same files. -/
structure SameNames (q q' : CopyRequest) : Prop where
  srcName : q'.srcName = q.srcName
  dstName : q'.dstName = q.dstName

lemma SameNames.refl (q : CopyRequest) : SameNames q q := ⟨rfl, rfl⟩

/-- The transfer that the contents ask for is the same. -/
structure SameTransfer (q q' : CopyRequest) : Prop where
  fsize : q'.fsize = q.fsize
  buffer : q'.buffer = q.buffer

/-- A control block for the request is prepared and not submitted. -/
def AioState.Prepared (a : AioState) (o : Opcode) (r : ReqId) : Prop :=
  ∃ c ∈ a.pc.taken, c.opcode = o ∧ c.data = r

/-- Where the content of a request comes from: the request is new, or it had the same names
before.  Its size and its buffer are set when its source is opened, and it gets to state 2
when its destination is opened. -/
inductive Descends (a a' : AioState) (act : Act) (r : ReqId) (q' : CopyRequest) : Prop
  | fresh (hact : act = .newRequest q'.srcName q'.dstName) (hr : r = a.reqs.next)
      (hst : q'.state = 0)
  | old (q : CopyRequest) (hq : a.reqs.last? r = some q) (names : SameNames q q')
      (transfer : SameTransfer q q') (hst : q'.state = q.state)
  | read (q : CopyRequest) (o : AioState.ReadAnswer) (stSize : ℕ) (hq : a.reqs.get? r = some q)
      (names : SameNames q q') (hact : act = .readOne o) (hfd : 0 ≤ o.fd)
      (hhead : a.mgr.readHead = some r) (hstSize : o.stSize = some stSize)
      (hfsize : q'.fsize = toInt32 stSize) (hbuffer : q'.buffer = o.buf) (hst : q'.state = 1)
      (hprep : a'.Prepared .pread r)
  | opened (q : CopyRequest) (fd : ℤ) (hq : a.reqs.get? r = some q) (names : SameNames q q')
      (transfer : SameTransfer q q') (hact : act = .writeOne fd) (hfd : 0 ≤ fd)
      (hhead : a.mgr.writeHead = some r) (hst : q.state = 1) (hst' : q'.state = 2)
      (hprep : a'.Prepared .pwrite r)

namespace Descends

variable {a a' : AioState} {act : Act} {r s : ReqId} {q q' p p' : CopyRequest}

lemma same (hp : a.reqs.last? s = some p) : Descends a a' act s p :=
  .old p hp (.refl p) ⟨rfl, rfl⟩ rfl

/-- After a change of the request `r`. -/
lemma of_set (hq : a.reqs.get? r = some q) (hp : (a.reqs.set r q').last? s = some p)
    (hself : Descends a a' act r q') : Descends a a' act s p := by
  rw [AioState.last?_set hq] at hp
  split_ifs at hp with hs
  · obtain rfl := Option.some.inj hp
    exact hs ▸ hself
  · exact same hp

end Descends

/-- **The names of a request never change**, and its size and buffer are set once. -/
theorem Good.descends {a a' : AioState} {act : Act} {r : ReqId} {q' : CopyRequest}
    (hgood : Good a) (hstep : a.step act = some a') (hq' : a'.reqs.last? r = some q') :
    Descends a a' act r q' := by
  cases hgood.moves hstep with
  | same e => exact .same (by rwa [← e.reqs])
  | reap | complete => exact .same hq'
  | submit _ _ _ _ _ _ _ _ _ _ reqs => exact .same (by rwa [← reqs])
  | finishRead e rest q _ hq =>
    exact .of_set hq hq' (.old q (Heap.last?_of_get? hq) ⟨rfl, rfl⟩ ⟨rfl, rfl⟩ rfl)
  | finishWrite e rest q => exact .same (by rwa [AioState.finishWrite, Heap.last?_free] at hq')
  | startRead o size cs s curr stSize _ hhead hcurr _ _ hfd hstSize =>
    refine .of_set hcurr hq' (.read curr o stSize hcurr ⟨rfl, rfl⟩ rfl hfd hhead hstSize rfl rfl
      rfl ?_)
    exact ⟨_, List.mem_append_right _ (List.mem_singleton_self _), rfl, rfl⟩
  | startWrite fd size cs s curr _ hhead hcurr hst hfd =>
    refine .of_set hcurr hq' (.opened curr fd hcurr ⟨rfl, rfl⟩ ⟨rfl, rfl⟩ rfl hfd hhead hst rfl ?_)
    exact ⟨_, List.mem_append_right _ (List.mem_singleton_self _), rfl, rfl⟩
  | newRequest srcName dstName =>
    rcases AioState.last?_newRequest hq' with ⟨hr, rfl⟩ | hq
    · exact .fresh rfl hr rfl
    · exact .same hq
  | linkIn s q _ hq =>
    exact .of_set hq hq' (.old q (Heap.last?_of_get? hq) ⟨rfl, rfl⟩ ⟨rfl, rfl⟩ rfl)

/-- The requests of the first heap are there in the second one. -/
def Persist (h h' : Heap CopyRequest) : Prop :=
  ∀ r q, h.last? r = some q → ∃ q', h'.last? r = some q' ∧ SameNames q q'

namespace Persist

variable {h : Heap CopyRequest} {r : ReqId} {q q' : CopyRequest}

lemma refl (h : Heap CopyRequest) : Persist h h := fun _ q hq => ⟨q, hq, .refl q⟩

lemma set (hq : h.get? r = some q) (names : SameNames q q') : Persist h (h.set r q') := by
  intro s p hp
  by_cases hs : s = r
  · subst hs
    obtain rfl := Option.some.inj ((Heap.last?_of_get? hq).symm.trans hp)
    exact ⟨q', Heap.last?_of_get? (Heap.get?_set_self hq), names⟩
  · exact ⟨p, by rw [Heap.last?_set_of_ne hs, hp], .refl p⟩

lemma free : Persist h (h.free r) := fun s p hp => ⟨p, by rw [Heap.last?_free, hp], .refl p⟩

lemma alloc : Persist h (h.alloc q) := by
  intro s p hp
  have hs : s ≠ h.next := by
    rintro rfl
    simp [Heap.last?_eq_none_of_le] at hp
  exact ⟨p, by rw [Heap.last?_alloc_of_ne hs, hp], .refl p⟩

end Persist

/-- No request is ever lost. -/
lemma Good.persist {a a' : AioState} {act : Act} (hgood : Good a)
    (hstep : a.step act = some a') : Persist a.reqs a'.reqs := by
  cases hgood.moves hstep with
  | same e => rw [e.reqs]; exact .refl _
  | reap | complete => exact .refl _
  | submit _ _ _ _ _ _ _ _ _ _ reqs => rw [reqs]; exact .refl _
  | finishRead e rest q _ hq => exact .set hq ⟨rfl, rfl⟩
  | finishWrite => exact .free
  | startRead o size cs s curr stSize _ _ hcurr => exact .set hcurr ⟨rfl, rfl⟩
  | startWrite fd size cs s curr _ _ hcurr => exact .set hcurr ⟨rfl, rfl⟩
  | newRequest => exact .alloc
  | linkIn s q _ hq => exact .set hq ⟨rfl, rfl⟩

namespace Prog

variable {p p' : Prog} {l : Label} {r : ReqId} {q' : CopyRequest}

/-- The same for the program: a new request is one that `copy_reg` makes. -/
inductive Descends (p : Prog) (l : Label) (r : ReqId) (q' : CopyRequest) : Prop
  | fresh (curr : Node) (rest : List Node) (hl : l = .copyReg) (hpc : p.pc = .copyReg)
      (hqueue : p.queue = curr :: rest) (hr : r = p.aio.reqs.next)
      (hsrc : q'.srcName = curr.srcName) (hdst : q'.dstName = curr.dstName) (hst : q'.state = 0)
  | old (q : CopyRequest) (hq : p.aio.reqs.last? r = some q) (names : SameNames q q')
      (hst : q'.state = 2 → q.state = 2)
  | opened (q : CopyRequest) (fd : ℤ) (hq : p.aio.reqs.get? r = some q) (names : SameNames q q')
      (hl : l = .aio (.writeOne fd)) (hfd : 0 ≤ fd) (hhead : p.aio.mgr.writeHead = some r)

theorem descends_of_fires (hgood : Good p.aio) (hended : p.aio.ended = none)
    (hfires : Fires p l p') (hq' : p'.aio.reqs.last? r = some q') : Descends p l r q' := by
  cases hfires with
  | aio act a ha =>
    obtain ⟨hact, hclient⟩ := step_of_aioStep hended ha
    cases hgood.descends hact hq' with
    | fresh hact => simp [hact, Act.ofClient] at hclient
    | old q hq names _ hst => exact .old q hq names fun h => hst ▸ h
    | read q o _ hq names _ _ _ _ _ _ hst =>
      exact .old q (Heap.last?_of_get? hq) names fun h => by omega
    | opened q fd hq names _ hact hfd hhead => exact .opened q fd hq names (by rw [hact]) hfd hhead
  | copyReg curr rest hpc hqueue =>
    rcases AioState.last?_newRequest hq' with ⟨hr, rfl⟩ | hq
    · exact .fresh curr rest rfl hpc hqueue hr rfl rfl rfl
    · exact .old q' hq (.refl q') id
  | addLink s hpc hs =>
    obtain ⟨q, hq, hlink⟩ := hgood.addCopyReq_eq hs
    rw [hlink, AioState.linkIn, AioState.last?_set hq] at hq'
    split_ifs at hq' with hrs
    · obtain rfl := Option.some.inj hq'
      exact .old q (hrs ▸ Heap.last?_of_get? hq) ⟨rfl, rfl⟩ id
    · exact .old q' hq' (.refl q') id
  | _ => exact .old q' hq' (.refl q') id

lemma persist_of_fires (hgood : Good p.aio) (hended : p.aio.ended = none)
    (hfires : Fires p l p') : Persist p.aio.reqs p'.aio.reqs := by
  cases hfires with
  | aio act a ha => exact hgood.persist (step_of_aioStep hended ha).1
  | copyReg => exact .alloc
  | addLink s hpc hs =>
    obtain ⟨q, hq, hlink⟩ := hgood.addCopyReq_eq hs
    rw [hlink]
    exact .set hq ⟨rfl, rfl⟩
  | _ => exact .refl _

end Prog

end Cpr
