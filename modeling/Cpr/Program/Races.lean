/-
# Data races

What the two threads read and write of the memory that they share, step by step.  In no state
of a run can one thread take a step that writes what a step that the other can take reads or
writes: the lists of requests are guarded by `request_mutex` and `flush` by `flush_mutex`,
`req_count` is tested only after `flush` was set, and a request belongs to the main thread
until it is linked in.
-/
import Cpr.Program.Exchange

namespace Cpr

open Transition Unix

/-- A variable that both threads can get at. -/
inductive Var
  | readHead
  | writeHead
  | requestCount
  | readLen
  | writeLen
  | finishedCount
  | flush
  /-- `read_batch_size` and `write_batch_size`. -/
  | batchSizes
  /-- `req_count` of `cpr.c`. -/
  | reqCount
  /-- A `copy_request_t`. -/
  | request (r : ReqId)
deriving DecidableEq, Repr

/-- An access to a shared variable; a write may read it, too. -/
inductive Access
  | read (v : Var)
  | write (v : Var)
deriving DecidableEq, Repr

namespace Access

def var : Access → Var
  | .read v => v
  | .write v => v

def isWrite : Access → Bool
  | .read _ => false
  | .write _ => true

/-- Two accesses to one variable, at least one of which writes it. -/
def Conflicts (x y : Access) : Prop := x.var = y.var ∧ (x.isWrite = true ∨ y.isWrite = true)

end Access

/-! ## What a step touches -/

namespace AioState

variable (a : AioState)

/-- The requests at the head of a list. -/
def atHead (head : Option ReqId) : List Access := head.toList.map fun r => .write (.request r)

/-- What a step of `aio_loop` touches.  `req_count` is read only if `flush` is set. -/
def accesses : Act → List Access
  | .handleEvent =>
    match a.pc with
    | .handle (e :: _) =>
      [.write (.request e.data), .write .writeHead, .write .writeLen, .write .finishedCount]
    | _ => []
  | .checkDone =>
    .read .flush :: if a.mgr.flush then [.read .reqCount, .read .finishedCount] else []
  | .readSize => [.read .flush, .read .readLen, .read .batchSizes]
  | .readOne _ => [.write .readHead, .write .readLen] ++ atHead a.mgr.readHead
  | .writeSize => [.read .flush, .read .writeLen, .read .batchSizes]
  | .writeOne _ => [.write .writeHead, .write .writeLen] ++ atHead a.mgr.writeHead
  | _ => []

/-- A variable has the same value in two states. -/
def SameAt (b : AioState) : Var → Prop
  | .readHead => b.mgr.readHead = a.mgr.readHead
  | .writeHead => b.mgr.writeHead = a.mgr.writeHead
  | .requestCount => b.mgr.requestCount = a.mgr.requestCount
  | .readLen => b.mgr.readLen = a.mgr.readLen
  | .writeLen => b.mgr.writeLen = a.mgr.writeLen
  | .finishedCount => b.mgr.finishedCount = a.mgr.finishedCount
  | .flush => b.mgr.flush = a.mgr.flush
  | .batchSizes => b.mgr.readBatchSize = a.mgr.readBatchSize ∧
      b.mgr.writeBatchSize = a.mgr.writeBatchSize
  | .reqCount => b.reqCount = a.reqCount
  | .request r => b.reqs.get? r = a.reqs.get? r

/-- The state with the value that a variable has in another one. -/
def put (s : AioState) : Var → AioState
  | .readHead => { a with mgr := { a.mgr with readHead := s.mgr.readHead } }
  | .writeHead => { a with mgr := { a.mgr with writeHead := s.mgr.writeHead } }
  | .requestCount => { a with mgr := { a.mgr with requestCount := s.mgr.requestCount } }
  | .readLen => { a with mgr := { a.mgr with readLen := s.mgr.readLen } }
  | .writeLen => { a with mgr := { a.mgr with writeLen := s.mgr.writeLen } }
  | .finishedCount => { a with mgr := { a.mgr with finishedCount := s.mgr.finishedCount } }
  | .flush => { a with mgr := { a.mgr with flush := s.mgr.flush } }
  | .batchSizes => { a with mgr := { a.mgr with
      readBatchSize := s.mgr.readBatchSize, writeBatchSize := s.mgr.writeBatchSize } }
  | .reqCount => { a with reqCount := s.reqCount }
  | .request r => { a with reqs := ((s.reqs.get? r).map (a.reqs.set r)).getD a.reqs }

end AioState

/-- What a step of the program touches. -/
def Prog.accesses (p : Prog) : Label → List Access
  | .initManager _ =>
    [.write .readHead, .write .writeHead, .write .requestCount, .write .readLen, .write .writeLen,
      .write .finishedCount, .write .flush, .write .batchSizes]
  | .bumpReqCount => [.write .reqCount]
  | .copyReg => [.write (.request p.aio.reqs.next)]
  | .addLink =>
    [.write .requestCount, .write .readLen, .write .readHead] ++ AioState.atHead p.aio.mainReq
  | .waitSet => [.write .flush]
  | .aio act => p.aio.accesses act
  | _ => []

/-- The state with the value that a variable has in another one. -/
def Prog.put (p : Prog) (s : AioState) (v : Var) : Prog := { p with aio := p.aio.put s v }

/-- The steps that the two threads can take do not race. -/
structure Prog.RaceFree (p : Prog) : Prop where
  /-- What one of them writes, the other does not touch. -/
  accesses : ∀ l act, (∀ act, l ≠ .aio act) → (p.step l).isSome → (p.step (.aio act)).isSome →
    ∀ x ∈ p.accesses l, ∀ y ∈ p.accesses (.aio act), ¬ x.Conflicts y
  /-- A variable that the main thread changes might as well have any other value for
  `aio_loop`. -/
  main : ∀ l act p₁ p₂, (∀ act, l ≠ .aio act) → p.step l = some p₁ →
    p.step (.aio act) = some p₂ → ∀ v, ¬ p.aio.SameAt p₁.aio v →
      ∀ s, (p.put s v).step (.aio act) = some (p₂.put s v)
  /-- The same the other way round. -/
  aio : ∀ l act p₁ p₂, (∀ act, l ≠ .aio act) → p.step l = some p₁ →
    p.step (.aio act) = some p₂ → ∀ v, ¬ p.aio.SameAt p₂.aio v →
      ∀ s, (p.put s v).step l = some (p₁.put s v)

/-! ## Nothing else is touched -/

namespace AioState

variable {a b s : AioState} {act : Act} {v : Var}

lemma mem_atHead {x : Access} {head : Option ReqId} : x ∈ atHead head ↔ ∃ r, head = some r ∧
    x = .write (.request r) := by
  cases head <;> simp [atHead]

lemma SameAt.refl (a : AioState) (v : Var) : a.SameAt a v := by
  cases v <;> first | rfl | exact ⟨rfl, rfl⟩

/-- A step of `aio_loop` or of the kernel changes nothing that it does not write. -/
lemma Fires.sameAt (h : Fires a act b) (hact : act.ofClient = false)
    (hv : .write v ∉ a.accesses act) : a.SameAt b v := by
  cases h with
  | startThread | bumpReqCount | newRequest | clientLockRequest | addCopyReq
  | clientUnlockRequest | clientLockFlush | setFlush | clientUnlockFlush | exit =>
    simp [Act.ofClient] at hact
  | lockFlush | getEvents | checkDone | unlockBreak | lockRequest | readSize | unlockRequest
  | writeSize | unlockFlush | complete => exact SameAt.refl a v
  | readSubmit ret size cs | writeSubmit ret size cs =>
    rw [submit]
    split_ifs <;> exact SameAt.refl a v
  | handleEvent e rest hpc =>
    simp only [accesses, hpc, List.mem_cons, List.not_mem_nil, or_false, not_or,
      Access.write.injEq] at hv
    obtain ⟨hreq, hhead, hlen, hfinished⟩ := hv
    rw [AioState.handleEvent]
    cases a.reqs.get? e.data with
    | none => exact SameAt.refl a v
    | some req =>
      dsimp only
      split_ifs
      · exact SameAt.refl a v
      · cases v with
        | request r => exact Heap.get?_set_of_ne fun heq => hreq (by rw [heq])
        | writeHead => exact absurd rfl hhead
        | writeLen => exact absurd rfl hlen
        | batchSizes => exact ⟨rfl, rfl⟩
        | _ => rfl
      · cases v with
        | request r => exact Heap.get?_free_of_ne fun heq => hreq (by rw [heq])
        | finishedCount => exact absurd rfl hfinished
        | batchSizes => exact ⟨rfl, rfl⟩
        | _ => rfl
      · exact SameAt.refl a v
  | readOne o size cs =>
    simp only [accesses, List.mem_append, List.mem_cons, List.not_mem_nil, or_false, mem_atHead,
      not_or, not_exists, not_and, Access.write.injEq] at hv
    obtain ⟨⟨hhead, hlen⟩, hreq⟩ := hv
    rw [AioState.readOne]
    cases hr : a.mgr.readHead with
    | none => exact SameAt.refl a v
    | some r =>
      dsimp only
      cases a.reqs.get? r with
      | none => exact SameAt.refl a v
      | some curr =>
        cases o.stSize <;> dsimp only <;> split_ifs <;> try exact SameAt.refl a v
        cases v with
        | request r' => exact Heap.get?_set_of_ne fun heq => hreq r hr (by rw [heq])
        | readHead => exact absurd rfl hhead
        | readLen => exact absurd rfl hlen
        | batchSizes => exact ⟨rfl, rfl⟩
        | _ => rfl
  | writeOne fd size cs =>
    simp only [accesses, List.mem_append, List.mem_cons, List.not_mem_nil, or_false, mem_atHead,
      not_or, not_exists, not_and, Access.write.injEq] at hv
    obtain ⟨⟨hhead, hlen⟩, hreq⟩ := hv
    rw [AioState.writeOne]
    cases hr : a.mgr.writeHead with
    | none => exact SameAt.refl a v
    | some r =>
      dsimp only
      cases a.reqs.get? r with
      | none => exact SameAt.refl a v
      | some curr =>
        dsimp only
        split_ifs
        · exact SameAt.refl a v
        cases v with
        | request r' => exact Heap.get?_set_of_ne fun heq => hreq r hr (by rw [heq])
        | writeHead => exact absurd rfl hhead
        | writeLen => exact absurd rfl hlen
        | batchSizes => exact ⟨rfl, rfl⟩
        | _ => rfl

lemma get?_put {x : ReqId} (hne : v ≠ .request x) :
    (a.put s v).reqs.get? x = a.reqs.get? x := by
  cases v with
  | request r =>
    have hx : x ≠ r := fun heq => hne (by rw [heq])
    show (((s.reqs.get? r).map (a.reqs.set r)).getD a.reqs).get? x = a.reqs.get? x
    cases s.reqs.get? r with
    | none => rfl
    | some q => exact Heap.get?_set_of_ne hx
  | _ => rfl

lemma pc_put : (a.put s v).pc = a.pc := by
  cases v <;> rfl

lemma put_submit {ret size : ℤ} {cs : List Iocb} {next : AioPc} {stop : List Iocb → AioPc} :
    (a.put s v).submit ret size cs next stop = (a.submit ret size cs next stop).put s v := by
  rw [submit, submit]
  split_ifs <;> cases v <;> rfl

lemma put_handleEvent {e : IoEvent} {rest : List IoEvent} (hreq : v ≠ .request e.data)
    (hhead : v ≠ .writeHead) (hlen : v ≠ .writeLen) (hfinished : v ≠ .finishedCount) :
    (a.put s v).handleEvent e rest = (a.handleEvent e rest).put s v := by
  rw [handleEvent, handleEvent, get?_put hreq]
  cases a.reqs.get? e.data with
  | none => cases v <;> rfl
  | some req =>
    dsimp only
    split_ifs
    · cases v <;> rfl
    · cases v with
      | request r =>
        have hne : e.data ≠ r := fun heq => hreq (by rw [heq])
        cases hq : s.reqs.get? r with
        | none => simp [finishRead, put, hq]
        | some q => simp [finishRead, put, hq, Heap.set_set_comm hne]
      | writeHead => exact absurd rfl hhead
      | writeLen => exact absurd rfl hlen
      | _ => rfl
    · cases v with
      | request r =>
        have hne : e.data ≠ r := fun heq => hreq (by rw [heq])
        cases hq : s.reqs.get? r with
        | none => simp [finishWrite, put, hq]
        | some q => simp [finishWrite, put, hq, Heap.free_set_comm hne]
      | finishedCount => exact absurd rfl hfinished
      | _ => rfl
    · cases v <;> rfl

lemma put_readOne {o : ReadAnswer} {size : ℤ} {cs : List Iocb} (hhead : v ≠ .readHead)
    (hlen : v ≠ .readLen) (hreq : ∀ r, a.mgr.readHead = some r → v ≠ .request r) :
    (a.put s v).readOne o size cs = (a.readOne o size cs).put s v := by
  have hhead' : (a.put s v).mgr.readHead = a.mgr.readHead := by
    cases v <;> first | rfl | exact absurd rfl hhead
  rw [readOne, readOne, hhead']
  cases hr : a.mgr.readHead with
  | none => cases v <;> rfl
  | some r =>
    dsimp only
    rw [get?_put (hreq r hr)]
    cases a.reqs.get? r with
    | none => cases v <;> rfl
    | some curr =>
      cases o.stSize <;> dsimp only <;> split_ifs <;> try (cases v <;> rfl)
      cases v with
      | request r' =>
        have hne : r ≠ r' := fun heq => hreq r hr (by rw [heq])
        cases hq : s.reqs.get? r' with
        | none => simp [startRead, put, hq]
        | some q => simp [startRead, put, hq, Heap.set_set_comm hne]
      | readHead => exact absurd rfl hhead
      | readLen => exact absurd rfl hlen
      | _ => rfl

lemma put_writeOne {fd size : ℤ} {cs : List Iocb} (hhead : v ≠ .writeHead)
    (hlen : v ≠ .writeLen) (hreq : ∀ r, a.mgr.writeHead = some r → v ≠ .request r) :
    (a.put s v).writeOne fd size cs = (a.writeOne fd size cs).put s v := by
  have hhead' : (a.put s v).mgr.writeHead = a.mgr.writeHead := by
    cases v <;> first | rfl | exact absurd rfl hhead
  rw [writeOne, writeOne, hhead']
  cases hr : a.mgr.writeHead with
  | none => cases v <;> rfl
  | some r =>
    dsimp only
    rw [get?_put (hreq r hr)]
    cases a.reqs.get? r with
    | none => cases v <;> rfl
    | some curr =>
      dsimp only
      split_ifs
      · cases v <;> rfl
      cases v with
      | request r' =>
        have hne : r ≠ r' := fun heq => hreq r hr (by rw [heq])
        cases hq : s.reqs.get? r' with
        | none => simp [startWrite, put, hq]
        | some q => simp [startWrite, put, hq, Heap.set_set_comm hne]
      | writeHead => exact absurd rfl hhead
      | writeLen => exact absurd rfl hlen
      | _ => rfl

/-- A step of `aio_loop` or of the kernel takes no notice of what it does not touch. -/
lemma Fires.put (h : Fires a act b) (hact : act.ofClient = false)
    (hv : ∀ x ∈ a.accesses act, x.var ≠ v) (s : AioState) :
    Fires (a.put s v) act (b.put s v) := by
  cases h with
  | startThread | bumpReqCount | newRequest | clientLockRequest | addCopyReq
  | clientUnlockRequest | clientLockFlush | setFlush | clientUnlockFlush | exit =>
    simp [Act.ofClient] at hact
  | lockFlush hpc hfree => cases v <;> exact .lockFlush hpc hfree
  | getEvents events hpc hten hsub => cases v <;> exact .getEvents events hpc hten hsub
  | unlockBreak hpc => cases v <;> exact .unlockBreak hpc
  | lockRequest hpc hfree => cases v <;> exact .lockRequest hpc hfree
  | unlockRequest hpc => cases v <;> exact .unlockRequest hpc
  | unlockFlush hpc => cases v <;> exact .unlockFlush hpc
  | complete c res hmem hres => cases v <;> exact .complete c res hmem hres
  | handleEvent e rest hpc =>
    obtain ⟨hreq, hhead, hlen, hfinished⟩ := by simpa [accesses, hpc, Access.var] using hv
    rw [← put_handleEvent (Ne.symm hreq) (Ne.symm hhead) (Ne.symm hlen) (Ne.symm hfinished)]
    exact .handleEvent e rest (by rw [pc_put, hpc])
  | checkDone hpc =>
    have htest : (a.put s v).stopTest = a.stopTest := by
      rw [accesses] at hv
      rw [stopTest, stopTest]
      by_cases hflush : a.mgr.flush = true
      · rw [if_pos hflush] at hv
        cases v <;> first | rfl | simp [Access.var] at hv
      · rw [if_neg hflush] at hv
        cases v with
        | flush => simp [Access.var] at hv
        | _ => simp [AioState.put, hflush]
    have hstep : (a.put s v).checkDone = a.checkDone.put s v := by
      rw [AioState.checkDone, AioState.checkDone, htest]
      cases v <;> rfl
    rw [← hstep]
    exact .checkDone (by rw [pc_put, hpc])
  | readSize hpc =>
    have hstep : (a.put s v).readSize = a.readSize.put s v := by
      cases v <;> first | rfl | exact absurd rfl (hv (.read _) (by simp [accesses]))
    rw [← hstep]
    exact .readSize (by rw [pc_put, hpc])
  | writeSize hpc =>
    have hstep : (a.put s v).writeSize = a.writeSize.put s v := by
      cases v <;> first | rfl | exact absurd rfl (hv (.read _) (by simp [accesses]))
    rw [← hstep]
    exact .writeSize (by rw [pc_put, hpc])
  | readOne o size cs hpc hlt hposs =>
    have hne {w : Var} (hw : .write w ∈ a.accesses (.readOne o)) : v ≠ w :=
      Ne.symm (hv (.write w) hw)
    rw [← put_readOne (hne (by simp [accesses])) (hne (by simp [accesses])) fun r hr =>
      hne (by simp [accesses, mem_atHead, hr])]
    exact .readOne o size cs (by rw [pc_put, hpc]) hlt (by cases v <;> exact hposs)
  | writeOne fd size cs hpc hlt hfd =>
    have hne {w : Var} (hw : .write w ∈ a.accesses (.writeOne fd)) : v ≠ w :=
      Ne.symm (hv (.write w) hw)
    rw [← put_writeOne (hne (by simp [accesses])) (hne (by simp [accesses])) fun r hr =>
      hne (by simp [accesses, mem_atHead, hr])]
    exact .writeOne fd size cs (by rw [pc_put, hpc]) hlt (by cases v <;> exact hfd)
  | readSubmit ret size cs hpc hge hret =>
    have hstep : (a.put s v).submit ret size cs .unlockRequest (.readLoop size) =
        (a.submit ret size cs .unlockRequest (.readLoop size)).put s v := put_submit
    rw [← hstep]
    exact .readSubmit ret size cs (by rw [pc_put, hpc]) hge hret
  | writeSubmit ret size cs hpc hge hret =>
    rw [← put_submit]
    exact .writeSubmit ret size cs (by rw [pc_put, hpc]) hge hret

/-! The operations of the main thread. -/

lemma put_newRequest {srcName dstName : CStr} (hv : v ≠ .request a.reqs.next) :
    (a.put s v).newRequest srcName dstName = (a.newRequest srcName dstName).put s v := by
  cases v with
  | request r =>
    have hne : r ≠ a.reqs.next := fun heq => hv (by rw [heq])
    cases hq : s.reqs.get? r with
    | none => simp [newRequest, put, hq]
    | some q => simp [newRequest, put, hq, Heap.alloc_set_comm hne]
  | _ => rfl

lemma put_addCopyReq {r : ReqId} (hreq : v ≠ .request r) (hcount : v ≠ .requestCount)
    (hlen : v ≠ .readLen) (hhead : v ≠ .readHead) :
    (a.put s v).addCopyReq r = (a.addCopyReq r).put s v := by
  rw [addCopyReq, addCopyReq, get?_put hreq]
  cases a.reqs.get? r with
  | none => cases v <;> rfl
  | some q' =>
    cases v with
    | request r' =>
      have hne : r ≠ r' := fun heq => hreq (by rw [heq])
      cases hq : s.reqs.get? r' with
      | none => simp [linkIn, put, hq]
      | some q => simp [linkIn, put, hq, Heap.set_set_comm hne]
    | requestCount => exact absurd rfl hcount
    | readLen => exact absurd rfl hlen
    | readHead => exact absurd rfl hhead
    | _ => rfl

end AioState

namespace Prog

variable {p p' : Prog} {l : Label} {v : Var}

/-- A step of the program changes nothing that it does not write. -/
theorem Fires.sameAt (h : Fires p l p') (hended : p.aio.ended = none)
    (hv : .write v ∉ p.accesses l) : p.aio.SameAt p'.aio v := by
  cases h with
  | aio act a ha =>
    obtain ⟨hstep, hclient⟩ := step_of_aioStep hended ha
    exact (AioState.fires_of_step hstep).2.sameAt hclient hv
  | bumpReqCount =>
    cases v with
    | reqCount => exact absurd (List.mem_singleton_self _) hv
    | batchSizes => exact ⟨rfl, rfl⟩
    | _ => rfl
  | copyReg =>
    cases v with
    | request r =>
      have hne : r ≠ p.aio.reqs.next := fun heq => hv (by rw [heq]; exact List.mem_singleton_self _)
      exact (Heap.get?_alloc r).trans (if_neg hne)
    | batchSizes => exact ⟨rfl, rfl⟩
    | _ => rfl
  | waitSet =>
    cases v with
    | flush => exact absurd (List.mem_singleton_self _) hv
    | batchSizes => exact ⟨rfl, rfl⟩
    | _ => rfl
  | addLink r hpc hr =>
    simp only [accesses, List.mem_append, List.mem_cons, List.not_mem_nil, or_false,
      AioState.mem_atHead, not_or, not_exists, not_and, Access.write.injEq] at hv
    obtain ⟨⟨hcount, hlen, hhead⟩, hreq⟩ := hv
    dsimp only
    rw [AioState.addCopyReq]
    cases p.aio.reqs.get? r with
    | none => exact AioState.SameAt.refl _ v
    | some q =>
      cases v with
      | request r' => exact Heap.get?_set_of_ne fun heq => hreq r hr (by rw [heq])
      | requestCount => exact absurd rfl hcount
      | readLen => exact absurd rfl hlen
      | readHead => exact absurd rfl hhead
      | batchSizes => exact ⟨rfl, rfl⟩
      | _ => rfl
  | _ => exact AioState.SameAt.refl _ v

lemma step_main (hended : p.aio.ended = none) (hl : ∀ act, l ≠ .aio act) :
    p.step l = p.mainStep l := by
  unfold step
  rw [if_neg (by simp [hended])]
  cases l with
  | aio act => exact absurd rfl (hl act)
  | _ => rfl

lemma put_branch (answer : Option Kind) (s : AioState) :
    (p.put s v).branch answer = (p.branch answer).put s v := by
  cases answer with
  | none => cases v <;> rfl
  | some k => cases k <;> rfl

lemma put_readdirStep (curr : Node) (answer : ReaddirAnswer) (s : AioState) :
    (p.put s v).readdirStep curr answer = (p.readdirStep curr answer).put s v := by
  cases answer with
  | failed => cases v <;> rfl
  | finished => rfl
  | entry name dtype =>
    rw [readdirStep, readdirStep]
    split_ifs
    · rfl
    · rfl
    · cases v <;> rfl

lemma mainStep_put (h : p.mainStep l = some p') (hv : ∀ x ∈ p.accesses l, x.var ≠ v)
    (s : AioState) : (p.put s v).mainStep l = some (p'.put s v) := by
  have hne {w : Var} (hw : .write w ∈ p.accesses l) : v ≠ w := Ne.symm (hv (.write w) hw)
  cases l <;> simp only [mainStep] at h
  case initManager ok | startThread ok | mkdir ok | opendir ok | closedir ok | addUnlock ok |
    waitUnlock ok | destroy ok =>
    obtain ⟨hpc, rfl⟩ := Option.ite_none_right_eq_some.mp h |>.imp_right Option.some.inj
    refine (if_pos hpc).trans (congrArg some ?_)
    cases ok <;> cases v <;> rfl
  case join ok =>
    obtain ⟨⟨hpc, hret⟩, rfl⟩ := Option.ite_none_right_eq_some.mp h |>.imp_right Option.some.inj
    refine (if_pos ⟨hpc, fun hok => AioState.pc_put.trans (hret hok)⟩).trans (congrArg some ?_)
    cases ok <;> cases v <;> rfl
  case stat answer =>
    obtain ⟨hpc, rfl⟩ := Option.ite_none_right_eq_some.mp h |>.imp_right Option.some.inj
    exact (if_pos hpc).trans (congrArg some (put_branch answer s))
  case walkEnd =>
    obtain ⟨hpc, rfl⟩ := Option.ite_none_right_eq_some.mp h |>.imp_right Option.some.inj
    exact if_pos hpc
  case readdir answer =>
    cases hqueue : p.queue with
    | nil => simp [hqueue] at h
    | cons curr rest =>
      rw [hqueue] at h
      obtain ⟨hpc, rfl⟩ := Option.ite_none_right_eq_some.mp h |>.imp_right Option.some.inj
      rw [mainStep, show (p.put s v).queue = curr :: rest from hqueue]
      exact (if_pos hpc).trans (congrArg some (put_readdirStep curr answer s))
  case bumpReqCount =>
    obtain ⟨hpc, rfl⟩ := Option.ite_none_right_eq_some.mp h |>.imp_right Option.some.inj
    refine (if_pos hpc).trans (congrArg some ?_)
    cases v with
    | reqCount => exact absurd rfl (hne (List.mem_singleton_self _))
    | _ => rfl
  case copyReg =>
    cases hqueue : p.queue with
    | nil => simp [hqueue] at h
    | cons curr rest =>
      rw [hqueue] at h
      obtain ⟨hpc, rfl⟩ := Option.ite_none_right_eq_some.mp h |>.imp_right Option.some.inj
      rw [mainStep, show (p.put s v).queue = curr :: rest from hqueue]
      refine (if_pos hpc).trans (congrArg some ?_)
      rw [show (p.put s v).aio = p.aio.put s v from rfl,
        AioState.put_newRequest (hne (List.mem_singleton_self _))]
      rfl
  case addLock ok =>
    obtain ⟨hpc, h⟩ := Option.ite_none_right_eq_some.mp h
    refine (if_pos hpc).trans ?_
    cases ok with
    | false =>
      obtain rfl := Option.some.inj h
      cases v <;> rfl
    | true =>
      obtain ⟨a, ha, rfl⟩ := Option.map_eq_some_iff.mp h
      obtain ⟨hfree, rfl⟩ := Option.ite_none_right_eq_some.mp ha |>.imp_right Option.some.inj
      have hfree' : (p.aio.put s v).mgr.requestMutex = none := by
        cases v <;> exact hfree
      show ((p.aio.put s v).lockRequest .main).map _ = _
      rw [AioState.lockRequest, if_pos hfree']
      cases v <;> rfl
  case addLink =>
    cases hr : p.aio.mainReq with
    | none => simp [hr] at h
    | some r =>
      rw [hr] at h
      obtain ⟨hpc, rfl⟩ := Option.ite_none_right_eq_some.mp h |>.imp_right Option.some.inj
      have hr' : (p.put s v).aio.mainReq = some r := by
        rw [← hr]
        cases v <;> rfl
      rw [mainStep, hr']
      refine (if_pos hpc).trans (congrArg some ?_)
      rw [show (p.put s v).aio = p.aio.put s v from rfl,
        AioState.put_addCopyReq (hne (by simp [accesses, AioState.mem_atHead, hr]))
          (hne (by simp [accesses])) (hne (by simp [accesses])) (hne (by simp [accesses]))]
      rfl
  case waitLock ok =>
    obtain ⟨hpc, h⟩ := Option.ite_none_right_eq_some.mp h
    refine (if_pos hpc).trans ?_
    cases ok with
    | false =>
      obtain rfl := Option.some.inj h
      cases v <;> rfl
    | true =>
      obtain ⟨a, ha, rfl⟩ := Option.map_eq_some_iff.mp h
      obtain ⟨hfree, rfl⟩ := Option.ite_none_right_eq_some.mp ha |>.imp_right Option.some.inj
      have hfree' : (p.aio.put s v).mgr.flushMutex = none := by
        cases v <;> exact hfree
      show ((p.aio.put s v).lockFlush .main).map _ = _
      rw [AioState.lockFlush, if_pos hfree']
      cases v <;> rfl
  case waitSet =>
    obtain ⟨hpc, rfl⟩ := Option.ite_none_right_eq_some.mp h |>.imp_right Option.some.inj
    refine (if_pos hpc).trans (congrArg some ?_)
    cases v with
    | flush => exact absurd rfl (hne (List.mem_singleton_self _))
    | _ => rfl
  case aio act => cases h

/-- A step of the program takes no notice of what it does not touch. -/
theorem step_put (h : p.step l = some p') (hv : ∀ x ∈ p.accesses l, x.var ≠ v) (s : AioState) :
    (p.put s v).step l = some (p'.put s v) := by
  obtain ⟨hended, hfires⟩ := fires_of_step h
  have hended' : (p.put s v).aio.ended = none := by
    rw [← hended]
    cases v <;> rfl
  by_cases haio : ∃ act, l = .aio act
  · obtain ⟨act, rfl⟩ := haio
    obtain ⟨a, hact, rfl⟩ := aio_fires hended hfires
    have hput := hact.put (aio_step h).2.1 hv s
    unfold step
    rw [if_neg (by simp [hended'])]
    show (aioStep (p.aio.put s v) act).map _ = _
    rw [AioState.aioStep_of_fires hput (aio_step h).2.1]
    rfl
  · have hmain := step_main hended (not_exists.mp haio)
    rw [hmain] at h
    rw [step_main hended' (not_exists.mp haio)]
    exact mainStep_put h hv s

end Prog

/-! ## The guards -/

namespace AioState

variable {a b : AioState} {act : Act} {x : Access} {v : Var} {r : ReqId}

/-- `aio_loop` holds `flush_mutex` whenever it touches anything, and `request_mutex` when it
touches the read list. -/
lemma Fires.guarded (h : Fires a act b) (hx : x ∈ a.accesses act) :
    a.pc.holdsFlush = true ∧
      (x.var = .readHead ∨ x.var = .readLen ∨ x.var = .requestCount →
        a.pc.holdsRequest = true) := by
  cases h with
  | handleEvent e rest hpc =>
    simp only [accesses, hpc, List.mem_cons, List.not_mem_nil, or_false] at hx
    rw [hpc]
    refine ⟨rfl, ?_⟩
    rcases hx with rfl | rfl | rfl | rfl <;> simp [Access.var]
  | checkDone hpc =>
    rw [hpc]
    refine ⟨rfl, ?_⟩
    rw [accesses] at hx
    split_ifs at hx <;> simp only [List.mem_cons, List.not_mem_nil, or_false] at hx
    · rcases hx with rfl | rfl | rfl <;> simp [Access.var]
    · subst hx
      simp [Access.var]
  | readSize hpc | readOne _ _ _ hpc =>
    rw [show a.pc = _ from hpc]
    exact ⟨rfl, fun _ => rfl⟩
  | writeSize hpc =>
    simp only [accesses, List.mem_cons, List.not_mem_nil, or_false] at hx
    rw [hpc]
    refine ⟨rfl, ?_⟩
    rcases hx with rfl | rfl | rfl <;> simp [Access.var]
  | writeOne _ _ _ hpc =>
    simp only [accesses, List.mem_append, List.mem_cons, List.not_mem_nil, or_false,
      mem_atHead] at hx
    rw [show a.pc = _ from hpc]
    refine ⟨rfl, ?_⟩
    rcases hx with (rfl | rfl) | ⟨r, -, rfl⟩ <;> simp [Access.var]
  | _ => exact absurd hx List.not_mem_nil

/-- `aio_loop` touches only requests that were accepted. -/
lemma Fires.accepted_of_accesses (h : Fires a act b) (hgood : Good a) (hx : x ∈ a.accesses act)
    (hvar : x.var = .request r) : r ∈ a.log.accepted := by
  obtain ⟨xs, ys, belt, hinv, -⟩ := hgood
  cases h with
  | handleEvent e rest hpc =>
    simp only [accesses, hpc, List.mem_cons, List.not_mem_nil, or_false] at hx
    have hmem : e.obj ∈ a.refs := by
      rw [refs, hpc]
      simp
    rcases hx with rfl | rfl | rfl | rfl <;> cases hvar
    exact hinv.mem_accepted_of_holds _ (hinv.mem_holds_of_mem_refs hmem)
  | checkDone =>
    rw [accesses] at hx
    split_ifs at hx <;> simp only [List.mem_cons, List.not_mem_nil, or_false] at hx
    · rcases hx with rfl | rfl | rfl <;> cases hvar
    · subst hx
      cases hvar
  | readSize | writeSize =>
    simp only [accesses, List.mem_cons, List.not_mem_nil, or_false] at hx
    rcases hx with rfl | rfl | rfl <;> cases hvar
  | readOne =>
    simp only [accesses, List.mem_append, List.mem_cons, List.not_mem_nil, or_false,
      mem_atHead] at hx
    rcases hx with (rfl | rfl) | ⟨w, hw, rfl⟩ <;> cases hvar
    obtain ⟨tl, rfl⟩ := (hw ▸ hinv.readList).cons_of_some
    exact hinv.mem_accepted_of_holds .queued (by simp [hinv.queued])
  | writeOne =>
    simp only [accesses, List.mem_append, List.mem_cons, List.not_mem_nil, or_false,
      mem_atHead] at hx
    rcases hx with (rfl | rfl) | ⟨w, hw, rfl⟩ <;> cases hvar
    obtain ⟨tl, rfl⟩ := (hw ▸ hinv.writeList).cons_of_some
    exact hinv.mem_accepted_of_holds .toWrite (by simp [hinv.toWrite])
  | _ => exact absurd hx List.not_mem_nil

/-- `aio_loop` reads `req_count` only after `flush` was set. -/
lemma flush_of_accesses (hx : x ∈ a.accesses act) (hvar : x.var = .reqCount) :
    a.mgr.flush = true := by
  cases act with
  | checkDone =>
    rw [accesses] at hx
    split_ifs at hx with hflush
    · exact hflush
    · obtain rfl := List.mem_singleton.mp hx
      cases hvar
  | handleEvent =>
    rw [accesses] at hx
    split at hx
    · simp only [List.mem_cons, List.not_mem_nil, or_false] at hx
      rcases hx with rfl | rfl | rfl | rfl <;> cases hvar
    · exact absurd hx List.not_mem_nil
  | readSize | writeSize =>
    simp only [accesses, List.mem_cons, List.not_mem_nil, or_false] at hx
    rcases hx with rfl | rfl | rfl <;> cases hvar
  | readOne | writeOne =>
    simp only [accesses, List.mem_append, List.mem_cons, List.not_mem_nil, or_false,
      mem_atHead] at hx
    rcases hx with (rfl | rfl) | ⟨w, -, rfl⟩ <;> cases hvar
  | _ => exact absurd hx List.not_mem_nil

end AioState

section

variable {p : Prog} {srcName dstName : CStr} {batchSize : ℤ}

lemma not_conflicts (h : Reaches Prog.step anyLabel (Prog.init srcName dstName batchSize) p)
    (l : Label) (act : Act) (hl : ∀ act, l ≠ .aio act) (hmain : (p.step l).isSome)
    (haio : (p.step (.aio act)).isSome) : ∀ x ∈ p.accesses l, ∀ y ∈ p.accesses (.aio act),
      ¬ x.Conflicts y := by
  rintro x hx y hy ⟨hvar, -⟩
  have hlocks := Locks.of_reaches h
  have hgood := Prog.good_of_reaches h
  obtain ⟨p₁, hp₁⟩ := Option.isSome_iff_exists.mp hmain
  obtain ⟨p₂, hp₂⟩ := Option.isSome_iff_exists.mp haio
  obtain ⟨-, hfires⟩ := Prog.fires_of_step hp₁
  obtain ⟨hstep, hclient, -⟩ := Prog.aio_step hp₂
  have hact := (AioState.fires_of_step hstep).2
  obtain ⟨hflush, hrequest⟩ := hact.guarded hy
  cases l with
  | initManager ok =>
    -- the other thread does not run yet
    have hpc : p.pc = .initManager := by
      by_contra hpc
      simp [Prog.step, Prog.mainStep, hpc] at hmain
    rw [hlocks.started.mpr (by rw [hpc]; rfl)] at hflush
    cases hflush
  | bumpReqCount =>
    obtain rfl := List.mem_singleton.mp hx
    have hset := AioState.flush_of_accesses hy hvar.symm
    cases hfires with
    | bumpReqCount hpc =>
      rw [(Counting.of_reaches h).flush, hpc] at hset
      cases hset
    | fail _ _ hfails => exact hfails
  | copyReg =>
    obtain rfl := List.mem_singleton.mp hx
    obtain ⟨xs, ys, belt, hinv, -⟩ := id hgood
    exact lt_irrefl _ (hinv.acceptedLt _ (hact.accepted_of_accesses hgood hy hvar.symm))
  | addLink =>
    have hpc : p.pc = .addLink := by
      cases hfires with
      | addLink _ hpc => exact hpc
      | fail _ _ hfails => exact hfails.elim
    have hheld : p.aio.mgr.requestMutex = some .main := hlocks.mainRequest.mpr (by rw [hpc]; rfl)
    have hother : ¬ p.aio.pc.holdsRequest = true := fun hholds => by
      simp [hlocks.aioRequest.mpr hholds] at hheld
    simp only [Prog.accesses, List.mem_append, List.mem_cons, List.not_mem_nil, or_false,
      AioState.mem_atHead] at hx
    rcases hx with (rfl | rfl | rfl) | ⟨r, hr, rfl⟩
    · exact hother (hrequest (Or.inr (Or.inr hvar.symm)))
    · exact hother (hrequest (Or.inr (Or.inl hvar.symm)))
    · exact hother (hrequest (Or.inl hvar.symm))
    · obtain ⟨xs, ys, belt, hinv, -⟩ := id hgood
      exact (hinv.mainReq r hr).1 (hact.accepted_of_accesses hgood hy hvar.symm)
  | waitSet =>
    have hpc : p.pc = .waitSet := by
      cases hfires with
      | waitSet hpc => exact hpc
      | fail _ _ hfails => exact hfails.elim
    have hheld : p.aio.mgr.flushMutex = some .main := hlocks.mainFlush.mpr (by rw [hpc]; rfl)
    simp [hlocks.aioFlush.mpr hflush] at hheld
  | aio act => exact hl act rfl
  | _ => exact absurd hx List.not_mem_nil

/-- **The program has no data race**: in no state of any run can the main thread take a step
and `aio_loop` another one such that one of them changes, or overwrites, a variable of the
manager, `req_count` or a request that the other touches; whatever the kernel answers. -/
theorem raceFree_of_reaches
    (h : Reaches Prog.step anyLabel (Prog.init srcName dstName batchSize) p) : p.RaceFree := by
  refine ⟨not_conflicts h, fun l act p₁ p₂ hl h₁ h₂ v hchanged s => ?_,
    fun l act p₁ p₂ hl h₁ h₂ v hchanged s => ?_⟩
  · obtain ⟨hended, hfires⟩ := Prog.fires_of_step h₁
    have hwrite : .write v ∈ p.accesses l := by
      by_contra hnot
      exact hchanged (hfires.sameAt hended hnot)
    refine Prog.step_put h₂ (fun y hy hvar => ?_) s
    exact not_conflicts h l act hl (by rw [h₁]; rfl) (by rw [h₂]; rfl) _ hwrite y hy
      ⟨hvar.symm, Or.inl rfl⟩
  · obtain ⟨hended, hfires⟩ := Prog.fires_of_step h₂
    have hwrite : .write v ∈ p.accesses (.aio act) := by
      by_contra hnot
      exact hchanged (hfires.sameAt hended hnot)
    refine Prog.step_put h₁ (fun x hx hvar => ?_) s
    exact not_conflicts h l act hl (by rw [h₁]; rfl) (by rw [h₂]; rfl) x hx _ hwrite
      ⟨hvar, Or.inr rfl⟩

/-- The main thread is about to link its request in, and `aio_loop` to test `flush`. -/
theorem raceFree_of_reaches_linking : ∃ p : Prog,
    Reaches Prog.step anyLabel (Prog.init ['s'] ['d'] 1) p ∧ (p.step .addLink).isSome ∧
      (p.step (.aio .checkDone)).isSome ∧ p.RaceFree := by
  have hrun : (exec Prog.step (Prog.init ['s'] ['d'] 1) [.initManager true, .startThread true,
      .stat (some .reg), .bumpReqCount, .copyReg, .addLock true, .aio .lockFlush,
      .aio (.getEvents [])]).map
        (fun p => ((p.step .addLink).isSome, (p.step (.aio .checkDone)).isSome)) =
          some (true, true) := by
    decide +kernel
  obtain ⟨p, hp, hsome⟩ := Option.map_eq_some_iff.mp hrun
  obtain ⟨hlink, hdone⟩ := Prod.mk.inj hsome
  have hreach : Reaches Prog.step anyLabel _ p := reaches_of_exec (fun _ _ => trivial) hp
  exact ⟨p, hreach, hlink, hdone, raceFree_of_reaches hreach⟩

end

end Cpr
