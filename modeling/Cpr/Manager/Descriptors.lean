/-
# Descriptors

While the process runs, the descriptors that `aio_loop` has open are those of the live
control blocks, one for each.
-/
import Cpr.Manager.Moves

namespace Cpr

open Transition

/-- The control block that a step makes for the head of a list, when it has opened the file. -/
structure Iocb.Opens (c : Iocb) (a : AioState) (act : Act) : Prop where
  fresh : c.fd ∉ a.openFds
  nonneg : 0 ≤ c.fd
  act : match c.opcode with
    | .pread => a.mgr.readHead = some c.data ∧ ∃ o, act = .readOne o ∧ o.fd = c.fd
    | .pwrite => a.mgr.writeHead = some c.data ∧ act = .writeOne c.fd

/-- The control blocks of the reaped operations and of those still in flight. -/
lemma perm_of_reap {events : List IoEvent} {flight : List Op}
    (hsub : (events.map IoEvent.op).Subperm flight) :
    (events.map (·.obj) ++ (flight.diff (events.map IoEvent.op)).map (·.obj)).Perm
      (flight.map (·.obj)) := by
  have hflight : (events.map IoEvent.op ++ flight.diff (events.map IoEvent.op)).Perm flight :=
    List.subperm_append_diff_self_of_count_le (List.subperm_ext_iff.mp hsub)
  have hmap := hflight.map (·.obj)
  rwa [List.map_append, List.map_map] at hmap

/-- Accepted control blocks move from the prepared ones to those in flight. -/
lemma perm_of_submit (cs ds : List Iocb) (flight : List Op) :
    (ds ++ (cs.map Op.pending ++ flight).map (·.obj)).Perm ((cs ++ ds) ++ flight.map (·.obj)) := by
  have hobj : cs.map ((·.obj) ∘ Op.pending) = cs := by
    simp [Function.comp_def, Op.pending]
  rw [List.map_append, List.map_map, hobj, ← List.append_assoc]
  exact List.perm_append_comm.append_right _

/-- What a step does to the live control blocks and their descriptors. -/
inductive RefsMoves (a : AioState) (act : Act) (a' : AioState) : Prop
  | kept (hrefs : a'.refs.Perm a.refs) (hfds : a'.ended = none → a'.openFds = a.openFds)
  | opened (c : Iocb) (hc : c.Opens a act) (hrefs : a'.refs.Perm (c :: a.refs))
      (hfds : a'.openFds = insert c.fd a.openFds)
  | closed (c : Iocb) (hrefs : a.refs.Perm (c :: a'.refs))
      (hfds : a'.openFds = a.openFds.erase c.fd)

/-- **A control block lives from the opening of its file to the closing.** -/
theorem Good.refsMoves {a a' : AioState} {act : Act} (hgood : Good a)
    (hstep : a.step act = some a') : RefsMoves a act a' := by
  obtain ⟨xs, ys, b, h, -⟩ := id hgood
  have hdesc : ∀ e rest q, a.pc = .handle (e :: rest) → a.reqs.get? e.data = some q →
      e.obj.Describes q := fun e rest q hpc hq =>
    (h.describes_of_mem_refs (by simp [AioState.refs, hpc]) hq).2
  cases hgood.moves hstep with
  | same e _ _ openFds =>
    refine .kept ?_ openFds
    rw [AioState.refs, AioState.refs, e.taken, e.flight, e.events]
  | reap events hpc hsub =>
    refine .kept ?_ fun _ => rfl
    simp only [AioState.refs, hpc, AioPc.taken, AioPc.events, List.nil_append, List.map_nil,
      List.append_nil]
    exact List.perm_append_comm.trans (perm_of_reap hsub)
  | finishRead e rest q hpc hq hop =>
    have hfd := (hdesc e rest q hpc hq).fd
    rw [hop] at hfd
    refine .closed e.obj (Inv.refs_handle hpc rfl rfl) ?_
    rw [hfd]
    rfl
  | finishWrite e rest q hpc hq hop =>
    have hfd := (hdesc e rest q hpc hq).fd
    rw [hop] at hfd
    refine .closed e.obj (Inv.refs_handle hpc rfl rfl) ?_
    rw [hfd]
    rfl
  | startRead o size cs r curr stSize hpc hhead _ _ hposs hfd =>
    refine .opened _ ?_ (Inv.refs_take (by rw [hpc]; rfl) (by rw [hpc]; rfl) rfl) rfl
    exact ⟨hposs.1 hfd, hfd, hhead, o, rfl, rfl⟩
  | submit cs ds taken taken' _ events events' flight _ _ _ _ _ _ openFds =>
    refine .kept ?_ fun _ => openFds
    rw [AioState.refs, AioState.refs, taken, taken', events, events', flight]
    exact (perm_of_submit cs ds a.flight).append_right _
  | startWrite fd size cs r curr hpc hhead _ _ hfd hfresh =>
    refine .opened _ ?_ (Inv.refs_take (by rw [hpc]; rfl) (by rw [hpc]; rfl) rfl) rfl
    exact ⟨hfresh, hfd, hhead, rfl⟩
  | complete c res hmem =>
    refine .kept ?_ fun _ => rfl
    have hflight := (List.perm_cons_erase hmem).map (·.obj)
    exact (hflight.symm.append_left _).append_right _
  | newRequest | linkIn => exact .kept (.refl _) fun _ => rfl

/-- The head of the read list is a live request. -/
lemma Good.get?_readHead {a : AioState} {r : ReqId} (hgood : Good a)
    (hhead : a.mgr.readHead = some r) : ∃ q, a.reqs.get? r = some q := by
  obtain ⟨xs, ys, b, h, -⟩ := hgood
  obtain ⟨tl, rfl⟩ := (hhead ▸ h.readList).cons_of_some
  exact (h.queuedRec r List.mem_cons_self).imp fun _ hq => hq.1

/-- The head of the write list is a live request. -/
lemma Good.get?_writeHead {a : AioState} {r : ReqId} (hgood : Good a)
    (hhead : a.mgr.writeHead = some r) : ∃ q, a.reqs.get? r = some q := by
  obtain ⟨xs, ys, b, h, -⟩ := hgood
  obtain ⟨tl, rfl⟩ := (hhead ▸ h.writeList).cons_of_some
  exact (h.toWriteRec r List.mem_cons_self).imp fun _ hq => hq.1

/-- The open descriptors are those of the live control blocks, each of them once. -/
def Descriptors (a : AioState) : Prop :=
  a.ended = none → a.openFds.val = ↑(a.refs.map (·.fd))

namespace Descriptors

variable {a a' : AioState} {act : Act} {c : Iocb}

lemma init (readBatchSize writeBatchSize : ℤ) :
    Descriptors (AioState.init readBatchSize writeBatchSize) := fun _ => rfl

/-- One step keeps the account of the descriptors. -/
theorem step (hd : Descriptors a) (hgood : Good a) (hstep : a.step act = some a') :
    Descriptors a' := by
  have hended := (AioState.fires_of_step hstep).1
  intro hended'
  cases hgood.refsMoves hstep with
  | kept hrefs hfds =>
    rw [hfds hended', hd hended, Multiset.coe_eq_coe]
    exact (hrefs.map _).symm
  | opened c hc hrefs hfds =>
    rw [hfds, Finset.insert_val_of_notMem hc.fresh, hd hended, Multiset.cons_coe,
      Multiset.coe_eq_coe]
    exact (hrefs.map _).symm
  | closed c hrefs hfds =>
    have hold : a.openFds.val = ↑(c.fd :: a'.refs.map (·.fd)) := by
      rw [hd hended, Multiset.coe_eq_coe]
      exact hrefs.map _
    rw [hfds, Finset.erase_val, hold, Multiset.coe_erase, List.erase_cons_head]

theorem of_reaches {readBatchSize writeBatchSize : ℤ}
    (h : Reaches AioState.step anyLabel (AioState.init readBatchSize writeBatchSize) a) :
    Descriptors a :=
  h.invariant_of (fun _ hr => Good.of_reaches hr)
    (fun hgood _ hd _ hstep => hd.step hgood hstep) (init _ _)

lemma mem_openFds (hd : Descriptors a) (hended : a.ended = none) (hc : c ∈ a.refs) :
    c.fd ∈ a.openFds := by
  rw [← Finset.mem_val, hd hended, Multiset.mem_coe]
  exact List.mem_map_of_mem hc

end Descriptors

end Cpr
