/-
# Buffers

`aio_loop` maps a buffer for every read and never unmaps one: the live mappings are those
of all requests whose read was ever started, and no two of them overlap.
-/
import Cpr.Manager.Conservation

namespace Cpr

open Transition

/-- The mapping that holds the buffer of a request, if there is one. -/
def CopyRequest.mapping (q : CopyRequest) : Option (ℕ × ℕ) :=
  if q.buffer = 0 ∨ q.buffer = mapFailed then none else some (q.buffer, toUlong q.fsize)

/-- The mapping of the buffer of the request `r`, freed or not. -/
def AioState.mapping (a : AioState) (r : ReqId) : Option (ℕ × ℕ) :=
  (a.reqs.last? r).bind CopyRequest.mapping

/-- What the mappings and the requests say about each other. -/
structure Buffers (a : AioState) : Prop where
  maps : a.maps.Perm ((List.range a.reqs.next).filterMap a.mapping)
  disjoint : a.maps.Pairwise DisjointMaps
  notStarted : ∀ r q, a.reqs.last? r = some q → q.state = 0 → q.buffer = 0
  started : ∀ r q, a.reqs.last? r = some q → q.state ≠ 0 → q.buffer ≠ 0
  aligned : ∀ r q, a.reqs.last? r = some q → q.buffer ≠ mapFailed → pageSize ∣ q.buffer
  notAccepted : ∀ r q, a.reqs.last? r = some q → r ∉ a.log.accepted → q.state = 0
  finished : ∀ r q, a.reqs.last? r = some q → r ∈ a.log.finished → q.state = 2

lemma le_pageRound (len : ℕ) : len ≤ pageRound len := by
  unfold pageRound pageSize
  omega

lemma DisjointMaps.symm {m m' : ℕ × ℕ} (h : DisjointMaps m m') : DisjointMaps m' m := Or.symm h

namespace AioState

variable {a a' : AioState} {r s : ReqId} {q q' : CopyRequest}

lemma last?_set (hq : a.reqs.get? r = some q) :
    (a.reqs.set r q').last? s = if s = r then some q' else a.reqs.last? s := by
  split_ifs with hs
  · subst hs
    exact Heap.last?_of_get? (Heap.get?_set_self hq)
  · exact Heap.last?_set_of_ne hs

/-- The requests after an allocation. -/
lemma last?_newRequest {srcName dstName : CStr}
    (hq : (a.newRequest srcName dstName).reqs.last? s = some q) :
    (s = a.reqs.next ∧ q = ⟨srcName, dstName, -1, -1, 0, 0, none, 0⟩) ∨
      a.reqs.last? s = some q := by
  by_cases hs : s = a.reqs.next
  · have hnew : (a.newRequest srcName dstName).reqs.last? a.reqs.next =
        some ⟨srcName, dstName, -1, -1, 0, 0, none, 0⟩ := Heap.last?_of_get? Heap.get?_alloc_self
    rw [hs, hnew] at hq
    exact Or.inl ⟨hs, (Option.some.inj hq).symm⟩
  · rw [newRequest, Heap.last?_alloc_of_ne hs] at hq
    exact Or.inr hq

lemma mapping_of_set (hreqs : a'.reqs = a.reqs.set r q') (hq : a.reqs.get? r = some q)
    (hm : q'.mapping = q.mapping) : a'.mapping = a.mapping := by
  funext s
  rw [mapping, mapping, hreqs, last?_set hq]
  split_ifs with hs
  · rw [hs, Heap.last?_of_get? hq]
    exact hm
  · rfl

end AioState

/-- One more value of a partial function on a duplicate-free list. -/
lemma filterMap_perm_cons {α β : Type*} [DecidableEq α] {f g : α → Option β} {xs : List α} {x : α}
    {y : β} (hnd : xs.Nodup) (hx : x ∈ xs) (hf : f x = none) (hg : g x = some y)
    (heq : ∀ z, z ≠ x → g z = f z) : (xs.filterMap g).Perm (y :: xs.filterMap f) := by
  have hrest : (xs.erase x).filterMap g = (xs.erase x).filterMap f :=
    List.filterMap_congr fun z hz => heq z ((hnd.mem_erase_iff.mp hz).1)
  have hperm := List.perm_cons_erase hx
  calc (xs.filterMap g).Perm ((x :: xs.erase x).filterMap g) := hperm.filterMap g
    _ = y :: (x :: xs.erase x).filterMap f := by
      rw [List.filterMap_cons, hg, List.filterMap_cons, hf, hrest]
    _ |>.Perm (y :: xs.filterMap f) := (hperm.filterMap f).symm.cons y

namespace Buffers

variable {a a' : AioState} {act : Act} {r : ReqId} {xs ys : List ReqId} {b : Belt Stage ReqId}

lemma init (readBatchSize writeBatchSize : ℤ) :
    Buffers (AioState.init readBatchSize writeBatchSize) := by
  have hnone : ∀ r, (AioState.init readBatchSize writeBatchSize).reqs.last? r = none := fun r =>
    Heap.last?_eq_none_of_le (Nat.zero_le r)
  refine ⟨List.Perm.refl _, List.Pairwise.nil, ?_, ?_, ?_, ?_, ?_⟩ <;> simp [hnone]

/-- A step that leaves the last contents of all requests alone. -/
lemma of_last (hb : Buffers a) (hlast : ∀ s, a'.reqs.last? s = a.reqs.last? s)
    (hnext : a'.reqs.next = a.reqs.next) (hmaps : a'.maps = a.maps)
    (hacc : a'.log.accepted = a.log.accepted)
    (hfin : ∀ s ∈ a'.log.finished, s ∈ a.log.finished ∨
      ∀ q, a.reqs.last? s = some q → q.state = 2) : Buffers a' := by
  have hmapping : a'.mapping = a.mapping := by
    funext s
    rw [AioState.mapping, AioState.mapping, hlast]
  refine ⟨?_, ?_, ?_, ?_, ?_, ?_, ?_⟩
  · rw [hmaps, hnext, hmapping]
    exact hb.maps
  · rw [hmaps]
    exact hb.disjoint
  all_goals simp only [hlast, hacc]
  · exact hb.notStarted
  · exact hb.started
  · exact hb.aligned
  · exact hb.notAccepted
  · intro s q hq hs
    rcases hfin s hs with hs | hs
    · exact hb.finished s q hq hs
    · exact hs q hq

/-- A step that changes one request, and neither its buffer nor its size. -/
lemma of_set (hb : Buffers a) (h : Inv a xs ys b) {q q' : CopyRequest}
    (hq : a.reqs.get? r = some q) (hreqs : a'.reqs = a.reqs.set r q') (hmaps : a'.maps = a.maps)
    (hacc : a.log.accepted ⊆ a'.log.accepted) (hfin : a'.log.finished = a.log.finished)
    (hbuf : q'.buffer = q.buffer) (hsize : q'.fsize = q.fsize)
    (hst : q'.state = 0 ↔ q.state = 0) : Buffers a' := by
  have hm : q'.mapping = q.mapping := by simp [CopyRequest.mapping, hbuf, hsize]
  have hlast := Heap.last?_of_get? hq
  have hcases : ∀ s p', a'.reqs.last? s = some p' → ∃ p, a.reqs.last? s = some p ∧
      p'.buffer = p.buffer ∧ (p'.state = 0 ↔ p.state = 0) ∧ (s ≠ r → p' = p) := by
    intro s p' hp'
    rw [hreqs, AioState.last?_set hq] at hp'
    split_ifs at hp' with hs
    · obtain rfl := Option.some.inj hp'
      exact ⟨q, hs ▸ hlast, hbuf, hst, fun hne => absurd hs hne⟩
    · exact ⟨p', hp', rfl, Iff.rfl, fun _ => rfl⟩
  refine ⟨?_, ?_, fun s p' hp' hzero => ?_, fun s p' hp' hne => ?_, fun s p' hp' hfail => ?_,
    fun s p' hp' hs => ?_, fun s p' hp' hs => ?_⟩
  · rw [hmaps, AioState.mapping_of_set hreqs hq hm, hreqs]
    exact hb.maps
  · rw [hmaps]
    exact hb.disjoint
  all_goals obtain ⟨p, hp, hpbuf, hpst, hother⟩ := hcases s p' hp'
  · exact hpbuf.trans (hb.notStarted s p hp (hpst.mp hzero))
  · rw [hpbuf]
    exact hb.started s p hp fun h => hne (hpst.mpr h)
  · rw [hpbuf] at hfail ⊢
    exact hb.aligned s p hp hfail
  · exact hpst.mpr (hb.notAccepted s p hp fun h => hs (hacc h))
  · rw [hfin] at hs
    have hne : s ≠ r := by
      rintro rfl
      simp [h.finishedRec s hs] at hq
    rw [hother hne]
    exact hb.finished s p hp hs

lemma startRead (hb : Buffers a) (h : Inv a xs ys b) {o : AioState.ReadAnswer} {size : ℤ}
    {cs : List Iocb} {curr : CopyRequest} {stSize : ℕ} (hhead : a.mgr.readHead = some r)
    (hcurr : a.reqs.get? r = some curr) (hst : curr.state = 0) (hposs : o.Possible a)
    (hstSize : o.stSize = some stSize) (hbuf : o.buf ≠ 0) :
    Buffers (a.startRead r curr o.fd stSize o.buf size cs) := by
  obtain ⟨-, hanswer⟩ := hposs.2 stSize hstSize
  obtain ⟨tl, rfl⟩ := (hhead ▸ h.readList).cons_of_some
  have hacc : r ∈ a.log.accepted :=
    h.mem_accepted_of_holds .queued (by rw [h.queued]; exact List.mem_cons_self)
  have hlast := Heap.last?_of_get? hcurr
  have hzero := hb.notStarted r curr hlast hst
  generalize ha' : a.startRead r curr o.fd stSize o.buf size cs = a'
  have hreqs : a'.reqs = a.reqs.set r { curr with
      srcFd := o.fd, fsize := toInt32 stSize, buffer := o.buf, next := none, state := 1 } := by
    rw [← ha']
    rfl
  have hmaps : a'.maps = if o.buf = mapFailed then a.maps
      else (o.buf, toUlong (toInt32 stSize)) :: a.maps := by
    rw [← ha']
    rfl
  have hlog : a'.log = a.log := by
    rw [← ha']
    rfl
  have hlast' : ∀ s, a'.reqs.last? s = if s = r then some { curr with
      srcFd := o.fd, fsize := toInt32 stSize, buffer := o.buf, next := none, state := 1 }
      else a.reqs.last? s := fun s => by rw [hreqs, AioState.last?_set hcurr]
  -- only the mapping of `r` changes: from none to the answer of `mmap`
  have hother : ∀ s, s ≠ r → a'.mapping s = a.mapping s := fun s hs => by
    rw [AioState.mapping, AioState.mapping, hlast', if_neg hs]
  have hnone : a.mapping r = none := by
    rw [AioState.mapping, hlast]
    simp [CopyRequest.mapping, hzero]
  have hself : a'.mapping r = if o.buf = mapFailed then none
      else some (o.buf, toUlong (toInt32 stSize)) := by
    rw [AioState.mapping, hlast', if_pos rfl]
    simp [CopyRequest.mapping, hbuf]
  have hcases : ∀ s q, a'.reqs.last? s = some q →
      (s = r ∧ q.buffer = o.buf ∧ q.state = 1) ∨ a.reqs.last? s = some q := by
    intro s q hq
    rw [hlast'] at hq
    split_ifs at hq with hs
    · obtain rfl := Option.some.inj hq
      exact Or.inl ⟨hs, rfl, rfl⟩
    · exact Or.inr hq
  refine ⟨?_, ?_, fun s q hq hs => ?_, fun s q hq hs => ?_, fun s q hq hs => ?_,
    fun s q hq hs => ?_, fun s q hq hs => ?_⟩
  · rw [hmaps, hreqs, Heap.next_set]
    -- a failed `mmap` is not noticed: the request goes on without a mapping
    split_ifs at hself ⊢ with hfail
    · have heq : a'.mapping = a.mapping := funext fun s => by
        by_cases hs : s = r
        · rw [hs, hself, hnone]
        · exact hother s hs
      rw [heq]
      exact hb.maps
    · refine (hb.maps.cons _).trans ?_
      have hlt := List.mem_range.mpr (h.acceptedLt r hacc)
      exact (filterMap_perm_cons List.nodup_range hlt hnone hself hother).symm
  · rw [hmaps]
    split_ifs with hfail
    · exact hb.disjoint
    · obtain ⟨-, -, -, -, hdisj⟩ := hanswer.resolve_left hfail
      exact List.pairwise_cons.mpr ⟨hdisj, hb.disjoint⟩
  · rcases hcases s q hq with ⟨-, -, hone⟩ | hq
    · omega
    · exact hb.notStarted s q hq hs
  · rcases hcases s q hq with ⟨-, hqbuf, -⟩ | hq
    · rwa [hqbuf]
    · exact hb.started s q hq hs
  · rcases hcases s q hq with ⟨-, hqbuf, -⟩ | hq
    · rw [hqbuf] at hs ⊢
      exact (hanswer.resolve_left hs).2.2.1
    · exact hb.aligned s q hq hs
  · rw [hlog] at hs
    rcases hcases s q hq with ⟨rfl, -⟩ | hq
    · exact absurd hacc hs
    · exact hb.notAccepted s q hq hs
  · rw [hlog] at hs
    rcases hcases s q hq with ⟨rfl, -⟩ | hq
    · exact absurd hs (h.not_finished_of_mem_queued List.mem_cons_self)
    · exact hb.finished s q hq hs

lemma newRequest (hb : Buffers a) (h : Inv a xs ys b) (srcName dstName : CStr) :
    Buffers (a.newRequest srcName dstName) := by
  have hlast : ∀ s q, (a.newRequest srcName dstName).reqs.last? s = some q →
      (s = a.reqs.next ∧ q.buffer = 0 ∧ q.state = 0) ∨ a.reqs.last? s = some q := by
    intro s q hq
    rcases AioState.last?_newRequest hq with ⟨hs, rfl⟩ | hq
    · exact Or.inl ⟨hs, rfl, rfl⟩
    · exact Or.inr hq
  have hnone : a.reqs.last? a.reqs.next = none := Heap.last?_eq_none_of_le le_rfl
  have hmapping : (a.newRequest srcName dstName).mapping = a.mapping := by
    funext s
    by_cases hs : s = a.reqs.next
    · rw [AioState.mapping, AioState.mapping, hs, hnone]
      cases hq : (a.newRequest srcName dstName).reqs.last? a.reqs.next with
      | none => rfl
      | some q =>
        rcases hlast _ q hq with ⟨-, hzero, -⟩ | hq'
        · simp [CopyRequest.mapping, hzero]
        · simp [hnone] at hq'
    · rw [AioState.mapping, AioState.mapping, AioState.newRequest, Heap.last?_alloc_of_ne hs]
  refine ⟨?_, hb.disjoint, fun s q hq hs => ?_, fun s q hq hs => ?_, fun s q hq hs => ?_,
    fun s q hq hs => ?_, fun s q hq hs => ?_⟩
  · rw [hmapping, AioState.newRequest, Heap.next_alloc, List.range_succ, List.filterMap_append,
      List.filterMap_cons, show a.mapping a.reqs.next = none by rw [AioState.mapping, hnone]; rfl,
      List.filterMap_nil, List.append_nil]
    exact hb.maps
  · rcases hlast s q hq with ⟨-, hzero, -⟩ | hq
    · exact hzero
    · exact hb.notStarted s q hq hs
  · rcases hlast s q hq with ⟨-, -, hzero⟩ | hq
    · exact absurd hzero hs
    · exact hb.started s q hq hs
  · rcases hlast s q hq with ⟨-, hzero, -⟩ | hq
    · rw [hzero]
      exact dvd_zero _
    · exact hb.aligned s q hq hs
  · rcases hlast s q hq with ⟨-, -, hzero⟩ | hq
    · exact hzero
    · exact hb.notAccepted s q hq hs
  · rcases hlast s q hq with ⟨rfl, -⟩ | hq
    · have hacc := h.mem_accepted_of_holds .finished (by rw [h.finished]; exact hs)
      exact absurd (h.acceptedLt _ hacc) (lt_irrefl _)
    · exact hb.finished s q hq hs

/-- One step keeps the account of the mappings. -/
theorem step (hb : Buffers a) (hgood : Good a) (hstep : a.step act = some a') : Buffers a' := by
  obtain ⟨xs, ys, b, h, -⟩ := id hgood
  cases hgood.moves hstep with
  | same e _ maps =>
    exact hb.of_last (fun s => by rw [e.reqs]) (by rw [e.reqs]) maps (by rw [e.log])
      fun s hs => Or.inl (by rwa [← e.log])
  | reap =>
    refine hb.of_last (fun _ => rfl) rfl rfl (Log.accepted_reap _) fun s hs => Or.inl ?_
    rwa [Log.finished_reap] at hs
  | finishRead e rest q _ hq =>
    exact hb.of_set h hq rfl rfl (List.Subset.refl _) rfl rfl rfl Iff.rfl
  | finishWrite e rest q _ hq _ hst =>
    refine hb.of_last (fun s => Heap.last?_free s) rfl rfl rfl fun s hs => ?_
    rcases List.mem_cons.mp (show s ∈ e.data :: a.log.finished from hs) with rfl | hs
    · refine Or.inr fun p hp => ?_
      obtain rfl := Option.some.inj ((Heap.last?_of_get? hq).symm.trans hp)
      exact hst
    · exact Or.inl hs
  | startRead o size cs r curr stSize _ hhead hcurr hst hposs _ hstSize hbuf =>
    exact hb.startRead h hhead hcurr hst hposs hstSize hbuf
  | submit cs ds _ _ _ _ _ _ log _ reqs _ _ maps =>
    exact hb.of_last (fun s => by rw [reqs]) (by rw [reqs]) maps (by rw [log, Log.accepted_submit])
      fun s hs => Or.inl (by rwa [log, Log.finished_submit] at hs)
  | startWrite fd size cs r curr _ _ hcurr hst =>
    exact hb.of_set h hcurr rfl rfl (List.Subset.refl _) rfl rfl rfl (by simp [hst])
  | complete => exact hb.of_last (fun _ => rfl) rfl rfl rfl fun s hs => Or.inl hs
  | newRequest srcName dstName => exact hb.newRequest h srcName dstName
  | linkIn r q _ hq => exact hb.of_set h hq rfl rfl (List.subset_cons_self _ _) rfl rfl rfl Iff.rfl

theorem of_reaches {readBatchSize writeBatchSize : ℤ}
    (h : Reaches AioState.step anyLabel (AioState.init readBatchSize writeBatchSize) a) :
    Buffers a :=
  h.invariant_of (fun _ hr => Good.of_reaches hr)
    (fun hgood _ hb _ hstep => hb.step hgood hstep) (init _ _)

/-! ### Consequences -/

lemma of_mapping {m : ℕ × ℕ} (hm : a.mapping r = some m) : r < a.reqs.next ∧
    ∃ q, a.reqs.last? r = some q ∧ q.buffer ≠ 0 ∧ q.buffer ≠ mapFailed ∧
      m = (q.buffer, toUlong q.fsize) := by
  obtain ⟨q, hq, hqm⟩ := Option.bind_eq_some_iff.mp hm
  rw [CopyRequest.mapping] at hqm
  split_ifs at hqm with hnone
  rw [not_or] at hnone
  refine ⟨?_, q, hq, hnone.1, hnone.2, (Option.some.inj hqm).symm⟩
  by_contra hge
  simp [Heap.last?_eq_none_of_le (not_lt.mp hge)] at hq

/-- The mappings of two requests do not overlap. -/
lemma disjoint_of_ne (hb : Buffers a) {s : ReqId} (hrs : r ≠ s) {m m' : ℕ × ℕ}
    (hm : a.mapping r = some m) (hm' : a.mapping s = some m') : DisjointMaps m m' := by
  have hpair := (hb.maps.pairwise_iff DisjointMaps.symm).mp hb.disjoint
  rw [List.pairwise_filterMap] at hpair
  have hsymm : Std.Symm fun i j => ∀ k, a.mapping i = some k → ∀ k', a.mapping j = some k' →
      DisjointMaps k k' := ⟨fun i j h k hk k' hk' => (h k' hk' k hk).symm⟩
  exact hpair.forall (List.mem_range.mpr (of_mapping hm).1)
    (List.mem_range.mpr (of_mapping hm').1) hrs m hm m' hm'

/-- **A live mapping** holds the buffer of a request whose read was started. -/
theorem mem_maps_iff (hb : Buffers a) (h : Inv a xs ys b) {addr : ℕ} :
    addr ∈ a.maps.map Prod.fst ↔ addr ≠ mapFailed ∧
      ∃ r, (r ∈ a.running .pread ∨ r ∈ ys ∨ r ∈ a.running .pwrite ∨ r ∈ a.log.finished) ∧
        ∃ q, a.reqs.last? r = some q ∧ q.buffer = addr := by
  have hmaps : addr ∈ a.maps.map Prod.fst ↔ ∃ r m, a.mapping r = some m ∧ m.1 = addr := by
    simp only [List.mem_map, hb.maps.mem_iff, List.mem_filterMap, List.mem_range]
    constructor
    · rintro ⟨m, ⟨r, -, hm⟩, rfl⟩
      exact ⟨r, m, hm, rfl⟩
    · rintro ⟨r, m, hm, rfl⟩
      exact ⟨m, ⟨r, (of_mapping hm).1, hm⟩, rfl⟩
  rw [hmaps]
  constructor
  · rintro ⟨r, m, hm, rfl⟩
    obtain ⟨-, q, hq, hzero, hfail, rfl⟩ := of_mapping hm
    refine ⟨hfail, r, ?_, q, hq, rfl⟩
    have hst : q.state ≠ 0 := fun hst => hzero (hb.notStarted r q hq hst)
    have hacc : r ∈ a.log.accepted := by
      by_contra hacc
      exact hst (hb.notAccepted r q hq hacc)
    have hplaces := h.places.mem_iff.mpr hacc
    simp only [List.mem_append] at hplaces
    rcases hplaces with (((hx | hr) | hy) | hw) | hf
    · obtain ⟨p, hp, hpst⟩ := h.queuedRec r hx
      obtain rfl := Option.some.inj ((Heap.last?_of_get? hp).symm.trans hq)
      exact absurd hpst hst
    · exact Or.inl hr
    · exact Or.inr (Or.inl hy)
    · exact Or.inr (Or.inr (Or.inl hw))
    · exact Or.inr (Or.inr (Or.inr hf))
  · rintro ⟨hfail, r, hr, q, hq, rfl⟩
    have hrun : ∀ o, r ∈ a.running o → q.state ≠ 0 := by
      intro o hmem
      obtain ⟨c, hc, -, rfl⟩ := mem_reqsOf.mp hmem
      obtain ⟨p, hp, -, hdesc⟩ := h.refRec c hc
      obtain rfl := Option.some.inj ((Heap.last?_of_get? hp).symm.trans hq)
      rw [hdesc.state]
      cases c.opcode <;> simp
    have hst : q.state ≠ 0 := by
      rcases hr with hr | hy | hw | hf
      · exact hrun _ hr
      · obtain ⟨p, hp, hpst⟩ := h.toWriteRec r hy
        obtain rfl := Option.some.inj ((Heap.last?_of_get? hp).symm.trans hq)
        omega
      · exact hrun _ hw
      · rw [hb.finished r q hq hf]
        decide
    refine ⟨r, (q.buffer, toUlong q.fsize), ?_, rfl⟩
    rw [AioState.mapping, hq]
    simp [CopyRequest.mapping, hb.started r q hq hst, hfail]

end Buffers

end Cpr
