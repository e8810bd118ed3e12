/-
# The submission loops

The read phase and the write phase of `aio_loop` have one shape: they fix a size, take that
many requests from the front of a list, prepare a control block for each, and pass the
control blocks to `io_submit`.  Here both are described by the operation they are for.

The loop works on the shared head pointer, while its bound was fixed before.  What it has
done after some iterations is therefore compared with the list at the start of the phase:
the requests taken are a prefix of it, and the list is what is left.
-/
import Cpr.Manager.Conservation

namespace Cpr

open Transition

/-- Where the phase of an operation starts. -/
def AioPc.phase : Opcode → AioPc
  | .pread => .readSize
  | .pwrite => .writeSize

/-- The loop of the phase. -/
def AioPc.loop : Opcode → ℤ → List Iocb → AioPc
  | .pread => .readLoop
  | .pwrite => .writeLoop

/-- Where `aio_loop` goes on after the phase. -/
def AioPc.afterPhase : Opcode → AioPc
  | .pread => .unlockRequest
  | .pwrite => .unlockFlush

namespace Act

/-- The size is fixed. -/
def size : Opcode → Act
  | .pread => .readSize
  | .pwrite => .writeSize

/-- One iteration of the loop. -/
def TakesOne : Opcode → Act → Prop
  | .pread, act => ∃ answer, act = .readOne answer
  | .pwrite, act => ∃ fd, act = .writeOne fd

/-- `io_submit` at the end of the phase. -/
def submit : Opcode → ℤ → Act
  | .pread => .readSubmit
  | .pwrite => .writeSubmit

end Act

namespace AioState

/-- The list that the operation takes its requests from. -/
def head (a : AioState) : Opcode → Option ReqId
  | .pread => a.mgr.readHead
  | .pwrite => a.mgr.writeHead

/-- The counter of that list. -/
def len (a : AioState) : Opcode → ℤ
  | .pread => a.mgr.readLen
  | .pwrite => a.mgr.writeLen

def batchSize (a : AioState) : Opcode → ℤ
  | .pread => a.mgr.readBatchSize
  | .pwrite => a.mgr.writeBatchSize

/-- The value of `read_size` or `write_size` before the loop. -/
def chooseSize (a : AioState) : Opcode → ℤ
  | .pread => a.chooseReadSize
  | .pwrite => a.chooseWriteSize

/-- How many requests the phase takes from a list of `n`: all of them when the manager is
flushed, otherwise one batch or nothing. -/
def quota (a : AioState) (o : Opcode) (n : ℕ) : ℕ :=
  if a.mgr.flush then n
  else if 0 < a.batchSize o ∧ a.batchSize o ≤ n then (a.batchSize o).toNat
  else 0

/-- Since the state `a`, the requests `done` were taken from the front of the list
`done ++ rest`, and `cs` are their control blocks. -/
structure Takes (o : Opcode) (a a' : AioState) (done rest : List ReqId) (cs : List Iocb) :
    Prop where
  nodup : (done ++ rest).Nodup
  data : cs.map (·.data) = done
  opcode : ∀ c ∈ cs, c.opcode = o
  list : Linked a'.link (a'.head o) rest
  len : a'.len o = a.len o - done.length
  taken : ∀ r ∈ done, ∃ q, a'.reqs.get? r = some q ∧ q.state = o.reqState ∧ q.next = none
  untouched : ∀ r, r ∉ done → a'.reqs.get? r = a.reqs.get? r
  other : ∀ o', o' ≠ o → a'.head o' = a.head o' ∧ a'.len o' = a.len o'

/-- **The phase takes exactly a prefix of its list.** -/
structure SubmitsPrefix (o : Opcode) (a : AioState) (xs : List ReqId) : Prop where
  /-- The size; one that is not positive takes nothing. -/
  size : max (a.chooseSize o) 0 = a.quota o xs.length
  idle : a.quota o xs.length = 0 → a.step (.size o) = some { a with pc := .afterPhase o }
  /-- No null pointer is followed: the process ends only because a call failed. -/
  safe : ∀ acts a', (∀ act ∈ acts, act.TakesOne o) →
    exec step a (.size o :: acts) = some a' → a'.ended = none ∨ a'.ended = some (.exited 1)
  /-- Each iteration takes one request. -/
  takes : ∀ acts a', (∀ act ∈ acts, act.TakesOne o) → exec step a (.size o :: acts) = some a' →
    a'.ended = none → acts.length ≤ a.quota o xs.length ∧
      ∃ cs, Takes o a a' (xs.take acts.length) (xs.drop acts.length) cs
  /-- The loop can always go on to its end. -/
  ends : ∃ acts a', (∀ act ∈ acts, act.TakesOne o) ∧ exec step a (.size o :: acts) = some a' ∧
    a'.ended = none ∧ acts.length = a.quota o xs.length
  /-- What `io_submit` gets. -/
  submits : ∀ acts a' ret a'', (∀ act ∈ acts, act.TakesOne o) →
    exec step a (.size o :: acts) = some a' → a'.step (.submit o ret) = some a'' →
      ∃ cs, cs.map (·.data) = xs.take (a.quota o xs.length) ∧
        cs.length = a.quota o xs.length ∧
        a'' = a'.submit ret (a.quota o xs.length) cs (.afterPhase o)
          (.loop o (a.quota o xs.length)) ∧
        Takes o a a'' (xs.take (a.quota o xs.length)) (xs.drop (a.quota o xs.length)) cs ∧
        -- all of them are in flight, or the process exits
        (ret = a.quota o xs.length → a''.flight = cs.map Op.pending ++ a'.flight ∧
          a''.log = (cs.map Obs.submitted).reverse ++ a'.log ∧ a''.ended = none) ∧
        (ret ≠ a.quota o xs.length → a''.ended = some (.exited 1))

variable {a a' : AioState} {o : Opcode} {xs done rest : List ReqId} {cs : List Iocb}
  {r : ReqId} {act : Act} {k : ℕ}

/-! ### The size -/

lemma chooseSize_eq : a.chooseSize o = if a.mgr.flush then a.len o
    else if a.batchSize o ≤ a.len o then a.batchSize o else 0 := by
  cases o <;> rfl

lemma max_chooseSize (hlen : a.len o = xs.length) :
    max (a.chooseSize o) 0 = a.quota o xs.length := by
  rw [chooseSize_eq, quota, hlen]
  split_ifs <;> omega

lemma quota_le : a.quota o xs.length ≤ xs.length := by
  unfold quota
  split_ifs <;> omega

/-- A step of `aio_loop` is a step of the process. -/
lemma step_of_loopStep (hended : a.ended = none) (h : a.loopStep act = some a') :
    a.step act = some a' := by
  unfold step
  rw [if_neg (by simp [hended])]
  cases act <;> exact Option.or_eq_some_iff.mpr (Or.inl h)

lemma size_step (hended : a.ended = none) (hpc : a.pc = .phase o) :
    a.step (.size o) = some { a with
      pc := if a.chooseSize o > 0 then .loop o (a.chooseSize o) [] else .afterPhase o } := by
  refine step_of_loopStep hended ?_
  cases o <;> exact if_pos hpc

/-! ### One iteration -/

namespace Takes

/-- At the start of the loop nothing is taken. -/
lemma start {pc : AioPc} (hlist : Linked a.link (a.head o) xs) :
    Takes o a { a with pc := pc } [] xs [] where
  nodup := hlist.nodup
  data := rfl
  opcode := by simp
  list := by cases o <;> exact hlist
  len := by cases o <;> exact (sub_zero _).symm
  taken := by simp
  untouched _ _ := rfl
  other o' _ := by cases o' <;> exact ⟨rfl, rfl⟩

/-- The first request of the list is live. -/
lemma exists_get? (h : Takes o a a' done (r :: rest) cs) :
    ∃ curr, a'.head o = some r ∧ a'.reqs.get? r = some curr ∧ Linked a'.link curr.next rest := by
  obtain ⟨hhead, tl, hlink, htl⟩ := h.list
  obtain ⟨curr, hcurr, rfl⟩ := Option.map_eq_some_iff.mp hlink
  exact ⟨curr, hhead, hcurr, htl⟩

/-- The first request of the list gets its control block and leaves the list. -/
lemma snoc (h : Takes o a a' done (r :: rest) cs) {curr q : CopyRequest} {c : Iocb}
    {a'' : AioState} (hcurr : a'.reqs.get? r = some curr) (hreqs : a''.reqs = a'.reqs.set r q)
    (hstate : q.state = o.reqState) (hnext : q.next = none) (hop : c.opcode = o)
    (hdata : c.data = r) (hhead : a''.head o = curr.next) (hlen : a''.len o = a'.len o - 1)
    (hother : ∀ o', o' ≠ o → a''.head o' = a'.head o' ∧ a''.len o' = a'.len o') :
    Takes o a a'' (done ++ [r]) rest (cs ++ [c]) := by
  have hnd : r ∉ rest ∧ r ∉ done := by
    have hperm := (List.perm_middle.nodup_iff.mp h.nodup)
    have hnot := (List.nodup_cons.mp hperm).1
    exact ⟨fun hr => hnot (List.mem_append_right _ hr), fun hr => hnot (List.mem_append_left _ hr)⟩
  have hself : a''.reqs.get? r = some q := by
    rw [hreqs]
    exact Heap.get?_set_self hcurr
  have hne : ∀ s, s ≠ r → a''.reqs.get? s = a'.reqs.get? s := by
    intro s hs
    rw [hreqs]
    exact Heap.get?_set_of_ne hs
  obtain ⟨curr', -, hcurr', htl⟩ := h.exists_get?
  obtain rfl := Option.some.inj (hcurr.symm.trans hcurr')
  refine ⟨by rw [List.append_assoc]; exact h.nodup, by simp [h.data, hdata], fun d hd => ?_, ?_, ?_,
    fun s hs => ?_, fun s hs => ?_, fun o' ho' => ?_⟩
  · rcases List.mem_append.mp hd with hd | hd
    · exact h.opcode d hd
    · rw [List.mem_singleton.mp hd, hop]
  · rw [hhead]
    refine htl.congr fun s hs => ?_
    rw [link, link, hne s fun hsr => hnd.1 (hsr ▸ hs)]
  · rw [hlen, h.len]
    simp
    omega
  · rcases List.mem_append.mp hs with hs | hs
    · rw [hne s fun hsr => hnd.2 (hsr ▸ hs)]
      exact h.taken s hs
    · rw [List.mem_singleton.mp hs]
      exact ⟨q, hself, hstate, hnext⟩
  · rw [List.mem_append, not_or] at hs
    rw [hne s fun hsr => hs.2 (List.mem_singleton.mpr hsr)]
    exact h.untouched s hs.1
  · exact ⟨(hother o' ho').1.trans (h.other o' ho').1, (hother o' ho').2.trans (h.other o' ho').2⟩

end Takes

/-- The counter does not overflow. -/
lemma Takes.toInt32_len (h : Takes o a a' done (r :: rest) cs)
    (hlen : a.len o = (done ++ r :: rest).length) (hint : a.len o < 2 ^ 31) :
    toInt32 (a'.len o - 1) = a'.len o - 1 := by
  have heq := h.len
  simp only [List.length_append, List.length_cons] at hlen
  exact toInt32_of_mem (by omega) (by omega)

/-- What an iteration leaves: the process has ended because a call failed, or one more
request is taken. -/
def TookOne (o : Opcode) (a a' : AioState) (k : ℕ) (done rest : List ReqId) : Prop :=
  a'.ended = some (.exited 1) ∨
    (a'.ended = none ∧ ∃ cs, a'.pc = .loop o k cs ∧ Takes o a a' done rest cs)

lemma Takes.readOne (h : Takes .pread a a' done (r :: rest) cs) (hended : a'.ended = none)
    (hlen : a.len .pread = (done ++ r :: rest).length) (hint : a.len .pread < 2 ^ 31)
    (answer : ReadAnswer) : TookOne .pread a (a'.readOne answer k cs) k (done ++ [r]) rest := by
  obtain ⟨curr, hhead, hcurr, -⟩ := h.exists_get?
  change a'.mgr.readHead = some r at hhead
  unfold AioState.readOne
  simp only [hhead, hcurr]
  by_cases hfd : answer.fd < 0
  · rw [if_pos hfd]
    exact Or.inl rfl
  rw [if_neg hfd]
  cases answer.stSize with
  | none => exact Or.inl rfl
  | some stSize =>
    dsimp only
    by_cases hbuf : answer.buf = 0
    · rw [if_pos hbuf]
      exact Or.inl rfl
    rw [if_neg hbuf]
    refine Or.inr ⟨hended, _, rfl, h.snoc hcurr rfl rfl rfl rfl rfl rfl ?_ fun o' ho' => ?_⟩
    · exact h.toInt32_len hlen hint
    · cases o' with
      | pread => exact absurd rfl ho'
      | pwrite => exact ⟨rfl, rfl⟩

lemma Takes.writeOne (h : Takes .pwrite a a' done (r :: rest) cs) (hended : a'.ended = none)
    (hlen : a.len .pwrite = (done ++ r :: rest).length) (hint : a.len .pwrite < 2 ^ 31)
    (fd : ℤ) : TookOne .pwrite a (a'.writeOne fd k cs) k (done ++ [r]) rest := by
  obtain ⟨curr, hhead, hcurr, -⟩ := h.exists_get?
  change a'.mgr.writeHead = some r at hhead
  unfold AioState.writeOne
  simp only [hhead, hcurr]
  by_cases hfd : fd < 0
  · rw [if_pos hfd]
    exact Or.inl rfl
  rw [if_neg hfd]
  refine Or.inr ⟨hended, _, rfl, h.snoc hcurr rfl rfl rfl rfl rfl rfl ?_ fun o' ho' => ?_⟩
  · exact h.toInt32_len hlen hint
  · cases o' with
    | pread => exact ⟨rfl, rfl⟩
    | pwrite => exact absurd rfl ho'

/-- An iteration is possible as long as the size is not reached. -/
lemma takesOne_inv (hact : act.TakesOne o) (hpc : a.pc = .loop o k cs)
    (hstep : a.step act = some a') : a.ended = none ∧ (cs.length : ℤ) < k ∧
      match o with
      | .pread => ∃ answer, a' = a.readOne answer k cs
      | .pwrite => ∃ fd, a' = a.writeOne fd k cs := by
  obtain ⟨hended, hfires⟩ := fires_of_step hstep
  cases o with
  | pread =>
    obtain ⟨answer, rfl⟩ := hact
    cases hfires with
    | readOne _ size iocbs hpc' hlt =>
      obtain ⟨rfl, rfl⟩ := AioPc.readLoop.inj (hpc.symm.trans hpc')
      exact ⟨hended, hlt, answer, rfl⟩
  | pwrite =>
    obtain ⟨fd, rfl⟩ := hact
    cases hfires with
    | writeOne _ size iocbs hpc' hlt =>
      obtain ⟨rfl, rfl⟩ := AioPc.writeLoop.inj (hpc.symm.trans hpc')
      exact ⟨hended, hlt, fd, rfl⟩

/-- **One iteration takes the first request that is left.** -/
lemma Takes.step (h : Takes o a a' done rest cs) (hpc : a'.pc = .loop o k cs)
    (hk : k ≤ (done ++ rest).length) (hlen : a.len o = (done ++ rest).length)
    (hint : a.len o < 2 ^ 31) (hact : act.TakesOne o) {a'' : AioState}
    (hstep : a'.step act = some a'') : done.length < k ∧
      ∃ r tl, rest = r :: tl ∧ TookOne o a a'' k (done ++ [r]) tl := by
  obtain ⟨hended, hlt, hone⟩ := takesOne_inv hact hpc hstep
  have hcs : cs.length = done.length := by rw [← h.data, List.length_map]
  have hdone : done.length < k := by omega
  refine ⟨hdone, ?_⟩
  cases rest with
  | nil =>
    rw [List.append_nil] at hk
    omega
  | cons r tl =>
    refine ⟨r, tl, rfl, ?_⟩
    cases o with
    | pread =>
      obtain ⟨answer, rfl⟩ := hone
      exact h.readOne hended hlen hint answer
    | pwrite =>
      obtain ⟨fd, rfl⟩ := hone
      exact h.writeOne hended hlen hint fd

/-! ### The loop -/

/-- A process that has ended does not move. -/
lemma eq_of_exec_of_ended {acts : List Act} (hended : a.ended ≠ none)
    (h : exec AioState.step a acts = some a') : a' = a := by
  cases acts with
  | nil => exact (Option.some.inj h).symm
  | cons act acts =>
    obtain ⟨u, hu, -⟩ := Option.bind_eq_some_iff.mp h
    exact absurd (fires_of_step hu).1 hended

/-- **Every iteration takes one request**, by induction over the iterations. -/
lemma Takes.iterate (h : Takes o a a' done rest cs) (hpc : a'.pc = .loop o k cs)
    (hended : a'.ended = none) (hk : k ≤ (done ++ rest).length)
    (hlen : a.len o = (done ++ rest).length) (hint : a.len o < 2 ^ 31) (hdone : done.length ≤ k)
    {acts : List Act} (hacts : ∀ act ∈ acts, act.TakesOne o) {a'' : AioState}
    (hexec : exec AioState.step a' acts = some a'') : a''.ended = some (.exited 1) ∨
      (a''.ended = none ∧ done.length + acts.length ≤ k ∧ ∃ cs', a''.pc = .loop o k cs' ∧
        Takes o a a'' (done ++ rest.take acts.length) (rest.drop acts.length) cs') := by
  induction acts generalizing a' done rest cs with
  | nil =>
    obtain rfl := Option.some.inj hexec
    exact Or.inr ⟨hended, hdone, cs, hpc, by simpa using h⟩
  | cons act acts ih =>
    obtain ⟨u, hu, hrest⟩ := Option.bind_eq_some_iff.mp hexec
    obtain ⟨hlt, r, tl, rfl, hended' | ⟨hended', cs', hpc', h'⟩⟩ :=
      h.step hpc hk hlen hint (hacts act List.mem_cons_self) hu
    · obtain rfl := eq_of_exec_of_ended (by simp [hended']) hrest
      exact Or.inl hended'
    · have hlist : done ++ r :: tl = done ++ [r] ++ tl := by simp
      have hsucc : (done ++ [r]).length = done.length + 1 := List.length_append
      rw [hlist] at hk hlen
      have hres := ih h' hpc' hended' hk hlen (by omega)
        (fun b hb => hacts b (List.mem_cons_of_mem _ hb)) hrest
      refine hres.imp_right fun ⟨hended'', hle, cs'', hpc'', h''⟩ => ⟨hended'', ?_, cs'', hpc'', ?_⟩
      · rw [List.length_cons]
        omega
      · simpa using h''

/-- There is a descriptor that is not open. -/
lemma exists_fresh_fd (fds : Finset ℤ) : ∃ fd : ℤ, 0 ≤ fd ∧ fd ∉ fds := by
  obtain ⟨n, hn⟩ := Infinite.exists_notMem_finset (fds.image Int.toNat)
  refine ⟨n, by omega, fun hmem => hn ?_⟩
  exact Finset.mem_image.mpr ⟨n, hmem, by omega⟩

/-- The next iteration can succeed. -/
lemma Takes.exists_step (h : Takes o a a' done (r :: rest) cs) (hpc : a'.pc = .loop o k cs)
    (hended : a'.ended = none) (hlt : done.length < k) :
    ∃ act a'', act.TakesOne o ∧ a'.step act = some a'' ∧ a''.ended = none := by
  obtain ⟨curr, hhead, hcurr, -⟩ := h.exists_get?
  obtain ⟨fd, hfd, hfresh⟩ := exists_fresh_fd a'.openFds
  have hcs : (cs.length : ℤ) < k := by
    rw [← h.data, List.length_map] at hlt
    omega
  cases o with
  | pread =>
    change a'.mgr.readHead = some r at hhead
    change a'.pc = .readLoop k cs at hpc
    have hposs : ReadAnswer.Possible a' ⟨fd, some 0, mapFailed⟩ := by
      refine ⟨fun _ => hfresh, fun n hn => ?_⟩
      obtain rfl := Option.some.inj hn
      exact ⟨by decide, Or.inl rfl⟩
    refine ⟨.readOne ⟨fd, some 0, mapFailed⟩, a'.readOne ⟨fd, some 0, mapFailed⟩ k cs,
      ⟨_, rfl⟩, step_of_loopStep hended ?_, ?_⟩
    · simp only [loopStep, hpc]
      exact if_pos ⟨hcs, hposs⟩
    · unfold AioState.readOne
      simp only [hhead, hcurr]
      rw [if_neg (not_lt.mpr hfd), if_neg (by decide)]
      exact hended
  | pwrite =>
    change a'.mgr.writeHead = some r at hhead
    change a'.pc = .writeLoop k cs at hpc
    refine ⟨.writeOne fd, a'.writeOne fd k cs, ⟨_, rfl⟩, step_of_loopStep hended ?_, ?_⟩
    · simp only [loopStep, hpc]
      exact if_pos ⟨hcs, fun _ => hfresh⟩
    · unfold AioState.writeOne
      simp only [hhead, hcurr]
      rw [if_neg (not_lt.mpr hfd)]
      exact hended

/-- The loop can go on until the size is reached. -/
lemma Takes.exists_iterate (h : Takes o a a' done rest cs) (hpc : a'.pc = .loop o k cs)
    (hended : a'.ended = none) (hk : k ≤ (done ++ rest).length)
    (hlen : a.len o = (done ++ rest).length) (hint : a.len o < 2 ^ 31) {n : ℕ}
    (hn : done.length + n = k) : ∃ acts a'', (∀ act ∈ acts, act.TakesOne o) ∧
      exec AioState.step a' acts = some a'' ∧ a''.ended = none ∧ acts.length = n := by
  induction n generalizing a' done rest cs with
  | zero => exact ⟨[], a', by simp, rfl, hended, rfl⟩
  | succ n ih =>
    cases rest with
    | nil =>
      rw [List.append_nil] at hk
      omega
    | cons r tl =>
      obtain ⟨act, u, hact, hu, hended'⟩ := h.exists_step hpc hended (by omega)
      obtain ⟨-, r', tl', heq, hone⟩ := h.step hpc hk hlen hint hact hu
      obtain ⟨rfl, rfl⟩ := List.cons.inj heq
      obtain ⟨-, cs', hpc', h'⟩ := hone.resolve_left (by simp [hended'])
      have hlist : done ++ r :: tl = done ++ [r] ++ tl := by simp
      have hsucc : (done ++ [r]).length = done.length + 1 := List.length_append
      rw [hlist] at hk hlen
      obtain ⟨acts, a'', hacts, hexec, hlast, hlength⟩ := ih h' hpc' hended' hk hlen (by omega)
      refine ⟨act :: acts, a'', fun b hb => ?_, ?_, hlast, by simp [hlength]⟩
      · rcases List.mem_cons.mp hb with rfl | hb
        · exact hact
        · exact hacts b hb
      · rw [exec_cons, hu]
        exact hexec

/-- The loop starts when there is something to take. -/
lemma size_step_of_pos (hended : a.ended = none) (hpc : a.pc = .phase o)
    (hlen : a.len o = xs.length) (hpos : 0 < a.quota o xs.length) :
    a.step (.size o) = some { a with pc := .loop o (a.quota o xs.length) [] } := by
  have hsize : a.chooseSize o = a.quota o xs.length := by
    have hmax := max_chooseSize hlen
    omega
  rw [size_step hended hpc, hsize, if_pos (by omega)]

lemma size_step_of_zero (hended : a.ended = none) (hpc : a.pc = .phase o)
    (hlen : a.len o = xs.length) (hzero : a.quota o xs.length = 0) :
    a.step (.size o) = some { a with pc := .afterPhase o } := by
  have hmax := max_chooseSize hlen
  rw [size_step hended hpc, if_neg (by omega)]

/-- After the phase no request is taken. -/
lemma not_step_of_afterPhase (hpc : a.pc = .afterPhase o) (hact : act.TakesOne o) :
    a.step act ≠ some a' := by
  intro hstep
  have hfires := (fires_of_step hstep).2
  cases o with
  | pread =>
    obtain ⟨answer, rfl⟩ := hact
    cases hfires with
    | readOne _ size iocbs hpc' => cases hpc.symm.trans hpc'
  | pwrite =>
    obtain ⟨fd, rfl⟩ := hact
    cases hfires with
    | writeOne _ size iocbs hpc' => cases hpc.symm.trans hpc'

/-- What the phase has done after some iterations. -/
lemma exec_phase (hended : a.ended = none) (hpc : a.pc = .phase o)
    (hlist : Linked a.link (a.head o) xs) (hlen : a.len o = xs.length) (hint : a.len o < 2 ^ 31)
    {acts : List Act} (hacts : ∀ act ∈ acts, act.TakesOne o)
    (hexec : exec AioState.step a (.size o :: acts) = some a') : a'.ended = some (.exited 1) ∨
      (a'.ended = none ∧ acts.length ≤ a.quota o xs.length ∧
        ∃ cs, Takes o a a' (xs.take acts.length) (xs.drop acts.length) cs ∧
          (a'.pc = .loop o (a.quota o xs.length) cs ∨ a'.pc = .afterPhase o)) := by
  obtain ⟨u, hu, hrest⟩ := Option.bind_eq_some_iff.mp hexec
  rcases Nat.eq_zero_or_pos (a.quota o xs.length) with hzero | hpos
  · rw [size_step_of_zero hended hpc hlen hzero] at hu
    obtain rfl := Option.some.inj hu
    cases acts with
    | nil =>
      obtain rfl := Option.some.inj hrest
      exact Or.inr ⟨hended, Nat.zero_le _, [], .start hlist, Or.inr rfl⟩
    | cons act acts =>
      obtain ⟨v, hv, -⟩ := Option.bind_eq_some_iff.mp hrest
      exact absurd hv (not_step_of_afterPhase rfl (hacts act List.mem_cons_self))
  · rw [size_step_of_pos hended hpc hlen hpos] at hu
    obtain rfl := Option.some.inj hu
    refine (Takes.iterate (.start hlist) rfl hended quota_le hlen hint (Nat.zero_le _) hacts
      hrest).imp_right ?_
    rintro ⟨hended', hle, cs, hpc', h⟩
    rw [List.length_nil, Nat.zero_add] at hle
    exact ⟨hended', hle, cs, h, Or.inl hpc'⟩

/-- What `io_submit` gets at the end of the loop. -/
lemma submit_inv {ret : ℤ} (hstep : a.step (.submit o ret) = some a') :
    ∃ size cs, a.pc = .loop o size cs ∧ size ≤ cs.length ∧
      a' = a.submit ret size cs (.afterPhase o) (.loop o size) := by
  have hfires := (fires_of_step hstep).2
  cases o with
  | pread =>
    cases hfires with
    | readSubmit _ size cs hpc hge => exact ⟨size, cs, hpc, hge, rfl⟩
  | pwrite =>
    cases hfires with
    | writeSubmit _ size cs hpc hge => exact ⟨size, cs, hpc, hge, rfl⟩

/-- `io_submit` leaves the lists and the requests alone. -/
lemma Takes.submit (h : Takes o a a' done rest cs) (ret size : ℤ) (next : AioPc)
    (stop : List Iocb → AioPc) : Takes o a (a'.submit ret size cs next stop) done rest cs := by
  unfold AioState.submit
  dsimp only
  split_ifs <;> exact ⟨h.nodup, h.data, h.opcode, h.list, h.len, h.taken, h.untouched, h.other⟩

/-- The kernel accepts all control blocks. -/
lemma submit_all (hended : a.ended = none) (hlength : cs.length = k) {next : AioPc}
    {stop : List Iocb → AioPc} :
    (a.submit k k cs next stop).flight = cs.map Op.pending ++ a.flight ∧
      (a.submit k k cs next stop).log = (cs.map Obs.submitted).reverse ++ a.log ∧
      (a.submit k k cs next stop).ended = none := by
  have hall : accepted k cs = cs := by rw [accepted, Int.toNat_natCast, ← hlength, List.take_length]
  rw [AioState.submit, if_neg (by simp), hall]
  exact ⟨rfl, rfl, hended⟩

/-- **The submission loops take exactly a prefix of their list**, for every state whose
counter is the length of the list. -/
theorem submitsPrefix_of_len (hended : a.ended = none) (hpc : a.pc = .phase o)
    (hlist : Linked a.link (a.head o) xs) (hlen : a.len o = xs.length)
    (hint : a.len o < 2 ^ 31) : SubmitsPrefix o a xs where
  size := max_chooseSize hlen
  idle := size_step_of_zero hended hpc hlen
  safe acts a' hacts hexec :=
    (exec_phase hended hpc hlist hlen hint hacts hexec).elim Or.inr fun h => Or.inl h.1
  takes acts a' hacts hexec hended' := by
    obtain ⟨-, hle, cs, h, -⟩ :=
      (exec_phase hended hpc hlist hlen hint hacts hexec).resolve_left (by simp [hended'])
    exact ⟨hle, cs, h⟩
  ends := by
    rcases Nat.eq_zero_or_pos (a.quota o xs.length) with hzero | hpos
    · refine ⟨[], { a with pc := .afterPhase o }, by simp, ?_, hended, by simp [hzero]⟩
      rw [exec_cons, size_step_of_zero hended hpc hlen hzero]
      rfl
    · have hstart : Takes o a { a with pc := .loop o (a.quota o xs.length) [] } [] xs [] :=
        .start hlist
      obtain ⟨acts, a', hacts, hexec, hlast, hlength⟩ :=
        hstart.exists_iterate rfl hended quota_le hlen hint (Nat.zero_add _)
      refine ⟨acts, a', hacts, ?_, hlast, hlength⟩
      rw [exec_cons, size_step_of_pos hended hpc hlen hpos]
      exact hexec
  submits acts a' ret a'' hacts hexec hstep := by
    obtain ⟨size, cs, hloop, hge, rfl⟩ := submit_inv hstep
    have hended' : a'.ended = none := (fires_of_step hstep).1
    obtain ⟨-, hle, cs', h, hpc'⟩ :=
      (exec_phase hended hpc hlist hlen hint hacts hexec).resolve_left (by simp [hended'])
    have heq : AioPc.loop o size cs = .loop o (a.quota o xs.length) cs' := by
      rcases hpc' with hpc' | hpc'
      · exact hloop.symm.trans hpc'
      · cases o <;> cases hloop.symm.trans hpc'
    obtain ⟨rfl, rfl⟩ : size = a.quota o xs.length ∧ cs = cs' := by
      cases o with
      | pread => exact AioPc.readLoop.inj heq
      | pwrite => exact AioPc.writeLoop.inj heq
    have hcs : cs.length = min acts.length xs.length := by
      rw [← List.length_take, ← h.data, List.length_map]
    have hquota : a.quota o xs.length ≤ xs.length := quota_le
    obtain hacts' : acts.length = a.quota o xs.length := by omega
    rw [hacts'] at h
    have hlength : cs.length = a.quota o xs.length := by omega
    refine ⟨cs, h.data, hlength, rfl, h.submit _ _ _ _, ?_, fun hret => ?_⟩
    · rintro rfl
      exact submit_all hended' hlength
    · rw [AioState.submit, if_pos hret]
      rfl

/-- A request before its read, with its link. -/
def queuedRequest (next : Option ReqId) : CopyRequest where
  srcName := ['a']
  dstName := ['b']
  srcFd := -1
  dstFd := -1
  fsize := 0
  buffer := 0
  next := next
  state := 0

/-- The read phase begins with three requests in the list and batches of two. -/
def threeQueued : AioState where
  __ := AioState.init 2 2
  mgr := { (AioState.init 2 2).mgr with
    readHead := some 2, readLen := 3, requestCount := 3, requestMutex := some .aio,
    flushMutex := some .aio }
  reqs := ((Heap.empty.alloc (queuedRequest none)).alloc (queuedRequest (some 0))).alloc
    (queuedRequest (some 1))
  pc := .readSize

/-- Two of the three are taken. -/
theorem submitsPrefix_of_len_three : threeQueued.quota .pread 3 = 2 ∧
    SubmitsPrefix .pread threeQueued [2, 1, 0] := by
  refine ⟨by decide, submitsPrefix_of_len rfl rfl ?_ rfl (by decide)⟩
  exact ⟨rfl, some 1, rfl, rfl, some 0, rfl, rfl, none, rfl, rfl⟩

end AioState

end Cpr
