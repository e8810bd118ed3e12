/-
# The invariant of a run of the manager

`Inv` describes the requests; `LoopInv` adds what the two submission loops rely on: while
a loop runs, the list it takes from is long enough.  Together they hold in every state that
any client, any kernel and any schedule can reach, and they exclude every access through a
null or dangling pointer.
-/
import Cpr.Manager.Preserve

namespace Cpr

open Transition

/-- What the two submission loops rely on. -/
structure LoopInv (a : AioState) (xs ys : List ReqId) : Prop where
  readLoop : ∀ size cs, a.pc = .readLoop size cs → (∀ c ∈ cs, c.opcode = .pread) ∧
    (a.ended = none → (cs.length : ℤ) ≤ size ∧ size ≤ cs.length + xs.length)
  writeLoop : ∀ size cs, a.pc = .writeLoop size cs → (∀ c ∈ cs, c.opcode = .pwrite) ∧
    (a.ended = none → (cs.length : ℤ) ≤ size ∧ size ≤ cs.length + ys.length)
  noCrash : a.ended ≠ some .crashed

/-- The invariant of a run: some lists and some belt describe the state. -/
def Good (a : AioState) : Prop := ∃ xs ys b, Inv a xs ys b ∧ LoopInv a xs ys

namespace LoopInv

variable {a a' : AioState} {xs ys xs' ys' : List ReqId}

/-- Outside the two loops there is nothing to keep. -/
lemma of_pc (hread : ∀ size cs, a.pc ≠ .readLoop size cs)
    (hwrite : ∀ size cs, a.pc ≠ .writeLoop size cs) (hended : a.ended ≠ some .crashed) :
    LoopInv a xs ys where
  readLoop size cs h := absurd h (hread size cs)
  writeLoop size cs h := absurd h (hwrite size cs)
  noCrash := hended

/-- The other thread may lengthen the lists and end the process. -/
lemma frame (h : LoopInv a xs ys) (hpc : a'.pc = a.pc) (hxs : xs.length ≤ xs'.length)
    (hys : ys.length ≤ ys'.length) (hended : a'.ended = none → a.ended = none)
    (hcrash : a'.ended ≠ some .crashed) : LoopInv a' xs' ys' where
  readLoop size cs hcs := by
    rw [hpc] at hcs
    refine ⟨(h.readLoop size cs hcs).1, fun he => ?_⟩
    have := (h.readLoop size cs hcs).2 (hended he)
    omega
  writeLoop size cs hcs := by
    rw [hpc] at hcs
    refine ⟨(h.writeLoop size cs hcs).1, fun he => ?_⟩
    have := (h.writeLoop size cs hcs).2 (hended he)
    omega
  noCrash := hcrash

end LoopInv

namespace Good

variable {a a' : AioState} {xs ys : List ReqId} {b : Belt Stage ReqId}

lemma init (readBatchSize writeBatchSize : ℤ) :
    Good (AioState.init readBatchSize writeBatchSize) :=
  ⟨[], [], .empty, .init _ _, .of_pc (by simp [AioState.init]) (by simp [AioState.init])
    (by simp [AioState.init])⟩

/-- A step that leaves the requests alone and ends outside the two loops. -/
lemma of_same (h : Inv a xs ys b) (e : SameRequests a a')
    (hread : ∀ size cs, a'.pc ≠ .readLoop size cs)
    (hwrite : ∀ size cs, a'.pc ≠ .writeLoop size cs) (hended : a'.ended ≠ some .crashed) :
    Good a' := ⟨xs, ys, b, h.frame e, .of_pc hread hwrite hended⟩

/-- A step of the other thread that leaves the requests alone. -/
lemma of_client (h : Inv a xs ys b) (hl : LoopInv a xs ys) (e : SameRequests a a')
    (hpc : a'.pc = a.pc) (hended : a'.ended = none → a.ended = none)
    (hcrash : a'.ended ≠ some .crashed) : Good a' :=
  ⟨xs, ys, b, h.frame e, hl.frame hpc le_rfl le_rfl hended hcrash⟩

/-- The process exits during a step of `aio_loop`. -/
lemma of_exit (h : Inv a xs ys b) (hl : LoopInv a xs ys) (e : SameRequests a a')
    (hpc : a'.pc = a.pc) {code : ℤ} (hended : a'.ended = some (.exited code)) : Good a' :=
  of_client h hl e hpc (by simp [hended]) (by simp [hended])

lemma readSize (h : Inv a xs ys b) (hpc : a.pc = .readSize) (hended : a.ended = none) :
    Good a.readSize := by
  have e : SameRequests a a.readSize := by
    refine ⟨rfl, rfl, rfl, rfl, rfl, rfl, rfl, rfl, ?_, ?_, rfl, rfl⟩ <;>
    · simp only [AioState.readSize, hpc]
      split_ifs <;> rfl
  refine ⟨xs, ys, b, h.frame e, ?_⟩
  by_cases hpos : a.chooseReadSize > 0
  · have hle : a.chooseReadSize ≤ xs.length := by
      have hlen := h.readLen
      have := toInt32_le_of_nat xs.length
      unfold AioState.chooseReadSize
      split_ifs <;> omega
    refine ⟨fun size cs hcs => ?_, fun size cs hcs => ?_, by simp [AioState.readSize, hended]⟩
    · simp only [AioState.readSize, if_pos hpos, AioPc.readLoop.injEq] at hcs
      obtain ⟨rfl, rfl⟩ := hcs
      exact ⟨by simp, fun _ => ⟨by simpa using hpos.le, by simpa using hle⟩⟩
    · simp [AioState.readSize, if_pos hpos] at hcs
  · exact .of_pc (by simp [AioState.readSize, hpos]) (by simp [AioState.readSize, hpos])
      (by simp [AioState.readSize, hended])

lemma writeSize (h : Inv a xs ys b) (hpc : a.pc = .writeSize) (hended : a.ended = none) :
    Good a.writeSize := by
  have e : SameRequests a a.writeSize := by
    refine ⟨rfl, rfl, rfl, rfl, rfl, rfl, rfl, rfl, ?_, ?_, rfl, rfl⟩ <;>
    · simp only [AioState.writeSize, hpc]
      split_ifs <;> rfl
  refine ⟨xs, ys, b, h.frame e, ?_⟩
  by_cases hpos : a.chooseWriteSize > 0
  · have hle : a.chooseWriteSize ≤ ys.length := by
      have hlen := h.writeLen
      have := toInt32_le_of_nat ys.length
      unfold AioState.chooseWriteSize
      split_ifs <;> omega
    refine ⟨fun size cs hcs => ?_, fun size cs hcs => ?_, by simp [AioState.writeSize, hended]⟩
    · simp [AioState.writeSize, if_pos hpos] at hcs
    · simp only [AioState.writeSize, if_pos hpos, AioPc.writeLoop.injEq] at hcs
      obtain ⟨rfl, rfl⟩ := hcs
      exact ⟨by simp, fun _ => ⟨by simpa using hpos.le, by simpa using hle⟩⟩
  · exact .of_pc (by simp [AioState.writeSize, hpos]) (by simp [AioState.writeSize, hpos])
      (by simp [AioState.writeSize, hended])

/-- The head of the read list is there when the loop takes it. -/
lemma readHead (h : Inv a xs ys b) (hl : LoopInv a xs ys) {size : ℤ} {cs : List Iocb}
    (hpc : a.pc = .readLoop size cs) (hended : a.ended = none) (hlt : (cs.length : ℤ) < size) :
    ∃ r tl q, xs = r :: tl ∧ a.mgr.readHead = some r ∧ a.reqs.get? r = some q ∧ q.state = 0 := by
  have hlen := ((hl.readLoop size cs hpc).2 hended).2
  cases xs with
  | nil => simp only [List.length_nil, Nat.cast_zero] at hlen; omega
  | cons r tl =>
    obtain ⟨q, hq, hstate⟩ := h.queuedRec r List.mem_cons_self
    exact ⟨r, tl, q, rfl, h.readList.1, hq, hstate⟩

/-- The head of the write list is there when the loop takes it. -/
lemma writeHead (h : Inv a xs ys b) (hl : LoopInv a xs ys) {size : ℤ} {cs : List Iocb}
    (hpc : a.pc = .writeLoop size cs) (hended : a.ended = none) (hlt : (cs.length : ℤ) < size) :
    ∃ r tl q, ys = r :: tl ∧ a.mgr.writeHead = some r ∧ a.reqs.get? r = some q ∧
      q.state = 1 := by
  have hlen := ((hl.writeLoop size cs hpc).2 hended).2
  cases ys with
  | nil => simp only [List.length_nil, Nat.cast_zero] at hlen; omega
  | cons r tl =>
    obtain ⟨q, hq, hstate⟩ := h.toWriteRec r List.mem_cons_self
    exact ⟨r, tl, q, rfl, h.writeList.1, hq, hstate⟩

lemma handleEvent (h : Inv a xs ys b) (hl : LoopInv a xs ys) {e : IoEvent} {rest : List IoEvent}
    (hpc : a.pc = .handle (e :: rest)) (hended : a.ended = none) :
    Good (a.handleEvent e rest) := by
  have hmem : e.obj ∈ a.refs := by simp [AioState.refs, hpc]
  obtain ⟨q, hq, -⟩ := h.refRec e.obj hmem
  have hq' : a.reqs.get? e.data = some q := hq
  rw [AioState.handleEvent, hq']
  by_cases hres : e.res ≠ toUlong q.fsize
  · simp only [if_pos hres]
    exact of_exit h hl ⟨rfl, rfl, rfl, rfl, rfl, rfl, rfl, rfl, rfl, rfl, rfl, rfl⟩ rfl rfl
  · simp only [if_neg hres]
    rcases h.opcode_of_state hmem hq with ⟨hst, -⟩ | ⟨hst, -⟩
    · rw [if_pos hst]
      obtain ⟨b', hb'⟩ := h.finishRead hpc hq' hst
      exact ⟨_, _, b', hb', .of_pc (by simp [AioState.finishRead])
        (by simp [AioState.finishRead]) (by simp [AioState.finishRead, hended])⟩
    · rw [if_neg (by omega), if_pos hst]
      obtain ⟨b', hb'⟩ := h.finishWrite hpc hq' hst
      exact ⟨_, _, b', hb', .of_pc (by simp [AioState.finishWrite])
        (by simp [AioState.finishWrite]) (by simp [AioState.finishWrite, hended])⟩

lemma readOne (h : Inv a xs ys b) (hl : LoopInv a xs ys) (o : AioState.ReadAnswer) {size : ℤ}
    {cs : List Iocb} (hpc : a.pc = .readLoop size cs) (hended : a.ended = none)
    (hlt : (cs.length : ℤ) < size) : Good (a.readOne o size cs) := by
  obtain ⟨r, tl, q, rfl, hhead, hq, -⟩ := readHead h hl hpc hended hlt
  simp only [AioState.readOne, hhead, hq]
  by_cases hfd : o.fd < 0
  · rw [if_pos hfd]
    exact of_exit h hl ⟨rfl, rfl, rfl, rfl, rfl, rfl, rfl, rfl, rfl, rfl, rfl, rfl⟩ rfl rfl
  · rw [if_neg hfd]
    cases o.stSize with
    | none =>
      exact of_exit h hl ⟨rfl, rfl, rfl, rfl, rfl, rfl, rfl, rfl, rfl, rfl, rfl, rfl⟩ rfl rfl
    | some stSize =>
      dsimp only
      split_ifs with hbuf
      · exact of_exit h hl ⟨rfl, rfl, rfl, rfl, rfl, rfl, rfl, rfl, rfl, rfl, rfl, rfl⟩ rfl rfl
      · obtain ⟨b', hb'⟩ := h.startRead hpc hq o.fd stSize o.buf
        refine ⟨tl, ys, b', hb', fun n ds hds => ?_, fun n ds hds => ?_, ?_⟩
        · simp only [AioState.startRead, AioPc.readLoop.injEq] at hds
          obtain ⟨rfl, rfl⟩ := hds
          refine ⟨fun c hc => ?_, fun _ => ?_⟩
          · rcases List.mem_append.mp hc with hc | hc
            · exact (hl.readLoop _ _ hpc).1 c hc
            · obtain rfl := List.mem_singleton.mp hc
              rfl
          · have := (hl.readLoop _ _ hpc).2 hended
            simp only [List.length_append, List.length_cons, List.length_nil] at this ⊢
            omega
        · simp [AioState.startRead] at hds
        · simp [AioState.startRead, hended]

lemma writeOne (h : Inv a xs ys b) (hl : LoopInv a xs ys) (fd : ℤ) {size : ℤ}
    {cs : List Iocb} (hpc : a.pc = .writeLoop size cs) (hended : a.ended = none)
    (hlt : (cs.length : ℤ) < size) : Good (a.writeOne fd size cs) := by
  obtain ⟨r, tl, q, rfl, hhead, hq, -⟩ := writeHead h hl hpc hended hlt
  simp only [AioState.writeOne, hhead, hq]
  split_ifs with hfd
  · exact of_exit h hl ⟨rfl, rfl, rfl, rfl, rfl, rfl, rfl, rfl, rfl, rfl, rfl, rfl⟩ rfl rfl
  · obtain ⟨b', hb'⟩ := h.startWrite hpc hq fd
    refine ⟨xs, tl, b', hb', fun n ds hds => ?_, fun n ds hds => ?_, ?_⟩
    · simp [AioState.startWrite] at hds
    · simp only [AioState.startWrite, AioPc.writeLoop.injEq] at hds
      obtain ⟨rfl, rfl⟩ := hds
      refine ⟨fun c hc => ?_, fun _ => ?_⟩
      · rcases List.mem_append.mp hc with hc | hc
        · exact (hl.writeLoop _ _ hpc).1 c hc
        · obtain rfl := List.mem_singleton.mp hc
          rfl
      · have := (hl.writeLoop _ _ hpc).2 hended
        simp only [List.length_append, List.length_cons, List.length_nil] at this ⊢
        omega
    · simp [AioState.startWrite, hended]

/-- When `io_submit` accepts everything, nothing is left in the local array. -/
lemma accepted_of_eq {ret size : ℤ} {cs : List Iocb} (hle : size ≤ cs.length)
    (hge : (cs.length : ℤ) ≤ size) (hret : ret = size) :
    AioState.accepted ret cs = cs ∧ cs.drop ret.toNat = [] := by
  have hn : ret.toNat = cs.length := by omega
  rw [AioState.accepted, hn]
  exact ⟨List.take_length, List.drop_length⟩

lemma readSubmit (h : Inv a xs ys b) (hl : LoopInv a xs ys) (ret : ℤ) {size : ℤ}
    {cs : List Iocb} (hpc : a.pc = .readLoop size cs) (hended : a.ended = none)
    (hge : size ≤ cs.length) : Good (a.submit ret size cs .unlockRequest (.readLoop size)) := by
  have hsplit : a.pc.taken = AioState.accepted ret cs ++ cs.drop ret.toNat := by
    rw [hpc]
    exact (List.take_append_drop _ _).symm
  have hevents : a.pc.events = [] := by rw [hpc]; rfl
  have hlen := ((hl.readLoop size cs hpc).2 hended).1
  by_cases hret : ret ≠ size
  · rw [AioState.submit, if_pos hret]
    refine ⟨xs, ys, b, h.submit hsplit rfl hevents.symm rfl rfl rfl rfl rfl, ?_⟩
    refine ⟨fun n ds hds => ?_, fun n ds hds => ?_, by simp [AioState.exit]⟩
    · simp only [AioState.exit, AioPc.readLoop.injEq] at hds
      obtain ⟨rfl, rfl⟩ := hds
      refine ⟨fun c hc => (hl.readLoop _ cs hpc).1 c (List.mem_of_mem_drop hc), ?_⟩
      simp [AioState.exit]
    · simp [AioState.exit] at hds
  · rw [AioState.submit, if_neg hret]
    obtain ⟨-, hdrop⟩ := accepted_of_eq hge hlen (not_not.mp hret)
    refine ⟨xs, ys, b, h.submit hsplit ?_ ?_ rfl rfl rfl rfl rfl,
      .of_pc (by simp) (by simp) (by simp [hended])⟩
    · rw [hdrop]; rfl
    · rw [hevents]; rfl

lemma writeSubmit (h : Inv a xs ys b) (hl : LoopInv a xs ys) (ret : ℤ) {size : ℤ}
    {cs : List Iocb} (hpc : a.pc = .writeLoop size cs) (hended : a.ended = none)
    (hge : size ≤ cs.length) : Good (a.submit ret size cs .unlockFlush (.writeLoop size)) := by
  have hsplit : a.pc.taken = AioState.accepted ret cs ++ cs.drop ret.toNat := by
    rw [hpc]
    exact (List.take_append_drop _ _).symm
  have hevents : a.pc.events = [] := by rw [hpc]; rfl
  have hlen := ((hl.writeLoop size cs hpc).2 hended).1
  by_cases hret : ret ≠ size
  · rw [AioState.submit, if_pos hret]
    refine ⟨xs, ys, b, h.submit hsplit rfl hevents.symm rfl rfl rfl rfl rfl, ?_⟩
    refine ⟨fun n ds hds => ?_, fun n ds hds => ?_, by simp [AioState.exit]⟩
    · simp [AioState.exit] at hds
    · simp only [AioState.exit, AioPc.writeLoop.injEq] at hds
      obtain ⟨rfl, rfl⟩ := hds
      refine ⟨fun c hc => (hl.writeLoop _ cs hpc).1 c (List.mem_of_mem_drop hc), ?_⟩
      simp [AioState.exit]
  · rw [AioState.submit, if_neg hret]
    obtain ⟨-, hdrop⟩ := accepted_of_eq hge hlen (not_not.mp hret)
    refine ⟨xs, ys, b, h.submit hsplit ?_ ?_ rfl rfl rfl rfl rfl,
      .of_pc (by simp) (by simp) (by simp [hended])⟩
    · rw [hdrop]; rfl
    · rw [hevents]; rfl

/-- **One step keeps the invariant**, whoever moves and whatever the kernel answers. -/
theorem step {act : Act} (hgood : Good a) (hstep : a.step act = some a') : Good a' := by
  obtain ⟨xs, ys, b, h, hl⟩ := hgood
  obtain ⟨hended, hfires⟩ := AioState.fires_of_step hstep
  cases hfires with
  | lockFlush hpc | unlockBreak hpc | lockRequest hpc | unlockRequest hpc | unlockFlush hpc
  | startThread hpc =>
    refine of_same h ⟨rfl, rfl, rfl, rfl, rfl, rfl, rfl, rfl, ?_, ?_, rfl, rfl⟩ (by simp)
      (by simp) (by simp [hended]) <;>
    · rw [hpc]
      rfl
  | getEvents events hpc hten hsub =>
    have hget : a.getEvents events = some _ := if_pos ⟨hten, hsub⟩
    exact ⟨xs, ys, b, h.getEvents hpc hget, .of_pc (by simp) (by simp) (by simp [hended])⟩
  | handleEvent e rest hpc => exact handleEvent h hl hpc hended
  | checkDone hpc =>
    refine of_same h ⟨rfl, rfl, rfl, rfl, rfl, rfl, rfl, rfl, ?_, ?_, rfl, rfl⟩ ?_ ?_
      (by simp [AioState.checkDone, hended])
    · simp only [AioState.checkDone, hpc]
      split_ifs <;> rfl
    · simp only [AioState.checkDone, hpc]
      split_ifs <;> rfl
    · simp only [AioState.checkDone]
      split_ifs <;> simp
    · simp only [AioState.checkDone]
      split_ifs <;> simp
  | readSize hpc => exact readSize h hpc hended
  | readOne o size cs hpc hlt => exact readOne h hl o hpc hended hlt
  | readSubmit ret size cs hpc hge => exact readSubmit h hl ret hpc hended hge
  | writeSize hpc => exact writeSize h hpc hended
  | writeOne fd size cs hpc hlt => exact writeOne h hl fd hpc hended hlt
  | writeSubmit ret size cs hpc hge => exact writeSubmit h hl ret hpc hended hge
  | complete c res hmem hres =>
    exact ⟨xs, ys, b, h.complete (if_pos ⟨hmem, hres⟩),
      hl.frame rfl le_rfl le_rfl id (by simp [hended])⟩
  | newRequest srcName dstName =>
    exact ⟨xs, ys, b, h.newRequest srcName dstName,
      hl.frame rfl le_rfl le_rfl id (by simp [AioState.newRequest, hended])⟩
  | addCopyReq r hheld hr =>
    obtain ⟨q, hq, hlink⟩ := h.addCopyReq_eq hr
    obtain ⟨b', hb'⟩ := h.linkIn hr hq
    rw [hlink]
    exact ⟨r :: xs, ys, b', hb',
      hl.frame rfl (Nat.le_succ _) le_rfl id (by simp [AioState.linkIn, hended])⟩
  | clientLockRequest | clientUnlockRequest | clientLockFlush | clientUnlockFlush
  | bumpReqCount | setFlush | exit =>
    refine of_client h hl ⟨rfl, rfl, rfl, rfl, rfl, rfl, rfl, rfl, rfl, rfl, rfl, rfl⟩ rfl
      (fun _ => hended) ?_
    simp [AioState.bumpReqCount, AioState.setFlush, AioState.exit, hended]

lemma addCopyReq_eq (h : Good a) {r : ReqId} (hr : a.mainReq = some r) :
    ∃ q, a.reqs.get? r = some q ∧ a.addCopyReq r = a.linkIn r q := by
  obtain ⟨xs, ys, b, hinv, -⟩ := h
  exact hinv.addCopyReq_eq hr

/-- **The invariant of a run**, for any client, kernel and schedule. -/
theorem of_reaches {readBatchSize writeBatchSize : ℤ}
    (h : Reaches AioState.step anyLabel (AioState.init readBatchSize writeBatchSize) a) :
    Good a :=
  h.invariant (fun hs _ hstep => hs.step hstep) (init _ _)

end Good

end Cpr
