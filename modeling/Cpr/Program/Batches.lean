/-
# How often `io_submit` is called for reads

Before `flush` is set, `aio_loop` submits reads in batches of exactly the batch size; after
that it takes whatever is left in the read list, once, and nothing is added any more.  So
the number of calls is the number of full batches, and at most one more.
-/
import Cpr.Program.Drain

namespace Cpr

open Transition

/-- `io_submit` is called for reads. -/
def Act.readSubmits : Act → Bool
  | .readSubmit _ => true
  | _ => false

/-- `io_submit` is called for reads. -/
def Label.readSubmits : Label → Bool
  | .aio act => act.readSubmits
  | _ => false

/-- The number of reads submitted so far. -/
def AioState.readCount (a : AioState) : ℕ := (reqsOf .pread a.log.submitted).length

lemma AioState.readCount_submit (a : AioState) (ret size : ℤ) (cs : List Iocb) (next : AioPc)
    (stop : List Iocb → AioPc) : (a.submit ret size cs next stop).readCount =
      (reqsOf .pread (AioState.accepted ret cs)).length + a.readCount := by
  have hlog : (a.submit ret size cs next stop).log =
      ((AioState.accepted ret cs).map Obs.submitted).reverse ++ a.log := by
    rw [AioState.submit]
    split_ifs <;> rfl
  rw [AioState.readCount, hlog, Log.submitted_submit, reqsOf_append, List.length_append,
    (reqsOf_perm (List.reverse_perm _)).length_eq]
  rfl

/-- What a step of `aio_loop` that submits no reads leaves alone. -/
structure Unsubmitted (a a' : AioState) : Prop where
  readCount : a'.readCount = a.readCount
  readBatchSize : a'.mgr.readBatchSize = a.mgr.readBatchSize
  readLoop : ∀ size cs, a'.pc = .readLoop size cs → ∃ cs', a.pc = .readLoop size cs'

namespace Unsubmitted

variable {a a' : AioState} {act : Act}

lemma handleEvent {e : IoEvent} {rest : List IoEvent} : Unsubmitted a (a.handleEvent e rest) := by
  unfold AioState.handleEvent
  cases a.reqs.get? e.data with
  | none => exact ⟨rfl, rfl, fun _ cs hat => ⟨cs, hat⟩⟩
  | some q =>
    dsimp only
    split_ifs
    · exact ⟨rfl, rfl, fun _ cs hat => ⟨cs, hat⟩⟩
    · exact ⟨rfl, rfl, by simp [AioState.finishRead]⟩
    · exact ⟨rfl, rfl, by simp [AioState.finishWrite]⟩
    · exact ⟨rfl, rfl, by simp⟩

lemma readOne {o : AioState.ReadAnswer} {size : ℤ} {cs : List Iocb}
    (hpc : a.pc = .readLoop size cs) : Unsubmitted a (a.readOne o size cs) := by
  unfold AioState.readOne
  cases a.mgr.readHead with
  | none => exact ⟨rfl, rfl, fun _ cs hat => ⟨cs, hat⟩⟩
  | some r =>
    dsimp only
    cases a.reqs.get? r with
    | none => exact ⟨rfl, rfl, fun _ cs hat => ⟨cs, hat⟩⟩
    | some curr =>
      cases o.stSize with
      | none =>
        dsimp only
        split_ifs <;> exact ⟨rfl, rfl, fun _ cs hat => ⟨cs, hat⟩⟩
      | some n =>
        dsimp only
        split_ifs
        · exact ⟨rfl, rfl, fun _ cs hat => ⟨cs, hat⟩⟩
        · exact ⟨rfl, rfl, fun _ cs hat => ⟨cs, hat⟩⟩
        · refine ⟨rfl, rfl, fun n ds hat => ?_⟩
          simp only [AioState.startRead, AioPc.readLoop.injEq] at hat
          exact ⟨cs, hat.1 ▸ hpc⟩

lemma writeOne {fd size : ℤ} {cs : List Iocb} : Unsubmitted a (a.writeOne fd size cs) := by
  unfold AioState.writeOne
  cases a.mgr.writeHead with
  | none => exact ⟨rfl, rfl, fun _ cs hat => ⟨cs, hat⟩⟩
  | some r =>
    dsimp only
    cases a.reqs.get? r with
    | none => exact ⟨rfl, rfl, fun _ cs hat => ⟨cs, hat⟩⟩
    | some curr =>
      dsimp only
      split_ifs
      · exact ⟨rfl, rfl, fun _ cs hat => ⟨cs, hat⟩⟩
      · exact ⟨rfl, rfl, by simp [AioState.startWrite]⟩

lemma of_fires (h : AioState.Fires a act a') (hact : act.ofClient = false)
    (hsubmit : act.readSubmits = false) (hsize : act ≠ .readSize) (hgood : Good a) :
    Unsubmitted a a' := by
  cases h with
  | startThread | bumpReqCount | newRequest | clientLockRequest | addCopyReq
  | clientUnlockRequest | clientLockFlush | setFlush | clientUnlockFlush | exit =>
    simp [Act.ofClient] at hact
  | readSize => exact absurd rfl hsize
  | readSubmit => simp [Act.readSubmits] at hsubmit
  | lockFlush | unlockBreak | lockRequest | unlockRequest | unlockFlush =>
    exact ⟨rfl, rfl, by simp⟩
  | getEvents events =>
    refine ⟨?_, rfl, by simp⟩
    rw [AioState.readCount, Log.submitted_reap]
    rfl
  | checkDone | writeSize =>
    refine ⟨rfl, rfl, fun size cs hat => ?_⟩
    simp only [AioState.checkDone, AioState.writeSize] at hat
    split_ifs at hat
  | complete => exact ⟨rfl, rfl, fun _ cs hat => ⟨cs, hat⟩⟩
  | handleEvent => exact .handleEvent
  | readOne _ _ _ hpc => exact .readOne hpc
  | writeOne => exact .writeOne
  | writeSubmit ret size cs hpc =>
    obtain ⟨xs, ys, b, -, hloop⟩ := hgood
    have hwrites : reqsOf .pread (AioState.accepted ret cs) = [] := by
      rw [reqsOf, List.map_eq_nil_iff, List.filter_eq_nil_iff]
      intro c hc
      simp [(hloop.writeLoop size cs hpc).1 c (List.mem_of_mem_take hc)]
    obtain ⟨hmgr, -, hat⟩ := a.submit_facts ret size cs .unlockFlush (.writeLoop size)
    refine ⟨?_, by rw [hmgr], fun n ds hds => ?_⟩
    · rw [a.readCount_submit, hwrites, List.length_nil, Nat.zero_add]
    · rcases hat with hat | ⟨_, hat⟩ <;> simp [hds] at hat

end Unsubmitted

/-- Where the batches are, after `k` calls for reads. -/
inductive Batched (b : ℤ) (k : ℕ) (a : AioState) : Prop
  /-- Every call so far was for a whole batch; the loop may be preparing the next one, or the one
  with everything that is left. -/
  | filling (hcount : b.toNat * k ≤ a.readCount) (hneg : b ≤ 0 → k = 0)
      (hloop : ∀ size cs, a.pc = .readLoop size cs → a.mgr.flush = false ∧ size = b ∧ 0 < b ∨
        a.mgr.flush = true ∧ a.readCount + size = a.log.accepted.length)
  /-- Everything was submitted. -/
  | drained (hcount : b.toNat * (k - 1) ≤ a.readCount) (hneg : b ≤ 0 → k ≤ 1)
      (hflush : a.mgr.flush = true) (hall : a.readCount = a.log.accepted.length)
      (hloop : ∀ size cs, a.pc ≠ .readLoop size cs)
  | done (hcount : b.toNat * (k - 1) ≤ a.readCount) (hneg : b ≤ 0 → k ≤ 1)
      (hended : a.ended ≠ none)

namespace Batched

variable {a a' : AioState} {act : Act} {b : ℤ} {k : ℕ} {xs ys : List ReqId}

lemma bound (h : Batched b k a) : b.toNat * (k - 1) ≤ a.readCount ∧ (b ≤ 0 → k ≤ 1) := by
  cases h with
  | filling hcount hneg =>
    refine ⟨(Nat.mul_le_mul_left _ (Nat.sub_le k 1)).trans hcount, fun hb => ?_⟩
    rw [hneg hb]
    exact Nat.zero_le 1
  | drained hcount hneg => exact ⟨hcount, hneg⟩
  | done hcount hneg => exact ⟨hcount, hneg⟩

lemma le_div (h : Batched b k a) : k ≤ a.readCount / b.toNat + 1 := by
  obtain ⟨hcount, hneg⟩ := h.bound
  rcases le_or_gt b 0 with hb | hb
  · exact (hneg hb).trans (Nat.le_add_left 1 _)
  · have hle : k - 1 ≤ a.readCount / b.toNat :=
      (Nat.le_div_iff_mul_le (by omega)).mpr (by rwa [Nat.mul_comm])
    omega

/-- The process ends. -/
lemma of_ended (h : Batched b k a) (hcount : a'.readCount = a.readCount)
    (hended : a'.ended ≠ none) : Batched b k a' :=
  .done (by rw [hcount]; exact h.bound.1) h.bound.2 hended

/-- A step outside the loop over the reads, which requests nothing. -/
lemma of_same (h : Batched b k a) (hended : a.ended = none) (hcount : a'.readCount = a.readCount)
    (hflush : a'.mgr.flush = a.mgr.flush)
    (hacc : a'.log.accepted.length = a.log.accepted.length)
    (hpc : ∀ size cs, a'.pc = .readLoop size cs → ∃ cs', a.pc = .readLoop size cs') :
    Batched b k a' := by
  cases h with
  | filling hk hneg hloop =>
    refine .filling (hcount ▸ hk) hneg fun size cs hat => ?_
    rw [hflush, hcount, hacc]
    obtain ⟨cs', hat'⟩ := hpc size cs hat
    exact hloop size cs' hat'
  | drained hk hneg hset hall hloop =>
    exact .drained (hcount ▸ hk) hneg (hflush.trans hset) (by rw [hcount, hacc, hall])
      fun size cs hat => (hpc size cs hat).elim (hloop size)
  | done _ _ hne => exact absurd hended hne

/-- Outside the loop over the reads, `flush` may be set and a request may be added, but not
after `flush`. -/
lemma of_client (h : Batched b k a) (hended : a.ended = none)
    (hcount : a'.readCount = a.readCount) (hpc : ∀ size cs, a'.pc ≠ .readLoop size cs)
    (hset : a.mgr.flush = true → a'.mgr.flush = true ∧
      a'.log.accepted.length = a.log.accepted.length) : Batched b k a' := by
  cases h with
  | filling hk hneg =>
    exact .filling (hcount ▸ hk) hneg fun size cs hat => absurd hat (hpc size cs)
  | drained hk hneg hflush hall =>
    obtain ⟨hflush', hacc⟩ := hset hflush
    exact .drained (hcount ▸ hk) hneg hflush' (by rw [hcount, hacc, hall]) hpc
  | done _ _ hne => exact absurd hended hne

/-- The size of the next batch is chosen. -/
lemma readSize (h : Batched b k a) (hended : a.ended = none)
    (hbatch : a.mgr.readBatchSize = b)
    (hleft : (a.readCount : ℤ) + a.mgr.readLen = a.log.accepted.length) :
    Batched b k a.readSize := by
  have hchoose (hpos : 0 < a.chooseReadSize) : a.mgr.flush = false ∧ a.chooseReadSize = b ∨
      a.mgr.flush = true ∧ a.readCount + a.chooseReadSize = a.log.accepted.length := by
    rw [AioState.chooseReadSize] at hpos ⊢
    by_cases hflush : a.mgr.flush = true
    · rw [if_pos hflush]
      exact Or.inr ⟨hflush, hleft⟩
    · rw [if_neg hflush] at hpos ⊢
      split_ifs at hpos ⊢
      · exact Or.inl ⟨Bool.eq_false_iff.mpr hflush, hbatch⟩
      · simp at hpos
  cases h with
  | filling hk hneg =>
    refine .filling hk hneg fun size cs hat => ?_
    rw [AioState.readSize] at hat
    dsimp only at hat
    split_ifs at hat with hpos
    · obtain ⟨rfl, rfl⟩ := AioPc.readLoop.inj hat
      rcases hchoose hpos with ⟨hflush, hsize⟩ | hset
      · exact Or.inl ⟨hflush, hsize, hsize ▸ hpos⟩
      · exact Or.inr hset
  | drained hk hneg hflush hall =>
    refine .drained hk hneg hflush hall fun size cs hat => ?_
    rw [AioState.readSize] at hat
    dsimp only at hat
    split_ifs at hat with hpos
    rcases hchoose hpos with ⟨hunset, -⟩ | ⟨-, hsize⟩
    · simp [hflush] at hunset
    · rw [hall] at hsize
      omega
  | done _ _ hne => exact absurd hended hne

/-- A batch is submitted. -/
lemma readSubmit (h : Batched b k a) {ret size : ℤ} {cs : List Iocb}
    (hpc : a.pc = .readLoop size cs) (hended : a.ended = none) (hlen : (cs.length : ℤ) = size)
    (hreads : ∀ c ∈ cs, c.opcode = .pread) :
    Batched b (k + 1) (a.submit ret size cs .unlockRequest (.readLoop size)) := by
  have hcount := a.readCount_submit ret size cs .unlockRequest (.readLoop size)
  cases h with
  | drained _ _ _ _ hloop => exact absurd hpc (hloop size cs)
  | done _ _ hne => exact absurd hended hne
  | filling hk hneg hloop =>
    by_cases hret : ret ≠ size
    · -- the call fails: what was submitted before still counts
      refine .done ?_ (fun hb => by rw [hneg hb]) ?_
      · rw [hcount, Nat.add_sub_cancel]
        exact hk.trans (Nat.le_add_left _ _)
      · rw [AioState.submit, if_pos hret]
        simp [AioState.exit]
    · have hall : (reqsOf .pread (AioState.accepted ret cs)).length = cs.length := by
        rw [(Good.accepted_of_eq hlen.ge hlen.le (not_not.mp hret)).1, reqsOf, List.length_map,
          List.filter_eq_self.mpr (by simpa using hreads)]
      rw [AioState.submit, if_neg hret] at hcount ⊢
      rw [hall] at hcount
      rcases hloop size cs hpc with ⟨-, rfl, hpos⟩ | ⟨hflush, hsize⟩
      · -- a whole batch
        refine .filling ?_ (fun hb => absurd hb (by omega)) (by simp)
        have htoNat : size.toNat = cs.length := by omega
        rw [hcount, Nat.mul_succ]
        omega
      · -- everything that was left
        refine .drained ?_ (fun hb => by rw [hneg hb]) hflush ?_ (by simp)
        · rw [hcount, Nat.add_sub_cancel]
          exact hk.trans (Nat.le_add_left _ _)
        · rw [hcount]
          simp only [Log.accepted_submit]
          omega

end Batched

/-! ## The program -/

section

variable {p p' : Prog} {l : Label} {srcName dstName : CStr} {b : ℤ} {k : ℕ}

/-- What is in the read list was accepted and not submitted. -/
lemma Inv.readCount_add {a : AioState} {xs ys : List ReqId} {belt : Belt Stage ReqId}
    (h : Inv a xs ys belt) (htaken : a.pc.taken = []) :
    a.readCount + xs.length = a.log.accepted.length := by
  have hbelt := belt.arrived_eq_add Stage.queued_covBy
  have hreads := h.submitted .pread
  rw [AioState.taken, htaken, reqsOf_nil, Multiset.coe_nil, add_zero] at hreads
  rw [h.accepted, h.queued, show belt.arrived .reading = _ from hreads, Multiset.coe_add,
    Multiset.coe_eq_coe] at hbelt
  have hlen := hbelt.length_eq
  rw [List.length_append] at hlen
  rw [AioState.readCount]
  omega

namespace Batched

/-- A step of `aio_loop` or of the kernel. -/
lemma aio {a a' : AioState} {act : Act} (h : Batched b k a) (hbatch : a.mgr.readBatchSize = b)
    (hgood : Good a) (hlt : a.log.accepted.length < 2 ^ 31) (hended : a.ended = none)
    (hfires : AioState.Fires a act a') (hact : act.ofClient = false) :
    Batched b (if act.readSubmits then k + 1 else k) a' ∧ a'.mgr.readBatchSize = b := by
  by_cases hsubmit : act.readSubmits = true
  · obtain ⟨xs, ys, belt, hinv, hloop⟩ := hgood
    cases hfires with
    | readSubmit ret size cs hpc hge =>
      obtain ⟨hreads, hlen⟩ := hloop.readLoop size cs hpc
      rw [if_pos hsubmit, (a.submit_facts ret size cs _ _).1]
      exact ⟨h.readSubmit hpc hended (le_antisymm (hlen hended).1 hge) hreads, hbatch⟩
    | _ => simp [Act.readSubmits] at hsubmit
  rw [if_neg hsubmit]
  by_cases hsize : act = .readSize
  · subst hsize
    obtain ⟨xs, ys, belt, hinv, hloop⟩ := hgood
    cases hfires with
    | readSize hpc =>
      refine ⟨h.readSize hended hbatch ?_, hbatch⟩
      have hadd := hinv.readCount_add (by rw [hpc]; rfl)
      rw [hinv.readLen, toInt32_nat (by omega)]
      omega
  · have hun := Unsubmitted.of_fires hfires hact (Bool.eq_false_iff.mpr hsubmit) hsize hgood
    have hframe := aioFrame_of_fires hfires hact
    exact ⟨h.of_same hended hun.readCount hframe.flush (by rw [hframe.accepted]) hun.readLoop,
      hun.readBatchSize.trans hbatch⟩

/-- A step of the main thread. -/
lemma main (h : Batched b k p.aio) (hbatch : p.aio.mgr.readBatchSize = b) (hlocks : Locks p)
    (hcounting : Counting p) (hgood : Good p.aio) (hended : p.aio.ended = none)
    (hfires : Prog.Fires p l p') (hl : ∀ act, l ≠ .aio act) :
    Batched b k p'.aio ∧ p'.aio.mgr.readBatchSize = b := by
  cases hfires with
  | aio act => exact absurd rfl (hl act)
  | initManager | statDir | statReg | statOther | walkEnd | mkdir | opendir | readdirSkip
  | readdirEnqueue | readdirEnd | closedir | join => exact ⟨h, hbatch⟩
  | fail | readdirExit | destroy =>
    exact ⟨h.of_ended rfl (by simp [Prog.fail, AioState.exit]), hbatch⟩
  | bumpReqCount | copyReg | addLock | addUnlock | waitLock | waitUnlock =>
    exact ⟨h.of_same hended rfl rfl rfl fun _ cs hat => ⟨cs, hat⟩, hbatch⟩
  | startThread => exact ⟨h.of_same hended rfl rfl rfl (by simp), hbatch⟩
  | addLink r hpc hr =>
    obtain ⟨q, -, heq⟩ := hgood.addCopyReq_eq hr
    have hheld : p.aio.mgr.requestMutex = some .main := hlocks.mainRequest.mpr (by rw [hpc]; rfl)
    rw [heq]
    refine ⟨h.of_client hended rfl (fun size cs hat => ?_) fun hset => ?_, hbatch⟩
    · -- `aio_loop` would hold `request_mutex` there
      have haio := hlocks.aioRequest.mpr (by rw [show p.aio.pc = _ from hat]; rfl)
      simp [hheld] at haio
    · rw [hcounting.flush, hpc] at hset
      simp [MainPc.afterFlush] at hset
  | waitSet hpc =>
    have hheld : p.aio.mgr.flushMutex = some .main := hlocks.mainFlush.mpr (by rw [hpc]; rfl)
    refine ⟨h.of_client hended rfl (fun size cs hat => ?_) fun _ => ⟨rfl, rfl⟩, hbatch⟩
    have haio := hlocks.aioFlush.mpr (by rw [show p.aio.pc = _ from hat]; rfl)
    simp [hheld] at haio

lemma step (h : Batched b k p.aio) (hbatch : p.aio.mgr.readBatchSize = b) (hlocks : Locks p)
    (hcounting : Counting p) (hgood : Good p.aio) (hlt : p.aio.log.accepted.length < 2 ^ 31)
    (hstep : p.step l = some p') :
    Batched b (if l.readSubmits then k + 1 else k) p'.aio ∧ p'.aio.mgr.readBatchSize = b := by
  obtain ⟨hended, hfires⟩ := Prog.fires_of_step hstep
  cases l with
  | aio act =>
    obtain ⟨a, ha, rfl⟩ := Prog.aio_fires hended hfires
    exact h.aio hbatch hgood hlt hended ha (Prog.aio_step hstep).2.1
  | _ => exact h.main hbatch hlocks hcounting hgood hended hfires (by simp)

end Batched

/-- Requests are only added. -/
lemma Prog.accepted_le (hlocks : Locks p) (hgood : Good p.aio) (hstep : p.step l = some p') :
    p.aio.log.accepted.length ≤ p'.aio.log.accepted.length := by
  rcases manager_step hlocks hstep with heq | ⟨act, ha, -⟩
  · rw [heq]
  · exact ((hgood.log_suffix ha).sublist.filterMap _).length_le

/-- **Reads are submitted in batches**: with `n` reads submitted there were at most `n / b + 1`
calls of `io_submit` for them, for every schedule, every order of completions, and whatever
fails.  A batch size that is not positive leaves one call. -/
theorem readSubmits_le_of_exec {ls : List Label}
    (h : exec Prog.step (Prog.init srcName dstName b) ls = some p)
    (hlt : p.aio.log.accepted.length < 2 ^ 31) :
    ls.countP Label.readSubmits ≤ p.aio.readCount / b.toNat + 1 := by
  have hrun : p.aio.log.accepted.length < 2 ^ 31 →
      Batched b (ls.countP Label.readSubmits) p.aio ∧ p.aio.mgr.readBatchSize = b := by
    refine exec_invariant (I := fun ls p => p.aio.log.accepted.length < 2 ^ 31 →
      Batched b (ls.countP Label.readSubmits) p.aio ∧ p.aio.mgr.readBatchSize = b)
      (fun {ls q l q'} hls ih hstep hlt' => ?_) h fun _ => ⟨.filling ?_ ?_ ?_, rfl⟩
    · have hreach : Reaches Prog.step anyLabel (Prog.init srcName dstName b) q :=
        reaches_of_exec (fun _ _ => trivial) hls
      have hlocks := Locks.of_reaches hreach
      have hgood := Prog.good_of_reaches hreach
      have hlt := (Prog.accepted_le hlocks hgood hstep).trans_lt hlt'
      obtain ⟨hbatched, hbatch⟩ := ih hlt
      have hnext := hbatched.step hbatch hlocks (Counting.of_reaches hreach) hgood hlt hstep
      rw [List.countP_append, List.countP_singleton]
      split_ifs at hnext ⊢ <;> exact hnext
    · simp
    · simp
    · simp [Prog.init, AioState.init]
  exact (hrun hlt).1.le_div

end

/-- A run that submits the read of one file, with batch size 1. -/
theorem readSubmits_le_of_exec_one : ∃ (ls : List Label) (p : Prog),
    exec Prog.step (Prog.init ['s'] ['d'] 1) ls = some p ∧ p.aio.readCount = 1 ∧
      ls.countP Label.readSubmits ≤ p.aio.readCount / (1 : ℤ).toNat + 1 := by
  let ls : List Label := [.initManager true, .startThread true, .stat (some .reg), .bumpReqCount,
    .copyReg, .addLock true, .addLink, .addUnlock true, .aio .lockFlush, .aio (.getEvents []),
    .aio .checkDone, .aio .lockRequest, .aio .readSize, .aio (.readOne ⟨3, some 3, 4096⟩),
    .aio (.readSubmit 1)]
  have hrun : (exec Prog.step (Prog.init ['s'] ['d'] 1) ls).map (fun p =>
      (p.aio.readCount, p.aio.log.accepted.length)) = some (1, 1) := by
    decide +kernel
  obtain ⟨p, hp, hfacts⟩ := Option.map_eq_some_iff.mp hrun
  simp only [Prod.mk.injEq] at hfacts
  exact ⟨ls, p, hp, hfacts.1, readSubmits_le_of_exec hp (by rw [hfacts.2]; decide)⟩

end Cpr
