/-
# What is left to do

The unfinished requests, weighted by their place, and the phases of an iteration of
`aio_loop` after `flush` is set: each phase empties the list it works on.  The lengths of
the lists are `int`s, so this needs fewer than `2 ^ 31` unfinished requests.
-/
import Cpr.Program.Success

namespace Cpr

open Transition Unix

namespace AioState

/-- The read list. -/
def readList (a : AioState) : List ReqId := chase a.link a.reqs.next a.mgr.readHead

/-- The write list. -/
def writeList (a : AioState) : List ReqId := chase a.link a.reqs.next a.mgr.writeHead

/-- The number of requests accepted and not finished. -/
def unfinished (a : AioState) : ℕ := a.log.accepted.length - a.log.finished.length

/-- The number of submissions and reaped events so far. -/
def work (a : AioState) : ℕ := a.log.submitted.length + a.log.reaped.length

/-- The weight of the unfinished requests. -/
def measure (a : AioState) : ℕ :=
  4 * a.readList.length + 3 * (a.inFlight .pread).length + 2 * a.writeList.length +
    (a.inFlight .pwrite).length

end AioState

/-! ## Counting along the belt -/

namespace Inv

variable {a : AioState} {xs ys : List ReqId} {b : Belt Stage ReqId}

lemma length_le_next (h : Inv a xs ys b) {zs : List ReqId} (hnd : zs.Nodup)
    (hz : ∀ r ∈ zs, r ∈ a.log.accepted) : zs.length ≤ a.reqs.next := by
  have hsub : zs.toFinset ⊆ Finset.range a.reqs.next := fun r hr =>
    Finset.mem_range.mpr (h.acceptedLt r (hz r (List.mem_toFinset.mp hr)))
  have hcard := Finset.card_le_card hsub
  rwa [List.toFinset_card_of_nodup hnd, Finset.card_range] at hcard

lemma readList_eq (h : Inv a xs ys b) : a.readList = xs :=
  h.readList.chase_eq (h.length_le_next h.readList.nodup fun r hr =>
    h.mem_accepted_of_holds .queued (by rw [h.queued]; exact hr))

lemma writeList_eq (h : Inv a xs ys b) : a.writeList = ys :=
  h.writeList.chase_eq (h.length_le_next h.writeList.nodup fun r hr =>
    h.mem_accepted_of_holds .toWrite (by rw [h.toWrite]; exact hr))

lemma length_reqsOf (cs : List Iocb) :
    (reqsOf .pread cs).length + (reqsOf .pwrite cs).length = cs.length := by
  induction cs with
  | nil => rfl
  | cons c cs ih =>
    rw [reqsOf_cons, reqsOf_cons]
    cases c.opcode <;> simp <;> omega

/-- The numbers of submissions and reaped events, by operation. -/
lemma counts (h : Inv a xs ys b) :
    (reqsOf .pread a.log.submitted).length + (a.taken .pread).length + xs.length =
        a.log.accepted.length ∧
      (reqsOf .pread a.log.reaped).length + (a.taken .pread).length +
        (a.inFlight .pread).length + xs.length = a.log.accepted.length ∧
      (reqsOf .pwrite a.log.submitted).length + (a.taken .pwrite).length =
        (a.running .pwrite).length + a.log.finished.length ∧
      (reqsOf .pwrite a.log.reaped).length + (a.taken .pwrite).length +
        (a.inFlight .pwrite).length =
        (a.running .pwrite).length + a.log.finished.length := by
  have hread := congrArg Multiset.card (h.submitted .pread)
  have hread' := congrArg Multiset.card (h.reaped .pread)
  have hwrite := congrArg Multiset.card (h.submitted .pwrite)
  have hwrite' := congrArg Multiset.card (h.reaped .pwrite)
  simp only [Multiset.card_add, Multiset.coe_card] at hread hread' hwrite hwrite'
  -- what arrived in a stage is what is there or in a later one
  have hlast : b.arrived .finished = b.holds .finished := b.arrived_of_isMax isMax_top
  have harr₃ : b.arrived (Opcode.stage .pwrite) = b.holds .writing + b.holds .finished := by
    rw [← hlast]
    exact b.arrived_eq_add Stage.writing_covBy
  have harr₁ : b.arrived (Opcode.stage .pread) =
      b.holds .reading + (b.holds .toWrite + (b.holds .writing + b.holds .finished)) := by
    rw [← harr₃, show b.arrived (Opcode.stage .pwrite) = b.arrived .writing from rfl,
      ← b.arrived_eq_add Stage.toWrite_covBy]
    exact b.arrived_eq_add Stage.reading_covBy
  replace harr₁ := congrArg Multiset.card harr₁
  replace harr₃ := congrArg Multiset.card harr₃
  have hr : b.holds .reading = a.running .pread := h.running .pread
  have hw : b.holds .writing = a.running .pwrite := h.running .pwrite
  rw [hr, hw, h.toWrite, h.finished] at harr₁
  rw [hw, h.finished] at harr₃
  simp only [Multiset.card_add, Multiset.coe_card] at harr₁ harr₃
  have hlen := h.lengths
  omega

/-- The same when no control block is prepared and no event waits to be handled. -/
lemma counts_of_atBoundary (h : Inv a xs ys b) (hb : a.AtBoundary) :
    (reqsOf .pread a.log.submitted).length + xs.length = a.log.accepted.length ∧
      (reqsOf .pread a.log.reaped).length + (a.inFlight .pread).length + xs.length =
        a.log.accepted.length ∧
      (reqsOf .pwrite a.log.submitted).length =
        (a.inFlight .pwrite).length + a.log.finished.length ∧
      (reqsOf .pwrite a.log.reaped).length = a.log.finished.length := by
  have htaken : ∀ o, a.taken o = [] := fun o => by simp [AioState.taken, hb.1]
  have hcounts := h.counts
  rw [running_of_atBoundary hb, htaken, htaken] at hcounts
  simp only [List.length_nil] at hcounts
  omega

/-- Each request contributes at most two reaped events, and each finished one two. -/
lemma reaped_bounds (h : Inv a xs ys b) :
    2 * a.log.finished.length ≤ a.log.reaped.length ∧
      a.log.reaped.length ≤ 2 * a.log.accepted.length := by
  have hcounts := h.counts
  have hlen := h.lengths
  have hsum := length_reqsOf a.log.reaped
  have hread := congrArg List.length (a.running_eq .pread)
  have hwrite := congrArg List.length (a.running_eq .pwrite)
  simp only [List.length_append] at hread hwrite
  omega

/-- **Work is what the measure loses.** -/
theorem measure_add_work (h : Inv a xs ys b) (hb : a.AtBoundary) :
    a.measure + a.work = 4 * a.log.accepted.length := by
  obtain ⟨h₁, h₂, h₃, h₄⟩ := h.counts_of_atBoundary hb
  have hsub := length_reqsOf a.log.submitted
  have hreap := length_reqsOf a.log.reaped
  have hlen := h.lengths
  rw [running_of_atBoundary hb, running_of_atBoundary hb] at hlen
  rw [AioState.measure, AioState.work, h.readList_eq, h.writeList_eq]
  omega

end Inv

/-! ## The phases of an iteration with `flush` set -/

/-- What an iteration with `flush` set has achieved at each place. -/
def Phase (a : AioState) : Prop :=
  match a.pc with
  | .notStarted | .getEvents | .handle _ => True
  | .lockRequest | .readSize => 0 < a.unfinished
  | .readLoop size cs =>
    0 < a.unfinished ∧ (a.ended = none → size = cs.length + a.readList.length)
  | .unlockRequest | .writeSize => 0 < a.unfinished ∧ a.readList = []
  | .writeLoop size cs => 0 < a.unfinished ∧ a.readList = [] ∧
      (a.ended = none → size = cs.length + a.writeList.length)
  | .unlockFlush | .lockFlush => 0 < a.unfinished ∧ a.readList = [] ∧ a.writeList = []
  | .unlockBreak | .returned => a.unfinished = 0

namespace Phase

variable {a a' : AioState} {act : Act} {xs ys : List ReqId} {b : Belt Stage ReqId}

lemma of_handle {events : List IoEvent} (hpc : a.pc = .handle events) : Phase a := by
  rw [Phase, hpc]
  trivial

/-- The lists and the number of unfinished requests are the same. -/
lemma lists_eq (hreqs : a'.reqs = a.reqs) (hread : a'.mgr.readHead = a.mgr.readHead)
    (hwrite : a'.mgr.writeHead = a.mgr.writeHead) (hacc : a'.log.accepted = a.log.accepted)
    (hfin : a'.log.finished = a.log.finished) :
    a'.readList = a.readList ∧ a'.writeList = a.writeList ∧ a'.unfinished = a.unfinished := by
  have hlink : a'.link = a.link := by
    funext r
    simp [AioState.link, hreqs]
  simp only [AioState.readList, AioState.writeList, AioState.unfinished, hlink, hreqs, hread,
    hwrite, hacc, hfin, and_self]

lemma lists_submit (a : AioState) (cs : List Iocb) :
    { a with
      flight := cs.map Op.pending ++ a.flight
      log := (cs.map Obs.submitted).reverse ++ a.log }.readList = a.readList ∧
    { a with
      flight := cs.map Op.pending ++ a.flight
      log := (cs.map Obs.submitted).reverse ++ a.log }.writeList = a.writeList ∧
    { a with
      flight := cs.map Op.pending ++ a.flight
      log := (cs.map Obs.submitted).reverse ++ a.log }.unfinished = a.unfinished :=
  lists_eq rfl rfl rfl (Log.accepted_submit _) (Log.finished_submit _)

lemma checkDone (h : Inv a xs ys b) (hflush : a.mgr.flush = true)
    (hcount : a.reqCount = toInt32 a.log.accepted.length) (hN : a.unfinished < 2 ^ 31) :
    Phase a.checkDone := by
  have hlen := h.lengths
  have htest : a.stopTest = true ↔ a.unfinished = 0 := by
    rw [AioState.stopTest, hflush, Bool.true_and, decide_eq_true_iff, hcount, h.finishedCount,
      toInt32_nat_inj (by omega) (by unfold AioState.unfinished at hN; omega)]
    unfold AioState.unfinished
    omega
  rw [AioState.checkDone]
  split_ifs with hstop
  · exact htest.mp hstop
  · exact Nat.pos_of_ne_zero fun h0 => hstop (htest.mpr h0)

lemma readSize (h : Inv a xs ys b) (hpc : a.pc = .readSize) (hflush : a.mgr.flush = true)
    (hN : a.unfinished < 2 ^ 31) (hp : Phase a) : Phase a.readSize := by
  have hlen := h.lengths
  have hpos : 0 < a.unfinished := by simpa only [Phase, hpc] using hp
  have hsize : a.chooseReadSize = xs.length := by
    rw [AioState.chooseReadSize, if_pos hflush, h.readLen, toInt32_nat]
    unfold AioState.unfinished at hN
    omega
  rw [AioState.readSize]
  split_ifs with hgt
  · refine ⟨hpos, fun _ => ?_⟩
    change a.chooseReadSize = ((([] : List Iocb).length : ℕ) : ℤ) + (a.readList.length : ℤ)
    rw [h.readList_eq, hsize]
    simp
  · refine ⟨hpos, ?_⟩
    change a.readList = []
    rw [h.readList_eq]
    exact List.length_eq_zero_iff.mp (by omega)

lemma writeSize (h : Inv a xs ys b) (hpc : a.pc = .writeSize) (hflush : a.mgr.flush = true)
    (hN : a.unfinished < 2 ^ 31) (hp : Phase a) : Phase a.writeSize := by
  have hlen := h.lengths
  obtain ⟨hpos, hread⟩ : 0 < a.unfinished ∧ a.readList = [] := by
    simpa only [Phase, hpc] using hp
  have hsize : a.chooseWriteSize = ys.length := by
    rw [AioState.chooseWriteSize, if_pos hflush, h.writeLen, toInt32_nat]
    unfold AioState.unfinished at hN
    omega
  rw [AioState.writeSize]
  split_ifs with hgt
  · refine ⟨hpos, hread, fun _ => ?_⟩
    change a.chooseWriteSize = ((([] : List Iocb).length : ℕ) : ℤ) + (a.writeList.length : ℤ)
    rw [h.writeList_eq, hsize]
    simp
  · refine ⟨hpos, hread, ?_⟩
    change a.writeList = []
    rw [h.writeList_eq]
    exact List.length_eq_zero_iff.mp (by omega)

lemma readOne (h : Inv a xs ys b) (hl : LoopInv a xs ys) {o : AioState.ReadAnswer} {size : ℤ}
    {cs : List Iocb} (hpc : a.pc = .readLoop size cs) (hended : a.ended = none)
    (hlt : (cs.length : ℤ) < size) (hp : Phase a) : Phase (a.readOne o size cs) := by
  obtain ⟨hpos, hsize⟩ : 0 < a.unfinished ∧
      (a.ended = none → size = cs.length + a.readList.length) := by
    simpa only [Phase, hpc] using hp
  have hexit : ∀ a' : AioState, a'.pc = a.pc → a'.unfinished = a.unfinished →
      a'.ended = some (.exited 1) → Phase a' := by
    intro a' hpc' hunf he
    simp only [Phase, hpc', hpc, hunf, he]
    exact ⟨hpos, by simp⟩
  obtain ⟨r, tl, q, rfl, hhead, hq, -⟩ := Good.readHead h hl hpc hended hlt
  simp only [AioState.readOne, hhead, hq]
  by_cases hfd : o.fd < 0
  · rw [if_pos hfd]
    exact hexit _ rfl rfl rfl
  · rw [if_neg hfd]
    cases o.stSize with
    | none => exact hexit _ rfl rfl rfl
    | some stSize =>
      dsimp only
      split_ifs with hbuf
      · exact hexit _ rfl rfl rfl
      · obtain ⟨b', h'⟩ := h.startRead hpc hq o.fd stSize o.buf
        refine ⟨hpos, fun _ => ?_⟩
        have hlen := hsize hended
        rw [h.readList_eq] at hlen
        rw [h'.readList_eq, hlen]
        simp only [List.length_cons, List.length_append, List.length_nil]
        omega

lemma writeOne (h : Inv a xs ys b) (hl : LoopInv a xs ys) {fd size : ℤ} {cs : List Iocb}
    (hpc : a.pc = .writeLoop size cs) (hended : a.ended = none)
    (hlt : (cs.length : ℤ) < size) (hp : Phase a) : Phase (a.writeOne fd size cs) := by
  obtain ⟨hpos, hread, hsize⟩ : 0 < a.unfinished ∧ a.readList = [] ∧
      (a.ended = none → size = cs.length + a.writeList.length) := by
    simpa only [Phase, hpc] using hp
  obtain ⟨r, tl, q, rfl, hhead, hq, -⟩ := Good.writeHead h hl hpc hended hlt
  simp only [AioState.writeOne, hhead, hq]
  split_ifs with hfd
  · simp only [Phase, AioState.exit, hpc]
    exact ⟨hpos, hread, by simp⟩
  · obtain ⟨b', h'⟩ := h.startWrite hpc hq fd
    refine ⟨hpos, ?_, fun _ => ?_⟩
    · rw [h'.readList_eq, ← h.readList_eq, hread]
    · have hlen := hsize hended
      rw [h.writeList_eq] at hlen
      rw [h'.writeList_eq, hlen]
      simp only [List.length_cons, List.length_append, List.length_nil]
      omega

lemma readSubmit {ret size : ℤ} {cs : List Iocb} (hpc : a.pc = .readLoop size cs)
    (hended : a.ended = none) (hge : size ≤ cs.length) (hp : Phase a) :
    Phase (a.submit ret size cs .unlockRequest (.readLoop size)) := by
  obtain ⟨hpos, hsize⟩ : 0 < a.unfinished ∧
      (a.ended = none → size = cs.length + a.readList.length) := by
    simpa only [Phase, hpc] using hp
  have hnil : a.readList = [] := List.length_eq_zero_iff.mp (by have := hsize hended; omega)
  rw [AioState.submit]
  obtain ⟨h₁, -, h₃⟩ := lists_submit a (AioState.accepted ret cs)
  split_ifs with hret
  · exact ⟨h₃ ▸ hpos, by simp [AioState.exit]⟩
  · exact ⟨h₃ ▸ hpos, h₁ ▸ hnil⟩

lemma writeSubmit {ret size : ℤ} {cs : List Iocb} (hpc : a.pc = .writeLoop size cs)
    (hended : a.ended = none) (hge : size ≤ cs.length) (hp : Phase a) :
    Phase (a.submit ret size cs .unlockFlush (.writeLoop size)) := by
  obtain ⟨hpos, hread, hsize⟩ : 0 < a.unfinished ∧ a.readList = [] ∧
      (a.ended = none → size = cs.length + a.writeList.length) := by
    simpa only [Phase, hpc] using hp
  have hnil : a.writeList = [] := List.length_eq_zero_iff.mp (by have := hsize hended; omega)
  rw [AioState.submit]
  obtain ⟨h₁, h₂, h₃⟩ := lists_submit a (AioState.accepted ret cs)
  split_ifs with hret
  · exact ⟨h₃ ▸ hpos, h₁ ▸ hread, by simp [AioState.exit]⟩
  · exact ⟨h₃ ▸ hpos, h₁ ▸ hread, h₂ ▸ hnil⟩

/-- **One step of `aio_loop` or of the kernel keeps the phase.** -/
lemma step (hgood : Good a) (hended : a.ended = none) (hfires : AioState.Fires a act a')
    (hact : act.ofClient = false) (hflush : a.mgr.flush = true)
    (hcount : a.reqCount = toInt32 a.log.accepted.length) (hN : a'.unfinished < 2 ^ 31)
    (hp : Phase a) : Phase a' := by
  obtain ⟨xs, ys, b, h, hl⟩ := hgood
  cases hfires with
  | startThread | bumpReqCount | newRequest | clientLockRequest | addCopyReq
  | clientUnlockRequest | clientLockFlush | setFlush | clientUnlockFlush | exit =>
    simp [Act.ofClient] at hact
  | lockFlush | getEvents => trivial
  | handleEvent e rest hpc =>
    rcases (a.handleEvent_facts e rest).2.2.2 with hpc' | hpc'
    · exact of_handle (hpc'.trans hpc)
    · exact of_handle hpc'
  | checkDone hpc => exact checkDone h hflush hcount hN
  | unlockBreak hpc | lockRequest hpc | unlockRequest hpc | unlockFlush hpc =>
    simp only [Phase, hpc] at hp
    exact hp
  | readSize hpc => exact readSize h hpc hflush hN hp
  | readOne o size cs hpc hlt => exact readOne h hl hpc hended hlt hp
  | readSubmit ret size cs hpc hge => exact readSubmit hpc hended hge hp
  | writeSize hpc => exact writeSize h hpc hflush hN hp
  | writeOne fd size cs hpc hlt => exact writeOne h hl hpc hended hlt hp
  | writeSubmit ret size cs hpc hge => exact writeSubmit hpc hended hge hp
  | complete => exact hp

end Phase

end Cpr
