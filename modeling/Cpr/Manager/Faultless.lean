/-
# Runs without faults

When every call of `aio_loop` succeeds, `io_submit` accepts whole batches and every transfer
moves all its bytes, `aio_loop` never ends the process.
-/
import Cpr.Manager.Moves

namespace Cpr

open Transition

namespace AioState

/-- The kernel does what `aio_loop` asks for.  There is no mapping of length zero, so `mmap`
fails for an empty file. -/
def Faultless (a : AioState) : Act → Prop
  | .readOne o => 0 ≤ o.fd ∧ o.stSize ≠ none ∧ (o.stSize = some 0 ∨ o.buf ≠ mapFailed)
  | .writeOne fd => 0 ≤ fd
  | .readSubmit ret | .writeSubmit ret => ret = a.pc.taken.length
  | .complete c res => res = c.nbytes
  | _ => True

instance (a : AioState) (act : Act) : Decidable (a.Faultless act) := by
  induction act using Act.casesOn <;> (unfold Faultless; infer_instance)

/-- A transfer for the request is prepared and not completed. -/
def Awaits (a : AioState) (o : Opcode) (r : ReqId) : Prop :=
  ∃ c, (c ∈ a.pc.taken ∨ .pending c ∈ a.flight) ∧ c.opcode = o ∧ c.data = r

end AioState

/-- The result of every operation that is completed is one that `P` allows. -/
structure Completed (P : Iocb → ℕ → Prop) (a : AioState) : Prop where
  flight : ∀ op ∈ a.flight, ∀ n ∈ op.result, P op.obj n
  events : ∀ e ∈ a.pc.events, P e.obj e.res

/-- The operations that are completed have moved all their bytes. -/
structure Results (a : AioState) : Prop where
  flight : ∀ op ∈ a.flight, ∀ n ∈ op.result, n = op.obj.nbytes
  events : ∀ e ∈ a.pc.events, e.res = e.obj.nbytes

section

variable {a a' : AioState} {act : Act} {o : Opcode} {r : ReqId}

/-- A transfer is awaited until its operation completes. -/
lemma AioState.Awaits.mono (h : a.Awaits o r) (hgood : Good a) (hstep : a.step act = some a')
    (hact : ∀ c n, act ≠ .complete c n) (hended : a'.ended = none) : a'.Awaits o r := by
  obtain ⟨c, hc, hop, hdata⟩ := h
  refine ⟨c, ?_, hop, hdata⟩
  cases hgood.moves hstep with
  | same e => rwa [e.taken, e.flight]
  | reap events hpc =>
    rw [hpc] at hc
    refine Or.inr (List.mem_diff_of_mem (hc.resolve_left (by simp [AioPc.taken])) fun hmem => ?_)
    obtain ⟨e, -, heq⟩ := List.mem_map.mp hmem
    simp [IoEvent.op, Op.pending] at heq
  | finishRead e rest q hpc | finishWrite e rest q hpc =>
    rw [hpc] at hc
    exact Or.inr (hc.resolve_left (by simp))
  | startRead _ _ _ _ _ _ hpc | startWrite _ _ _ _ _ hpc =>
    rw [hpc] at hc
    exact hc.imp_left fun hc => List.mem_append_left _ hc
  | submit cs ds taken _ hds _ _ flight =>
    rw [hds hended, List.append_nil] at taken
    rw [taken] at hc
    rw [flight]
    rcases hc with hc | hc
    · exact Or.inr (List.mem_append_left _ (List.mem_map_of_mem hc))
    · exact Or.inr (List.mem_append_right _ hc)
  | complete c n => exact absurd rfl (hact c n)
  | newRequest | linkIn => exact hc

/-- The operation that is awaited has a live control block. -/
lemma AioState.Awaits.exists_mem_refs (h : a.Awaits o r) :
    ∃ c ∈ a.refs, c.opcode = o ∧ c.data = r := by
  obtain ⟨c, hc | hc, hop, hdata⟩ := h
  · exact ⟨c, AioState.mem_refs_of_taken hc, hop, hdata⟩
  · exact ⟨c, AioState.mem_refs_of_flight hc, hop, hdata⟩

/-- The completion of an operation ends the wait of one request only. -/
lemma AioState.Awaits.complete (h : a.Awaits o r) {c : Iocb} {n : ℕ} (hne : c.data ≠ r) :
    AioState.Awaits { a with flight := ⟨c, some n⟩ :: a.flight.erase (.pending c) } o r := by
  obtain ⟨d, hd, hop, hdata⟩ := h
  refine ⟨d, hd.imp_right fun hd => List.mem_cons_of_mem _ ?_, hop, hdata⟩
  refine (List.mem_erase_of_ne fun heq => hne ?_).mpr hd
  rw [← hdata, show d = c from congrArg Op.obj heq]

/-- While an operation runs, its request awaits no operation of the other kind. -/
lemma Inv.not_awaits {xs ys : List ReqId} {b : Belt Stage ReqId} (h : Inv a xs ys b) {c : Iocb}
    (hc : c ∈ a.refs) (ho : o ≠ c.opcode) : ¬ a.Awaits o c.data := by
  intro hw
  obtain ⟨d, hd, rfl, hdata⟩ := hw.exists_mem_refs
  exact h.ne_of_holds (Opcode.stage_ne ho) (h.mem_holds_of_mem_refs hd)
    (h.mem_holds_of_mem_refs hc) hdata

namespace Completed

variable {P : Iocb → ℕ → Prop}

lemma init (readBatchSize writeBatchSize : ℤ) :
    Completed P (AioState.init readBatchSize writeBatchSize) := by
  constructor <;> simp [AioState.init, AioPc.events]

theorem step (h : Completed P a) (hgood : Good a) (hok : ∀ c res, act = .complete c res → P c res)
    (hstep : a.step act = some a') : Completed P a' := by
  cases hgood.moves hstep with
  | same e =>
    refine ⟨?_, ?_⟩
    · rw [e.flight]
      exact h.flight
    · rw [e.events]
      exact h.events
  | reap events hpc hsub =>
    refine ⟨fun op hop => h.flight op (List.diff_subset _ _ hop), fun e he => ?_⟩
    exact h.flight e.op (hsub.subset (List.mem_map_of_mem he)) e.res rfl
  | finishRead e rest q hpc | finishWrite e rest q hpc =>
    refine ⟨h.flight, fun e' he' => h.events e' ?_⟩
    rw [hpc]
    exact List.mem_cons_of_mem _ he'
  | startRead | startWrite => exact ⟨h.flight, by simp [AioState.startRead, AioState.startWrite]⟩
  | submit cs ds _ _ _ _ events' flight =>
    refine ⟨fun op hop => ?_, by simp [events']⟩
    rw [flight] at hop
    rcases List.mem_append.mp hop with hop | hop
    · obtain ⟨c, -, rfl⟩ := List.mem_map.mp hop
      simp [Op.pending]
    · exact h.flight op hop
  | complete c res =>
    refine ⟨fun op hop n hn => ?_, h.events⟩
    rcases List.mem_cons.mp hop with rfl | hop
    · obtain rfl := Option.some.inj hn
      exact hok c _ rfl
    · exact h.flight op (List.mem_of_mem_erase hop) n hn
  | newRequest | linkIn => exact ⟨h.flight, h.events⟩

end Completed

namespace Results

lemma init (readBatchSize writeBatchSize : ℤ) :
    Results (AioState.init readBatchSize writeBatchSize) := by
  constructor <;> simp [AioState.init, AioPc.events]

theorem step (h : Results a) (hgood : Good a) (hok : a.Faultless act)
    (hstep : a.step act = some a') : Results a' := by
  have hcompleted : Completed (fun c n => n = c.nbytes) a' := by
    refine Completed.step ⟨h.flight, h.events⟩ hgood (fun c res hact => ?_) hstep
    rw [hact] at hok
    exact hok
  exact ⟨hcompleted.flight, hcompleted.events⟩

end Results

/-- **Without faults `aio_loop` does not end the process.** -/
theorem Good.ended_of_faultless (hgood : Good a) (hres : Results a) (hok : a.Faultless act)
    (hstep : a.step act = some a') (hact : ∀ code, act ≠ .exit code) : a'.ended = none := by
  obtain ⟨xs, ys, b, h, hl⟩ := hgood
  obtain ⟨hended, hfires⟩ := AioState.fires_of_step hstep
  have hsubmit : ∀ {size : ℤ} {cs : List Iocb} {next : AioPc} {stop : List Iocb → AioPc},
      (cs.length : ℤ) ≤ size → size ≤ cs.length →
      (a.submit cs.length size cs next stop).ended = none := by
    intro size cs next stop hle hge
    rw [AioState.submit, if_neg (not_not.mpr (le_antisymm hle hge))]
    exact hended
  cases hfires with
  | handleEvent e rest hpc =>
    have hmem : e.obj ∈ a.refs := by simp [AioState.refs, hpc]
    obtain ⟨q, hq, -, hdesc⟩ := h.refRec e.obj hmem
    have hq' : a.reqs.get? e.data = some q := hq
    have hfull : e.res = toUlong q.fsize := by
      rw [hres.events e (by rw [hpc]; exact List.mem_cons_self), hdesc.nbytes]
    simp only [AioState.handleEvent, hq', if_neg (not_not.mpr hfull)]
    split_ifs <;> exact hended
  | readOne o size cs hpc hlt hposs =>
    obtain ⟨r, tl, q, rfl, hhead, hq, -⟩ := Good.readHead h hl hpc hended hlt
    obtain ⟨hfd, hsize, -⟩ := hok
    obtain ⟨n, hn⟩ := Option.ne_none_iff_exists'.mp hsize
    have hbuf : o.buf ≠ 0 := by
      rcases (hposs.2 n hn).2 with hfail | ⟨-, hpos, -⟩
      · rw [hfail]
        decide
      · omega
    simp only [AioState.readOne, hhead, hq, if_neg (not_lt.mpr hfd), hn, if_neg hbuf]
    exact hended
  | writeOne fd size cs hpc hlt =>
    obtain ⟨r, tl, q, rfl, hhead, hq, -⟩ := Good.writeHead h hl hpc hended hlt
    simp only [AioState.writeOne, hhead, hq, if_neg (not_lt.mpr (show 0 ≤ fd from hok))]
    exact hended
  | readSubmit ret size cs hpc hge =>
    obtain rfl : ret = cs.length := by simpa [AioState.Faultless, hpc] using hok
    exact hsubmit ((hl.readLoop size cs hpc).2 hended).1 hge
  | writeSubmit ret size cs hpc hge =>
    obtain rfl : ret = cs.length := by simpa [AioState.Faultless, hpc] using hok
    exact hsubmit ((hl.writeLoop size cs hpc).2 hended).1 hge
  | addCopyReq r hheld hr =>
    obtain ⟨q, -, hlink⟩ := h.addCopyReq_eq hr
    rw [hlink]
    exact hended
  | exit code => exact absurd rfl (hact code)
  | _ => exact hended

end

end Cpr
