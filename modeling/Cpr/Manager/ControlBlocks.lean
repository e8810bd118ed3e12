/-
# Control blocks

`aio_loop` allocates a control block for every operation and frees it when it handles the
event of the operation.  In between the block is among the prepared ones, in flight, or in
an event still to be handled.
-/
import Cpr.Manager.Descriptors

namespace Cpr

open Transition

namespace AioState

/-- The control blocks made so far: those reaped, those prepared and those in flight. -/
def created (a : AioState) : List Iocb :=
  a.log.reaped ++ (a.pc.taken ++ a.flight.map (·.obj))

end AioState

/-- Every control block has an address of its own, and its memory is allocated exactly until
its event is handled. -/
structure ControlBlocks (a : AioState) : Prop where
  addrs : (a.created.map (·.addr)).Perm (List.range a.iocbs.next)
  live : ∀ addr c, a.iocbs.get? addr = some c ↔ c ∈ a.refs ∧ c.addr = addr
  events : ∀ e ∈ a.pc.events, Obs.reaped e.obj e.res ∈ a.log

namespace ControlBlocks

variable {a a' : AioState} {act : Act} {c : Iocb}

lemma init (readBatchSize writeBatchSize : ℤ) :
    ControlBlocks (AioState.init readBatchSize writeBatchSize) where
  addrs := .refl _
  live addr c := by
    constructor
    · intro h
      cases h
    · rintro ⟨h, -⟩
      cases h
  events e he := by cases he

/-- The control blocks are passed on. -/
lemma kept (h : ControlBlocks a) (hiocbs : a'.iocbs = a.iocbs) (hrefs : a'.refs.Perm a.refs)
    (hcreated : a'.created.Perm a.created)
    (hevents : ∀ e ∈ a'.pc.events, Obs.reaped e.obj e.res ∈ a'.log) : ControlBlocks a' where
  addrs := by
    rw [hiocbs]
    exact (hcreated.map _).trans h.addrs
  live addr d := by rw [hiocbs, h.live, hrefs.mem_iff]
  events := hevents

/-- A control block is allocated. -/
lemma opened (h : ControlBlocks a) (haddr : c.addr = a.iocbs.next)
    (hiocbs : a'.iocbs = a.iocbs.alloc c) (htaken : a'.pc.taken = a.pc.taken ++ [c])
    (hflight : a'.flight = a.flight) (hlog : a'.log = a.log) (hevents : a.pc.events = [])
    (hevents' : a'.pc.events = []) : ControlBlocks a' where
  addrs := by
    have hcreated : a'.created.Perm (a.created ++ [c]) := by
      rw [AioState.created, AioState.created, htaken, hflight, hlog, List.append_assoc,
        List.append_assoc, List.append_assoc]
      exact (List.perm_append_comm.append_left _).append_left _
    refine (hcreated.map _).trans ?_
    rw [hiocbs, Heap.next_alloc, List.range_succ, List.map_append, List.map_singleton, haddr]
    exact h.addrs.append_right _
  live addr d := by
    have hmem : d ∈ a'.refs ↔ d = c ∨ d ∈ a.refs := by
      rw [(Inv.refs_take htaken (hevents'.trans hevents.symm) hflight).mem_iff, List.mem_cons]
    rw [hiocbs, Heap.get?_alloc, hmem]
    split_ifs with hnew
    · constructor
      · intro hd
        obtain rfl := Option.some.inj hd
        exact ⟨Or.inl rfl, haddr.trans hnew.symm⟩
      · rintro ⟨rfl | hd, hda⟩
        · rfl
        · -- an old control block has an older address
          have hlt := Heap.lt_next_of_get? ((h.live addr d).mpr ⟨hd, hda⟩)
          omega
    · rw [h.live]
      constructor
      · rintro ⟨hd, hda⟩
        exact ⟨Or.inr hd, hda⟩
      · rintro ⟨rfl | hd, hda⟩
        · exact absurd (hda.symm.trans haddr) hnew
        · exact ⟨hd, hda⟩
  events e he := by rw [hevents'] at he; cases he

/-- The control block of a handled event is freed. -/
lemma closed {e : IoEvent} {rest : List IoEvent} (h : ControlBlocks a) (hgood : Good a)
    (hpc : a.pc = .handle (e :: rest)) (hpc' : a'.pc = .handle rest)
    (hiocbs : a'.iocbs = a.iocbs.free e.obj.addr) (hflight : a'.flight = a.flight)
    (hreaped : a'.log.reaped = a.log.reaped)
    (hlog : a.log <:+ a'.log) : ControlBlocks a' where
  addrs := by
    have hcreated : a'.created = a.created := by
      rw [AioState.created, AioState.created, hreaped, hflight, hpc, hpc']
      rfl
    rw [hcreated, hiocbs]
    exact h.addrs
  live addr d := by
    obtain ⟨xs, ys, b, hinv, -⟩ := hgood
    have hrefs : a.refs.Perm (e.obj :: a'.refs) := Inv.refs_handle hpc hpc' hflight
    have hother := hinv.ne_of_mem_refs hrefs
    have hlive : a.iocbs.get? e.obj.addr = some e.obj :=
      (h.live _ _).mpr ⟨hrefs.mem_iff.mpr List.mem_cons_self, rfl⟩
    rw [hiocbs]
    by_cases haddr : addr = e.obj.addr
    · subst haddr
      rw [Heap.get?_free_self]
      constructor
      · intro hd
        cases hd
      · rintro ⟨hd, hda⟩
        have hd' := (h.live _ _).mpr ⟨hrefs.mem_iff.mpr (List.mem_cons_of_mem _ hd), hda⟩
        obtain rfl := Option.some.inj (hlive.symm.trans hd')
        exact absurd rfl (hother _ hd)
    · rw [Heap.get?_free_of_ne haddr, h.live, hrefs.mem_iff, List.mem_cons]
      constructor
      · rintro ⟨rfl | hd, hda⟩
        · exact absurd hda.symm haddr
        · exact ⟨hd, hda⟩
      · rintro ⟨hd, hda⟩
        exact ⟨Or.inr hd, hda⟩
  events d hd := by
    rw [hpc'] at hd
    refine hlog.subset (h.events d ?_)
    rw [hpc]
    exact List.mem_cons_of_mem _ hd

/-- One step keeps the account of the control blocks. -/
theorem step (h : ControlBlocks a) (hgood : Good a) (hstep : a.step act = some a') :
    ControlBlocks a' := by
  cases hgood.moves hstep with
  | same e iocbs =>
    refine h.kept iocbs ?_ ?_ ?_
    · rw [AioState.refs, AioState.refs, e.taken, e.flight, e.events]
    · rw [AioState.created, AioState.created, e.log, e.taken, e.flight]
    · rw [e.events, e.log]
      exact h.events
  | reap events hpc hsub =>
    have hobjs := perm_of_reap hsub
    refine h.kept rfl ?_ ?_ ?_
    · simp only [AioState.refs, hpc, AioPc.taken, AioPc.events, List.nil_append, List.map_nil,
        List.append_nil]
      exact List.perm_append_comm.trans hobjs
    · simp only [AioState.created, hpc, AioPc.taken, List.nil_append, Log.reaped_reap]
      rw [List.append_assoc]
      refine ((List.reverse_perm _).append_right _).trans ?_
      exact (List.perm_append_comm_assoc _ _ _).trans (hobjs.append_left _)
    · intro e he
      refine List.mem_append_left _ (List.mem_reverse.mpr ?_)
      exact List.mem_map_of_mem he
  | finishRead e rest q hpc => exact h.closed hgood hpc rfl rfl rfl rfl List.suffix_rfl
  | finishWrite e rest q hpc => exact h.closed hgood hpc rfl rfl rfl rfl (List.suffix_cons _ _)
  | startRead o size cs r curr stSize hpc =>
    exact h.opened rfl rfl (by rw [hpc]; rfl) rfl rfl (by rw [hpc]; rfl) rfl
  | startWrite fd size cs r curr hpc =>
    exact h.opened rfl rfl (by rw [hpc]; rfl) rfl rfl (by rw [hpc]; rfl) rfl
  | submit cs ds taken taken' _ events events' flight log _ _ _ iocbs =>
    have hmoved := perm_of_submit cs ds a.flight
    refine h.kept iocbs ?_ ?_ ?_
    · rw [AioState.refs, AioState.refs, taken, taken', events, events', flight]
      exact hmoved.append_right _
    · rw [AioState.created, AioState.created, taken, taken', flight, log, Log.reaped_submit]
      exact hmoved.append_left _
    · rw [events']
      intro e he
      cases he
  | complete d res hmem =>
    have hobjs := ((List.perm_cons_erase hmem).map (·.obj)).symm
    refine h.kept rfl ?_ ?_ h.events
    · exact (hobjs.append_left _).append_right _
    · exact (hobjs.append_left _).append_left _
  | newRequest => exact h.kept rfl (.refl _) (.refl _) h.events
  | linkIn =>
    exact h.kept rfl (.refl _) (.refl _) fun e he => List.mem_cons_of_mem _ (h.events e he)

theorem of_reaches {readBatchSize writeBatchSize : ℤ}
    (h : Reaches AioState.step anyLabel (AioState.init readBatchSize writeBatchSize) a) :
    ControlBlocks a :=
  h.invariant_of (fun _ hr => Good.of_reaches hr)
    (fun hgood _ hc _ hstep => hc.step hgood hstep) (init _ _)

lemma nodup_created (h : ControlBlocks a) : (a.created.map (·.addr)).Nodup :=
  h.addrs.nodup_iff.mpr List.nodup_range

end ControlBlocks

end Cpr
