/-
# How deep the AIO queue gets

The bound is the number of regular files of the source, for any destination outside it; with
more files than `MAX_EVENTS` the queue gets deeper than the AIO context is.
-/
import Cpr.System.Source

namespace Cpr

open Transition Unix

section

variable {t : Source} {s : Sys} {ok : Sys → Label → Prop} {batchSize : ℤ}

/-- **`copy_reg` is called at most once for each regular file**, for any destination. -/
theorem Source.next_le_of_reaches (h : Reaches Sys.step ok (t.init batchSize) s) :
    s.prog.aio.reqs.next ≤ t.regularFiles.card := by
  refine Sys.next_le_of_live (fun u hu => (Source.Run.of_reaches hu).ready.good) (Nat.zero_le _)
    (fun u hu hended => ?_) h
  obtain ⟨d, hd⟩ := Located.of_reaches hu hended
  exact hd.walked.next_le (.of_reaches hu)

/-- **The queue depth is bounded** for a source with at most `MAX_EVENTS` regular files:
the operations in flight, with those about to be submitted, fit into the AIO context. -/
theorem depth_le_of_reaches (hfiles : t.regularFiles.card ≤ maxEvents)
    (h : Reaches Sys.step anyLabel (t.init batchSize) s) :
    s.prog.aio.flight.length + s.prog.aio.pc.taken.length ≤ maxEvents := by
  have hgood := (Source.Run.of_reaches h).ready.good
  exact ((hgood.flight_le.trans hgood.accepted_le).trans (Source.next_le_of_reaches h)).trans
    hfiles

end

/-- A run in which the read of the only file is in flight. -/
theorem depth_le_of_reaches_reading : ∃ s : Sys,
    Reaches Sys.step anyLabel (oneFileTask.source.init 1) s ∧ s.prog.aio.flight.length = 1 ∧
      s.prog.aio.flight.length + s.prog.aio.pc.taken.length ≤ maxEvents := by
  have hrun : (exec Sys.step (oneFileTask.source.init 1) (oneFileWalk ++
      [.aio .lockFlush, .aio (.getEvents []), .aio .checkDone, .aio .lockRequest,
        .aio .readSize, .aio (.readOne ⟨3, some 3, 4096⟩), .aio (.readSubmit 1)])).map
      (fun s => s.prog.aio.flight.length) = some 1 := by
    decide +kernel
  obtain ⟨s, hs, hflight⟩ := Option.map_eq_some_iff.mp hrun
  have hreach : Reaches Sys.step anyLabel (oneFileTask.source.init 1) s :=
    reaches_of_exec (fun _ _ => trivial) hs
  have hfiles : oneFileTask.source.regularFiles.card ≤ maxEvents := by decide +kernel
  exact ⟨s, hreach, hflight, depth_le_of_reaches hfiles hreach⟩

/-- A directory with `MAX_EVENTS + 1` files, copied with batch size 1 while the kernel
completes nothing, has more than `MAX_EVENTS` reads in flight. -/
theorem not_depth_le_of_many : ¬ ∀ (t : Task) (batchSize : ℤ) (s : Sys),
    Reaches Sys.step anyLabel (t.init batchSize) s → s.prog.aio.flight.length ≤ maxEvents := by
  intro hall
  obtain ⟨s, hs, h⟩ := Piled.reaches (n := maxEvents + 1) (by decide) _ le_rfl
  have hle := hall _ _ s hs
  rw [h.depth] at hle
  omega

end Cpr
