import Cpr.AioTests.SingleCopy
import Cpr.Experiment.Report
import Cpr.Lib.Belt
import Cpr.Manager.Submission
import Cpr.Old.Agree
import Cpr.Old.Faults
import Cpr.Old.Liveness
import Cpr.Old.Refinement
import Cpr.Program.Batches
import Cpr.Program.Deadlock
import Cpr.Program.Direct
import Cpr.Program.Drain
import Cpr.Program.Mapped
import Cpr.Program.Ownership
import Cpr.Program.Races
import Cpr.Program.SizeCheck
import Cpr.System.Atomic
import Cpr.System.Copy
import Cpr.System.ExactWalk
import Cpr.System.FailedWalk
import Cpr.System.Flat
import Cpr.System.Liveness
import Cpr.System.Overwrite
import Cpr.System.Prefix
import Cpr.System.Queue
import Cpr.System.QueueDepth
import Cpr.System.Refinement
import Cpr.System.Refused
import Cpr.System.Writes
