import Rkopnu.Foundation.Transition
import Rkopnu.Foundation.Tally
import Rkopnu.HwSubmit
import Rkopnu.Power
import Rkopnu.Driver.Step
import Rkopnu.Driver.Trace
import Rkopnu.Driver.Schedule
import Rkopnu.Driver.Completion
import Rkopnu.Driver.References
import Rkopnu.Driver.Mapping
import Rkopnu.Driver.PowerBalance
import Rkopnu.Driver.Programs
import Rkopnu.Driver.Interrupt
import Rkopnu.Driver.Domains
import Rkopnu.Driver.Close
import Rkopnu.Driver.Fences
import Rkopnu.Driver.Cancel
import Rkopnu.Driver.Ownership
import Rkopnu.Driver.Coverage
import Rkopnu.Driver.Bounds
import Rkopnu.Probe
import Rkopnu.Driver.Gating
import Rkopnu.Table
import Rkopnu.Pool
import Rkopnu.Gem
import Rkopnu.Foundation.Paging
import Rkopnu.Memory.Step
import Rkopnu.Memory.Moves
import Rkopnu.Memory.Placement
import Rkopnu.Memory.Teardown
import Rkopnu.Foundation.Locking
import Rkopnu.Locks.Programs
import Rkopnu.Locks.Deadlock
import Rkopnu.Locks.Exclusion
import Rkopnu.Foundation.Draining
import Rkopnu.Locks.Draining
import Rkopnu.Locks.Discipline
import Rkopnu.Memory.Reclaim
import Rkopnu.Encoding
import Rkopnu.Driver.RunJob
import Rkopnu.Memory.Unwind
import Rkopnu.CoreInit
import Rkopnu.FirstProbe
import Rkopnu.Native
import Rkopnu.Foundation.Strided
import Rkopnu.UserArrays
import Rkopnu.Driver.Names
import Rkopnu.NativeJobs.Step
import Rkopnu.NativeJobs.Wedge
import Rkopnu.Sync
import Rkopnu.Entities
import Rkopnu.Removal
import Rkopnu.Driver.Delivery
import Rkopnu.Foundation.Progress
import Rkopnu.Driver.Timeouts
import Rkopnu.Driver.Recovery
import Rkopnu.Foundation.Service
import Rkopnu.Driver.Refinement
import Rkopnu.Driver.Isolation
import Rkopnu.Driver.Outcomes
import Rkopnu.Driver.Reclaim
import Rkopnu.BoWait
import Rkopnu.RuntimePm
import Rkopnu.ModuleLife
import Rkopnu.NativeLedger
import Rkopnu.Foundation.Sharing
import Rkopnu.PoolAtomic
import Rkopnu.GemLife
