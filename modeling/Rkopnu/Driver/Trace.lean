import Rkopnu.Driver.Step

/-!
# Stretches of runs

The action lists of one thread that is not disturbed: a submit up to its bounded
wait, a job in `rocket_job_run`, a completion by interrupt, a reset. A first
submit on fresh hardware always reaches `rocket_job_hw_submit`, whatever its
arguments.
-/

namespace Rkopnu.Driver

open Transition

/-- Call `j` of file `f` up to its bounded wait, with its domain at address `d`. -/
def submitSteps (f j d : Nat) (args : RknpuSubmit) : List Action :=
  [.submit f args, .vmap j none, .alloc j true, .jobInit j none, .domainGet j d, .push j none]

/-- Call `j` from `out_put_job` to its return. -/
def returnSteps (j : Nat) (r : Option Errno) : List Action :=
  [.putJob j r, .vunmap j r, .gemPut j r]

/-- `rocket_job_run` up to its `job_lock` section. -/
def runSteps (c j : Nat) : List Action :=
  [.pop c j none, .runCheck c j, .runCreate c j true, .runPmGet c j fun _ => true]

/-- The register writes of `rocket_job_hw_submit` on its call from `rocket_job_run`. -/
def writeSteps (c j : Nat) (p : Program) : List RegWrite → List Action
  | [] => []
  | w :: rest => .runWrite c j p w rest :: writeSteps c j p rest

/-- `rocket_job_run` from its `job_lock` section to its return, for the program `p`
that the task array `mem` gives. -/
def programSteps (c j : Nat) (mem : Int → RknpuTask) (p : Program) : List Action :=
  .runProgram c j mem :: writeSteps c j p p.writes ++ [.runArm c j]

/-- The core raises `bits` and its interrupt completes job `j`. -/
def irqSteps (c j : Nat) (bits : U32) : List Action :=
  [.raise c bits, .irqHard c, .irqThread c bits, .irqComplete c bits j]

/-- The timeout of job `j` up to the point where the scheduler runs again, the
job being the only one pending. -/
def resetSteps (c j : Nat) : List Action :=
  [.fire c j, .tdrEntry c j, .tdrMark c j, .tdrStop c j, .tdrDetach c j j, .tdrSection c j,
    .tdrHwReset c j, .tdrClear c j, .tdrCancel c j j, .tdrRestart c j]

/-- A submit of one task to core 0, no subcore slot filled. -/
def submitOne : RknpuSubmit :=
  { RknpuSubmit.zero with
    taskNumber := 1#32
    taskObjAddr := 0x1000#64
    coreMask := 0x1#32 }

/-- A task array whose tasks ask for the two DPU completion bits. -/
def dpuTasks : Int → RknpuTask := fun _ => ⟨0x300#32, 0#32, 0#64⟩

/-- Job 0, submitted with `args` to `n` fresh cores, until its core has started. -/
def startSteps (n : Nat) (args : RknpuSubmit) : List Action :=
  .openFile :: submitSteps 0 0 0 args ++ runSteps (submitCore n args) 0 ++
    programSteps (submitCore n args) 0 dpuTasks
      (hwProgram (submitJob n args) 0 (submitCore n args) dpuTasks)

/-- One core, started on `submitOne`. -/
def startOne : List Action := startSteps 1 submitOne

theorem startOne_accepted :
    ((exec driver (State.init 1) startOne).map fun s =>
      decide (s.inFlight 0 = some 0 ∧ s.callback 0 = true)) = some true := by
  decide

theorem submitCore_lt {n : Nat} (hn : 0 < n) (args : RknpuSubmit) : submitCore n args < n := by
  unfold submitCore
  dsimp only
  split <;> omega

/-- The first submit on fresh hardware reaches `rocket_job_hw_submit`. -/
theorem reaches_hwSubmit {n : Nat} (hn : 0 < n) {args : RknpuSubmit}
    (hargs : submitEarly args = none) (mem : Int → RknpuTask) :
    ∃ s, Runs driver (State.init n)
        (.openFile :: submitSteps 0 0 0 args ++ runSteps (submitCore n args) 0) s ∧
      s.jobs = 1 ∧ s.args 0 = args ∧ s.job 0 = submitJob n args ∧
      enabled s (.runProgram (submitCore n args) 0 mem) = true := by
  have hc := submitCore_lt hn args
  simp [Runs, exec, driver, enabled, effect, submitSteps, runSteps, State.init, hn, hargs, hc,
    State.domainAnswer, State.domainGet, submitJob, TdrPc.parked, FilePc.entityGone,
    State.jobLockFree, RunPc.locked, IrqPc.locked, pmGet_resumable]

end Rkopnu.Driver
