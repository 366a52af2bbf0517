import Rkopnu.Driver.Moves
import Rkopnu.Native

/-!
# Running native jobs

`rocket_ioctl_submit_job` pushes a job with the list of tasks that `rocket_copy_tasks` has
made, and the job goes through the same `rocket_job_run`, `rocket_job_handle_irq` and
`rocket_job_hw_submit` as the jobs of the vendor ioctl. The last takes what it writes from
`job->rk_tasks`, which only the vendor ioctl sets.

## Implementation notes

The driver is the one of `Rkopnu.Driver`, with native jobs among its jobs. All of a
`rocket_ioctl_submit_job` is one step; the core is the one that `drm_sched` chooses for the
entity over all cores. `rk_tasks` of a native job is NULL, and a thread that reads through it is
killed where it stands: inside `rocket_job_hw_submit`, with `job_lock` held and nothing left to
write.
-/

namespace Rkopnu.NativeJobs

open Function (update)
open Transition Native

/-- The words that `rocket_job_hw_submit` writes before it reads a task. -/
def writesBeforeTasks (ci : Nat) : List RegWrite :=
  let extraBit := 0x10000000#32 * BitVec.ofNat 32 ci
  let sPointer := sPointerPointerPpEn 1#32 ||| sPointerExecuterPpEn 1#32 |||
    sPointerPointerPpMode 1#32 ||| extraBit
  [⟨.baseAddress, 0x1#32⟩, ⟨.cnaSPointer, sPointer⟩, ⟨.coreSPointer, sPointer⟩]

/-- These are the writes with which every pass begins. -/
theorem writesBeforeTasks_prefix (job : RocketJob) (ci : Nat) (first last : RknpuTask) :
    writesBeforeTasks ci <+: hwSubmitWrites job ci first last :=
  ⟨(hwSubmitWrites job ci first last).drop 3, rfl⟩

/-- What the fields that `rocket_job_hw_submit` reads are in a native job of `n` tasks on core
`c`. -/
def nativeJob (c n : Nat) : RocketJob :=
  { Driver.RocketJob.zero with
    core := c
    taskCount := n }

/-- The pass through `rocket_job_hw_submit` for a native job, up to the read of a task. -/
def nullProgram (job : RocketJob) (j ci : Nat) : Program where
  job := j
  core := ci
  first := firstTask job ci
  last := lastTask job ci
  writes := writesBeforeTasks ci

structure State where
  driver : Driver.State
  /-- `job->tasks` of a native job. -/
  tasks : Nat → Option (List RocketTask)

/-- `n` cores are bound, and no file is open. -/
def State.init (n : Nat) : State where
  driver := Driver.State.init n
  tasks := fun _ => none

inductive Action
  | driver (a : Driver.Action)
  /-- `rocket_ioctl_submit_job` in file `f`, for core `c`, with domain 0 at `d`. -/
  | submit (f c d : Nat) (env : Env) (args : DrmRocketJob) (w : World)
  /-- `rocket_ioctl_submit_job` returning an error. -/
  | refuse (f d : Nat) (env : Env) (args : DrmRocketJob) (w : World)
  /-- The worker takes a queued native job. -/
  | pop (c j : Nat) (e : Option Errno)
  /-- The scheduler finishes a queued native job of a destroyed entity. -/
  | killJob (j : Nat)
  /-- `drm_sched_entity_destroy` of a core entity, the worker of the core in a native job. -/
  | destroyEntity (f k : Nat)
  /-- The `job_lock` section of `rocket_job_run` up to the first register write. -/
  | runProgram (c j : Nat)
  /-- The last write before the read through `rk_tasks`, in `rocket_job_run`. -/
  | runFault (c j : Nat) (p : Program) (w : RegWrite)
  | irqResubmit (c : Nat) (seen : U32) (j : Nat)
  /-- The last write before the read through `rk_tasks`, in the IRQ thread. -/
  | irqFault (c j : Nat) (p : Program) (w : RegWrite)

/-- `drm_sched_entity_destroy` has returned for `sched_entity` of the file. -/
def schedEntityGone : Driver.FilePc → Bool
  | .opened | .destroying _ => false
  | _ => true

/-- The job is a native one. -/
def State.native (s : State) (j : Nat) : Bool := (s.tasks j).isSome

/-- The step is the same for native jobs, or it is about a vendor job. -/
def State.admits (s : State) : Driver.Action → Bool
  | .pop _ j _ | .killJob j | .runProgram _ j _ | .irqResubmit _ _ j _ => !s.native j
  | .runWrite _ j _ _ rest | .irqWrite _ j _ _ rest => !s.native j || decide (rest ≠ [])
  -- `sched_entity` is destroyed when no worker is in one of its jobs
  | .destroyed f _ => (List.range s.driver.cores).all fun c =>
      (s.driver.run c).job.all fun j => !s.native j || decide (s.driver.caller j ≠ f)
  | _ => true

/-- The step can be taken. -/
def enabled (s : State) : Action → Bool
  | .driver a => Driver.enabled s.driver a && s.admits a
  | .submit f c d env args w => decide (s.driver.file f = .opened ∧ c < s.driver.cores) &&
      s.driver.domainAnswer f 0 d && decide ((rocketIoctlSubmitJob env args w).1 = none)
  | .refuse f d env args w => decide (s.driver.file f = .opened) &&
      s.driver.domainAnswer f 0 d && decide ((rocketIoctlSubmitJob env args w).1 ≠ none)
  | .pop c j _ => s.native j && decide (c < s.driver.cores ∧ s.driver.run c = .idle ∧
      (s.driver.tdr c).parked = false ∧ s.driver.active c = none ∧ s.driver.place j = .queued ∧
      (s.driver.job j).core = c ∧ schedEntityGone (s.driver.file (s.driver.caller j)) = false)
  | .killJob j => s.native j && decide (s.driver.place j = .queued ∧
      schedEntityGone (s.driver.file (s.driver.caller j)) = true)
  | .destroyEntity f k => decide (s.driver.file f = .destroying k ∧ k < s.driver.cores ∧ k < 3) &&
      (s.driver.run k).job.all s.native
  | .runProgram c j => s.native j && decide (s.driver.run c = .lock j ∧
      s.driver.jobLockFree c = true ∧ s.driver.resetPending c = false)
  | .runFault c j p w => s.native j && decide (s.driver.run c = .writing j p [w])
  | .irqResubmit c seen j => s.native j && decide (s.driver.irq c = .entered seen ∧
      s.driver.jobLockFree c = true ∧ s.driver.inFlight c = some j ∧
      s.driver.nextTaskIdx j < (s.driver.job j).taskCount ∧ s.driver.resetPending c = false)
  | .irqFault c j p w => s.native j && decide (s.driver.irq c = .writing j p [w])

/-- What an accepted `rocket_ioctl_submit_job` does to the driver. -/
def pushNative (s : Driver.State) (f c d : Nat) (args : DrmRocketJob) : Driver.State :=
  { s.domainGet f 0 d with
    jobs := s.jobs + 1
    caller := update s.caller s.jobs f
    args := update s.args s.jobs Driver.RknpuSubmit.zero
    job := update s.job s.jobs (nativeJob c args.taskCount.toNat)
    refcount := update s.refcount s.jobs 1
    inferenceRefs := update s.inferenceRefs s.jobs 1
    domain := update s.domain s.jobs (some d)
    place := update s.place s.jobs .queued
    call := update s.call s.jobs (.returned none) }

/-- The call gets as far as `rocket_job_push`. -/
def reachesPush (env : Env) (args : DrmRocketJob) (w : World) : Bool :=
  decide ((rocketIoctlSubmitJob { env with push := none } args w).1 = none)

/-- A native job goes to `rocket_job_hw_submit` from `rocket_job_run`. -/
def programNative (s : Driver.State) (c j : Nat) : Driver.State :=
  let p := nullProgram (s.job j) j c
  { s with
    attached := update s.attached c (s.domain j)
    group := if s.attached c = s.domain j then s.group else update s.group c (s.domain j)
    inFlight := update s.inFlight c (some j)
    nextTaskIdx := update s.nextTaskIdx j (s.nextTaskIdx j + 1)
    run := update s.run c (.writing j p p.writes) }

/-- A native job goes to `rocket_job_hw_submit` from `rocket_job_handle_irq`. -/
def resubmitNative (s : Driver.State) (c j : Nat) : Driver.State :=
  let p := nullProgram (s.job j) j c
  { s with
    nextTaskIdx := update s.nextTaskIdx j (s.nextTaskIdx j + 1)
    irq := update s.irq c (.writing j p p.writes) }

/-- What the step does. -/
def effect (s : State) : Action → State
  | .driver a => { s with driver := Driver.effect s.driver a }
  | .submit f c d env args w =>
      { driver := pushNative s.driver f c d args
        tasks := update s.tasks s.driver.jobs (rocketCopyTasks env args .zero w).2.1.tasks }
  -- a failed `rocket_job_push` puts the job's reference on the domain
  | .refuse f d env args w => { s with
      driver := if reachesPush env args w then (s.driver.domainGet f 0 d).domainPut (some d)
        else s.driver }
  | .pop c j e => { s with driver := Driver.effect s.driver (.pop c j e) }
  | .killJob j => { s with driver := Driver.effect s.driver (.killJob j) }
  | .destroyEntity f k => { s with driver := Driver.effect s.driver (.destroyEntity f k) }
  | .runProgram c j => { s with driver := programNative s.driver c j }
  | .runFault c j p w => { s with
      driver := { s.driver.hwWrite c j p w with
        run := update s.driver.run c (.writing j p []) } }
  | .irqResubmit c _ j => { s with driver := resubmitNative s.driver c j }
  | .irqFault c j p w => { s with
      driver := { s.driver.hwWrite c j p w with
        irq := update s.driver.irq c (.writing j p []) } }

/-- The driver with native jobs as a transition system. -/
def system : System State Action := fun s a => if enabled s a then some (effect s a) else none

theorem system_eq_some {s t : State} {a : Action} :
    system s a = some t ↔ enabled s a = true ∧ effect s a = t := by
  unfold system
  split <;> simp_all

/-- The programming that the step starts on the hardware. -/
def Action.starts : Action → Option Program
  | .driver (.runWrite _ _ p w _) | .driver (.irqWrite _ _ p w _)
  | .runFault _ _ p w | .irqFault _ _ p w => if w = Driver.goWrite then some p else none
  | _ => none

/-- The programmings that a run starts for job `j`. -/
def programmings (j : Nat) (acts : List Action) : List Program :=
  (acts.filterMap Action.starts).filter fun p => p.job = j

/-- The programming has the register command of the task. -/
def Carries (p : Program) (t : RocketTask) : Prop :=
  p.word .baseAddress = t.regcmd.setWidth 32 ∧
    p.word .registerAmounts = (t.regcmdCount + 4#32 + 2#32 - 1#32) / 2#32 - 1#32

/-- The IRQ thread of core `c` serves an interrupt in one of the steps. -/
def Interrupted (c : Nat) (acts : List Action) : Prop :=
  ∃ seen, Action.driver (.irqThread c seen) ∈ acts

/-- A run takes native job `j` through its tasks `ts`. -/
structure RunsTasks (acts : List Action) (s : State) (j : Nat) (ts : List RocketTask) : Prop where
  atMost : (programmings j acts).length ≤ ts.length
  /-- The run can go on until there has been one programming for each task. -/
  goesOn : ∃ more t, Runs system s more t ∧ (programmings j (acts ++ more)).length = ts.length
  carries : ∀ (k : Nat) (p : Program) (t : RocketTask),
    (programmings j acts)[k]? = some p → ts[k]? = some t → Carries p t
  sameCore : ∀ p ∈ programmings j acts, p.core = (s.driver.job j).core
  /-- Between two programmings the core has raised its interrupt. -/
  inTurn : ∀ before a between b after p q, acts = before ++ a :: between ++ b :: after →
    a.starts = some p → p.job = j → b.starts = some q → q.job = j →
      Interrupted (s.driver.job j).core between
  bounded : s.driver.nextTaskIdx j ≤ ts.length
  /-- The done fence is signaled after the interrupt of the last programming. -/
  completed : ∀ f, s.driver.doneFence j = some f → f.signaler ≠ none →
    ∃ before a after p, acts = before ++ a :: after ∧ a.starts = some p ∧ p.job = j ∧
      (programmings j before).length + 1 = ts.length ∧ Interrupted (s.driver.job j).core after

/-- The step begins a reset of core `c`, or has job `j` cancelled. -/
def Action.disturbs (c j : Nat) : Action → Bool
  | .driver (.fire i _) => decide (i = c)
  | .driver (.tdrCancel _ _ k) | .killJob k => decide (k = j)
  | .pop _ k e => decide (k = j ∧ e ≠ none)
  | _ => false

/-! ## Where a step leads the threads of a core -/

/-- The step takes the worker of core `c` from one point of `rocket_job_run` to another. -/
inductive RunMoves (s : State) : Action → Nat → Driver.RunPc → Driver.RunPc → Prop
  | driver {a c p q} (admitted : s.admits a = true) (hmove : Driver.RunPc.Moves s.driver a c p q) :
      RunMoves s (.driver a) c p q
  | pop {c j e} (queued : s.driver.place j = .queued) (hcore : (s.driver.job j).core = c) :
      RunMoves s (.pop c j e) c .idle (.check j)
  | program {c j p} (hp : p = nullProgram (s.driver.job j) j c) :
      RunMoves s (.runProgram c j) c (.lock j) (.writing j p p.writes)
  | fault {c j p w} : RunMoves s (.runFault c j p w) c (.writing j p [w]) (.writing j p [])

/-- The step takes the IRQ thread of core `c` from one point of `rocket_job_handle_irq` to
another. -/
inductive IrqMoves (s : State) : Action → Nat → Driver.IrqPc → Driver.IrqPc → Prop
  | driver {a c p q} (admitted : s.admits a = true) (hmove : Driver.IrqPc.Moves s.driver a c p q) :
      IrqMoves s (.driver a) c p q
  | resubmit {c seen j p} (fly : s.driver.inFlight c = some j)
      (hp : p = nullProgram (s.driver.job j) j c) :
      IrqMoves s (.irqResubmit c seen j) c (.entered seen) (.writing j p p.writes)
  | fault {c j p w} : IrqMoves s (.irqFault c j p w) c (.writing j p [w]) (.writing j p [])

section Steps
variable {s : State} {a : Action} {c j : Nat}

theorem run_moved {i : Nat} {p q : Driver.RunPc} (hp : s.driver.run i = p)
    (hq : (effect s a).driver.run = update s.driver.run i q) (hmove : RunMoves s a i p q) :
    RunMoves s a c (s.driver.run c) ((effect s a).driver.run c) ∨
      (effect s a).driver.run c = s.driver.run c :=
  (component_moved (R := RunMoves s a) hp hq hmove).imp_right And.right

theorem irq_moved {i : Nat} {p q : Driver.IrqPc} (hp : s.driver.irq i = p)
    (hq : (effect s a).driver.irq = update s.driver.irq i q) (hmove : IrqMoves s a i p q) :
    IrqMoves s a c (s.driver.irq c) ((effect s a).driver.irq c) ∨
      (effect s a).driver.irq c = s.driver.irq c :=
  (component_moved (R := IrqMoves s a) hp hq hmove).imp_right And.right

theorem run_effect (h : enabled s a = true) (c : Nat) :
    RunMoves s a c (s.driver.run c) ((effect s a).driver.run c) ∨
      (effect s a).driver.run c = s.driver.run c := by
  cases a with
  | driver b =>
      obtain ⟨hb, hadmits⟩ := Bool.and_eq_true_iff.mp h
      exact (Driver.run_effect hb c).imp (.driver hadmits) And.right
  | pop i j e =>
      obtain ⟨-, hidle, -, -, hqueued, hcore, -⟩ := of_decide_eq_true (Bool.and_eq_true_iff.mp h).2
      exact run_moved hidle rfl (.pop hqueued hcore)
  | runProgram i j =>
      exact run_moved (of_decide_eq_true (Bool.and_eq_true_iff.mp h).2).1 rfl (.program rfl)
  | runFault i j p w =>
      exact run_moved (of_decide_eq_true (Bool.and_eq_true_iff.mp h).2) rfl .fault
  | refuse f d env args w =>
      right
      simp only [effect]
      split <;> rfl
  | _ => exact Or.inr rfl

theorem irq_effect (h : enabled s a = true) (c : Nat) :
    IrqMoves s a c (s.driver.irq c) ((effect s a).driver.irq c) ∨
      (effect s a).driver.irq c = s.driver.irq c := by
  cases a with
  | driver b =>
      obtain ⟨hb, hadmits⟩ := Bool.and_eq_true_iff.mp h
      exact (Driver.irq_effect hb c).imp_left (.driver hadmits)
  | irqResubmit i seen j =>
      obtain ⟨hentered, -, hfly, -⟩ := of_decide_eq_true (Bool.and_eq_true_iff.mp h).2
      exact irq_moved hentered rfl (.resubmit hfly rfl)
  | irqFault i j p w =>
      exact irq_moved (of_decide_eq_true (Bool.and_eq_true_iff.mp h).2) rfl .fault
  | refuse f d env args w =>
      right
      simp only [effect]
      split <;> rfl
  | _ => exact Or.inr rfl

end Steps

end Rkopnu.NativeJobs
