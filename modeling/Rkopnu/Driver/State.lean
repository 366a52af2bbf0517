import Rkopnu.HwSubmit
import Rkopnu.Power
import Mathlib.Logic.Function.Basic

/-!
# The state of the driver

Jobs, cores, files, domains and buffer objects are named by indices, and each
field that a running thread changes is a column over its index. The columns of
a job are the fields of `struct rocket_job` and the reference count that guards
them, the columns of a core those of `struct rocket_core`. A program counter
stands for every thread the driver runs in: the scheduler's `run_job` worker,
its timeout worker, the IRQ thread, the submitting ioctl and the closing file.

## Implementation notes

A job index is the index of the submit call that allocates the job, and it is
never used twice. A domain is named by its address, which may be used again
after the domain was freed. `drm_sched` is not part of the repository; what it
keeps about a job (`place`, `callback`, `finished`, `error`) follows its
documentation, with the order in which it picks jobs left open.
-/

namespace Rkopnu.Driver

/-- The path that signaled a fence. -/
inductive Signaler
  | irqThread
  | runJob
  deriving DecidableEq, Repr

/-- A fence of `rocket_fence_create`. -/
structure Fence where
  seqno : Nat
  signaler : Option Signaler
  error : Option Errno
  deriving DecidableEq, Repr

/-- `dma_fence_set_error` followed by `dma_fence_signal`; a second signal is refused. -/
def Fence.signal (f : Fence) (who : Signaler) (error : Option Errno) : Fence :=
  if f.signaler = none then { f with signaler := some who, error := error } else f

/-- What `rocket_job_run` hands back to the scheduler. -/
inductive RunResult
  | null
  | err (e : Errno)
  | fence
  deriving DecidableEq, Repr

/-- Where the `run_job` worker of a core stands in `rocket_job_run`. -/
inductive RunPc
  | idle
  /-- Entered; the finished fence and the task index are still to be checked. -/
  | check (j : Nat)
  /-- Before `rocket_fence_create`. -/
  | create (j : Nat)
  /-- Before `rocket_device_pm_get`. -/
  | pmGet (j : Nat)
  /-- Before the `job_lock` section, with a power reference. -/
  | lock (j : Nat)
  /-- In `rocket_job_hw_submit`, `job_lock` held, these registers still to write. -/
  | writing (j : Nat) (p : Program) (rest : List RegWrite)
  /-- The attach failed; before `rocket_device_pm_put`. -/
  | pmPut (j : Nat) (e : Errno)
  /-- The attach failed; before the fence is failed. -/
  | fail (j : Nat) (e : Errno)
  | ret (j : Nat) (r : RunResult)
  deriving DecidableEq, Repr

/-- Where the IRQ thread of a core stands in `rocket_job_handle_irq`. `seen`
collects the raw statuses its hard handlers read since the last
`OPERATION_ENABLE` write on the core; no code reads it. -/
inductive IrqPc
  | idle
  /-- The registers are quiesced; before the `job_lock` section. -/
  | entered (seen : U32)
  /-- In `rocket_job_hw_submit`, `job_lock` held. -/
  | writing (j : Nat) (p : Program) (rest : List RegWrite)
  deriving DecidableEq, Repr

/-- Where the timeout worker of a core stands, with the job it was given. -/
inductive TdrPc
  | idle
  /-- `rocket_job_timedout` entered. -/
  | entry (j : Nat)
  /-- Before `reset.pending` is set. -/
  | mark (j : Nat)
  /-- In `rocket_reset`, waiting in `drm_sched_stop` for the workers. -/
  | stop (j : Nat)
  /-- `drm_sched_stop` walks the pending list. -/
  | stopLoop (j : Nat)
  /-- The `job_lock` section is done; before `rocket_core_reset`. -/
  | hwReset (j : Nat)
  /-- Before `reset.pending` is cleared. -/
  | clear (j : Nat)
  /-- `drm_sched_start` walks the pending list. -/
  | startLoop (j : Nat)
  /-- The scheduler runs again; before `++job->timeout_count`. -/
  | count (j : Nat)
  /-- `rocket_job_timedout` has returned to `drm_sched`. -/
  | ret (j : Nat)
  deriving DecidableEq, Repr

/-- Where a job is with respect to the scheduler. -/
inductive Place
  /-- Not pushed. -/
  | outside
  /-- In its entity's queue. -/
  | queued
  /-- On the pending list. -/
  | pending
  /-- Off the pending list, held by the timeout worker. -/
  | timedOut
  /-- `free_job` was called for it. -/
  | released
  deriving DecidableEq, Repr

/-- Where a call of `rkopnu_ioctl_submit` stands. -/
inductive CallPc
  | idle
  /-- Before `drm_gem_vmap`. -/
  | vmap
  /-- Before the allocation of the job. -/
  | alloc
  /-- Before `drm_sched_job_init`. -/
  | jobInit
  /-- Before `rocket_iommu_domain_get`. -/
  | domain
  /-- Before `rocket_job_push`. -/
  | push
  /-- In `dma_fence_wait_timeout`. -/
  | wait
  /-- At `out_cleanup` with an error. -/
  | cleanup (e : Errno)
  /-- At `out_put_job`. -/
  | putJob (r : Option Errno)
  /-- At `out_vunmap`. -/
  | vunmap (r : Option Errno)
  /-- Before `drm_gem_object_put`. -/
  | gemPut (r : Option Errno)
  /-- Returned; `none` is the return value 0. -/
  | returned (r : Option Errno)
  deriving DecidableEq, Repr

/-- Where a file stands; the closing states are those of `rocket_postclose`. -/
inductive FilePc
  | unopened
  | opened
  /-- In `rocket_job_close`, before core entity `k` is destroyed. -/
  | destroying (k : Nat)
  /-- In `rocket_job_close`, before core `k` is searched for a domain of the file. -/
  | scanning (k : Nat)
  /-- In `rocket_iommu_domains_close`, before slot `i`. -/
  | putting (i : Nat)
  | closed
  deriving DecidableEq, Repr

/-- The registers and the status line of one core. `started` is the job of the
last `OPERATION_ENABLE` write, `raised` what the hardware raised since that
write and `residue` the raw status it found; no code reads these three. -/
structure Npu where
  regs : Reg → U32
  raw : U32
  started : Option Nat
  raised : U32
  residue : U32

/-- The write that starts the core. -/
def goWrite : RegWrite := ⟨.operationEnable, 0x1#32⟩

/-- One `writel`; `INTERRUPT_CLEAR` acknowledges raw status bits. -/
def Npu.write (n : Npu) (w : RegWrite) : Npu :=
  { n with
    regs := Function.update n.regs w.reg w.value
    raw := if w.reg = .interruptClear then n.raw &&& ~~~w.value else n.raw }

/-- The core starts on the program of job `j`. -/
def Npu.start (n : Npu) (j : Nat) : Npu :=
  { n with started := some j, raised := 0#32, residue := n.raw }

/-- The hardware raises status bits. -/
def Npu.raise (n : Npu) (bits : U32) : Npu :=
  { n with raw := n.raw ||| bits, raised := n.raised ||| bits }

/-- `rocket_core_reset`. -/
def Npu.reset (n : Npu) : Npu := { n with regs := fun _ => 0#32, raw := 0#32 }

structure State where
  /-- `domain->kref`. -/
  kref : Nat → Nat
  /-- A domain lives at this address. -/
  live : Nat → Bool
  /-- The finished fence is signaled. -/
  finished : Nat → Bool
  /-- The error the finished fence carries. -/
  error : Nat → Option Errno
  /-- `num_cores`. -/
  cores : Nat
  pm : PowerUnit
  /-- `core->attached_domain`. -/
  attached : Nat → Option Nat
  /-- The domain the core's IOMMU group is attached to. -/
  group : Nat → Option Nat
  /-- `core->in_flight_job`. -/
  inFlight : Nat → Option Nat
  /-- `core->reset.pending`. -/
  resetPending : Nat → Bool
  /-- `core->emit_seqno`. -/
  emitSeqno : Nat → Nat
  npu : Nat → Npu
  /-- A wake-up of the IRQ thread not yet served, with what was read for it. -/
  irqWake : Nat → Option U32
  irq : Nat → IrqPc
  run : Nat → RunPc
  tdr : Nat → TdrPc
  /-- The job that holds the core's one scheduler credit. -/
  active : Nat → Option Nat
  /-- `sched->free_guilty`. -/
  freeGuilty : Nat → Bool
  /-- How many submit calls there have been. -/
  jobs : Nat
  job : Nat → RocketJob
  /-- `job->refcount`. -/
  refcount : Nat → Nat
  nextTaskIdx : Nat → Nat
  timeoutCount : Nat → Nat
  /-- `job->done_fence`. -/
  doneFence : Nat → Option Fence
  /-- The references got through `job->done_fence` and not put. -/
  doneRefs : Nat → Int
  /-- The references got through `job->inference_done_fence` and not put. -/
  inferenceRefs : Nat → Int
  /-- `job->domain`. -/
  domain : Nat → Option Nat
  /-- How often `rocket_job_cleanup` ran for the job. -/
  frees : Nat → Nat
  /-- How often `drm_sched_job_cleanup` ran for the job. -/
  schedCleanups : Nat → Nat
  place : Nat → Place
  /-- The scheduler's callback is installed on the job's done fence. -/
  callback : Nat → Bool
  call : Nat → CallPc
  args : Nat → RknpuSubmit
  /-- The file of a submit call. -/
  caller : Nat → Nat
  /-- `args->task_counter`. -/
  counter : Nat → U32
  /-- The mapping of the task BO made by this call exists. -/
  mapped : Nat → Bool
  /-- The reference on the task BO taken by this call is held. -/
  boRef : Nat → Bool
  /-- How many files have been opened. -/
  files : Nat
  file : Nat → FilePc
  /-- `rocket_priv->domains`. -/
  slot : Nat → Nat → Option Nat
  /-- How many BOs have been created. -/
  bos : Nat
  /-- `bo->domain`, until the BO is freed. -/
  boDomain : Nat → Option Nat
  /-- The programs started on the hardware, in order. -/
  log : List Program

/-- A job record before it is filled. -/
def RocketJob.zero : RocketJob where
  core := 0
  taskCount := 0
  rkSubcore := fun _ => ⟨0#32, 0#32⟩
  rkUseCoreNum := 0
  rkTaskBaseAddr := 0#64
  rkTaskStart := 0#32
  rkTaskNumber := 0#32
  rkPpEn := 0#32

/-- Arguments of a call that has not been made. -/
def RknpuSubmit.zero : RknpuSubmit where
  flags := 0#32
  taskStart := 0#32
  taskNumber := 0#32
  taskCounter := 0#32
  taskObjAddr := 0#64
  iommuDomainId := 0#32
  taskBaseAddr := 0#64
  coreMask := 0#32
  subcoreTask := fun _ => ⟨0#32, 0#32⟩

/-- `n` cores are bound, each with its never-gate reference; no file is open. -/
def State.init (n : Nat) : State where
  cores := n
  pm := { refcount := 0, usage := fun _ => 1, warned := false }
  attached := fun _ => none
  group := fun _ => none
  inFlight := fun _ => none
  resetPending := fun _ => false
  emitSeqno := fun _ => 0
  npu := fun _ =>
    { regs := fun _ => 0#32, raw := 0#32, started := none, raised := 0#32, residue := 0#32 }
  irqWake := fun _ => none
  irq := fun _ => .idle
  run := fun _ => .idle
  tdr := fun _ => .idle
  active := fun _ => none
  freeGuilty := fun _ => false
  jobs := 0
  job := fun _ => RocketJob.zero
  refcount := fun _ => 0
  nextTaskIdx := fun _ => 0
  timeoutCount := fun _ => 0
  doneFence := fun _ => none
  doneRefs := fun _ => 0
  inferenceRefs := fun _ => 0
  domain := fun _ => none
  frees := fun _ => 0
  schedCleanups := fun _ => 0
  place := fun _ => .outside
  callback := fun _ => false
  finished := fun _ => false
  error := fun _ => none
  call := fun _ => .idle
  args := fun _ => RknpuSubmit.zero
  caller := fun _ => 0
  counter := fun _ => 0#32
  mapped := fun _ => false
  boRef := fun _ => false
  files := 0
  file := fun _ => .unopened
  slot := fun _ _ => none
  kref := fun _ => 0
  live := fun _ => false
  bos := 0
  boDomain := fun _ => none
  log := []

section Positions

/-- The job `rocket_job_run` was called for. -/
def RunPc.job : RunPc → Option Nat
  | .idle => none
  | .check j | .create j | .pmGet j | .lock j | .writing j _ _ | .pmPut j _ | .fail j _
  | .ret j _ => some j

/-- `rocket_job_run` holds `job_lock`. -/
def RunPc.locked : RunPc → Bool
  | .writing _ _ _ => true
  | _ => false

/-- `rocket_job_handle_irq` holds `job_lock`. -/
def IrqPc.locked : IrqPc → Bool
  | .writing _ _ _ => true
  | _ => false

/-- `rocket_job_run` holds a power reference it has not handed over: it was
taken, and neither `in_flight_job` is published nor the failed attach undone. -/
def RunPc.holdsPower : RunPc → Bool
  | .lock _ | .pmPut _ _ => true
  | _ => false

/-- The job `rocket_job_timedout` was called for. -/
def TdrPc.job : TdrPc → Option Nat
  | .idle => none
  | .entry j | .mark j | .stop j | .stopLoop j | .hwReset j | .clear j | .startLoop j
  | .count j | .ret j => some j

/-- The scheduler's workers are stopped. -/
def TdrPc.parked : TdrPc → Bool
  | .stopLoop _ | .hwReset _ | .clear _ | .startLoop _ => true
  | _ => false

/-- `reset.pending` is set. -/
def TdrPc.resetting : TdrPc → Bool
  | .stop _ | .stopLoop _ | .hwReset _ | .clear _ => true
  | _ => false

/-- The job given to `rocket_job_timedout` is not back on the pending list yet. -/
def TdrPc.offList : TdrPc → Option Nat
  | .entry j | .mark j | .stop j => some j
  | _ => none

/-- `drm_sched_entity_destroy` has returned for core entity `c` of the file. -/
def FilePc.entityGone : FilePc → Nat → Bool
  | .unopened, _ => true
  | .opened, _ => false
  | .destroying k, c => decide (c < k)
  | .scanning _, _ | .putting _, _ | .closed, _ => true

/-- The submit call has returned. -/
def CallPc.done : CallPc → Bool
  | .returned _ => true
  | _ => false

/-- The submit call is running. -/
def CallPc.busy : CallPc → Bool
  | .idle | .returned _ => false
  | _ => true

/-- The scheduler holds its reference on a job that was pushed and not freed. -/
def Place.held : Place → Bool
  | .queued | .pending | .timedOut => true
  | _ => false

/-- The job was handed to `rocket_job_run` and is not freed. -/
def Place.started : Place → Bool
  | .pending | .timedOut => true
  | _ => false

/-- The submitting ioctl holds its own reference on the job. -/
def CallPc.holdsJob : CallPc → Bool
  | .jobInit | .domain | .push | .wait | .cleanup _ | .putJob _ => true
  | _ => false

end Positions

end Rkopnu.Driver
