import Rkopnu.Driver.State
import Rkopnu.Foundation.Transition

/-!
# The steps of the driver

One action is one uninterrupted piece of one thread: the code between two
points where another thread can get in. An action names the thread by its core,
call or file, carries what the thread holds in locals, and what the
environment answers. `enabled` says where the thread has to stand and which
lock has to be free, `effect` what the piece of code does.

## Implementation notes

`job_lock` of a core is held exactly while one of its threads is inside
`rocket_job_hw_submit`, whose register writes are separate steps; every other
section under `job_lock` or `pm_lock` is one step. The timeout worker may be
given any pending job, and the `run_job` worker any queued one.
-/

namespace Rkopnu.Driver

open Function (update)

inductive Action
  -- files, buffer objects
  /-- `rocket_open`. -/
  | openFile
  /-- `rkopnu_ioctl_mem_create`: a BO in the domain at address `d`. -/
  | memCreate (f : Nat) (id : U32) (d : Nat)
  /-- A BO drops its domain: `rocket_gem_bo_free`, or a failed `MEM_CREATE`. -/
  | boFree (b : Nat)
  -- rkopnu_ioctl_submit, call j
  | submit (f : Nat) (args : RknpuSubmit)
  | vmap (j : Nat) (e : Option Errno)
  | alloc (j : Nat) (ok : Bool)
  | jobInit (j : Nat) (e : Option Errno)
  | domainGet (j : Nat) (d : Nat)
  | domainFail (j : Nat) (e : Errno)
  | push (j : Nat) (e : Option Errno)
  | waitDone (j : Nat)
  | waitExpire (j : Nat)
  | cleanup (j : Nat) (e : Errno)
  | putJob (j : Nat) (r : Option Errno)
  | vunmap (j : Nat) (r : Option Errno)
  | gemPut (j : Nat) (r : Option Errno)
  -- the run_job and free_job workers of core c
  /-- The worker takes a queued job and calls `run_job`; `e` is an error the
  scheduler has put on the finished fence before. -/
  | pop (c j : Nat) (e : Option Errno)
  | runCheck (c j : Nat)
  | runCreate (c j : Nat) (ok : Bool)
  | runPmGet (c j : Nat) (resume : Nat → Bool)
  /-- The `job_lock` section, the attach failing with `e`. -/
  | runAttachFail (c j : Nat) (e : Errno)
  /-- The `job_lock` section, `rocket_job_hw_submit` returning at `reset.pending`. -/
  | runSkip (c j : Nat)
  /-- The `job_lock` section up to the first register write; `mem` is the task array. -/
  | runProgram (c j : Nat) (mem : Int → RknpuTask)
  | runWrite (c j : Nat) (p : Program) (w : RegWrite) (rest : List RegWrite)
  | runPmPut (c j : Nat) (e : Errno)
  | runFail (c j : Nat) (e : Errno)
  /-- `run_job` returned a result that completes the job at once. -/
  | runComplete (c j : Nat) (r : RunResult)
  /-- `run_job` returned an unsignaled fence; the scheduler adds its callback. -/
  | runArm (c j : Nat)
  | freeJob (c j : Nat)
  -- interrupts of core c
  | raise (c : Nat) (bits : U32)
  /-- `rocket_job_irq_handler`. -/
  | irqHard (c : Nat)
  /-- The IRQ thread starts and quiesces the registers. -/
  | irqThread (c : Nat) (seen : U32)
  | irqNone (c : Nat) (seen : U32)
  | irqSkip (c : Nat) (seen : U32) (j : Nat)
  | irqResubmit (c : Nat) (seen : U32) (j : Nat) (mem : Int → RknpuTask)
  | irqWrite (c j : Nat) (p : Program) (w : RegWrite) (rest : List RegWrite)
  | irqComplete (c : Nat) (seen : U32) (j : Nat)
  -- the timeout worker of core c, job j
  | fire (c j : Nat)
  | tdrEntry (c j : Nat)
  | tdrMark (c j : Nat)
  | tdrNoReset (c j : Nat)
  | tdrStop (c j : Nat)
  /-- `drm_sched_stop` takes its callback off the fence of job `k`. -/
  | tdrDetach (c j k : Nat)
  /-- `drm_sched_stop` frees job `k`, which has finished. -/
  | tdrReap (c j k : Nat)
  /-- `drm_sched_stop` keeps the finished job `j` for `free_guilty`. -/
  | tdrGuilty (c j : Nat)
  | tdrSection (c j : Nat)
  | tdrHwReset (c j : Nat)
  | tdrClear (c j : Nat)
  /-- `drm_sched_start` finishes the detached job `k`. -/
  | tdrCancel (c j k : Nat)
  | tdrRestart (c j : Nat)
  | tdrCount (c j : Nat)
  | tdrReturn (c j : Nat)
  /-- `drm_sched` frees the finished job it kept for `rocket_job_timedout`. -/
  | tdrFreeGuilty (c j : Nat)
  -- rocket_postclose, file f
  | close (f : Nat)
  | destroyEntity (f k : Nat)
  | destroyed (f k : Nat)
  /-- The scheduler finishes a queued job of a destroyed entity. -/
  | killJob (j : Nat)
  | scan (f k : Nat)
  | scanned (f k : Nat)
  | putSlot (f i : Nat)
  | closed (f i : Nat)

/-! ## Pieces of code shared by several actions -/

/-- `ROCKET_MAX_IOMMU_DOMAINS`. -/
def maxIommuDomains : Nat := 16

/-- The pool slot of an `iommu_domain_id`, read as an `s32`. -/
def domainSlot (id : U32) : Nat :=
  if id.toInt < 0 ∨ (maxIommuDomains : Int) ≤ id.toInt then 0 else id.toInt.toNat

/-- The early returns of `rkopnu_ioctl_submit`. -/
def submitEarly (args : RknpuSubmit) : Option (Option Errno) :=
  if args.taskNumber = 0#32 then some none
  else if args.taskObjAddr = 0#64 then some (some .inval)
  else none

namespace State

/-- `&rdev->cores[0].dev`, ..., up to `num_cores`. -/
def devs (s : State) : List Nat := List.range s.cores

/-- No thread of the core holds `job_lock`. -/
def jobLockFree (s : State) (c : Nat) : Bool := !(s.run c).locked && !(s.irq c).locked

/-- `rocket_iommu_domain_get` may return the domain at `d`: it is in the slot,
or the slot is empty and `d` is free for a new domain. -/
def domainAnswer (s : State) (f i d : Nat) : Bool :=
  decide (s.slot f i = some d) || (decide (s.slot f i = none) && !s.live d)

/-- `rocket_iommu_domain_get` returning the domain at `d`. -/
def domainGet (s : State) (f i d : Nat) : State :=
  { s with
    kref := update s.kref d (if s.slot f i = none then 2 else s.kref d + 1)
    live := if s.slot f i = none then update s.live d true else s.live
    slot := update s.slot f (update (s.slot f) i (some d)) }

/-- `rocket_iommu_domain_put`; a null pointer is allowed. -/
def domainPut (s : State) (d : Option Nat) : State :=
  { s with
    kref := match d with
      | none => s.kref
      | some d => update s.kref d (s.kref d - 1)
    live := match d with
      | none => s.live
      | some d => if s.kref d = 1 then update s.live d false else s.live }

/-- `rocket_job_put`, with `rocket_job_cleanup` on the last reference. A null fence
is not put; `job->inference_done_fence` is set by the push. -/
def jobPut (s : State) (j : Nat) : State :=
  { s.domainPut (if s.refcount j = 1 then s.domain j else none) with
    refcount := update s.refcount j (s.refcount j - 1)
    frees := if s.refcount j = 1 then update s.frees j (s.frees j + 1) else s.frees
    doneRefs := if s.refcount j = 1 ∧ s.doneFence j ≠ none
      then update s.doneRefs j (s.doneRefs j - 1) else s.doneRefs
    inferenceRefs := if s.refcount j = 1 ∧ s.place j ≠ .outside
      then update s.inferenceRefs j (s.inferenceRefs j - 1) else s.inferenceRefs }

/-- `rocket_job_free`. -/
def schedFree (s : State) (j : Nat) : State :=
  { s.jobPut j with
    schedCleanups := update s.schedCleanups j (s.schedCleanups j + 1)
    place := update s.place j .released }

/-- `drm_sched_job_done`: the credit is returned and the finished fence signaled. -/
def jobDone (s : State) (j : Nat) (e : Option Errno) : State :=
  { s with
    finished := update s.finished j true
    error := if e = none then s.error else update s.error j e
    callback := update s.callback j false
    active := if s.active (s.job j).core = some j then update s.active (s.job j).core none
      else s.active }

/-- `dma_fence_signal` on `job->done_fence`, with the scheduler's callback. -/
def signalDone (s : State) (j : Nat) (who : Signaler) (e : Option Errno) : State :=
  { s with
    doneFence := update s.doneFence j ((s.doneFence j).map fun f => f.signal who e)
    finished := if s.callback j then update s.finished j true else s.finished
    error := if s.callback j ∧ e ≠ none then update s.error j e else s.error
    callback := update s.callback j false
    active := if s.callback j ∧ s.active (s.job j).core = some j
      then update s.active (s.job j).core none else s.active }

/-- One `writel` of `rocket_job_hw_submit` on core `c`, for the program `p` of job `j`. -/
def hwWrite (s : State) (c j : Nat) (p : Program) (w : RegWrite) : State :=
  { s with
    npu := update s.npu c
      (if w = goWrite then ((s.npu c).write w).start j else (s.npu c).write w)
    irqWake := if w = goWrite then update s.irqWake c ((s.irqWake c).map fun _ => 0#32)
      else s.irqWake
    log := if w = goWrite then s.log ++ [p] else s.log }

/-- The result of `run_job` with which the scheduler completes the job at once. -/
def immediate (s : State) (j : Nat) : RunResult → Option (Option Errno)
  | .null => some none
  | .err e => some (some e)
  | .fence => match s.doneFence j with
      | none => none
      | some f => if f.signaler = none then none else some f.error

/-- `rocket_job_close` finds a domain of the file attached to core `k`. -/
def scanHit (s : State) (f k : Nat) : Bool :=
  (List.range maxIommuDomains).any fun i =>
    decide (s.slot f i ≠ none ∧ s.attached k = s.slot f i)

end State

/-- After a new start, what the thread's hard handlers read is about an earlier program. -/
def IrqPc.forget : IrqPc → IrqPc
  | .entered _ => .entered 0#32
  | pc => pc

/-! ## Guards -/

/-- The thread stands at the action, and the locks it takes there are free. -/
def enabled (s : State) : Action → Bool
  | .openFile => decide (0 < s.cores)
  | .memCreate f id d => decide (s.file f = .opened) && s.domainAnswer f (domainSlot id) d
  | .boFree b => decide (s.boDomain b ≠ none)
  | .submit f _ => decide (s.file f = .opened)
  | .vmap j _ => decide (s.call j = .vmap)
  | .alloc j _ => decide (s.call j = .alloc)
  | .jobInit j _ => decide (s.call j = .jobInit)
  | .domainGet j d => decide (s.call j = .domain) &&
      s.domainAnswer (s.caller j) (domainSlot (s.args j).iommuDomainId) d
  | .domainFail j _ => decide (s.call j = .domain ∧
      s.slot (s.caller j) (domainSlot (s.args j).iommuDomainId) = none)
  | .push j _ => decide (s.call j = .push)
  | .waitDone j => decide (s.call j = .wait ∧ s.finished j = true)
  | .waitExpire j => decide (s.call j = .wait ∧ s.finished j = false)
  | .cleanup j e => decide (s.call j = .cleanup e)
  | .putJob j r => decide (s.call j = .putJob r)
  | .vunmap j r => decide (s.call j = .vunmap r)
  | .gemPut j r => decide (s.call j = .gemPut r)
  | .pop c j _ => decide (c < s.cores ∧ s.run c = .idle ∧ (s.tdr c).parked = false ∧
      s.active c = none ∧ s.place j = .queued ∧ (s.job j).core = c ∧
      (s.file (s.caller j)).entityGone c = false)
  | .runCheck c j => decide (s.run c = .check j)
  | .runCreate c j _ => decide (s.run c = .create j)
  | .runPmGet c j _ => decide (s.run c = .pmGet j)
  | .runAttachFail c j _ => decide (s.run c = .lock j ∧ s.jobLockFree c = true ∧
      s.attached c ≠ s.domain j)
  | .runSkip c j => decide (s.run c = .lock j ∧ s.jobLockFree c = true ∧
      s.resetPending c = true)
  | .runProgram c j _ => decide (s.run c = .lock j ∧ s.jobLockFree c = true ∧
      s.resetPending c = false)
  | .runWrite c j p w rest => decide (s.run c = .writing j p (w :: rest))
  | .runPmPut c j e => decide (s.run c = .pmPut j e)
  | .runFail c j e => decide (s.run c = .fail j e)
  | .runComplete c j r => decide (s.run c = .ret j r ∧ s.immediate j r ≠ none)
  | .runArm c j => decide (s.run c = .ret j .fence ∧ s.immediate j .fence = none)
  | .freeJob c j => decide ((s.tdr c).parked = false ∧ s.place j = .pending ∧
      (s.job j).core = c ∧ s.finished j = true)
  | .raise c _ => decide (c < s.cores)
  | .irqHard c => decide (c < s.cores)
  | .irqThread c seen => decide (s.irqWake c = some seen ∧ s.irq c = .idle)
  | .irqNone c seen => decide (s.irq c = .entered seen ∧ s.jobLockFree c = true ∧
      s.inFlight c = none)
  | .irqSkip c seen j => decide (s.irq c = .entered seen ∧ s.jobLockFree c = true ∧
      s.inFlight c = some j ∧ s.nextTaskIdx j < (s.job j).taskCount ∧ s.resetPending c = true)
  | .irqResubmit c seen j _ => decide (s.irq c = .entered seen ∧ s.jobLockFree c = true ∧
      s.inFlight c = some j ∧ s.nextTaskIdx j < (s.job j).taskCount ∧ s.resetPending c = false)
  | .irqWrite c j p w rest => decide (s.irq c = .writing j p (w :: rest))
  | .irqComplete c seen j => decide (s.irq c = .entered seen ∧ s.jobLockFree c = true ∧
      s.inFlight c = some j ∧ ¬ s.nextTaskIdx j < (s.job j).taskCount)
  | .fire c j => decide (c < s.cores ∧ s.tdr c = .idle ∧ s.place j = .pending ∧
      (s.job j).core = c)
  | .tdrEntry c j => decide (s.tdr c = .entry j)
  | .tdrMark c j => decide (s.tdr c = .mark j)
  | .tdrNoReset c j => decide (s.tdr c = .stop j ∧ s.resetPending c = false)
  | .tdrStop c j => decide (s.tdr c = .stop j ∧ s.resetPending c = true ∧ s.run c = .idle)
  | .tdrDetach c j k => decide (s.tdr c = .stopLoop j ∧ s.place k = .pending ∧
      (s.job k).core = c ∧ s.callback k = true)
  | .tdrReap c j k => decide (s.tdr c = .stopLoop j ∧ k ≠ j ∧ s.place k = .pending ∧
      (s.job k).core = c ∧ s.callback k = false ∧ s.finished k = true)
  | .tdrGuilty c j => decide (s.tdr c = .stopLoop j ∧ s.place j = .pending ∧
      s.callback j = false ∧ s.finished j = true)
  | .tdrSection c j => decide (s.tdr c = .stopLoop j ∧ s.jobLockFree c = true ∧
      ∀ k < s.jobs, s.place k = .pending → (s.job k).core = c →
        s.callback k = false ∧ s.finished k = false)
  | .tdrHwReset c j => decide (s.tdr c = .hwReset j)
  | .tdrClear c j => decide (s.tdr c = .clear j)
  | .tdrCancel c j k => decide (s.tdr c = .startLoop j ∧ s.place k = .pending ∧
      (s.job k).core = c ∧ s.finished k = false)
  | .tdrRestart c j => decide (s.tdr c = .startLoop j ∧
      ∀ k < s.jobs, s.place k = .pending → (s.job k).core = c → s.finished k = true)
  | .tdrCount c j => decide (s.tdr c = .count j)
  | .tdrReturn c j => decide (s.tdr c = .ret j ∧ s.freeGuilty c = false)
  | .tdrFreeGuilty c j => decide (s.tdr c = .ret j ∧ s.freeGuilty c = true)
  | .close f => decide (s.file f = .opened ∧
      ∀ j < s.jobs, s.caller j = f → (s.call j).done = true)
  | .destroyEntity f k => decide (s.file f = .destroying k ∧ k < s.cores ∧ k < 3) &&
      (s.run k).job.all fun j => decide (s.caller j ≠ f)
  | .destroyed f k => decide (s.file f = .destroying k ∧ ¬ (k < s.cores ∧ k < 3))
  | .killJob j => decide (s.place j = .queued ∧
      (s.file (s.caller j)).entityGone (s.job j).core = true)
  | .scan f k => decide (s.file f = .scanning k ∧ k < s.cores ∧ s.jobLockFree k = true)
  | .scanned f k => decide (s.file f = .scanning k ∧ ¬ k < s.cores)
  | .putSlot f i => decide (s.file f = .putting i ∧ i < maxIommuDomains)
  | .closed f i => decide (s.file f = .putting i ∧ ¬ i < maxIommuDomains)

/-! ## Effects -/

/-- What the piece of code does. -/
def effect (s : State) : Action → State
  | .openFile => { s with file := update s.file s.files .opened, files := s.files + 1 }
  | .memCreate f id d => { s.domainGet f (domainSlot id) d with
      boDomain := update s.boDomain s.bos (some d)
      bos := s.bos + 1 }
  | .boFree b => { s.domainPut (s.boDomain b) with boDomain := update s.boDomain b none }
  -- task_number == 0 returns 0 and a null task_obj_addr -EINVAL; else the BO is referenced
  | .submit f args => { s with
      jobs := s.jobs + 1
      caller := update s.caller s.jobs f
      args := update s.args s.jobs args
      counter := update s.counter s.jobs args.taskCounter
      boRef := update s.boRef s.jobs (decide (submitEarly args = none))
      call := update s.call s.jobs (match submitEarly args with
        | none => .vmap
        | some r => .returned r) }
  | .vmap j e => { s with
      mapped := update s.mapped j (decide (e = none))
      call := update s.call j (match e with
        | none => .alloc
        | some e => .gemPut (some e)) }
  | .alloc j ok => { s with
      refcount := update s.refcount j (if ok then 1 else 0)
      call := update s.call j (if ok then .jobInit else .vunmap (some .nomem)) }
  | .jobInit j e => { s with
      job := if e = none then update s.job j (submitJob s.cores (s.args j)) else s.job
      call := update s.call j (match e with
        | none => .domain
        | some e => .putJob (some e)) }
  | .domainGet j d =>
      { s.domainGet (s.caller j) (domainSlot (s.args j).iommuDomainId) d with
        domain := update s.domain j (some d)
        call := update s.call j .push }
  | .domainFail j e => { s with call := update s.call j (.cleanup e) }
  | .push j e => { s with
      refcount := if e = none then update s.refcount j (s.refcount j + 1) else s.refcount
      inferenceRefs := if e = none then update s.inferenceRefs j (s.inferenceRefs j + 1)
        else s.inferenceRefs
      place := if e = none then update s.place j .queued else s.place
      call := update s.call j (match e with
        | none => .wait
        | some e => .cleanup e) }
  | .waitDone j => { s with
      counter := update s.counter j (s.args j).taskNumber
      call := update s.call j (.putJob none) }
  | .waitExpire j => { s with
      counter := update s.counter j 0#32
      call := update s.call j (.putJob (some .timedout)) }
  | .cleanup j e => { s with
      schedCleanups := update s.schedCleanups j (s.schedCleanups j + 1)
      call := update s.call j (.putJob (some e)) }
  | .putJob j r => { s.jobPut j with call := update s.call j (.vunmap r) }
  | .vunmap j r => { s with
      mapped := update s.mapped j false
      call := update s.call j (.gemPut r) }
  | .gemPut j r => { s with
      boRef := update s.boRef j false
      call := update s.call j (.returned r) }
  | .pop c j e => { s with
      active := update s.active c (some j)
      place := update s.place j .pending
      error := if e = none then s.error else update s.error j e
      run := update s.run c (.check j) }
  | .runCheck c j => { s with
      run := update s.run c
        (if s.error j ≠ none ∨ s.nextTaskIdx j = (s.job j).taskCount then .ret j .null
         else .create j) }
  | .runCreate c j ok => { s with
      emitSeqno := if ok then update s.emitSeqno c (s.emitSeqno c + 1) else s.emitSeqno
      doneFence := if ok
        then update s.doneFence j (some ⟨s.emitSeqno c + 1, none, none⟩) else s.doneFence
      doneRefs := if ok
        then update s.doneRefs j (s.doneRefs j - (if s.doneFence j = none then 0 else 1) + 1)
        else s.doneRefs
      run := update s.run c (if ok then .pmGet j else .ret j (.err .nomem)) }
  | .runPmGet c j resume => { s with
      pm := (rocketDevicePmGet s.devs resume s.pm).2
      run := update s.run c
        (if (rocketDevicePmGet s.devs resume s.pm).1 then .lock j else .ret j .fence) }
  | .runAttachFail c j e => { s with
      attached := update s.attached c none
      group := if s.attached c = none then s.group else update s.group c none
      run := update s.run c (.pmPut j e) }
  | .runSkip c j => { s with
      attached := update s.attached c (s.domain j)
      group := if s.attached c = s.domain j then s.group else update s.group c (s.domain j)
      inFlight := update s.inFlight c (some j)
      run := update s.run c (.ret j .fence) }
  | .runProgram c j mem => { s with
      attached := update s.attached c (s.domain j)
      group := if s.attached c = s.domain j then s.group else update s.group c (s.domain j)
      inFlight := update s.inFlight c (some j)
      nextTaskIdx := update s.nextTaskIdx j (s.nextTaskIdx j + 1)
      run := update s.run c
        (.writing j (hwProgram (s.job j) j c mem) (hwProgram (s.job j) j c mem).writes) }
  | .runWrite c j p w rest => { s.hwWrite c j p w with
      irq := if w = goWrite then update s.irq c (s.irq c).forget else s.irq
      run := update s.run c (if rest = [] then .ret j .fence else .writing j p rest) }
  | .runPmPut c j e => { s with
      pm := rocketDevicePmPut s.devs s.pm
      run := update s.run c (.fail j e) }
  | .runFail c j e => { s.signalDone j .runJob (some e) with
      run := update s.run c (.ret j .fence) }
  | .runComplete c j r => { s.jobDone j ((s.immediate j r).getD none) with
      run := update s.run c .idle }
  | .runArm c j => { s with
      callback := update s.callback j true
      run := update s.run c .idle }
  | .freeJob _ j => s.schedFree j
  | .raise c bits => { s with npu := update s.npu c ((s.npu c).raise bits) }
  -- a zero raw status is IRQ_NONE; DMA errors only warn
  | .irqHard c => { s with
      npu := if (s.npu c).raw = 0#32 then s.npu
        else update s.npu c ((s.npu c).write ⟨.interruptMask, 0x0#32⟩)
      irqWake := if (s.npu c).raw = 0#32 then s.irqWake
        else update s.irqWake c (some ((s.irqWake c).getD 0#32 ||| (s.npu c).raw)) }
  | .irqThread c seen => { s with
      npu := update s.npu c (((s.npu c).write ⟨.operationEnable, 0x0#32⟩).write
        ⟨.interruptClear, 0xffffffff#32⟩)
      irqWake := update s.irqWake c none
      irq := update s.irq c (.entered seen) }
  | .irqNone c _ => { s with irq := update s.irq c .idle }
  | .irqSkip c _ _ => { s with irq := update s.irq c .idle }
  | .irqResubmit c _ j mem => { s with
      nextTaskIdx := update s.nextTaskIdx j (s.nextTaskIdx j + 1)
      irq := update s.irq c
        (.writing j (hwProgram (s.job j) j c mem) (hwProgram (s.job j) j c mem).writes) }
  | .irqWrite c j p w rest => { s.hwWrite c j p w with
      irq := update s.irq c (if rest = [] then .idle else .writing j p rest) }
  | .irqComplete c _ j => { s.signalDone j .irqThread none with
      pm := rocketDevicePmPut s.devs s.pm
      inFlight := update s.inFlight c none
      irq := update s.irq c .idle }
  | .fire c j => { s with
      place := update s.place j .timedOut
      tdr := update s.tdr c (.entry j) }
  | .tdrEntry c j => { s with tdr := update s.tdr c (.mark j) }
  | .tdrMark c j => { s with
      resetPending := update s.resetPending c true
      tdr := update s.tdr c (.stop j) }
  | .tdrNoReset c j => { s with tdr := update s.tdr c (.count j) }
  | .tdrStop c j => { s with
      place := update s.place j .pending
      tdr := update s.tdr c (.stopLoop j) }
  | .tdrDetach c _ k => { s with
      callback := update s.callback k false
      active := if s.active c = some k then update s.active c none else s.active }
  | .tdrReap _ _ k => s.schedFree k
  | .tdrGuilty c j => { s with
      place := update s.place j .timedOut
      freeGuilty := update s.freeGuilty c true }
  | .tdrSection c j => { s with
      pm := if s.inFlight c = none then s.pm else rocketDevicePmPutNoidle s.devs s.pm
      attached := update s.attached c none
      group := if s.attached c = none then s.group else update s.group c none
      inFlight := update s.inFlight c none
      tdr := update s.tdr c (.hwReset j) }
  | .tdrHwReset c j => { s with
      npu := update s.npu c (s.npu c).reset
      tdr := update s.tdr c (.clear j) }
  | .tdrClear c j => { s with
      resetPending := update s.resetPending c false
      tdr := update s.tdr c (.startLoop j) }
  | .tdrCancel _ _ k => s.jobDone k (some .canceled)
  | .tdrRestart c j => { s with tdr := update s.tdr c (.count j) }
  | .tdrCount c j => { s with
      timeoutCount := update s.timeoutCount j (s.timeoutCount j + 1)
      tdr := update s.tdr c (.ret j) }
  | .tdrReturn c _ => { s with tdr := update s.tdr c .idle }
  | .tdrFreeGuilty c j => { s.schedFree j with
      freeGuilty := update s.freeGuilty c false
      tdr := update s.tdr c .idle }
  | .close f => { s with file := update s.file f (.destroying 0) }
  | .destroyEntity f k => { s with file := update s.file f (.destroying (k + 1)) }
  | .destroyed f _ => { s with file := update s.file f (.scanning 0) }
  | .killJob j => { s.schedFree j with
      finished := update s.finished j true
      error := update s.error j (some .srch) }
  | .scan f k => { s with
      attached := if s.scanHit f k then update s.attached k none else s.attached
      group := if s.scanHit f k then update s.group k none else s.group
      file := update s.file f (.scanning (k + 1)) }
  | .scanned f _ => { s with file := update s.file f (.putting 0) }
  | .putSlot f i => { s.domainPut (s.slot f i) with
      slot := update s.slot f (update (s.slot f) i none)
      file := update s.file f (.putting (i + 1)) }
  | .closed f _ => { s with file := update s.file f .closed }

section HwSubmit
variable {s : State} {c j : Nat} {mem : Int → RknpuTask} {p : Program} {w : RegWrite}
  {rest : List RegWrite}

theorem enabled_runProgram : enabled s (.runProgram c j mem) = true ↔
    s.run c = .lock j ∧ s.jobLockFree c = true ∧ s.resetPending c = false := by
  simp only [enabled, decide_eq_true_eq]

theorem enabled_runWrite :
    enabled s (.runWrite c j p w rest) = true ↔ s.run c = .writing j p (w :: rest) := by
  simp only [enabled, decide_eq_true_eq]

/-- The program is in the log once the core has been started. -/
theorem log_runWrite : (effect s (.runWrite c j p w rest)).log =
    if w = goWrite then s.log ++ [p] else s.log := by
  simp only [effect, State.hwWrite]

end HwSubmit

/-- The driver as a transition system. -/
def driver : Transition.System State Action := fun s a =>
  if enabled s a then some (effect s a) else none

theorem driver_eq_some {s t : State} {a : Action} :
    driver s a = some t ↔ enabled s a = true ∧ effect s a = t := by
  unfold driver
  split <;> simp_all

/-- What every step keeps holds at the end of every run of `n` bound cores. -/
theorem run_invariant (Inv : State → Prop) {n : Nat} (start : Inv (State.init n))
    (keep : ∀ s a, Inv s → enabled s a = true → Inv (effect s a)) {acts : List Action}
    {s : State} (run : Transition.Runs driver (State.init n) acts s) : Inv s := by
  refine Transition.invariant Inv (fun s a t h hstep => ?_) run start
  obtain ⟨he, rfl⟩ := driver_eq_some.mp hstep
  exact keep s a h he

/-- No step binds or unbinds a core. -/
@[simp] theorem cores_effect (s : State) (a : Action) : (effect s a).cores = s.cores := by
  cases a <;> rfl

theorem cores_of_run {n : Nat} {acts : List Action} {s : State}
    (run : Transition.Runs driver (State.init n) acts s) : s.cores = n :=
  run_invariant (fun s => s.cores = n) rfl (fun s a hn _ => (cores_effect s a).trans hn) run

end Rkopnu.Driver
