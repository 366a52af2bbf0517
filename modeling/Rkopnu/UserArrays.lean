import Rkopnu.Foundation.Strided
import Rkopnu.Native

/-!
# The arrays of a native submit

`rocket_ioctl_submit` copies an array of jobs from user space, and `rocket_copy_tasks` the
array of tasks of each job. User space says how far apart the elements of an array lie, so
that its structures may be larger than those of the kernel. Count and stride are two `u32`,
and so is the product that is added to the user pointer: beyond `2 ^ 32` the loops read an
earlier element again, or what lies between two elements.

## Implementation notes

The array of jobs that `rocket_ioctl_submit` frees before it returns is not counted in `World`.
-/

namespace Rkopnu.Native

open Strided

/-- `sizeof(struct drm_rocket_job)`. -/
def sizeofDrmRocketJob : Nat := 40

/-- `struct drm_rocket_submit`. -/
structure DrmRocketSubmit where
  jobs : U64
  jobCount : U32
  jobStructSize : U32
  reserved : U64

/-- What `rocket_ioctl_submit` finds, and what the kernel answers to its calls. -/
structure SubmitEnv where
  /-- What `copy_from_user` reads of a job at a user address. -/
  mem : U64 → Option DrmRocketJob
  jobsAlloc : Bool
  /-- What the call of `rocket_ioctl_submit_job` for each job finds. -/
  calls : Nat → Env

/-- The address of the job `i` of the array: `i * args->job_struct_size` is a `u32`. -/
def jobAddr (args : DrmRocketSubmit) (i : Nat) : U64 :=
  args.jobs + (BitVec.ofNat 32 i * args.jobStructSize).setWidth 64

/-- One round of the copying loop of `rocket_ioctl_submit`. -/
def copyJob (env : SubmitEnv) (args : DrmRocketSubmit) (i : Nat) : Except Errno DrmRocketJob :=
  match env.mem (jobAddr args i) with
  | none => .error efault
  | some job => .ok job

/-- The jobs that `rocket_ioctl_submit` goes on with, or the error it returns. -/
def incomingJobs (env : SubmitEnv) (args : DrmRocketSubmit) : Except Errno (List DrmRocketJob) :=
  if args.jobCount = 0#32 then .ok []
  else if args.jobStructSize.toNat < sizeofDrmRocketJob then .error .inval
  else if args.reserved ≠ 0#64 then .error .inval
  else if env.jobsAlloc = false then .error .nomem
  else (List.range args.jobCount.toNat).mapM (copyJob env args)

/-- The calls of `rocket_ioctl_submit_job` from job `i` on; their results are dropped. -/
def submitAll (calls : Nat → Env) (i : Nat) : List DrmRocketJob → World → World
  | [], w => w
  | job :: rest, w => submitAll calls (i + 1) rest (rocketIoctlSubmitJob (calls i) job w).2

/-- `rocket_ioctl_submit`. -/
def rocketIoctlSubmit (env : SubmitEnv) (args : DrmRocketSubmit) (w : World) :
    Option Errno × World :=
  match incomingJobs env args with
  | .error e => (some e, w)
  | .ok jobs => (none, submitAll env.calls 0 jobs w)

/-- What `rocket_copy_tasks` keeps of a task. -/
def DrmRocketTask.kept (task : DrmRocketTask) : RocketTask :=
  ⟨task.regcmd.setWidth 64, task.regcmdCount⟩

/-- The task array of the job is the array of user space, each task read from where it lies. -/
def TasksRead (env : Env) (args : DrmRocketJob) (j : Job) : Prop :=
  ReadsArray (taskAddr args) (fun a => (env.mem a).map DrmRocketTask.kept) args.tasks
    args.taskStructSize args.taskCount.toNat (j.tasks.getD [])

/-- The jobs are the array of user space, each job read from where it lies. -/
def JobsRead (env : SubmitEnv) (args : DrmRocketSubmit) (jobs : List DrmRocketJob) : Prop :=
  ReadsArray (jobAddr args) env.mem args.jobs args.jobStructSize args.jobCount.toNat jobs

section Arrays
variable {env : Env} {args : DrmRocketJob} {k j : Job} {w v : World}

/-- Each task of a copied array is the one found at the address of its round. -/
theorem tasks_of_copy (h : rocketCopyTasks env args k w = (none, j, v)) {i : Nat}
    (hi : i < args.taskCount.toNat) :
    (j.tasks.getD [])[i]? = (env.mem (taskAddr args i)).map DrmRocketTask.kept := by
  unfold rocketCopyTasks at h
  have hcount : args.taskCount ≠ 0#32 := by
    rintro hzero
    simp [hzero] at hi
  by_cases hsize : args.taskStructSize.toNat < sizeofDrmRocketTask
  · simp [hsize] at h
  cases halloc : env.taskAlloc with
  | false => simp [hsize, hcount, halloc] at h
  | true =>
      cases hloop : (List.range args.taskCount.toNat).mapM (copyTask env args) with
      | error e => simp [hsize, hcount, halloc, hloop] at h
      | ok tasks =>
          simp only [hsize, hcount, halloc, hloop, if_false, Bool.true_eq_false,
            Prod.mk.injEq, true_and] at h
          obtain ⟨rfl, -⟩ := h
          obtain ⟨task, hcopy, hentry⟩ := getElem_of_mapM_range hloop hi
          rw [Option.getD_some, hentry]
          unfold copyTask at hcopy
          cases hmem : env.mem (taskAddr args i) with
          | none => simp [hmem] at hcopy
          | some t =>
              simp only [hmem] at hcopy
              split at hcopy
              · cases hcopy
              · rw [← Except.ok.inj hcopy]
                rfl

/-- Each job of a copied array is the one found at the address of its round. -/
theorem jobs_of_copy {env : SubmitEnv} {args : DrmRocketSubmit} {jobs : List DrmRocketJob}
    (h : incomingJobs env args = .ok jobs) {i : Nat} (hi : i < args.jobCount.toNat) :
    jobs[i]? = env.mem (jobAddr args i) := by
  have hcount : args.jobCount ≠ 0#32 := by
    rintro hzero
    simp [hzero] at hi
  unfold incomingJobs at h
  rw [if_neg hcount] at h
  split at h
  · cases h
  split at h
  · cases h
  split at h
  · cases h
  obtain ⟨job, hcopy, hentry⟩ := getElem_of_mapM_range h hi
  rw [hentry]
  unfold copyJob at hcopy
  cases hmem : env.mem (jobAddr args i) with
  | none => simp [hmem] at hcopy
  | some found =>
      simp only [hmem] at hcopy
      rw [Except.ok.inj hcopy]

end Arrays

/-- For every user memory, every base, count and stride: the tasks that `rocket_copy_tasks`
accepts, and the jobs that `rocket_ioctl_submit` does, are read from where they lie and equal
the array of user space exactly when the offset of the last element fits into 32 bits. -/
theorem user_arrays_read_iff (env : Env) (args : DrmRocketJob) (k : Job) (calls : SubmitEnv)
    (submit : DrmRocketSubmit) (w : World) :
    (∀ j v, rocketCopyTasks env args k w = (none, j, v) →
      (TasksRead env args j ↔ NoWrap args.taskCount.toNat args.taskStructSize)) ∧
    ∀ v, rocketIoctlSubmit calls submit w = (none, v) →
      ∃ jobs, incomingJobs calls submit = .ok jobs ∧ v = submitAll calls.calls 0 jobs w ∧
        (JobsRead calls submit jobs ↔ NoWrap submit.jobCount.toNat submit.jobStructSize) := by
  constructor
  · intro j v h
    exact readsArray_iff (fun _ => rfl) (fun _ hi => tasks_of_copy h hi) (by decide)
      (Nat.le_of_lt args.taskCount.isLt)
  · intro v h
    unfold rocketIoctlSubmit at h
    cases hjobs : incomingJobs calls submit with
    | error e => simp [hjobs] at h
    | ok jobs =>
        simp only [hjobs, Prod.mk.injEq, true_and] at h
        exact ⟨jobs, rfl, h.symm, readsArray_iff (fun _ => rfl)
          (fun _ hi => jobs_of_copy hjobs hi) (by decide) (Nat.le_of_lt submit.jobCount.isLt)⟩

/-- User memory with one task at `0x100010000` and another everywhere else. -/
def farMem (a : U64) : Option DrmRocketTask :=
  some (if a = 0x100010000#64 then ⟨0x2000#32, 8#32⟩ else ⟨0x1000#32, 8#32⟩)

/-- Three tasks, `2 ^ 31` bytes apart. -/
def farJob : DrmRocketJob :=
  { plainJob with taskCount := 3#32, taskStructSize := 0x80000000#32 }

/-- Two jobs that lie side by side. -/
def plainSubmit : DrmRocketSubmit where
  jobs := 0x20000#64
  jobCount := 2#32
  jobStructSize := 40#32
  reserved := 0#64

/-- Every job of user memory is `plainJob`, and every call finds `plainEnv`. -/
def plainSubmitEnv : SubmitEnv where
  mem := fun _ => some plainJob
  jobsAlloc := true
  calls := fun _ => plainEnv

theorem user_arrays_read_iff_on_plain :
    TasksRead plainEnv plainJob
        (rocketCopyTasks plainEnv plainJob .zero World.calm).2.1 ∧
      ∃ jobs, incomingJobs plainSubmitEnv plainSubmit = .ok jobs ∧
        JobsRead plainSubmitEnv plainSubmit jobs := by
  have hboth := user_arrays_read_iff plainEnv plainJob .zero plainSubmitEnv plainSubmit World.calm
  obtain ⟨jobs, hjobs, -, hread⟩ := hboth.2 _ rfl
  exact ⟨(hboth.1 _ _ rfl).mpr (by decide), jobs, hjobs, hread.mpr (by decide)⟩

/-- The third of three tasks that lie `2 ^ 31` bytes apart is the first one again, and so is
the third of three jobs. -/
theorem wrapped_array_misread :
    (¬ ∀ env args k j w v, rocketCopyTasks env args k w = (none, j, v) → TasksRead env args j) ∧
      ¬ ∀ env args jobs, incomingJobs env args = .ok jobs → JobsRead env args jobs := by
  constructor
  · intro all
    have hread := (all { plainEnv with mem := farMem } farJob .zero _ World.calm _ rfl 2
      (by decide)).2
    exact absurd hread (by decide)
  · intro all
    have hread := (all plainSubmitEnv
      { plainSubmit with jobCount := 3#32, jobStructSize := 0x80000000#32 } _ rfl 2
      (by decide)).1
    exact absurd hread (by decide)

end Rkopnu.Native
