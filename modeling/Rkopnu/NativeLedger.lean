import Rkopnu.UserArrays
import Rkopnu.Foundation.Transition
import Mathlib.Algebra.BigOperators.Group.List.Basic
import Mathlib.Algebra.Group.Pi.Basic
import Mathlib.Algebra.Group.Prod
import Mathlib.Algebra.Order.Group.Unbundled.Int
import Mathlib.Tactic.Abel

/-!
# What native jobs hold until they are freed

`rocket_ioctl_submit` submits a whole array of jobs and drops their results. An accepted job is
left to the scheduler, whose reference is the last; `rocket_job_free` puts it, in whatever order
the jobs end.

## Implementation notes

A world is reduced to what is left of it when everything taken and given back is struck out.
The reductions form a group, in which a job stands for what it holds.
-/

namespace Rkopnu.Native

open Transition

deriving instance DecidableEq for Job

/-- The references on each object, the arrays of tasks and of BOs read and written, the jobs,
the jobs of the scheduler, and the references on the domain: taken and not given back. -/
abbrev Net := (Nat → Int) × Int × Int × Int × Int × Int × Int

/-- What was allocated and is not freed. -/
def Heap.live (h : Heap) : Int := h.allocated - h.freed

def World.net (w : World) : Net :=
  (w.refs, w.tasks.live, w.inBos.live, w.outBos.live, w.jobs.live, w.schedJobs, w.domainRefs)

/-- What the job gives back when it is freed. -/
def Job.holds (j : Job) : Net :=
  (fun o => ((j.inBos.getD []).take j.inBoCount).count o +
      ((j.outBos.getD []).take j.outBoCount).count o,
    j.tasks.isSome.toNat, j.inBos.isSome.toNat, j.outBos.isSome.toNat, 1, 1, j.domain.toNat)

/-- `rocket_job_free`: `drm_sched_job_cleanup` and a put. -/
def rocketJobFree (j : Job) (w : World) : World :=
  rocketJobPut j { w with schedJobs := w.schedJobs - 1 }

/-- The job of a call, as the call leaves it. -/
def submittedJob (env : Env) (args : DrmRocketJob) (w : World) : Job :=
  let j := (submitBody env args
    { w with jobs := w.jobs.alloc true, schedJobs := w.schedJobs + 1 }).2.1
  { j with refcount := j.refcount - 1 }

/-- The jobs accepted from job `i` of the array on. -/
def acceptedJobs (calls : Nat → Env) (i : Nat) : List DrmRocketJob → World → List Job
  | [], _ => []
  | job :: rest, w =>
      let r := rocketIoctlSubmitJob (calls i) job w
      (if r.1 = none then [submittedJob (calls i) job w] else []) ++
        acceptedJobs calls (i + 1) rest r.2

/-- Each call from job `i` of the array on is accepted or fails clean. -/
def CallsClean (calls : Nat → Env) (i : Nat) : List DrmRocketJob → World → Prop
  | [], _ => True
  | job :: rest, w =>
      ((rocketIoctlSubmitJob (calls i) job w).1 ≠ none → FailsClean (calls i) job) ∧
        CallsClean calls (i + 1) rest (rocketIoctlSubmitJob (calls i) job w).2

structure State where
  world : World
  /-- The accepted jobs that are not yet freed. -/
  jobs : List Job

inductive Action
  /-- `rocket_ioctl_submit`. -/
  | submit (env : SubmitEnv) (args : DrmRocketSubmit)
  /-- The scheduler frees a job. -/
  | free (j : Job)

/-- The scheduler frees no job twice. -/
def enabled (s : State) : Action → Bool
  | .submit _ _ => true
  | .free j => decide (j ∈ s.jobs)

/-- What the step does. -/
def effect (s : State) : Action → State
  | .submit env args =>
      { world := (rocketIoctlSubmit env args s.world).2
        jobs := s.jobs ++
          match incomingJobs env args with
          | .error _ => []
          | .ok jobs => acceptedJobs env.calls 0 jobs s.world }
  | .free j => { world := rocketJobFree j s.world, jobs := s.jobs.erase j }

/-- Native submits and the ends of their jobs as a transition system. -/
def nativeJobs : System State Action := fun s a => if enabled s a then some (effect s a) else none

theorem nativeJobs_eq_some {s t : State} {a : Action} :
    nativeJobs s a = some t ↔ enabled s a = true ∧ effect s a = t := by
  unfold nativeJobs
  split <;> simp_all

/-- No call of the submit fails in a way that leaves something behind. -/
def SubmitsClean (s : State) : Action → Prop
  | .submit env args => ∀ jobs, incomingJobs env args = .ok jobs →
      CallsClean env.calls 0 jobs s.world
  | .free _ => True

section Net
variable {w v : World}

theorem Heap.freedOnce_iff {h k : Heap} : h.FreedOnce k ↔ k.live = h.live := by
  unfold Heap.FreedOnce Heap.live
  omega

/-- Unwinding is having the same net. -/
theorem unwound_iff : Unwound w v ↔ v.net = w.net := by
  simp only [World.net, Prod.mk.injEq, funext_iff]
  constructor
  · intro h
    exact ⟨h.refs, Heap.freedOnce_iff.mp h.tasks, Heap.freedOnce_iff.mp h.inBos,
      Heap.freedOnce_iff.mp h.outBos, Heap.freedOnce_iff.mp h.jobs, h.schedJobs, h.domainRefs⟩
  · rintro ⟨hrefs, htasks, hin, hout, hjobs, hsched, hdomain⟩
    exact ⟨hrefs, Heap.freedOnce_iff.mpr htasks, Heap.freedOnce_iff.mpr hin,
      Heap.freedOnce_iff.mpr hout, Heap.freedOnce_iff.mpr hjobs, hsched, hdomain⟩

theorem Heap.live_free (h : Heap) (set : Bool) : (h.free set).live = h.live - set.toNat := by
  cases set <;> simp [Heap.free, Heap.live]
  omega

/-- A job that is freed gives back what it holds. -/
theorem net_free {j : Job} (hone : j.refcount = 1) (w : World) :
    (rocketJobFree j w).net = w.net - j.holds := by
  unfold rocketJobFree rocketJobPut
  rw [if_pos hone]
  simp only [World.net, Job.holds, Prod.mk_sub_mk, Prod.mk.injEq]
  refine ⟨funext fun o => ?_, ?_, ?_, ?_, ?_, rfl, ?_⟩
  · rw [cleanup_refs]
    simp only [Pi.sub_apply]
    omega
  · exact Heap.live_free _ _
  · exact Heap.live_free _ _
  · exact Heap.live_free _ _
  · exact Heap.live_free _ _
  · simp only [rocketJobCleanup]
    cases j.domain <;> simp

end Net

section Accepted
variable {env : Env} {args : DrmRocketJob} {j : Job} {w v : World}

/-- The job that `drm_sched_job_init` has succeeded for. -/
theorem balanced_start (w : World) : Balanced { w with schedJobs := w.schedJobs + 1 } .zero
    { w with jobs := w.jobs.alloc true, schedJobs := w.schedJobs + 1 } :=
  ⟨rfl, fun _ => rfl, rfl, rfl, rfl, Heap.freedOnce_alloc rfl true rfl, rfl, rfl⟩

/-- `drm_sched_job_cleanup` takes back what `drm_sched_job_init` did. -/
theorem unwound_schedCleanup (h : Unwound { w with schedJobs := w.schedJobs + 1 } v) :
    Unwound w { v with schedJobs := v.schedJobs - 1 } := by
  have hmore : v.schedJobs = w.schedJobs + 1 := h.schedJobs
  exact ⟨h.refs, h.tasks, h.inBos, h.outBos, h.jobs, Int.sub_eq_iff_eq_add.mpr hmore,
    h.domainRefs⟩

/-- A push that succeeds takes the scheduler's reference. -/
theorem domainAndPush_accepted (bal : Balanced w j v) (hdomain : j.domain = false)
    (ok : (domainAndPush env j v).1 = none) :
    (domainAndPush env j v).2.1.refcount = 2 ∧
      Unwound w (rocketJobCleanup (domainAndPush env j v).2.1 (domainAndPush env j v).2.2) := by
  obtain ⟨hone, hunwound⟩ := bal
  unfold domainAndPush at ok ⊢
  cases hget : env.domain with
  | some e => simp [hget] at ok
  | none =>
      cases hpush : env.push with
      | some e => simp [hget, hpush] at ok
      | none =>
          have hrefs : v.domainRefs = w.domainRefs := by
            simpa [rocketJobCleanup, hdomain] using hunwound.domainRefs
          exact ⟨congrArg (· + 1) hone,
            { hunwound with domainRefs := by simp [rocketJobCleanup, hrefs] }⟩

/-- A body that succeeds leaves a job whose last put would unwind it. -/
theorem submitBody_accepted (bal : Balanced w .zero v) (hcount : args.taskCount ≠ 0#32)
    (ok : (submitBody env args v).1 = none) :
    (submitBody env args v).2.1.refcount = 2 ∧
      Unwound w (rocketJobCleanup (submitBody env args v).2.1 (submitBody env args v).2.2) := by
  unfold submitBody at ok ⊢
  have hcopy := copyTasks_spec env bal hcount
  have hdomain := copyTasks_domain env args v
  generalize rocketCopyTasks env args .zero v = p at ok hcopy hdomain ⊢
  rcases hcopy with ⟨hp, -, -, -, hbal, hin, hout⟩ | ⟨hfail, -⟩
  · have hlookup := lookupIn_spec env args hbal hin
    have hout' : (lookupIn env args p.2.1 p.2.2).2.1.outBos = none := hout
    have hdomain' : (lookupIn env args p.2.1 p.2.2).2.1.domain = false := hdomain
    rw [Progress.andThen_ok hp] at ok ⊢
    generalize lookupIn env args p.2.1 p.2.2 = q at ok hlookup hout' hdomain' ⊢
    by_cases hq : q.1 = none
    · have hlookup' := lookupOut_spec env args (hlookup.mpr (Or.inl hq)) hout'
      have hdomain'' : (lookupOut env args q.2.1 q.2.2).2.1.domain = false := hdomain'
      rw [Progress.andThen_ok hq] at ok ⊢
      generalize lookupOut env args q.2.1 q.2.2 = r at ok hlookup' hdomain'' ⊢
      by_cases hr : r.1 = none
      · rw [Progress.andThen_ok hr] at ok ⊢
        exact domainAndPush_accepted (hlookup'.mpr (Or.inl hr)) hdomain'' ok
      · rw [Progress.andThen_failed hr] at ok
        exact absurd ok hr
    · have hfailed : (q.andThen (lookupOut env args)).1 ≠ none := by
        rwa [Progress.andThen_failed hq]
      rw [Progress.andThen_failed hfailed] at ok
      exact absurd ok hfailed
  · have hin : (p.andThen (lookupIn env args)).1 ≠ none := by
      rwa [Progress.andThen_failed hfail]
    have hout : ((p.andThen (lookupIn env args)).andThen (lookupOut env args)).1 ≠ none := by
      rwa [Progress.andThen_failed hin]
    rw [Progress.andThen_failed hout] at ok
    exact absurd ok hout

/-- An accepted call has taken what its job holds, and left the job to the scheduler. -/
theorem submitJob_accepted (h : rocketIoctlSubmitJob env args w = (none, v)) :
    (submittedJob env args w).refcount = 1 ∧
      v.net = w.net + (submittedJob env args w).holds := by
  unfold rocketIoctlSubmitJob at h
  by_cases hcount : args.taskCount = 0#32
  · simp [hcount] at h
  cases hjob : env.jobAlloc with
  | false => simp [hcount, hjob] at h
  | true =>
      cases hsched : env.schedInit with
      | some e => simp [hcount, hjob, hsched] at h
      | none =>
          simp only [hcount, hjob, hsched, if_false, Bool.true_eq_false, Prod.mk.injEq] at h
          obtain ⟨hok, hv⟩ := h
          obtain ⟨htwo, hunwound⟩ := submitBody_accepted (balanced_start w) hcount hok
          unfold submittedJob
          generalize submitBody env args _ = p at hok hv htwo hunwound ⊢
          rw [if_pos hok, rocketJobPut, if_neg (by omega)] at hv
          subst hv
          have hone : ({ p.2.1 with refcount := p.2.1.refcount - 1 } : Job).refcount = 1 := by
            simp [htwo]
          refine ⟨hone, ?_⟩
          have hfreed : Unwound w (rocketJobFree
              { p.2.1 with refcount := p.2.1.refcount - 1 } p.2.2) := by
            rw [rocketJobFree, rocketJobPut, if_pos hone]
            exact unwound_schedCleanup hunwound
          rw [unwound_iff, net_free hone] at hfreed
          exact sub_eq_iff_eq_add.mp hfreed

/-- A call that fails clean changes nothing of the net. -/
theorem submitJob_refused (clean : FailsClean env args)
    (h : (rocketIoctlSubmitJob env args w).1 ≠ none) :
    (rocketIoctlSubmitJob env args w).2.net = w.net := by
  unfold rocketIoctlSubmitJob at h ⊢
  by_cases hcount : args.taskCount = 0#32
  · simp [hcount]
  cases hjob : env.jobAlloc with
  | false => simp [hcount]
  | true =>
      simp only [hcount, hjob, Bool.true_eq_false, if_false] at h ⊢
      cases hsched : env.schedInit with
      | some e =>
          have hunwound : Unwound w (rocketJobPut .zero { w with jobs := w.jobs.alloc true }) :=
            ⟨fun _ => rfl, rfl, rfl, rfl, Heap.freedOnce_alloc rfl true rfl, rfl, rfl⟩
          exact unwound_iff.mp hunwound
      | none =>
          simp only [hsched] at h ⊢
          obtain ⟨hone, hunwound⟩ := (submitBody_spec (balanced_start w) hcount h).mpr
            (((clean.resolve_left hcount).resolve_left (by simp [hjob])).resolve_left
              (by simp [hsched]))
          generalize submitBody env args _ = p at h hone hunwound ⊢
          rw [if_neg h, rocketJobPut, if_pos hone]
          exact unwound_iff.mp (unwound_schedCleanup hunwound)

end Accepted

section Run

/-- What the jobs hold together. -/
def holdings (jobs : List Job) : Net := (jobs.map Job.holds).sum

/-- The loop over the jobs takes what the accepted ones hold. -/
theorem submitAll_net {calls : Nat → Env} {i : Nat} {jobs : List DrmRocketJob} {w : World}
    (clean : CallsClean calls i jobs w) :
    (submitAll calls i jobs w).net = w.net + holdings (acceptedJobs calls i jobs w) ∧
      ∀ j ∈ acceptedJobs calls i jobs w, j.refcount = 1 := by
  induction jobs generalizing i w with
  | nil => simp [submitAll, acceptedJobs, holdings]
  | cons job rest ih =>
      obtain ⟨hjob, hrest⟩ := clean
      obtain ⟨hnet, hrefs⟩ := ih hrest
      simp only [submitAll, acceptedJobs]
      rw [hnet]
      by_cases hok : (rocketIoctlSubmitJob (calls i) job w).1 = none
      · obtain ⟨hone, hheld⟩ := submitJob_accepted (Prod.ext hok rfl)
        rw [if_pos hok, hheld]
        refine ⟨by simp [holdings, add_assoc], fun j hj => ?_⟩
        rcases List.mem_cons.mp hj with rfl | hj
        · exact hone
        · exact hrefs j hj
      · rw [if_neg hok, submitJob_refused (hjob hok) hok]
        exact ⟨rfl, hrefs⟩

/-- The world holds for the outstanding jobs what it did not hold at the start. -/
structure Kept (start : Net) (s : State) : Prop where
  net : s.world.net = start + holdings s.jobs
  refcount : ∀ j ∈ s.jobs, j.refcount = 1

theorem Kept.step {start : Net} {s : State} {a : Action} (inv : Kept start s)
    (clean : SubmitsClean s a) (h : enabled s a = true) : Kept start (effect s a) := by
  cases a with
  | submit env args =>
      cases hjobs : incomingJobs env args with
      | error e => simpa [effect, rocketIoctlSubmit, hjobs] using inv
      | ok jobs =>
          obtain ⟨hnet, hrefs⟩ := submitAll_net (clean jobs hjobs)
          simp only [effect, rocketIoctlSubmit, hjobs]
          refine ⟨?_, fun j hj => ?_⟩
          · rw [hnet, inv.net]
            simp [holdings, add_assoc]
          · exact (List.mem_append.mp hj).elim (inv.refcount j) (hrefs j)
  | free j =>
      have hj : j ∈ s.jobs := of_decide_eq_true h
      refine ⟨?_, fun k hk => inv.refcount k (List.mem_of_mem_erase hk)⟩
      have hsum : j.holds + holdings (s.jobs.erase j) = holdings s.jobs := List.sum_map_erase _ hj
      simp only [effect]
      rw [net_free (inv.refcount j hj), inv.net, ← hsum]
      abel

/-- In every run of native submits whose failing calls fail clean, with the accepted jobs freed
in any order and at any time: beyond the start, every object has a reference for each time an
outstanding job names it, and there is an array, a job of the scheduler and a reference on the
domain for each outstanding job that has one. Once all jobs are freed, all is as it was. -/
theorem native_jobs_conserved {w : World} {acts : List Action} {s : State}
    (run : Runs nativeJobs ⟨w, []⟩ acts s)
    (clean : Along nativeJobs SubmitsClean ⟨w, []⟩ acts) :
    s.world.net = w.net + holdings s.jobs ∧ (s.jobs = [] → Unwound w s.world) := by
  have kept : Kept w.net s := by
    refine invariant_along (Kept w.net) (fun s a t inv hclean hstep => ?_) clean run
      ⟨by simp [holdings], fun j hj => by simp at hj⟩
    obtain ⟨h, rfl⟩ := nativeJobs_eq_some.mp hstep
    exact inv.step hclean h
  refine ⟨kept.net, fun hnone => ?_⟩
  rw [unwound_iff, kept.net, hnone]
  simp [holdings]

end Run

/-- The push of the second job of the array fails. -/
def secondFails : SubmitEnv :=
  { plainSubmitEnv with
    calls := fun i => if i = 1 then { plainEnv with push := some (.other 4) } else plainEnv }

/-- Both jobs of an array are accepted, one of a second array, and all are freed. -/
def freedThree : List Action :=
  let j := submittedJob plainEnv plainJob World.calm
  [.submit plainSubmitEnv plainSubmit, .free j, .submit secondFails plainSubmit, .free j, .free j]

theorem freedThree_accepted : ((exec nativeJobs ⟨World.calm, []⟩ freedThree).map fun s =>
    decide (s.jobs = [])) = some true := by
  decide

theorem native_jobs_conserved_freedThree : ∃ s, Runs nativeJobs ⟨World.calm, []⟩ freedThree s ∧
    Unwound World.calm s.world := by
  obtain ⟨s, run, test⟩ := runs_of_test freedThree_accepted
  refine ⟨s, run, (native_jobs_conserved run ?_).2 (of_decide_eq_true test)⟩
  refine ⟨fun jobs hjobs => ?_, fun t _ => ⟨trivial, fun u _ => ⟨fun jobs hjobs => ?_,
    fun v _ => ⟨trivial, fun x _ => ⟨trivial, fun y _ => trivial⟩⟩⟩⟩⟩
  · obtain rfl : [plainJob, plainJob] = jobs := Except.ok.inj hjobs
    exact ⟨fun h => absurd rfl h, fun h => absurd rfl h, trivial⟩
  · obtain rfl : [plainJob, plainJob] = jobs := Except.ok.inj hjobs
    exact ⟨fun h => absurd rfl h, fun _ => failsClean_on_push, trivial⟩

end Rkopnu.Native
