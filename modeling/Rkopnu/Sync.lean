import Rkopnu.Uapi
import Rkopnu.Foundation.Transition
import Mathlib.Data.List.Nodup
import Mathlib.Logic.Relation

/-!
# Implicit synchronisation of jobs through their BOs

`rocket_job_push` locks the reservation objects of the job's BOs, lets the job wait for
the fences it finds there, hands it to the scheduler and leaves its own fence on the BOs
that it writes.

## Implementation notes

The scheduler is what the code relies on: a job starts, or is killed with its entity, only
when the fences it waits for are signaled. A signaled fence may stay on a BO until another
one takes its place; a wait for it is over at once. The locks are taken and the fences of
one job read in one step each, as the objects concerned are locked all the while.
-/

namespace Rkopnu.Sync

open Function (update)
open Transition

/-- `enum dma_resv_usage`. -/
inductive Usage
  | kernel
  | write
  | read
  | bookkeep
  deriving DecidableEq, Repr

/-- The order of the enumeration: a query for a usage returns all fences up to it. -/
def Usage.level : Usage → Nat
  | .kernel => 0
  | .write => 1
  | .read => 2
  | .bookkeep => 3

/-- `dma_resv_usage_rw`: a writer waits for the readers, a reader for the writers. -/
def dmaResvUsageRw (write : Bool) : Usage := if write then .read else .write

/-- A fence on a reservation object: the `inference_done_fence` of a job. -/
structure Fence where
  job : Nat
  usage : Usage
  deriving DecidableEq, Repr

/-- `struct rocket_job`: its BOs, and the entity its fence counts in. -/
structure Job where
  inBos : List Nat
  outBos : List Nat
  entity : Nat
  deriving DecidableEq, Repr

/-- The array `bos` of `rocket_job_push`. -/
def Job.bos (job : Job) : List Nat := job.inBos ++ job.outBos

/-- Where a job stands in `rocket_job_push`. -/
inductive PushPc
  /-- There is no such job. -/
  | absent
  /-- Before `drm_gem_lock_reservations`. -/
  | entered
  /-- Before `sched_lock`. -/
  | locked
  /-- After `drm_sched_job_arm`. -/
  | armed
  /-- The fences to wait for are read. -/
  | acquired
  /-- After `drm_sched_entity_push_job`; `sched_lock` is released. -/
  | pushed
  /-- After `rocket_attach_object_fences`. -/
  | attached
  /-- Returned 0. -/
  | returned
  /-- Returned an error. -/
  | failed
  deriving DecidableEq, Repr

/-- The job's BOs are locked. -/
def PushPc.holds : PushPc → Bool
  | .locked | .armed | .acquired | .pushed | .attached => true
  | _ => false

/-- The job was handed to the scheduler. -/
def PushPc.queued : PushPc → Bool
  | .pushed | .attached | .returned => true
  | _ => false

/-- The job's fence is on its output BOs. -/
def PushPc.shown : PushPc → Bool
  | .attached | .returned => true
  | _ => false

structure State where
  job : Nat → Job
  pc : Nat → PushPc
  /-- `bo->resv->lock`: the job that has it. -/
  holder : Nat → Option Nat
  /-- `rdev->sched_lock`. -/
  schedLock : Option Nat
  /-- The fences on `bo->resv`. -/
  resv : Nat → List Fence
  /-- `job->base.dependencies`. -/
  dependencies : Nat → List Nat
  /-- The jobs handed to the scheduler, in this order. -/
  order : List Nat
  /-- The job runs on hardware, or has run. -/
  started : Nat → Bool
  /-- `inference_done_fence` is signaled. -/
  signaled : Nat → Bool

/-- No job has been made. -/
def State.init : State where
  job := fun _ => ⟨[], [], 0⟩
  pc := fun _ => .absent
  holder := fun _ => none
  schedLock := none
  resv := fun _ => []
  dependencies := fun _ => []
  order := []
  started := fun _ => false
  signaled := fun _ => false

/-- `drm_sched_job_add_implicit_dependencies`. -/
def implicitDependencies (fences : List Fence) (write : Bool) : List Nat :=
  (fences.filter fun f => f.usage.level ≤ (dmaResvUsageRw write).level).map Fence.job

/-- `rocket_acquire_object_fences`; `fault` is the error of the two calls made for a BO. -/
def acquireObjectFences (fault : Nat → Option Errno) (resv : Nat → List Fence)
    (isWrite : Bool) : List Nat → List Nat → Except Errno (List Nat)
  | [], deps => .ok deps
  | bo :: bos, deps =>
      match fault bo with
      | some err => .error err
      | none =>
          acquireObjectFences fault resv isWrite bos
            (deps ++ implicitDependencies (resv bo) isWrite)

/-- `dma_resv_add_fence`: the first fence that the new one makes obsolete gives way to it. -/
def addFence (obsolete : Fence → Bool) (fence : Fence) : List Fence → List Fence
  | [] => [fence]
  | old :: rest => if obsolete old then fence :: rest else old :: addFence obsolete fence rest

/-- `rocket_attach_object_fences`. -/
def attachObjectFences (obsolete : Fence → Bool) (fence : Fence) :
    List Nat → (Nat → List Fence) → Nat → List Fence
  | [], resv => resv
  | bo :: bos, resv =>
      attachObjectFences obsolete fence bos (update resv bo (addFence obsolete fence (resv bo)))

inductive Action
  /-- A job that names these BOs enters `rocket_job_push`. -/
  | enter (k : Nat) (job : Job)
  /-- `drm_gem_lock_reservations`. -/
  | lock (k : Nat)
  /-- It fails: interrupted, or a BO is named twice. -/
  | lockFails (k : Nat)
  /-- `sched_lock` and `drm_sched_job_arm`. -/
  | arm (k : Nat)
  /-- The two calls of `rocket_acquire_object_fences`. -/
  | acquire (k : Nat) (fault : Nat → Option Errno)
  /-- `drm_sched_entity_push_job`; `sched_lock` is released. -/
  | push (k : Nat)
  /-- `rocket_attach_object_fences`. -/
  | attach (k : Nat)
  /-- `drm_gem_unlock_reservations`. -/
  | unlock (k : Nat)
  /-- The scheduler starts the job. -/
  | start (k : Nat)
  /-- The hardware has finished the job, or its core was reset. -/
  | finish (k : Nat)
  /-- The entity is destroyed with the job in its queue. -/
  | kill (k : Nat)

namespace State
variable (s : State)

/-- The fences that the job is to wait for: its inputs are read, its outputs written. -/
def waitsFor (k : Nat) (fault : Nat → Option Errno) : Except Errno (List Nat) := do
  let deps ← acquireObjectFences fault s.resv false (s.job k).inBos (s.dependencies k)
  acquireObjectFences fault s.resv true (s.job k).outBos deps

/-- A fence that gives way to the one of job `k`: it is signaled, or an earlier one of the
same entity and of no weaker usage. -/
def obsolete (k : Nat) (old : Fence) : Bool :=
  s.signaled old.job || (decide ((s.job old.job).entity = (s.job k).entity) &&
    decide (Usage.write.level ≤ old.usage.level))

/-- The fences that the job waits for are signaled. -/
def ready (k : Nat) : Bool := (s.dependencies k).all s.signaled

def go (k : Nat) (pc : PushPc) : State := { s with pc := update s.pc k pc }

/-- `drm_gem_unlock_reservations`. -/
def release (k : Nat) (pc : PushPc) : State :=
  { s with
    pc := update s.pc k pc
    holder := fun bo => if bo ∈ (s.job k).bos then none else s.holder bo }

end State

/-- The job or the scheduler stands at the action. -/
def enabled (s : State) : Action → Bool
  | .enter k _ => decide (s.pc k = .absent)
  | .lock k => decide (s.pc k = .entered ∧ (s.job k).bos.Nodup ∧
      ∀ bo ∈ (s.job k).bos, s.holder bo = none)
  | .lockFails k => decide (s.pc k = .entered)
  | .arm k => decide (s.pc k = .locked ∧ s.schedLock = none)
  | .acquire k _ => decide (s.pc k = .armed)
  | .push k => decide (s.pc k = .acquired)
  | .attach k => decide (s.pc k = .pushed)
  | .unlock k => decide (s.pc k = .attached)
  | .start k => decide ((s.pc k).queued = true ∧ s.started k = false ∧ s.signaled k = false ∧
      s.ready k = true)
  | .finish k => decide (s.started k = true)
  | .kill k => decide ((s.pc k).queued = true ∧ s.started k = false ∧ s.ready k = true)

/-- What the piece of code does. -/
def effect (s : State) : Action → State
  | .enter k job => { s with job := update s.job k job, pc := update s.pc k .entered }
  | .lock k => { s with
      pc := update s.pc k .locked
      holder := fun bo => if bo ∈ (s.job k).bos then some k else s.holder bo }
  | .lockFails k => s.go k .failed
  | .arm k => { s with pc := update s.pc k .armed, schedLock := some k }
  | .acquire k fault =>
      match s.waitsFor k fault with
      -- `err_unlock`; leaving the guarded block releases `sched_lock`
      | .error _ => { s.release k .failed with schedLock := none }
      | .ok deps => { s with
          pc := update s.pc k .acquired
          dependencies := update s.dependencies k deps }
  | .push k => { s with
      pc := update s.pc k .pushed
      schedLock := none
      order := s.order ++ [k] }
  | .attach k => { s with
      pc := update s.pc k .attached
      resv := attachObjectFences (s.obsolete k) ⟨k, .write⟩ (s.job k).outBos s.resv }
  | .unlock k => s.release k .returned
  | .start k => { s with started := update s.started k true }
  | .finish k => { s with signaled := update s.signaled k true }
  | .kill k => { s with signaled := update s.signaled k true }

/-- The jobs of a device as a transition system. -/
def sync : System State Action := fun s a => if enabled s a then some (effect s a) else none

theorem sync_eq_some {s t : State} {a : Action} :
    sync s a = some t ↔ enabled s a = true ∧ effect s a = t := by
  unfold sync
  split <;> simp_all

section Lists
variable {fault : Nat → Option Errno} {resv : Nat → List Fence} {obsolete : Fence → Bool}

theorem mem_implicitDependencies {fences : List Fence} {write : Bool} {j : Nat} :
    j ∈ implicitDependencies fences write ↔
      ∃ f ∈ fences, f.usage.level ≤ (dmaResvUsageRw write).level ∧ f.job = j := by
  simp [implicitDependencies, and_assoc]

/-- A call that succeeds has gone over every BO, and has kept what was there. -/
theorem mem_acquireObjectFences {isWrite : Bool} {bos deps deps' : List Nat} {j : Nat}
    (h : acquireObjectFences fault resv isWrite bos deps = .ok deps') :
    j ∈ deps' ↔ j ∈ deps ∨ ∃ bo ∈ bos, j ∈ implicitDependencies (resv bo) isWrite := by
  induction bos generalizing deps with
  | nil =>
      obtain rfl : deps = deps' := Except.ok.inj h
      simp
  | cons bo bos ih =>
      cases hf : fault bo with
      | some err => simp [acquireObjectFences, hf] at h
      | none =>
          simp only [acquireObjectFences, hf] at h
          rw [ih h, List.mem_append, or_assoc]
          simp

theorem self_mem_addFence (fence : Fence) (fences : List Fence) :
    fence ∈ addFence obsolete fence fences := by
  induction fences with
  | nil => simp [addFence]
  | cons old rest ih =>
      simp only [addFence]
      split
      · simp
      · exact List.mem_cons_of_mem old ih

theorem eq_or_mem_of_mem_addFence {f fence : Fence} {fences : List Fence}
    (h : f ∈ addFence obsolete fence fences) : f = fence ∨ f ∈ fences := by
  induction fences with
  | nil => simpa [addFence] using h
  | cons old rest ih =>
      simp only [addFence] at h
      split at h
      · rcases List.mem_cons.mp h with h | h
        · exact .inl h
        · exact .inr (List.mem_cons_of_mem old h)
      · rcases List.mem_cons.mp h with h | h
        · exact .inr (h ▸ List.mem_cons_self)
        · exact (ih h).imp_right (List.mem_cons_of_mem old)

/-- The BOs that are not named keep their fences. -/
theorem attachObjectFences_of_notMem {fence : Fence} {bos : List Nat} {bo : Nat}
    (h : bo ∉ bos) : attachObjectFences obsolete fence bos resv bo = resv bo := by
  induction bos generalizing resv with
  | nil => rfl
  | cons b bos ih =>
      simp only [List.mem_cons, not_or] at h
      rw [attachObjectFences, ih h.2, Function.update_of_ne h.1]

theorem eq_or_mem_of_mem_attachObjectFences {f fence : Fence} {bos : List Nat} {bo : Nat}
    (h : f ∈ attachObjectFences obsolete fence bos resv bo) : f = fence ∨ f ∈ resv bo := by
  induction bos generalizing resv with
  | nil => exact .inr h
  | cons b bos ih =>
      rcases ih h with h | h
      · exact .inl h
      · by_cases hb : bo = b
        · subst hb
          rw [Function.update_self] at h
          exact eq_or_mem_of_mem_addFence h
        · exact .inr (by rwa [Function.update_of_ne hb] at h)

/-- The new fence is on every BO that is named. -/
theorem self_mem_attachObjectFences {fence : Fence} {bos : List Nat} {bo : Nat}
    (h : bo ∈ bos) : fence ∈ attachObjectFences obsolete fence bos resv bo := by
  induction bos generalizing resv with
  | nil => simp at h
  | cons b bos ih =>
      by_cases hbo : bo ∈ bos
      · exact ih hbo
      · obtain rfl : bo = b := (List.mem_cons.mp h).resolve_right hbo
        rw [attachObjectFences, attachObjectFences_of_notMem hbo, Function.update_self]
        exact self_mem_addFence fence (resv bo)

end Lists

/-- The job writes a BO that the other one names. -/
def Job.Feeds (x y : Job) : Prop := ∃ bo ∈ x.outBos, bo ∈ y.bos

/-- The jobs share a BO that at least one of them writes. -/
def Job.Conflict (x y : Job) : Prop :=
  ∃ bo, bo ∈ x.bos ∧ bo ∈ y.bos ∧ (bo ∈ x.outBos ∨ bo ∈ y.outBos)

instance (x y : Job) : Decidable (x.Feeds y) :=
  inferInstanceAs (Decidable (∃ bo ∈ x.outBos, bo ∈ y.bos))

theorem Job.mem_bos {x : Job} {bo : Nat} : bo ∈ x.bos ↔ bo ∈ x.inBos ∨ bo ∈ x.outBos :=
  List.mem_append

/-- Read after write, write after write and write after read. -/
theorem Job.conflict_iff {x y : Job} :
    x.Conflict y ↔ x.Feeds y ∨ ∃ bo ∈ y.outBos, bo ∈ x.inBos := by
  constructor
  · rintro ⟨bo, hx, hy, hout⟩
    by_cases hxo : bo ∈ x.outBos
    · exact .inl ⟨bo, hxo, hy⟩
    · exact .inr ⟨bo, hout.resolve_left hxo, (mem_bos.mp hx).resolve_right hxo⟩
  · rintro (⟨bo, hx, hy⟩ | ⟨bo, hy, hx⟩)
    · exact ⟨bo, mem_bos.mpr (.inr hx), hy, .inl hx⟩
    · exact ⟨bo, mem_bos.mpr (.inl hx), mem_bos.mpr (.inr hy), .inr hy⟩

/-- Of two jobs that conflict, the one pushed later has not started before the fence of
the earlier one is signaled. -/
def Ordered (s : State) : Prop :=
  s.order.Pairwise fun j k =>
    (s.job j).Conflict (s.job k) → s.started k = true → s.signaled j = true

/-- The job waits for the other one, directly or through jobs between them. -/
def Waits (s : State) : Nat → Nat → Prop := Relation.TransGen fun k j => j ∈ s.dependencies k

/-- In the order of pushes that ends with `k`, job `x` comes before `y` and writes a BO
that `y` names. -/
def Link (s : State) (k y x : Nat) : Prop :=
  [x, y].Sublist (s.order ++ [k]) ∧ (s.job x).Feeds (s.job y)

/-- A job that writes a BO is pushed when every unsignaled job that reads the BO is linked
to it by jobs each of which names a BO that the one before it writes. -/
def WritesLinked (s : State) : Action → Prop
  | .push k => ∀ j ∈ s.order, s.signaled j = false →
      (∃ bo ∈ (s.job k).outBos, bo ∈ (s.job j).inBos) → Relation.TransGen (Link s k) k j
  | _ => True

/-- What is known of the jobs, their locks and the fences on their BOs. -/
structure Synced (s : State) : Prop where
  queued : ∀ k, k ∈ s.order ↔ (s.pc k).queued = true
  /-- What has started or is signaled had nothing left to wait for. -/
  due : ∀ k, s.started k = true ∨ s.signaled k = true →
    (s.pc k).queued = true ∧ s.ready k = true
  held : ∀ k, (s.pc k).holds = true → ∀ bo ∈ (s.job k).bos, s.holder bo = some k
  written : ∀ bo, ∀ f ∈ s.resv bo, f.usage = .write
  /-- The fence of a job, or one that waits for it, stays on the BOs it writes. -/
  shown : ∀ j, (s.pc j).shown = true → ∀ bo ∈ (s.job j).outBos,
    ∃ f ∈ s.resv bo, f.job = j ∨ Waits s f.job j
  /-- Until its own fence is there, a job waits for all that are on the BOs it writes. -/
  acquired : ∀ k, s.pc k = .acquired ∨ s.pc k = .pushed → ∀ bo ∈ (s.job k).outBos,
    ∀ f ∈ s.resv bo, f.job ∈ s.dependencies k
  /-- A job about to be pushed waits for all that were pushed and feed it. -/
  fed : ∀ k, s.pc k = .acquired → ∀ j ∈ s.order, (s.job j).Feeds (s.job k) → Waits s k j
  ordered : s.order.Pairwise fun j k => (s.job j).Feeds (s.job k) → Waits s k j

theorem Synced.initial : Synced State.init where
  queued := fun k => by simp [State.init, PushPc.queued]
  due := fun k h => by simp [State.init] at h
  held := fun k h => by simp [State.init, PushPc.holds] at h
  written := fun bo f h => by simp [State.init] at h
  shown := fun j h => by simp [State.init, PushPc.shown] at h
  acquired := fun k h => by simp [State.init] at h
  fed := fun k h => by simp [State.init] at h
  ordered := List.Pairwise.nil

/-- The step takes job `k` from one point of `rocket_job_push` to another. -/
inductive PushPc.Moves (s : State) : Action → Nat → PushPc → PushPc → Prop
  | enter {k job} : Moves s (.enter k job) k .absent .entered
  | lock {k} : Moves s (.lock k) k .entered .locked
  | lockFails {k} : Moves s (.lockFails k) k .entered .failed
  | arm {k} : Moves s (.arm k) k .locked .armed
  | acquire {k fault deps} (read : s.waitsFor k fault = .ok deps) :
      Moves s (.acquire k fault) k .armed .acquired
  | acquireFails {k fault err} (failed : s.waitsFor k fault = .error err) :
      Moves s (.acquire k fault) k .armed .failed
  | push {k} : Moves s (.push k) k .acquired .pushed
  | attach {k} : Moves s (.attach k) k .pushed .attached
  | unlock {k} : Moves s (.unlock k) k .attached .returned

section Moves
variable {s : State} {a : Action}

/-- A step takes a job one point further, or leaves it where it stands. -/
theorem push_effect (h : enabled s a = true) (k : Nat) :
    PushPc.Moves s a k (s.pc k) ((effect s a).pc k) ∨ (effect s a).pc k = s.pc k := by
  have move : ∀ {i p q}, s.pc i = p → (effect s a).pc = update s.pc i q →
      PushPc.Moves s a i p q →
      PushPc.Moves s a k (s.pc k) ((effect s a).pc k) ∨ (effect s a).pc k = s.pc k := by
    intro i p q hp hq hmove
    exact (component_moved (R := PushPc.Moves s a) hp hq hmove).imp_right And.right
  cases a with
  | enter i job => exact move (of_decide_eq_true h) rfl .enter
  | lock i => exact move (of_decide_eq_true h).1 rfl .lock
  | lockFails i => exact move (of_decide_eq_true h) rfl .lockFails
  | arm i => exact move (of_decide_eq_true h).1 rfl .arm
  | acquire i fault =>
      cases hw : s.waitsFor i fault with
      | ok deps => exact move (of_decide_eq_true h) (by simp only [effect, hw]) (.acquire hw)
      | error err =>
          exact move (of_decide_eq_true h) (by simp only [effect, hw, State.release])
            (.acquireFails hw)
  | push i => exact move (of_decide_eq_true h) rfl .push
  | attach i => exact move (of_decide_eq_true h) rfl .attach
  | unlock i => exact move (of_decide_eq_true h) rfl .unlock
  | start i | finish i | kill i => exact Or.inr rfl

/-- A job gets its BOs when it enters. -/
theorem job_of_pc {k : Nat} (hk : (effect s a).pc k ≠ .entered) :
    (effect s a).job k = s.job k := by
  cases a with
  | enter m job =>
      refine Function.update_of_ne ?_ _ _
      rintro rfl
      exact hk (Function.update_self _ _ _)
  | acquire m fault => cases hw : s.waitsFor m fault <;> simp [effect, hw, State.release]
  | _ => rfl

theorem started_before {k : Nat} (hk : (effect s a).started k = true) :
    s.started k = true ∨ a = .start k := by
  cases a with
  | start m =>
      by_cases hm : k = m
      · exact .inr (by rw [hm])
      · exact .inl (by simpa [effect, hm] using hk)
  | acquire m fault =>
      cases hw : s.waitsFor m fault <;> exact .inl (by simpa [effect, hw, State.release] using hk)
  | _ => exact .inl hk

theorem signaled_before {k : Nat} (hk : (effect s a).signaled k = true) :
    s.signaled k = true ∨ a = .finish k ∨ a = .kill k := by
  cases a with
  | finish m =>
      by_cases hm : k = m
      · exact .inr (.inl (by rw [hm]))
      · exact .inl (by simpa [effect, hm] using hk)
  | kill m =>
      by_cases hm : k = m
      · exact .inr (.inr (by rw [hm]))
      · exact .inl (by simpa [effect, hm] using hk)
  | acquire m fault =>
      cases hw : s.waitsFor m fault <;> exact .inl (by simpa [effect, hw, State.release] using hk)
  | _ => exact .inl hk

/-- A fence once signaled stays signaled. -/
theorem signaled_stays (a : Action) {k : Nat} (h : s.signaled k = true) :
    (effect s a).signaled k = true := by
  cases a with
  | finish m | kill m => simp [effect, Function.update_apply, h]
  | acquire m fault => cases hw : s.waitsFor m fault <;> simpa [effect, hw, State.release]
  | _ => exact h

/-- The fences on the BOs change when a job leaves its own. -/
theorem resv_effect : (effect s a).resv = s.resv ∨ ∃ m, a = .attach m := by
  cases a with
  | attach m => exact .inr ⟨m, rfl⟩
  | acquire m fault =>
      cases hw : s.waitsFor m fault <;> exact .inl (by simp [effect, hw, State.release])
  | _ => exact .inl rfl

/-- The jobs pushed are the same as before the step, the one it pushes apart. -/
theorem order_step (s : State) (a : Action) :
    (effect s a).order = s.order ∨ ∃ k, a = .push k ∧ (effect s a).order = s.order ++ [k] := by
  cases a with
  | push k => exact .inr ⟨k, rfl, rfl⟩
  | acquire k fault =>
      cases hw : s.waitsFor k fault <;> exact .inl (by simp [effect, hw, State.release])
  | _ => exact .inl rfl

/-- A BO is locked by the job that locks its BOs, and unlocked by a job that stops holding
them. -/
theorem holder_effect (h : enabled s a = true) (bo : Nat) :
    (effect s a).holder bo = s.holder bo ∨ (∃ m, a = .lock m ∧ bo ∈ (s.job m).bos) ∨
      ∃ m, bo ∈ (s.job m).bos ∧ (s.pc m).holds = true ∧ ((effect s a).pc m).holds = false := by
  cases a with
  | lock m =>
      by_cases hbo : bo ∈ (s.job m).bos
      · exact .inr (.inl ⟨m, rfl, hbo⟩)
      · exact .inl (if_neg hbo)
  | acquire m fault =>
      have hm : s.pc m = .armed := of_decide_eq_true h
      cases hw : s.waitsFor m fault with
      | ok deps => exact .inl (by simp only [effect, hw])
      | error err =>
          by_cases hbo : bo ∈ (s.job m).bos
          · refine .inr (.inr ⟨m, hbo, by rw [hm]; rfl, ?_⟩)
            simp [effect, hw, State.release, PushPc.holds]
          · exact .inl (by simp [effect, hw, State.release, hbo])
  | unlock m =>
      have hm : s.pc m = .attached := of_decide_eq_true h
      by_cases hbo : bo ∈ (s.job m).bos
      · refine .inr (.inr ⟨m, hbo, by rw [hm]; rfl, ?_⟩)
        simp [effect, State.release, PushPc.holds]
      · exact .inl (if_neg hbo)
  | _ => exact .inl rfl

end Moves

theorem ready_iff {s : State} {k : Nat} :
    s.ready k = true ↔ ∀ d ∈ s.dependencies k, s.signaled d = true := by
  simp [State.ready]

section Step
variable {s : State} {a : Action}

theorem Waits.mono {t : State} (h : ∀ k d, d ∈ s.dependencies k → d ∈ t.dependencies k)
    {k j : Nat} (hw : Waits s k j) : Waits t k j :=
  Relation.TransGen.mono h k j hw

/-- The fences of a call that succeeds: the writers on the inputs, all on the outputs. -/
theorem mem_waitsFor {k j : Nat} {fault : Nat → Option Errno} {deps : List Nat}
    (h : s.waitsFor k fault = .ok deps) : j ∈ deps ↔ j ∈ s.dependencies k ∨
      (∃ bo ∈ (s.job k).inBos, j ∈ implicitDependencies (s.resv bo) false) ∨
      ∃ bo ∈ (s.job k).outBos, j ∈ implicitDependencies (s.resv bo) true := by
  cases hin : acquireObjectFences fault s.resv false (s.job k).inBos (s.dependencies k) with
  | error err => simp [State.waitsFor, hin, Bind.bind, Except.bind] at h
  | ok mid =>
      simp only [State.waitsFor, hin, Bind.bind, Except.bind] at h
      rw [mem_acquireObjectFences h, mem_acquireObjectFences hin, or_assoc]

/-- A step takes nothing off the list of fences to wait for. -/
theorem dependencies_grow (s : State) (a : Action) (k d : Nat) (h : d ∈ s.dependencies k) :
    d ∈ (effect s a).dependencies k := by
  cases a with
  | acquire m fault =>
      cases hw : s.waitsFor m fault with
      | error err => simpa [effect, hw, State.release] using h
      | ok deps =>
          simp only [effect, hw]
          by_cases hm : k = m
          · subst hm
            rw [Function.update_self, mem_waitsFor hw]
            exact .inl h
          · rwa [Function.update_of_ne hm]
  | _ => exact h

theorem waits_step (a : Action) {k j : Nat} (h : Waits s k j) : Waits (effect s a) k j :=
  h.mono (dependencies_grow s a)

/-- The fences to wait for are read once, when the job is armed. -/
theorem dependencies_effect {k : Nat} (hk : s.pc k ≠ .armed) (h : enabled s a = true) :
    (effect s a).dependencies k = s.dependencies k := by
  cases a with
  | acquire m fault =>
      have hne : k ≠ m := by
        rintro rfl
        exact hk (of_decide_eq_true h)
      cases hw : s.waitsFor m fault with
      | error err => simp [effect, hw, State.release]
      | ok deps => simp [effect, hw, hne]
  | _ => rfl

theorem keep_queued (inv : Synced s) (h : enabled s a = true) (k : Nat) :
    k ∈ (effect s a).order ↔ ((effect s a).pc k).queued = true := by
  have queued := inv.queued k
  rcases order_step s a with hsame | ⟨m, rfl, hmore⟩
  · rw [hsame, queued]
    rcases push_effect h k with hmove | hstay
    · generalize s.pc k = p at hmove
      generalize (effect s a).pc k = q at hmove ⊢
      cases hmove with
      | push => simp [effect] at hsame
      | _ => exact Iff.rfl
    · rw [hstay]
  · rw [hmore, List.mem_append, List.mem_singleton]
    by_cases hk : k = m
    · subst hk
      simp [effect, PushPc.queued]
    · simpa [effect, hk] using queued

theorem keep_due (inv : Synced s) (h : enabled s a = true) (k : Nat)
    (hk : (effect s a).started k = true ∨ (effect s a).signaled k = true) :
    ((effect s a).pc k).queued = true ∧ (effect s a).ready k = true := by
  obtain ⟨hqueued, hready⟩ : (s.pc k).queued = true ∧ s.ready k = true := by
    rcases hk with hstarted | hsignaled
    · rcases started_before hstarted with hold | rfl
      · exact inv.due k (.inl hold)
      · obtain ⟨hqueued, -, -, hready⟩ := of_decide_eq_true h
        exact ⟨hqueued, hready⟩
    · rcases signaled_before hsignaled with hold | rfl | rfl
      · exact inv.due k (.inr hold)
      · exact inv.due k (.inl (of_decide_eq_true h))
      · obtain ⟨hqueued, -, hready⟩ := of_decide_eq_true h
        exact ⟨hqueued, hready⟩
  constructor
  · rcases push_effect h k with hmove | hstay
    · generalize s.pc k = p at hmove hqueued
      generalize (effect s a).pc k = q at hmove ⊢
      cases hmove <;> first | rfl | cases hqueued
    · rw [hstay, hqueued]
  · have harmed : s.pc k ≠ .armed := by
      intro harmed
      rw [harmed] at hqueued
      cases hqueued
    rw [ready_iff] at hready ⊢
    rw [dependencies_effect harmed h]
    exact fun d hd => signaled_stays a (hready d hd)

/-- Two jobs that are both between lock and unlock share no BO. -/
theorem Synced.alone (inv : Synced s) {j k bo : Nat} (hj : (s.pc j).holds = true)
    (hk : (s.pc k).holds = true) (hbj : bo ∈ (s.job j).bos) (hbk : bo ∈ (s.job k).bos) :
    j = k :=
  Option.some.inj ((inv.held j hj bo hbj).symm.trans (inv.held k hk bo hbk))

theorem keep_held (inv : Synced s) (h : enabled s a = true) (k : Nat)
    (hk : ((effect s a).pc k).holds = true) :
    ∀ bo ∈ ((effect s a).job k).bos, (effect s a).holder bo = some k := by
  have hentered : (effect s a).pc k ≠ .entered := by
    intro hentered
    rw [hentered] at hk
    cases hk
  rw [job_of_pc hentered]
  intro bo hbo
  by_cases hbefore : (s.pc k).holds = true
  · have hold := inv.held k hbefore bo hbo
    rcases holder_effect h bo with hsame | ⟨m, rfl, hm⟩ | ⟨m, hm, hholds, hgone⟩
    · rw [hsame, hold]
    · have hfree := (of_decide_eq_true h).2.2 bo hm
      rw [hold] at hfree
      cases hfree
    · obtain rfl := inv.alone hbefore hholds hbo hm
      rw [hk] at hgone
      cases hgone
  · rcases push_effect h k with hmove | hstay
    · generalize s.pc k = p at hmove hbefore
      generalize (effect s a).pc k = q at hmove hk
      cases hmove with
      | lock => exact if_pos hbo
      | enter | lockFails | acquireFails | unlock => cases hk
      | _ => exact absurd rfl hbefore
    · exact absurd (hstay ▸ hk) hbefore

theorem keep_written (inv : Synced s) (bo : Nat) :
    ∀ f ∈ (effect s a).resv bo, f.usage = .write := by
  intro f hf
  have hwr := inv.written bo f
  cases a with
  | acquire m fault =>
      cases hw : s.waitsFor m fault <;> simp only [effect, hw, State.release] at hf <;>
        exact hwr hf
  | attach m =>
      rcases eq_or_mem_of_mem_attachObjectFences hf with rfl | hf
      · rfl
      · exact hwr hf
  | _ => exact hwr hf

/-- Whatever is covered by a fence on a BO that the job writes, the job waits for. -/
theorem waits_of_covered {k j : Nat} {f : Fence} (hf : f.job ∈ s.dependencies k)
    (hj : f.job = j ∨ Waits s f.job j) : Waits s k j := by
  rcases hj with rfl | hj
  · exact Relation.TransGen.single hf
  · exact Relation.TransGen.head hf hj

theorem keep_shown (inv : Synced s) (h : enabled s a = true) (j : Nat)
    (hj : ((effect s a).pc j).shown = true) : ∀ bo ∈ ((effect s a).job j).outBos,
    ∃ f ∈ (effect s a).resv bo, f.job = j ∨ Waits (effect s a) f.job j := by
  have hentered : (effect s a).pc j ≠ .entered := by
    intro hentered
    rw [hentered] at hj
    cases hj
  rw [job_of_pc hentered]
  intro bo hbo
  have later : ∀ f : Fence, f.job = j ∨ Waits s f.job j →
      f.job = j ∨ Waits (effect s a) f.job j := fun f hf => hf.imp_right (waits_step a)
  have hbefore : (s.pc j).shown = true ∨ a = .attach j := by
    rcases push_effect h j with hmove | hstay
    · generalize s.pc j = p at hmove ⊢
      generalize (effect s a).pc j = q at hmove hj
      cases hmove with
      | attach => exact .inr rfl
      | unlock => exact .inl rfl
      | _ => cases hj
    · exact .inl (hstay ▸ hj)
  rcases hbefore with hshown | rfl
  · obtain ⟨f, hf, hcover⟩ := inv.shown j hshown bo hbo
    rcases resv_effect (s := s) (a := a) with hsame | ⟨m, rfl⟩
    · exact ⟨f, hsame ▸ hf, later f hcover⟩
    · by_cases hmo : bo ∈ (s.job m).outBos
      · -- the fence that is there may give way to the new one, which waits for it
        have hm : s.pc m = .pushed := of_decide_eq_true h
        exact ⟨⟨m, .write⟩, self_mem_attachObjectFences hmo,
          .inr (waits_step _ (waits_of_covered (inv.acquired m (.inr hm) bo hmo f hf) hcover))⟩
      · refine ⟨f, ?_, later f hcover⟩
        simpa only [effect, attachObjectFences_of_notMem hmo] using hf
  · exact ⟨⟨j, .write⟩, self_mem_attachObjectFences hbo, .inl rfl⟩

theorem keep_acquired (inv : Synced s) (h : enabled s a = true) (k : Nat)
    (hk : (effect s a).pc k = .acquired ∨ (effect s a).pc k = .pushed) :
    ∀ bo ∈ ((effect s a).job k).outBos, ∀ f ∈ (effect s a).resv bo,
      f.job ∈ (effect s a).dependencies k := by
  have hentered : (effect s a).pc k ≠ .entered := by
    intro hentered
    simp [hentered] at hk
  rw [job_of_pc hentered]
  intro bo hbo f hf
  have hbefore : (s.pc k = .acquired ∨ s.pc k = .pushed) ∨
      ∃ fault deps, a = .acquire k fault ∧ s.waitsFor k fault = .ok deps := by
    rcases push_effect h k with hmove | hstay
    · generalize s.pc k = p at hmove ⊢
      generalize (effect s a).pc k = q at hmove hk
      cases hmove with
      | acquire read => exact .inr ⟨_, _, rfl, read⟩
      | push => exact .inl (.inl rfl)
      | _ => simp at hk
    · exact .inl (hstay ▸ hk)
  rcases hbefore with hold | ⟨fault, deps, rfl, hw⟩
  · refine dependencies_grow s a k f.job (inv.acquired k hold bo hbo f ?_)
    rcases resv_effect (s := s) (a := a) with hsame | ⟨m, rfl⟩
    · exact hsame ▸ hf
    · -- another job that leaves its fence holds other BOs
      have hm : s.pc m = .pushed := of_decide_eq_true h
      have hmk : m ≠ k := by
        rintro rfl
        simp [effect] at hk
      have hmo : bo ∉ (s.job m).outBos := fun hmo => hmk
        (inv.alone (by rw [hm]; rfl) (by rcases hold with hk | hk <;> rw [hk] <;> rfl)
          (Job.mem_bos.mpr (.inr hmo)) (Job.mem_bos.mpr (.inr hbo)))
      simpa only [effect, attachObjectFences_of_notMem hmo] using hf
  · simp only [effect, hw] at hf ⊢
    rw [Function.update_self, mem_waitsFor hw]
    refine .inr (.inr ⟨bo, hbo, mem_implicitDependencies.mpr ⟨f, hf, ?_, rfl⟩⟩)
    rw [inv.written bo f hf]
    decide

/-- A job that has read the fences waits for every job pushed before that feeds it: that
job is past its unlock, so its fence, or a later one, was there. -/
theorem fed_of_acquire (inv : Synced s) {m : Nat} {fault : Nat → Option Errno} {deps : List Nat}
    (hm : s.pc m = .armed) (hw : s.waitsFor m fault = .ok deps) {j : Nat} (hj : j ∈ s.order)
    (hfeeds : (s.job j).Feeds (s.job m)) : ∃ f : Fence, f.job ∈ deps ∧
      (f.job = j ∨ Waits s f.job j) := by
  obtain ⟨bo, hjo, hmb⟩ := hfeeds
  have hqueued := (inv.queued j).mp hj
  have hshown : (s.pc j).shown = true := by
    by_contra hn
    have hpc : s.pc j = .pushed := by
      cases hpc : s.pc j <;> rw [hpc] at hqueued hn <;>
        first | rfl | exact absurd hqueued (by decide) | exact absurd rfl hn
    have hjm := inv.alone (k := m) (by rw [hpc]; rfl) (by rw [hm]; rfl)
      (Job.mem_bos.mpr (.inr hjo)) hmb
    rw [hjm, hm] at hpc
    cases hpc
  obtain ⟨f, hf, hcover⟩ := inv.shown j hshown bo hjo
  refine ⟨f, (mem_waitsFor hw).mpr (.inr ?_), hcover⟩
  have hwrite := inv.written bo f hf
  rcases Job.mem_bos.mp hmb with hin | hout
  · exact .inl ⟨bo, hin, mem_implicitDependencies.mpr ⟨f, hf, by rw [hwrite]; decide, rfl⟩⟩
  · exact .inr ⟨bo, hout, mem_implicitDependencies.mpr ⟨f, hf, by rw [hwrite]; decide, rfl⟩⟩

/-- A job that was pushed keeps its BOs. -/
theorem job_step (inv : Synced s) (h : enabled s a = true) {k : Nat} (hk : k ∈ s.order) :
    (effect s a).job k = s.job k := by
  have hq := (inv.queued k).mp hk
  cases a with
  | enter m job =>
      have hm := of_decide_eq_true h
      have hne : k ≠ m := by
        rintro rfl
        rw [hm] at hq
        cases hq
      exact Function.update_of_ne hne job s.job
  | acquire m fault =>
      cases hw : s.waitsFor m fault <;> simp [effect, hw, State.release]
  | _ => rfl

theorem keep_fed (inv : Synced s) (h : enabled s a = true) (k : Nat)
    (hk : (effect s a).pc k = .acquired) (j : Nat) (hj : j ∈ (effect s a).order)
    (hfeeds : ((effect s a).job j).Feeds ((effect s a).job k)) : Waits (effect s a) k j := by
  rw [job_of_pc (by simp [hk] : (effect s a).pc k ≠ .entered)] at hfeeds
  have hbefore : s.pc k = .acquired ∨
      ∃ fault deps, a = .acquire k fault ∧ s.waitsFor k fault = .ok deps := by
    rcases push_effect h k with hmove | hstay
    · rw [hk] at hmove
      generalize s.pc k = p at hmove ⊢
      cases hmove with
      | acquire read => exact .inr ⟨_, _, rfl, read⟩
    · exact .inl (hstay ▸ hk)
  rcases order_step s a with hsame | ⟨m, rfl, hmore⟩
  · have hold : j ∈ s.order := hsame ▸ hj
    rw [job_step inv h hold] at hfeeds
    rcases hbefore with hacquired | ⟨fault, deps, rfl, hw⟩
    · exact waits_step a (inv.fed k hacquired j hold hfeeds)
    · obtain ⟨f, hdep, hcover⟩ := fed_of_acquire inv (of_decide_eq_true h) hw hold hfeeds
      refine waits_of_covered (f := f) ?_ (hcover.imp_right (waits_step _))
      simpa only [effect, hw, Function.update_self] using hdep
  · have hacquired : s.pc k = .acquired := hbefore.resolve_right (by simp)
    rw [hmore, List.mem_append, List.mem_singleton] at hj
    rcases hj with hold | rfl
    · rw [job_step inv h hold] at hfeeds
      exact waits_step _ (inv.fed k hacquired j hold hfeeds)
    · -- the job that is pushed still holds its BOs
      have hj : s.pc j = .acquired := of_decide_eq_true h
      obtain ⟨bo, hjo, hkb⟩ := hfeeds
      obtain rfl : j = k := inv.alone (by rw [hj]; rfl) (by rw [hacquired]; rfl)
        (Job.mem_bos.mpr (.inr hjo)) hkb
      simp [effect] at hk

/-- What a step keeps of any two jobs, and what a push makes of the pairs it adds, every
two jobs have in the order of pushes. -/
theorem keep_pairwise {R : State → Nat → Nat → Prop}
    (old : s.order.Pairwise (R s))
    (keep : ∀ j ∈ s.order, ∀ k ∈ s.order, R s j k → R (effect s a) j k)
    (new : ∀ k, a = .push k → ∀ j ∈ s.order, R (effect s a) j k) :
    (effect s a).order.Pairwise (R (effect s a)) := by
  have hold := old.imp_of_mem fun {j k} hj hk => keep j hj k hk
  rcases order_step s a with heq | ⟨k, ha, heq⟩
  · rwa [heq]
  · rw [heq]
    refine List.pairwise_append.mpr ⟨hold, List.pairwise_singleton _ k, fun j hj m hm => ?_⟩
    rw [List.mem_singleton.mp hm]
    exact new k ha j hj

theorem keep_ordered (inv : Synced s) (h : enabled s a = true) :
    (effect s a).order.Pairwise fun j k =>
      ((effect s a).job j).Feeds ((effect s a).job k) → Waits (effect s a) k j := by
  refine keep_pairwise (R := fun s j k => (s.job j).Feeds (s.job k) → Waits s k j) inv.ordered
    (fun j hj k hk hwait hfeeds => ?_) (fun k ha j hj hfeeds => ?_)
  · rw [job_step inv h hj, job_step inv h hk] at hfeeds
    exact waits_step a (hwait hfeeds)
  · subst ha
    exact waits_step _ (inv.fed k (of_decide_eq_true h) j hj hfeeds)

theorem Synced.step (inv : Synced s) (h : enabled s a = true) : Synced (effect s a) where
  queued := keep_queued inv h
  due := keep_due inv h
  held := keep_held inv h
  written := keep_written inv
  shown := keep_shown inv h
  acquired := keep_acquired inv h
  fed := keep_fed inv h
  ordered := keep_ordered inv h

end Step

section Orders
variable {s : State}

/-- A job that has started or is signaled waited for its whole past. -/
theorem Synced.signaled_of_waits (inv : Synced s) {k j : Nat} (hw : Waits s k j)
    (hk : s.started k = true ∨ s.signaled k = true) : s.signaled j = true := by
  induction hw using Relation.TransGen.head_induction_on with
  | single hdep => exact ready_iff.mp (inv.due _ hk).2 _ hdep
  | head hdep _ ih => exact ih (.inr (ready_iff.mp (inv.due _ hk).2 _ hdep))

/-- Read after write and write after write: a job does not start before the jobs pushed
earlier whose output it names are signaled. -/
theorem fed_jobs_ordered {acts : List Action} : Throughout sync
    (fun s => s.order.Pairwise fun j k =>
      (s.job j).Feeds (s.job k) → s.started k = true → s.signaled j = true)
    State.init acts := by
  refine throughout_of_along (P := fun _ _ => True) Synced (fun s a t inv _ h => ?_)
    (fun s inv => ?_) (along_of_actions fun _ _ _ => trivial) Synced.initial
  · obtain ⟨hen, rfl⟩ := sync_eq_some.mp h
    exact inv.step hen
  · exact inv.ordered.imp fun hwait hfeeds hstart =>
      inv.signaled_of_waits (hwait hfeeds) (.inl hstart)

/-- A link from the job about to be pushed is a wait. -/
theorem Synced.waits_of_link (inv : Synced s) {k y x : Nat} (hk : s.pc k = .acquired)
    (h : Link s k y x) : Waits s y x := by
  have all : (s.order ++ [k]).Pairwise fun x y => (s.job x).Feeds (s.job y) → Waits s y x := by
    refine List.pairwise_append.mpr ⟨inv.ordered, List.pairwise_singleton _ k, ?_⟩
    intro j hj m hm
    rw [List.mem_singleton.mp hm]
    exact inv.fed k hk j hj
  exact List.pairwise_iff_forall_sublist.mp all h.1 h.2

/-- The jobs wait for whatever they conflict with. -/
structure Settled (s : State) : Prop extends Synced s where
  settled : s.order.Pairwise fun j k =>
    (s.job j).Conflict (s.job k) → s.signaled j = true ∨ Waits s k j

theorem Settled.step {a : Action} (inv : Settled s) (h : enabled s a = true)
    (linked : WritesLinked s a) : Settled (effect s a) where
  toSynced := inv.toSynced.step h
  settled := by
    refine keep_pairwise
      (R := fun s j k => (s.job j).Conflict (s.job k) → s.signaled j = true ∨ Waits s k j)
      inv.settled (fun j hj k hk hold hconf => ?_) (fun k ha j hj hconf => ?_)
    · rw [job_step inv.toSynced h hj, job_step inv.toSynced h hk] at hconf
      exact (hold hconf).imp (signaled_stays a) (waits_step a)
    · subst ha
      have hk : s.pc k = .acquired := of_decide_eq_true h
      rcases Job.conflict_iff.mp hconf with hfeeds | hreads
      · exact .inr (waits_step _ (inv.fed k hk j hj hfeeds))
      · cases hsig : s.signaled j with
        | true => exact .inl hsig
        | false =>
            refine .inr (waits_step _ ?_)
            exact Relation.TransGen.closed (fun y x hl => inv.waits_of_link hk hl) k j
              (linked j hj hsig hreads)

theorem Settled.initial : Settled State.init where
  toSynced := Synced.initial
  settled := List.Pairwise.nil

/-- When no job is pushed that writes a BO under the hands of an unsignaled reader to which
nothing links it, jobs that conflict run in the order of their pushes. -/
theorem ordered_of_writesLinked {acts : List Action}
    (linked : Along sync WritesLinked State.init acts) :
    Throughout sync Ordered State.init acts := by
  refine throughout_of_along Settled (fun s a t inv hl h => ?_) (fun s inv => ?_) linked
    Settled.initial
  · obtain ⟨hen, rfl⟩ := sync_eq_some.mp h
    exact inv.step hen hl
  · exact inv.settled.imp fun hold hconf hstart => (hold hconf).elim id
      fun hwait => inv.signaled_of_waits hwait (.inl hstart)

/-- A job that also writes what the new one names is linked to it. -/
theorem link_of_feeds {k j : Nat} (hj : j ∈ s.order) (h : (s.job j).Feeds (s.job k)) :
    Link s k k j :=
  ⟨(List.singleton_sublist.mpr hj).append (List.Sublist.refl [k]), h⟩

end Orders

/-- `rocket_job_push` of one job, from its entry to its return. -/
def pushSteps (k : Nat) (job : Job) : List Action :=
  [.enter k job, .lock k, .arm k, .acquire k fun _ => none, .push k, .attach k, .unlock k]

/-- A job reads BO 5 and writes BO 6, another one reads 6 and writes 5. -/
def exchange : List Action :=
  pushSteps 0 ⟨[5], [6], 0⟩ ++ .start 0 :: pushSteps 1 ⟨[6], [5], 1⟩ ++
    [.finish 0, .start 1, .finish 1]

/-- The writer is linked to every reader without a job between them. -/
def directlyLinked (s : State) : Action → Bool
  | .push k => s.order.all fun j => s.signaled j || decide ((s.job j).Feeds (s.job k)) ||
      decide (¬ ∃ bo ∈ (s.job k).outBos, bo ∈ (s.job j).inBos)
  | _ => true

theorem writesLinked_of_directly (s : State) (a : Action) (h : directlyLinked s a = true) :
    WritesLinked s a := by
  cases a with
  | push k =>
      intro j hj hsig hreads
      have hdirect := List.all_eq_true.mp h j hj
      simp only [hsig, Bool.false_or, Bool.or_eq_true, decide_eq_true_eq] at hdirect
      exact Relation.TransGen.single (link_of_feeds hj (hdirect.resolve_right (not_not.mpr hreads)))
  | _ => trivial

theorem exchange_accepted : ((exec sync State.init exchange).map fun s =>
    decide (s.order = [0, 1] ∧ s.signaled 1 = true)) = some true := by
  decide

theorem ordered_of_writesLinked_exchange : ∃ t, Runs sync State.init exchange t ∧
    t.order = [0, 1] ∧ Ordered t := by
  obtain ⟨t, run, test⟩ := runs_of_test exchange_accepted
  refine ⟨t, run, (of_decide_eq_true test).1, ?_⟩
  exact (ordered_of_writesLinked (along_of_check writesLinked_of_directly (by decide))).last run

/-- A job of one client reads BO 5 and is on the hardware when another client's job, which
writes it, is pushed and started. -/
def lateWrite : List Action :=
  pushSteps 0 ⟨[5], [], 0⟩ ++ .start 0 :: pushSteps 1 ⟨[], [5], 1⟩ ++ [.start 1]

theorem lateWrite_accepted : ((exec sync State.init lateWrite).map fun s =>
    decide (s.order = [0, 1] ∧ (s.job 0 = ⟨[5], [], 0⟩ ∧ s.job 1 = ⟨[], [5], 1⟩) ∧
      s.started 1 = true ∧ s.signaled 0 = false)) = some true := by
  decide

/-- The writer is started while the reader runs. -/
theorem write_overtakes_read :
    ¬ ∀ acts t, Runs sync State.init acts t → Ordered t := by
  intro all
  obtain ⟨t, run, test⟩ := runs_of_test lateWrite_accepted
  obtain ⟨horder, ⟨hzero, hone⟩, hstart, hsig⟩ := of_decide_eq_true test
  have ordered := all lateWrite t run
  rw [Ordered, horder] at ordered
  have hconf : (t.job 0).Conflict (t.job 1) := by
    rw [hzero, hone]
    exact ⟨5, by decide, by decide, by decide⟩
  have hlast := List.rel_of_pairwise_cons ordered (List.mem_singleton_self 1) hconf hstart
  rw [hsig] at hlast
  cases hlast

end Rkopnu.Sync
