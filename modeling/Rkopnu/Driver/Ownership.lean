import Rkopnu.Driver.Fences
import Rkopnu.Driver.Domains
import Rkopnu.Driver.Mapping

/-!
# What a submit takes and gives back

Every submit takes a mapping and a reference on its task BO, a job with one or
two references, a scheduler job and, through the job, a domain and two fences.
Which of the four exit labels it leaves by decides who gives what back. The
ledger of a run counts both sides: nothing is taken twice, nothing is dropped
that was not taken, and what is dropped in the end is what was taken. The state
agrees with the ledger: its own counts and flags say what is still held.
-/

namespace Rkopnu.Driver

open Function (update)
open Transition

/-- What a submit call takes and has to give back. -/
inductive Resource
  /-- The `rocket_job` itself. -/
  | job
  /-- The ioctl's reference on the job. -/
  | ioctlRef
  /-- The scheduler's reference on the job. -/
  | schedRef
  /-- What `drm_sched_job_init` set up. -/
  | schedJob
  /-- `job->domain`. -/
  | domain
  /-- `job->done_fence`. -/
  | doneFence
  /-- `job->inference_done_fence`. -/
  | inferenceFence
  /-- The mapping of the task BO. -/
  | vmap
  /-- The reference on the task BO. -/
  | taskBo
  deriving DecidableEq, Repr

/-- The job on which the step runs `rocket_job_cleanup`, if the job has what is asked for. -/
def State.cleanedUp (s : State) (has : Nat → Bool) (a : Action) : Option Nat :=
  a.putsJob.filter fun j => decide (s.refcount j = 1) && has j

/-- The call for which the step takes the resource. A push that fails has failed
before `drm_sched_job_arm`, since the job of a submit lists no BO. -/
def Resource.takenBy (s : State) : Resource → Action → Option Nat
  | .job, .alloc j true | .ioctlRef, .alloc j true => some j
  | .schedRef, .push j none | .inferenceFence, .push j none => some j
  | .schedJob, .jobInit j none => some j
  | .domain, .domainGet j _ => some j
  | .doneFence, .runCreate _ j true => some j
  | .vmap, .vmap j none => some j
  | .taskBo, .submit _ args => if submitEarly args = none then some s.jobs else none
  | _, _ => none

/-- The call for which the step gives the resource back. -/
def Resource.droppedBy (s : State) : Resource → Action → Option Nat
  | .job, a => s.cleanedUp (fun _ => true) a
  | .ioctlRef, .putJob j _ => some j
  | .schedRef, a => a.freesJob
  | .schedJob, .cleanup j _ => some j
  | .schedJob, a => a.freesJob
  | .domain, a => s.cleanedUp (fun j => decide (s.domain j ≠ none)) a
  -- a run that replaces the fence drops the old one
  | .doneFence, .runCreate _ j true => if s.doneFence j = none then none else some j
  | .doneFence, a => s.cleanedUp (fun j => decide (s.doneFence j ≠ none)) a
  | .inferenceFence, a => s.cleanedUp (fun j => decide (s.place j ≠ .outside)) a
  | .vmap, .vunmap j _ => some j
  | .taskBo, .gemPut j _ => some j
  | _, _ => none

/-- How often the step takes the resource for call `j`. -/
def Resource.takes (j : Nat) (r : Resource) (s : State) (a : Action) : Nat :=
  if r.takenBy s a = some j then 1 else 0

/-- How often the step gives the resource of call `j` back. -/
def Resource.drops (j : Nat) (r : Resource) (s : State) (a : Action) : Nat :=
  if r.droppedBy s a = some j then 1 else 0

/-- How often the resource was taken for call `j` in a run of `n` bound cores. -/
def Resource.taken (r : Resource) (n j : Nat) (acts : List Action) : Nat :=
  total driver (r.takes j) (State.init n) acts

/-- How often the resource of call `j` was given back in a run of `n` bound cores. -/
def Resource.dropped (r : Resource) (n j : Nat) (acts : List Action) : Nat :=
  total driver (r.drops j) (State.init n) acts

/-- `drm_sched_job_init` succeeded and the job is still the ioctl's to clean up. -/
def CallPc.ownsSched : CallPc → Bool
  | .domain | .push | .cleanup _ => true
  | _ => false

/-- What of the resource call `j` still has to give back. -/
def Resource.held (j : Nat) (s : State) : Resource → Nat
  | .job => if 0 < s.refcount j then 1 else 0
  | .ioctlRef => (s.call j).holdsJob.toNat
  | .schedRef => (s.place j).held.toNat
  | .schedJob => (s.call j).ownsSched.toNat + (s.place j).held.toNat
  | .domain => if 0 < s.refcount j ∧ s.domain j ≠ none then 1 else 0
  | .doneFence => if 0 < s.refcount j ∧ s.doneFence j ≠ none then 1 else 0
  | .inferenceFence => if 0 < s.refcount j ∧ s.place j ≠ .outside then 1 else 0
  | .vmap => (s.call j).maps.toNat
  | .taskBo => (s.call j).hasBo.toNat

/-- How far the call has come, up to the push of its job. -/
def CallPc.rank : CallPc → Nat
  | .idle => 0
  | .vmap => 1
  | .alloc => 2
  | .jobInit => 3
  | .domain => 4
  | .push => 5
  | _ => 6

/-- How far the call has come when it takes the resource. The done fence is the
one resource that `rocket_job_run` takes. -/
def Resource.stage : Resource → Nat
  | .taskBo => 0
  | .vmap => 1
  | .job | .ioctlRef => 2
  | .schedJob => 3
  | .domain => 4
  | .schedRef | .inferenceFence | .doneFence => 5

/-- How often the resource can still be taken for call `j`. -/
def Resource.left (j : Nat) (s : State) : Resource → Nat
  | .doneFence => if s.doneFence j = none then 1 else 0
  | r => if (s.call j).rank ≤ r.stage then 1 else 0

/-- The references counted behind the two fence pointers of a job are the ones it holds. -/
def State.FenceRefs (s : State) : Prop := ∀ j,
  s.doneRefs j = Resource.doneFence.held j s ∧
    s.inferenceRefs j = Resource.inferenceFence.held j s

/-- The invariants the ledger rests on. -/
structure Owned (s : State) : Prop extends Fenced s where
  domained : Domained s
  mapsTasks : s.MapsTasks
  fenceRefs : s.FenceRefs

section Laws
variable {s : State} {a : Action} {j : Nat}

/-- The entry of a step for a resource: what is left to give back grows by what
is taken and shrinks by what is dropped. -/
def Resource.Law (r : Resource) (j : Nat) (s : State) (a : Action) : Prop :=
  r.held j (effect s a) + r.drops j s a = r.held j s + r.takes j s a

/-- What is held at some points is taken and dropped by the moves between points. -/
theorem law_of_moves {α : Type*} {R : α → α → Prop} {held : α → Bool} {p q : α}
    {who taken dropped : Option Nat} (hmove : R p q ∨ who ≠ some j ∧ q = p)
    (moved : ∀ p q, R p q → (held q).toNat + (if dropped = some j then 1 else 0) =
      (held p).toNat + (if taken = some j then 1 else 0))
    (htaken : taken = some j → who = some j) (hdropped : dropped = some j → who = some j) :
    (held q).toNat + (if dropped = some j then 1 else 0) =
      (held p).toNat + (if taken = some j then 1 else 0) := by
  rcases hmove with hR | ⟨hwho, rfl⟩
  · exact moved p q hR
  · rw [if_neg (mt htaken hwho), if_neg (mt hdropped hwho)]

/-- The ioctl takes every resource but the done fence. -/
theorem callOf_of_takenBy {r : Resource} (hr : r ≠ .doneFence) (ha : r.takenBy s a = some j) :
    a.callOf s = some j := by
  unfold Resource.takenBy at ha
  split at ha <;> simp_all [Action.callOf]

theorem law_ioctlRef (inv : Owned s) (h : enabled s a = true) :
    Resource.ioctlRef.Law j s a := by
  refine law_of_moves (inv.call_effect h j) ?_ (callOf_of_takenBy (by simp)) ?_
  · intro p q hmove
    cases hmove <;> simp [Resource.droppedBy, Resource.takenBy, CallPc.holdsJob]
  · intro hdrop
    cases a <;> simp_all [Resource.droppedBy, Action.callOf]

theorem law_vmap (inv : Owned s) (h : enabled s a = true) : Resource.vmap.Law j s a := by
  refine law_of_moves (inv.call_effect h j) ?_ (callOf_of_takenBy (by simp)) ?_
  · intro p q hmove
    cases hmove <;> simp [Resource.droppedBy, Resource.takenBy, CallPc.maps]
  · intro hdrop
    cases a <;> simp_all [Resource.droppedBy, Action.callOf]

theorem law_taskBo (inv : Owned s) (h : enabled s a = true) : Resource.taskBo.Law j s a := by
  refine law_of_moves (inv.call_effect h j) ?_ (callOf_of_takenBy (by simp)) ?_
  · intro p q hmove
    cases hmove <;> simp_all [Resource.droppedBy, Resource.takenBy, CallPc.hasBo]
  · intro hdrop
    cases a <;> simp_all [Resource.droppedBy, Action.callOf]

theorem law_schedRef (inv : Owned s) (h : enabled s a = true) :
    Resource.schedRef.Law j s a := by
  refine law_of_moves (inv.place_effect h j) ?_ ?_ placed_of_freesJob
  · intro p q hmove
    cases hmove <;> simp [Resource.droppedBy, Resource.takenBy, Place.held, Action.freesJob]
  · intro htake
    unfold Resource.takenBy at htake
    split at htake <;> simp_all [Action.placed]

/-- The call for which the ioctl hands the scheduler job on: it cleans it up, or pushes it. -/
def Action.leavesSched : Action → Option Nat
  | .cleanup j _ | .push j none => some j
  | _ => none

/-- The ioctl's part of `schedJob`. -/
theorem ownsSched_effect (inv : Owned s) (h : enabled s a = true) :
    ((effect s a).call j).ownsSched.toNat + (if a.leavesSched = some j then 1 else 0) =
      (s.call j).ownsSched.toNat + Resource.schedJob.takes j s a := by
  refine law_of_moves (inv.call_effect h j) ?_ (callOf_of_takenBy (by simp)) ?_
  · intro p q hmove
    cases hmove <;> simp [Action.leavesSched, Resource.takenBy, CallPc.ownsSched]
  · intro hleave
    unfold Action.leavesSched at hleave
    split at hleave <;> simp_all [Action.callOf]

/-- A push hands the scheduler job from the ioctl to the scheduler. -/
theorem schedJob_handed : Resource.schedJob.drops j s a + Resource.schedRef.takes j s a =
    Resource.schedRef.drops j s a + (if a.leavesSched = some j then 1 else 0) := by
  cases a with
  | push i e =>
      cases e <;> simp [Resource.drops, Resource.takes, Resource.droppedBy, Resource.takenBy,
        Action.freesJob, Action.leavesSched]
  | _ =>
      simp [Resource.drops, Resource.takes, Resource.droppedBy, Resource.takenBy,
        Action.freesJob, Action.leavesSched]

theorem law_schedJob (inv : Owned s) (h : enabled s a = true) :
    Resource.schedJob.Law j s a := by
  have howns := ownsSched_effect (j := j) inv h
  have hsched := law_schedRef (j := j) inv h
  have hhanded := schedJob_handed (s := s) (a := a) (j := j)
  simp only [Resource.Law, Resource.held] at hsched ⊢
  omega

/-- The reference count follows the two references. -/
theorem refcount_effect (inv : Owned s) (h : enabled s a = true) :
    (effect s a).refcount j + Resource.ioctlRef.drops j s a + Resource.schedRef.drops j s a =
      s.refcount j + Resource.ioctlRef.takes j s a + Resource.schedRef.takes j s a := by
  have hioctl := law_ioctlRef (j := j) inv h
  have hsched := law_schedRef (j := j) inv h
  have hbefore := inv.counted j
  have hafter := (inv.toReferenced.preserve h).counted j
  simp only [Resource.Law, Resource.held] at hioctl hsched
  omega

theorem cleanedUp_eq_some {has : Nat → Bool} : s.cleanedUp has a = some j ↔
    a.putsJob = some j ∧ s.refcount j = 1 ∧ has j = true := by
  simp [State.cleanedUp, Option.filter_eq_some_iff]

/-- A step that puts the job drops one of the two references. -/
theorem putsJob_drops : (if a.putsJob = some j then 1 else 0) =
    Resource.ioctlRef.drops j s a + Resource.schedRef.drops j s a := by
  cases a <;> simp [Action.putsJob, Resource.drops, Resource.droppedBy, Action.freesJob]

/-- References are taken by the allocation, which makes the first one, and by the push. -/
theorem takes_refs (inv : Owned s) (h : enabled s a = true) :
    Resource.ioctlRef.takes j s a + Resource.schedRef.takes j s a = 0 ∨
      a.putsJob = none ∧ (a = .alloc j true ∧ s.refcount j = 0 ∨ 0 < s.refcount j) := by
  have hcount := inv.counted j
  cases a with
  | alloc i ok =>
      have hcall : s.call i = .alloc := of_decide_eq_true h
      have hplace := inv.outside i (by simp [hcall, CallPc.beforePush])
      by_cases hi : i = j
      · subst hi
        cases ok with
        | true => exact Or.inr ⟨rfl, Or.inl ⟨rfl, by simp [hcount, hcall, hplace,
            CallPc.holdsJob, Place.held]⟩⟩
        | false => exact Or.inl rfl
      · exact Or.inl (by cases ok <;> simp [Resource.takes, Resource.takenBy, hi])
  | push i e =>
      have hcall : s.call i = .push := of_decide_eq_true h
      by_cases hi : i = j
      · subst hi
        exact Or.inr ⟨rfl, Or.inr (by simp [hcount, hcall, CallPc.holdsJob])⟩
      · exact Or.inl (by cases e <;> simp [Resource.takes, Resource.takenBy, hi])
  | _ => exact Or.inl rfl

/-- What a job has goes with its last reference, in `rocket_job_cleanup`. -/
theorem law_of_last (inv : Owned s) (h : enabled s a = true) {p : Nat → Bool} {q : Bool}
    (hkept : 0 < s.refcount j → q = p j) (hnew : a = .alloc j true → q = false) :
    (if 0 < (effect s a).refcount j ∧ q = true then 1 else 0) +
        (if s.cleanedUp p a = some j then 1 else 0) =
      if 0 < s.refcount j ∧ p j = true then 1 else 0 := by
  have hcount := refcount_effect (j := j) inv h
  have hputs := putsJob_drops (s := s) (a := a) (j := j)
  simp only [cleanedUp_eq_some]
  rcases takes_refs (j := j) inv h with hnone | ⟨hput, ⟨halloc, hzero⟩ | hpos⟩
  · by_cases hpos : 0 < s.refcount j
    · rw [hkept hpos]
      by_cases hput : a.putsJob = some j
      · rw [if_pos hput] at hputs
        by_cases hone : s.refcount j = 1
        · have hgone : (effect s a).refcount j = 0 := by omega
          simp [hgone, hone, hput]
        · have hleft : 0 < (effect s a).refcount j := by omega
          simp [hleft, hpos, hone]
      · rw [if_neg hput] at hputs
        have hsame : (effect s a).refcount j = s.refcount j := by omega
        simp [hsame, hput]
    · have hsame : (effect s a).refcount j = 0 := by omega
      have hone : s.refcount j ≠ 1 := by omega
      simp [hsame, hone, hpos]
  · simp [hnew halloc, hput, hzero]
  · have hmore : 0 < (effect s a).refcount j := by
      rw [hput, if_neg (by simp)] at hputs
      omega
    simp [hmore, hkept hpos, hput, hpos]

theorem law_job (inv : Owned s) (h : enabled s a = true) : Resource.job.Law j s a := by
  by_cases halloc : a = .alloc j true
  · subst halloc
    have hcall : s.call j = .alloc := of_decide_eq_true h
    have hplace := inv.outside j (by simp [hcall, CallPc.beforePush])
    have hzero : s.refcount j = 0 := by
      simp [inv.counted j, hcall, hplace, CallPc.holdsJob, Place.held]
    simp [Resource.Law, Resource.held, Resource.drops, Resource.takes, Resource.droppedBy,
      Resource.takenBy, State.cleanedUp, Action.putsJob, effect, hzero]
  · have hlast := law_of_last (j := j) (p := fun _ => true) (q := true) inv h (fun _ => rfl)
      (fun ha => absurd ha halloc)
    have htake : Resource.job.takes j s a = 0 := by
      unfold Resource.takes Resource.takenBy
      split <;> simp_all
    have hheld : ∀ t : State, Resource.job.held j t =
        if 0 < t.refcount j ∧ true = true then 1 else 0 := fun t => by simp [Resource.held]
    rw [Resource.Law, hheld, hheld, htake]
    exact hlast

theorem law_domain (inv : Owned s) (h : enabled s a = true) : Resource.domain.Law j s a := by
  by_cases hget : ∃ d, a = .domainGet j d
  · obtain ⟨d, rfl⟩ := hget
    have hcall : s.call j = .domain := of_decide_eq_true (Bool.and_eq_true_iff.mp h).1
    have hdom := inv.domained.noDomainYet j (by simp [hcall, CallPc.beforeDomain])
    have hpos : 0 < s.refcount j := by simp [inv.counted j, hcall, CallPc.holdsJob]
    simp [Resource.Law, Resource.held, Resource.drops, Resource.takes, Resource.droppedBy,
      Resource.takenBy, State.cleanedUp, Action.putsJob, effect, State.domainGet, hdom, hpos]
  · have hsame : (effect s a).domain j = s.domain j := by
      cases a with
      | domainGet i d => exact Function.update_of_ne (fun hj => hget ⟨d, by rw [hj]⟩) _ _
      | _ => rfl
    have hlast := law_of_last (j := j) (p := fun j => decide (s.domain j ≠ none))
      (q := decide ((effect s a).domain j ≠ none)) inv h (fun _ => by simp only [hsame])
      (fun ha => by
        subst ha
        have hcall : s.call j = .alloc := of_decide_eq_true h
        simp [hsame, inv.domained.noDomainYet j (by simp [hcall, CallPc.beforeDomain])])
    have htake : Resource.domain.takes j s a = 0 := by
      unfold Resource.takes Resource.takenBy
      split <;> simp_all
    simpa [Resource.Law, Resource.held, htake, Resource.drops, Resource.droppedBy] using hlast

/-- A done fence stays, signaled or not, unless `rocket_job_run` makes one. -/
theorem doneFence_effect (hrun : ∀ c, a ≠ .runCreate c j true) :
    (effect s a).doneFence j = none ↔ s.doneFence j = none := by
  cases a with
  | runCreate c i ok =>
      cases ok with
      | true =>
          have hj : j ≠ i := fun hj => hrun c (by rw [hj])
          simp [effect, hj]
      | false => rfl
  | runFail c i e | irqComplete c b i =>
      by_cases hj : j = i
      · subst hj
        simp [effect, State.signalDone]
      · simp [effect, State.signalDone, hj]
  | _ => rfl

theorem takes_doneFence (hrun : ∀ c, a ≠ .runCreate c j true) :
    Resource.doneFence.takes j s a = 0 := by
  unfold Resource.takes Resource.takenBy
  split <;> simp_all

theorem law_doneFence (inv : Owned s) (h : enabled s a = true) :
    Resource.doneFence.Law j s a := by
  by_cases hcreate : ∃ c, a = .runCreate c j true
  · obtain ⟨c, rfl⟩ := hcreate
    have hrun : s.run c = .create j := of_decide_eq_true h
    have hpos := inv.pos_of_running (show (s.run c).job = some j by simp [hrun, RunPc.job])
    have hnone := inv.fenceFresh c j (by simp [hrun, RunPc.unfenced])
    simp [Resource.Law, Resource.held, Resource.drops, Resource.takes, Resource.droppedBy,
      Resource.takenBy, effect, hnone, hpos]
  · have hsame := doneFence_effect (s := s) (fun c hc => hcreate ⟨c, hc⟩)
    have hlast := law_of_last (j := j) (p := fun j => decide (s.doneFence j ≠ none))
      (q := decide ((effect s a).doneFence j ≠ none)) inv h
      (fun _ => by simp only [ne_eq, hsame])
      (fun ha => by
        subst ha
        have hcall : s.call j = .alloc := of_decide_eq_true h
        have hplace := inv.outside j (by simp [hcall, CallPc.beforePush])
        have hblank := inv.blank j (by simp [hplace, Place.started]) (by simp [hplace])
        simp [hsame, hblank.2.1])
    have htake := takes_doneFence (s := s) (fun c hc => hcreate ⟨c, hc⟩)
    have hdrop : Resource.doneFence.droppedBy s a =
        s.cleanedUp (fun j => decide (s.doneFence j ≠ none)) a ∨
          Resource.doneFence.droppedBy s a ≠ some j ∧ a.putsJob = none := by
      unfold Resource.droppedBy
      split <;> simp_all [Action.putsJob]
    rcases hdrop with hdrop | ⟨hdrop, hput⟩
    · simpa [Resource.Law, Resource.held, htake, Resource.drops, hdrop] using hlast
    · simpa [Resource.Law, Resource.held, htake, Resource.drops, hdrop, cleanedUp_eq_some, hput]
        using hlast

theorem law_inferenceFence (inv : Owned s) (h : enabled s a = true) :
    Resource.inferenceFence.Law j s a := by
  by_cases hpush : a = .push j none
  · subst hpush
    have hcall : s.call j = .push := of_decide_eq_true h
    have hplace := inv.outside j (by simp [hcall, CallPc.beforePush])
    simp [Resource.Law, Resource.held, Resource.drops, Resource.takes, Resource.droppedBy,
      Resource.takenBy, State.cleanedUp, Action.putsJob, effect, hplace]
  · have hsame : (effect s a).place j = .outside ↔ s.place j = .outside := by
      rcases inv.place_effect h j with hmove | ⟨-, hsame⟩
      · generalize (effect s a).place j = q at hmove ⊢
        generalize s.place j = p at hmove ⊢
        cases hmove <;> simp_all
      · rw [hsame]
    have hlast := law_of_last (j := j) (p := fun j => decide (s.place j ≠ .outside))
      (q := decide ((effect s a).place j ≠ .outside)) inv h
      (fun _ => by simp only [ne_eq, hsame])
      (fun ha => by
        subst ha
        have hcall : s.call j = .alloc := of_decide_eq_true h
        simp [hsame, inv.outside j (by simp [hcall, CallPc.beforePush])])
    have htake : Resource.inferenceFence.takes j s a = 0 := by
      unfold Resource.takes Resource.takenBy
      split <;> simp_all
    simpa [Resource.Law, Resource.held, htake, Resource.drops, Resource.droppedBy] using hlast

/-- Every step keeps the ledger of every resource. -/
theorem law (inv : Owned s) (h : enabled s a = true) (r : Resource) : r.Law j s a := by
  cases r with
  | job => exact law_job inv h
  | ioctlRef => exact law_ioctlRef inv h
  | schedRef => exact law_schedRef inv h
  | schedJob => exact law_schedJob inv h
  | domain => exact law_domain inv h
  | doneFence => exact law_doneFence inv h
  | inferenceFence => exact law_inferenceFence inv h
  | vmap => exact law_vmap inv h
  | taskBo => exact law_taskBo inv h

/-- A call only goes forward. -/
theorem rank_le_effect (inv : Owned s) (h : enabled s a = true) :
    (s.call j).rank ≤ ((effect s a).call j).rank := by
  rcases inv.call_effect h j with hmove | ⟨-, hsame⟩
  · generalize (effect s a).call j = q at hmove ⊢
    generalize s.call j = p at hmove ⊢
    cases hmove <;> simp [CallPc.rank]
  · rw [hsame]

/-- The ioctl takes a resource on its way past the resource's stage. -/
theorem rank_of_takenBy (inv : Owned s) (h : enabled s a = true) {r : Resource}
    (hr : r ≠ .doneFence) (ha : r.takenBy s a = some j) :
    (s.call j).rank = r.stage ∧ r.stage < ((effect s a).call j).rank := by
  rcases inv.call_effect h j with hmove | ⟨hother, -⟩
  · generalize (effect s a).call j = q at hmove ⊢
    generalize s.call j = p at hmove ⊢
    cases hmove <;> cases r <;> simp_all [Resource.takenBy, Resource.stage, CallPc.rank]
  · exact absurd (callOf_of_takenBy hr ha) hother

theorem left_eq {r : Resource} (hr : r ≠ .doneFence) :
    r.left j s = if (s.call j).rank ≤ r.stage then 1 else 0 := by
  cases r <;> first | rfl | exact absurd rfl hr

/-- A resource is taken only while it can still be taken, and then it no longer can. -/
theorem takes_add_left (inv : Owned s) (h : enabled s a = true) (r : Resource) :
    r.takes j s a + r.left j (effect s a) ≤ r.left j s := by
  by_cases hfence : r = .doneFence
  · subst hfence
    by_cases hcreate : ∃ c, a = .runCreate c j true
    · obtain ⟨c, rfl⟩ := hcreate
      have hrun : s.run c = .create j := of_decide_eq_true h
      have hnone := inv.fenceFresh c j (by rw [hrun]; rfl)
      simp [Resource.takes, Resource.left, Resource.takenBy, effect, hnone]
    · have hsame := doneFence_effect (s := s) (fun c hc => hcreate ⟨c, hc⟩)
      have htake := takes_doneFence (s := s) (fun c hc => hcreate ⟨c, hc⟩)
      simp [Resource.left, htake, hsame]
  · rw [left_eq hfence, left_eq hfence]
    by_cases htaken : r.takenBy s a = some j
    · -- the step goes past the stage of the resource
      obtain ⟨hbefore, hafter⟩ := rank_of_takenBy inv h hfence htaken
      rw [Resource.takes, if_pos htaken, if_neg (Nat.not_le.mpr hafter),
        if_pos (Nat.le_of_eq hbefore)]
    · have hrank := rank_le_effect (j := j) inv h
      rw [Resource.takes, if_neg htaken, Nat.zero_add]
      split
      · rename_i hleft
        rw [if_pos (Nat.le_trans hrank hleft)]
      · exact Nat.zero_le _

/-- The scheduler job is cleaned up as often as the ledger says. -/
theorem schedCleanups_effect :
    (effect s a).schedCleanups j = s.schedCleanups j + Resource.schedJob.drops j s a := by
  cases a with
  | cleanup i | freeJob c i | tdrReap c b i | tdrFreeGuilty c i | killJob i =>
      by_cases hj : i = j
      · subst hj
        simp [effect, State.schedFree, Resource.drops, Resource.droppedBy, Action.freesJob]
      · simp [effect, State.schedFree, State.jobPut, State.domainPut, Resource.drops,
          Resource.droppedBy, Action.freesJob, hj, Ne.symm hj]
  | _ => rfl

/-- The job is freed as often as the ledger says. -/
theorem frees_effect : (effect s a).frees j = s.frees j + Resource.job.drops j s a := by
  cases a with
  | putJob i | freeJob c i | tdrReap c b i | tdrFreeGuilty c i | killJob i =>
      by_cases hlast : s.refcount i = 1
      · by_cases hj : i = j
        · subst hj
          simp [effect, State.schedFree, State.jobPut, Resource.drops, Resource.droppedBy,
            cleanedUp_eq_some, Action.putsJob, hlast]
        · simp [effect, State.schedFree, State.jobPut, State.domainPut, Resource.drops,
            Resource.droppedBy, cleanedUp_eq_some, Action.putsJob, hlast, hj, Ne.symm hj]
      · have hkept : ¬ (i = j ∧ s.refcount j = 1) := by
          rintro ⟨rfl, hone⟩
          exact hlast hone
        simp [effect, State.schedFree, State.jobPut, State.domainPut, Resource.drops,
          Resource.droppedBy, cleanedUp_eq_some, Action.putsJob, hlast, hkept]
  | _ => rfl

/-- `rocket_job_cleanup` puts a reference behind a pointer that is not null. -/
theorem put_of_last {f : Nat → Int} {P : Nat → Prop} [DecidablePred P] {i : Nat} :
    (if s.refcount i = 1 ∧ P i then update f i (f i - 1) else f) j +
      (if i = j ∧ s.refcount j = 1 ∧ P j then 1 else 0) = f j := by
  by_cases hj : i = j
  · subst hj
    by_cases hlast : s.refcount i = 1 ∧ P i <;> simp [hlast]
  · by_cases hlast : s.refcount i = 1 ∧ P i <;> simp [hlast, hj, Ne.symm hj]

/-- `rocket_job_run` puts the old done fence where it gets a new one, and
`rocket_job_cleanup` the last one. -/
theorem doneRefs_effect : (effect s a).doneRefs j + Resource.doneFence.drops j s a =
    s.doneRefs j + Resource.doneFence.takes j s a := by
  cases a with
  | runCreate c i ok =>
      by_cases hj : i = j
      · subst hj
        cases ok <;> by_cases hnone : s.doneFence i = none <;>
          simp [effect, Resource.drops, Resource.takes, Resource.droppedBy, Resource.takenBy,
            State.cleanedUp, Action.putsJob, hnone]
      · cases ok <;> by_cases hnone : s.doneFence i = none <;>
          simp [effect, Resource.drops, Resource.takes, Resource.droppedBy, Resource.takenBy,
            State.cleanedUp, Action.putsJob, hnone, hj, Ne.symm hj]
  | putJob i | freeJob c i | tdrReap c b i | tdrFreeGuilty c i | killJob i =>
      simpa [effect, State.schedFree, State.jobPut, Resource.drops, Resource.takes,
        Resource.droppedBy, Resource.takenBy, cleanedUp_eq_some, Action.putsJob]
        using put_of_last (P := fun j => s.doneFence j ≠ none)
  | _ => rfl

/-- The push gets the finished fence, and `rocket_job_cleanup` puts it. -/
theorem inferenceRefs_effect :
    (effect s a).inferenceRefs j + Resource.inferenceFence.drops j s a =
      s.inferenceRefs j + Resource.inferenceFence.takes j s a := by
  cases a with
  | push i e =>
      by_cases hj : i = j
      · subst hj
        cases e <;> simp [effect, Resource.drops, Resource.takes, Resource.droppedBy,
          Resource.takenBy, State.cleanedUp, Action.putsJob]
      · cases e <;> simp [effect, Resource.drops, Resource.takes, Resource.droppedBy,
          Resource.takenBy, State.cleanedUp, Action.putsJob, hj, Ne.symm hj]
  | putJob i | freeJob c i | tdrReap c b i | tdrFreeGuilty c i | killJob i =>
      simpa [effect, State.schedFree, State.jobPut, Resource.drops, Resource.takes,
        Resource.droppedBy, Resource.takenBy, cleanedUp_eq_some, Action.putsJob]
        using put_of_last (P := fun j => s.place j ≠ .outside)
  | _ => rfl

theorem keep_fenceRefs (inv : Owned s) (h : enabled s a = true) : (effect s a).FenceRefs := by
  intro j
  obtain ⟨hdone, hinference⟩ := inv.fenceRefs j
  have hdone' := doneRefs_effect (s := s) (a := a) (j := j)
  have hinference' := inferenceRefs_effect (s := s) (a := a) (j := j)
  have hlaw : Resource.doneFence.Law j s a := law_doneFence inv h
  have hlaw' : Resource.inferenceFence.Law j s a := law_inferenceFence inv h
  unfold Resource.Law at hlaw hlaw'
  omega

theorem Owned.preserve (inv : Owned s) (h : enabled s a = true) : Owned (effect s a) where
  toFenced := inv.toFenced.preserve h
  domained := inv.domained.preserve h
  mapsTasks := keep_mapsTasks inv.toThreaded inv.mapsTasks h
  fenceRefs := keep_fenceRefs inv h

end Laws

/-- Every step of a run keeps what the ledger rests on. -/
theorem owned_step (s : State) (a : Action) (t : State) (inv : Owned s)
    (hstep : driver s a = some t) : Owned t := by
  obtain ⟨h, rfl⟩ := driver_eq_some.mp hstep
  exact inv.preserve h

theorem Owned.initial (n : Nat) : Owned (State.init n) where
  toFenced := Fenced.initial n
  domained := Domained.initial n
  mapsTasks := fun _ => ⟨rfl, rfl⟩
  fenceRefs := fun _ => ⟨rfl, rfl⟩

section Ledger
variable {n : Nat} {acts : List Action} {s : State} (run : Runs driver (State.init n) acts s)
include run

theorem Owned.reachable : Owned s :=
  invariant Owned owned_step run (Owned.initial n)

/-- What call `j` took is what it gave back and what it still holds. -/
theorem ledger_balance (r : Resource) (j : Nat) :
    r.held j s + r.dropped n j acts = r.taken n j acts := by
  have hbalance := balance (fun s => r.held j s) (r.takes j) (r.drops j) owned_step
    (fun s a t inv hstep => by
      obtain ⟨h, rfl⟩ := driver_eq_some.mp hstep
      exact law inv h r) run (Owned.initial n)
  have hstart : r.held j (State.init n) = 0 := by cases r <;> rfl
  simpa [hstart, Resource.taken, Resource.dropped] using hbalance

/-- Each resource is taken for a call once at most. -/
theorem taken_le_one (r : Resource) (j : Nat) : r.taken n j acts ≤ 1 := by
  have hleft := total_add_left (fun s => r.left j s) (r.takes j) owned_step
    (fun s a t inv hstep => by
      obtain ⟨h, rfl⟩ := driver_eq_some.mp hstep
      exact takes_add_left inv h r) run (Owned.initial n)
  have hstart : r.left j (State.init n) ≤ 1 := by cases r <;> exact Nat.le_refl 1
  exact (Nat.le_of_add_right_le hleft).trans hstart

/-- The state's own count of `drm_sched_job_cleanup` agrees with the ledger. -/
theorem schedCleanups_eq_dropped (j : Nat) :
    s.schedCleanups j = Resource.schedJob.dropped n j acts := by
  have hcount := count_eq_total (fun s => s.schedCleanups j) (Resource.schedJob.drops j)
    (fun s a t hstep => by
      obtain ⟨-, rfl⟩ := driver_eq_some.mp hstep
      exact schedCleanups_effect) run
  have hstart : (State.init n).schedCleanups j = 0 := rfl
  simpa [hstart, Resource.dropped] using hcount

/-- The state's own count of `rocket_job_cleanup` agrees with the ledger. -/
theorem frees_eq_dropped (j : Nat) : s.frees j = Resource.job.dropped n j acts := by
  have hcount := count_eq_total (fun s => s.frees j) (Resource.job.drops j)
    (fun s a t hstep => by
      obtain ⟨-, rfl⟩ := driver_eq_some.mp hstep
      exact frees_effect) run
  have hstart : (State.init n).frees j = 0 := rfl
  simpa [hstart, Resource.dropped] using hcount

end Ledger

/-- The job and the ioctl's reference on it are taken together. -/
theorem taken_ioctlRef (n j : Nat) (acts : List Action) :
    Resource.ioctlRef.taken n j acts = Resource.job.taken n j acts := by
  have hsame : Resource.ioctlRef.takes j = Resource.job.takes j := by
    funext s a
    cases a with
    | alloc i ok => cases ok <;> rfl
    | _ => rfl
  simp only [Resource.taken, hsame]

/-- The resources that the ioctl gives back itself before it returns. -/
def Resource.ofCall : Resource → Bool
  | .vmap | .taskBo => true
  | _ => false

/-- A freed job holds nothing. -/
theorem Owned.held_of_freed {s : State} (inv : Owned s) {j : Nat} (hzero : s.refcount j = 0)
    {r : Resource} (hr : r.ofCall = false) : r.held j s = 0 := by
  have hcount := inv.counted j
  have hcall : (s.call j).holdsJob = false := by
    cases hh : (s.call j).holdsJob <;> simp_all
  have hplace : (s.place j).held = false := by
    cases hh : (s.place j).held <;> simp_all
  have hsched : (s.call j).ownsSched = false := by
    cases hc : s.call j <;> simp_all [CallPc.ownsSched, CallPc.holdsJob]
  cases r <;> simp_all [Resource.held, Resource.ofCall]

/-- A call that has returned holds nothing of its own. -/
theorem held_of_done {s : State} {j : Nat} (hdone : (s.call j).done = true) {r : Resource}
    (hr : r.ofCall = true) : r.held j s = 0 := by
  cases hc : s.call j <;> cases r <;>
    simp_all [Resource.held, Resource.ofCall, CallPc.done, CallPc.maps, CallPc.hasBo]

/-- What the state itself says is held for call `j`: the job's reference count, its share
of a domain's `kref`, the references behind its fence pointers, and the mapping and the
reference on the task BO are what the ledger has as taken and not given back. -/
structure Recorded (n j : Nat) (acts : List Action) (s : State) : Prop where
  refs : s.refcount j + (Resource.ioctlRef.dropped n j acts + Resource.schedRef.dropped n j acts) =
    Resource.ioctlRef.taken n j acts + Resource.schedRef.taken n j acts
  pool : s.Pool
  domain : (if s.holding (.job j) = none then 0 else 1) + Resource.domain.dropped n j acts =
    Resource.domain.taken n j acts
  doneFence : s.doneRefs j + Resource.doneFence.dropped n j acts =
    Resource.doneFence.taken n j acts
  inferenceFence : s.inferenceRefs j + Resource.inferenceFence.dropped n j acts =
    Resource.inferenceFence.taken n j acts
  mapped : (s.mapped j).toNat + Resource.vmap.dropped n j acts = Resource.vmap.taken n j acts
  boRef : (s.boRef j).toNat + Resource.taskBo.dropped n j acts = Resource.taskBo.taken n j acts

/-- The account of call `j` after a run: `drm_sched_job_cleanup` and
`rocket_job_cleanup` ran as often as the ledger says, nothing was given back
that was not taken, nothing is taken twice, and the state agrees. -/
structure Settled (n j : Nat) (acts : List Action) (s : State) : Prop
    extends Recorded n j acts s where
  cleanups : s.schedCleanups j = Resource.schedJob.dropped n j acts
  frees : s.frees j = Resource.job.dropped n j acts
  once : ∀ r : Resource, r.dropped n j acts ≤ r.taken n j acts ∧ r.taken n j acts ≤ 1
  /-- The job is freed when it was allocated and every reference on it is dropped. -/
  freed_iff : Resource.job.dropped n j acts = 1 ↔
    Resource.ioctlRef.dropped n j acts = 1 ∧
      Resource.schedRef.dropped n j acts = Resource.schedRef.taken n j acts
  /-- A freed job leaves nothing behind that was taken for it. -/
  freed : Resource.job.dropped n j acts = 1 → ∀ r : Resource, r.ofCall = false →
    r.dropped n j acts = r.taken n j acts
  /-- In the state of a freed job no reference is left, on it or through it. -/
  freed_clear : s.frees j = 1 → s.refcount j = 0 ∧ s.holding (.job j) = none ∧
    s.doneRefs j = 0 ∧ s.inferenceRefs j = 0
  /-- A call that has returned leaves no mapping and no reference on the task BO. -/
  returned : (s.call j).done = true → ∀ r : Resource, r.ofCall = true →
    r.dropped n j acts = r.taken n j acts
  /-- After the call's return the mapping and the reference on the task BO are gone. -/
  returned_clear : (s.call j).done = true → s.mapped j = false ∧ s.boRef j = false

/-- The state agrees with the ledger. -/
theorem recorded_of_run {n : Nat} {acts : List Action} {s : State}
    (run : Runs driver (State.init n) acts s) (j : Nat) : Recorded n j acts s := by
  have inv := Owned.reachable run
  have hbalance := fun r => ledger_balance run r j
  obtain ⟨hdone, hinference⟩ := inv.fenceRefs j
  refine ⟨?_, inv.domained.pool, ?_, ?_, ?_, ?_, ?_⟩
  · have hioctl := hbalance .ioctlRef
    have hsched := hbalance .schedRef
    simp only [Resource.held] at hioctl hsched
    have hcount := inv.counted j
    omega
  · have hdomain := hbalance .domain
    by_cases hheld : 0 < s.refcount j ∧ s.domain j ≠ none
    · simpa [Resource.held, hheld] using hdomain
    · have hnone : s.holding (.job j) = none := by simpa [State.holding] using hheld
      simpa [Resource.held, hheld, hnone] using hdomain
  · have hfence := hbalance .doneFence
    omega
  · have hfence := hbalance .inferenceFence
    omega
  · rw [(inv.mapsTasks j).1]
    exact hbalance .vmap
  · rw [(inv.mapsTasks j).2]
    exact hbalance .taskBo

section Run
variable {n : Nat} {acts : List Action} {s : State} {j : Nat}

/-- No reference on a job is left when it is freed. -/
theorem refcount_of_dropped (run : Runs driver (State.init n) acts s)
    (hfree : Resource.job.dropped n j acts = 1) : s.refcount j = 0 := by
  have hjob := ledger_balance run .job j
  have hle := taken_le_one run .job j
  by_contra hne
  have hpos : 0 < s.refcount j := by omega
  simp only [Resource.held, hpos, if_true] at hjob
  omega

/-- The two references on a job are all it is kept for. -/
theorem dropped_job_iff (run : Runs driver (State.init n) acts s) :
    Resource.job.dropped n j acts = 1 ↔ Resource.ioctlRef.dropped n j acts = 1 ∧
      Resource.schedRef.dropped n j acts = Resource.schedRef.taken n j acts := by
  have hjob := ledger_balance run .job j
  have hioctl := ledger_balance run .ioctlRef j
  have hsched := ledger_balance run .schedRef j
  have hone := taken_le_one run .job j
  have hrefs := (recorded_of_run run j).refs
  have htaken := taken_ioctlRef n j acts
  constructor
  · intro hfree
    have hzero := refcount_of_dropped run hfree
    omega
  · rintro ⟨hdrop, hback⟩
    have hzero : s.refcount j = 0 := by omega
    simp only [Resource.held, hzero, Nat.lt_irrefl, if_false] at hjob
    omega

/-- A freed job has let go of its domain and of both fences. -/
theorem clear_of_dropped (run : Runs driver (State.init n) acts s)
    (hfree : Resource.job.dropped n j acts = 1) :
    s.refcount j = 0 ∧ s.holding (.job j) = none ∧ s.doneRefs j = 0 ∧
      s.inferenceRefs j = 0 := by
  have inv := Owned.reachable run
  have hzero := refcount_of_dropped run hfree
  obtain ⟨hdone, hinference⟩ := inv.fenceRefs j
  have hnone : Resource.doneFence.held j s = 0 := inv.held_of_freed hzero rfl
  have hnone' : Resource.inferenceFence.held j s = 0 := inv.held_of_freed hzero rfl
  exact ⟨hzero, by simp [State.holding, hzero], by omega, by omega⟩

end Run

/-- However far a submit gets, in whatever order the scheduler and the ioctl drop
the job: `drm_sched_job_cleanup` runs once for a job that
`drm_sched_job_init` set up and for no other, the job is freed once, when
both references are gone, with its domain and its fences dropped once each,
and the call returns with its mapping and its reference on the task BO undone. -/
theorem submit_settled {n : Nat} {acts : List Action} {s : State}
    (run : Runs driver (State.init n) acts s) (j : Nat) : Settled n j acts s := by
  have inv := Owned.reachable run
  have hbalance := fun r => ledger_balance run r j
  have hfrees := frees_eq_dropped run j
  refine ⟨recorded_of_run run j, schedCleanups_eq_dropped run j, hfrees, fun r => ?_,
    dropped_job_iff run, ?_, ?_, ?_, ?_⟩
  · exact ⟨Nat.le_of_add_left_le (hbalance r).le, taken_le_one run r j⟩
  · intro hfree r hr
    have hnone := inv.held_of_freed (refcount_of_dropped run hfree) hr
    have := hbalance r
    omega
  · intro hfree
    exact clear_of_dropped run (hfrees ▸ hfree)
  · intro hdone r hr
    have hnone := held_of_done hdone hr
    have := hbalance r
    omega
  · intro hdone
    obtain ⟨hmapped, hbo⟩ := inv.mapsTasks j
    rw [hmapped, hbo]
    cases hc : s.call j <;> simp_all [CallPc.done, CallPc.maps, CallPc.hasBo]

/-- A submit whose job is started, completed by interrupt and freed by the scheduler
before the ioctl drops its reference and returns. -/
def settledSteps : List Action :=
  startOne ++ irqSteps 0 0 0x100#32 ++ [.waitDone 0, .freeJob 0 0] ++ returnSteps 0 none

theorem settledSteps_accepted :
    ((exec driver (State.init 1) settledSteps).map fun s =>
      decide ((s.call 0).done = true ∧ s.refcount 0 = 0)) = some true := by
  decide

theorem submit_settled_on_settledSteps :
    ∃ s, Runs driver (State.init 1) settledSteps s ∧ Settled 1 0 settledSteps s := by
  obtain ⟨s, run, -⟩ := runs_of_test settledSteps_accepted
  exact ⟨s, run, submit_settled run 0⟩

end Rkopnu.Driver
