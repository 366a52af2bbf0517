import Rkopnu.Driver.Domains
import Mathlib.Algebra.Order.BigOperators.Group.Finset
import Mathlib.Algebra.Order.Group.Nat

/-!
# Removing a core from the running driver

`rocket_remove` takes a core down with `rocket_core_fini` and lowers `num_cores`, while the
threads of the driver go on. The last domain of a core stays attached between its jobs,
and `rocket_core_fini` detaches nothing.

## Implementation notes

The driver is the one of `Rkopnu.Driver`, with a `num_cores` that removals lower. A core is
not probed again, and an index names the same core throughout. A call on the NULL group
that `rocket_core_fini` leaves is no step. `drm_sched_fini` waits for the `run_job` and the
timeout worker, and neither of them, nor `free_job`, runs after it. Until then the scheduler
of a core goes on, also where a lower core is gone and `sched_to_core` looks for it among too
few; what the source makes of the NULL it finds is left out. The interrupt of the core is
freed by the driver core after `rocket_remove`.
-/

namespace Rkopnu.Removal

open Function (update)
open Transition

/-- Where `rocket_remove` of a core stands. -/
inductive RemovePc
  | bound
  /-- Runtime PM is off; before `iommu_group_put`. -/
  | powerOff
  /-- `core->iommu_group` is NULL; before `rocket_job_fini`. -/
  | groupPut
  /-- `rocket_core_fini` has returned; before `num_cores--`. -/
  | returned
  /-- `rocket_remove` has returned. -/
  | uncounted
  /-- The interrupt is freed. -/
  | released
  deriving DecidableEq, Repr

/-- `core->iommu_group` is not NULL. -/
def RemovePc.grouped : RemovePc → Bool
  | .bound | .powerOff => true
  | _ => false

/-- The scheduler of the core works. -/
def RemovePc.scheduled : RemovePc → Bool
  | .bound | .powerOff | .groupPut => true
  | _ => false

structure State where
  driver : Driver.State
  remove : Nat → RemovePc
  /-- How often a `rocket_device_pm_get` for a job of the core has succeeded; no code
  reads it. -/
  taken : Nat → Nat
  /-- How often such a reference was put; no code reads it. -/
  returned : Nat → Nat

/-- `n` cores are bound. -/
def State.init (n : Nat) : State where
  driver := Driver.State.init n
  remove := fun c => if c < n then .bound else .released
  taken := fun _ => 0
  returned := fun _ => 0

inductive Action
  | driver (a : Driver.Action)
  /-- `rocket_remove` finds the core, and `rocket_core_fini` puts the never-gate reference
  and turns runtime PM off. -/
  | powerOff (c : Nat)
  /-- `put_device` and `iommu_group_put`; the pointers are cleared. -/
  | groupPut (c : Nat)
  /-- `rocket_job_fini`. -/
  | schedFini (c : Nat)
  /-- `num_cores--`. -/
  | uncount (c : Nat)
  /-- `devm` frees the interrupt. -/
  | release (c : Nat)

/-- The core on whose group the step calls `iommu_attach_group` or `iommu_detach_group`. -/
def usesGroup (s : Driver.State) : Driver.Action → Option Nat
  | .runAttachFail c _ _ => some c
  | .runSkip c j | .runProgram c j _ => if s.attached c = s.domain j then none else some c
  | .tdrSection c _ => if s.attached c = none then none else some c
  | .scan f k => if s.scanHit f k then some k else none
  | _ => none

/-- The core whose scheduler starts a worker in the step. -/
def usesScheduler : Driver.Action → Option Nat
  | .pop c _ _ | .fire c _ | .freeJob c _ => some c
  | _ => none

/-- The core for which the step takes a power reference. -/
def takesPower (s : Driver.State) : Driver.Action → Option Nat
  | .runPmGet c _ resume => if (rocketDevicePmGet s.devs resume s.pm).1 then some c else none
  | _ => none

/-- The core for which the step puts a power reference. -/
def returnsPower (s : Driver.State) : Driver.Action → Option Nat
  | .runPmPut c _ _ | .irqComplete c _ _ => some c
  | .tdrSection c _ => if s.inFlight c = none then none else some c
  | _ => none

/-- One more for the core. -/
def bump (count : Nat → Nat) : Option Nat → Nat → Nat
  | none => count
  | some c => update count c (count c + 1)

/-- The driver as far as core `c` is concerned, were it counted. -/
def counting (s : Driver.State) (c : Nat) : Driver.State := { s with cores := c + 1 }

/-- A thread of the driver can take the step. An interrupt is served until it is freed, and
the scheduler of a core works whether the core is counted or not. -/
def State.admits (s : State) : Driver.Action → Bool
  | .raise c _ | .irqHard c => decide (s.remove c ≠ .released)
  | .pop c j e => Driver.enabled (counting s.driver c) (.pop c j e)
  | .fire c j => Driver.enabled (counting s.driver c) (.fire c j)
  | a => Driver.enabled s.driver a

/-- The step can be taken. -/
def enabled (s : State) : Action → Bool
  | .driver a => s.admits a && (usesGroup s.driver a).all (fun c => (s.remove c).grouped) &&
      (usesScheduler a).all fun c => (s.remove c).scheduled
  | .powerOff c => decide (s.remove c = .bound ∧ c < s.driver.cores)
  | .groupPut c => decide (s.remove c = .powerOff)
  | .schedFini c => decide (s.remove c = .groupPut ∧ s.driver.run c = .idle ∧
      s.driver.tdr c = .idle)
  | .uncount c => decide (s.remove c = .returned)
  | .release c => decide (s.remove c = .uncounted ∧ s.driver.irq c = .idle ∧
      s.driver.irqWake c = none)

/-- What the step does. -/
def effect (s : State) : Action → State
  | .driver a => { s with
      driver := Driver.effect s.driver a
      taken := bump s.taken (takesPower s.driver a)
      returned := bump s.returned (returnsPower s.driver a) }
  | .powerOff c => { s with
      driver := { s.driver with
        pm := { s.driver.pm with usage := Power.put s.driver.pm.usage c } }
      remove := update s.remove c .powerOff }
  | .groupPut c => { s with remove := update s.remove c .groupPut }
  | .schedFini c => { s with remove := update s.remove c .returned }
  | .uncount c => { s with
      driver := { s.driver with cores := s.driver.cores - 1 }
      remove := update s.remove c .uncounted }
  | .release c => { s with remove := update s.remove c .released }

/-- The driver and its removals as a transition system. -/
def removal : System State Action := fun s a => if enabled s a then some (effect s a) else none

theorem removal_eq_some {s t : State} {a : Action} :
    removal s a = some t ↔ enabled s a = true ∧ effect s a = t := by
  unfold removal
  split <;> simp_all

/-- Nothing is attached to the group of core `c`, no job is in flight on it, and the power
references of its jobs are put. -/
structure State.Clean (s : State) (c : Nat) : Prop where
  group : s.driver.group c = none
  attached : s.driver.attached c = none
  inFlight : s.driver.inFlight c = none
  power : s.taken c = s.returned c

/-- A core whose `rocket_core_fini` has returned is clean, and no freed domain is attached
to its group. -/
structure RemovalSound (s : State) : Prop where
  clean : ∀ c, (s.remove c).scheduled = false → s.Clean c
  alive : ∀ c d, (s.remove c).scheduled = false → s.driver.group c = some d →
    s.driver.live d = true

/-- `rocket_core_fini` puts the group of a core that has no domain attached and no job in
flight. -/
def RemovesIdle (s : State) : Action → Prop
  | .groupPut c => s.driver.attached c = none ∧ s.driver.inFlight c = none
  | _ => True

instance (s : State) (a : Action) : Decidable (RemovesIdle s a) :=
  match a with
  | .groupPut c =>
      inferInstanceAs (Decidable (s.driver.attached c = none ∧ s.driver.inFlight c = none))
  | .driver _ | .powerOff _ | .schedFini _ | .uncount _ | .release _ => isTrue trivial

/-- The power references of a core that are taken and not put: the one of the job in flight
and the one `rocket_job_run` has not handed over. -/
def State.Counted (s : State) : Prop := ∀ c, s.taken c = s.returned c +
  (if (s.driver.run c).holdsPower then 1 else 0) + if s.driver.inFlight c = none then 0 else 1

/-- What is known of the driver of `n` cores while cores are removed. -/
structure Tracked (n : Nat) (s : State) : Prop where
  threaded : Driver.Threaded s.driver
  jobDomain : s.driver.JobDomain
  attachedGroup : s.driver.AttachedGroup
  counted : s.Counted
  /-- After `drm_sched_fini` no `run_job` worker runs on the core. -/
  stopped : ∀ c, (s.remove c).scheduled = false → s.driver.run c = .idle
  /-- There are no cores but the `n` of the start. -/
  absent : ∀ c, n ≤ c → s.remove c = .released ∧ s.driver.inFlight c = none
  /-- `pm_refcount` is what was taken for the jobs of the cores and not put. -/
  power : s.driver.pm.refcount + ∑ c ∈ Finset.range n, s.returned c =
    ∑ c ∈ Finset.range n, s.taken c

/-- What is known of a driver whose cores are removed when they are idle. -/
structure Removed (n : Nat) (s : State) : Prop extends Tracked n s where
  /-- Without its group a core is neither attached nor busy. -/
  detached : ∀ c, (s.remove c).grouped = false →
    s.driver.attached c = none ∧ s.driver.inFlight c = none

theorem Tracked.initial (n : Nat) : Tracked n (State.init n) where
  threaded := Driver.Threaded.initial n
  jobDomain := (Driver.Domained.initial n).jobDomain
  attachedGroup := (Driver.Domained.initial n).attachedGroup
  counted := fun c => by simp [State.init, Driver.State.init, Driver.RunPc.holdsPower]
  stopped := fun _ _ => rfl
  absent := fun c hc => ⟨if_neg (Nat.not_lt.mpr hc), rfl⟩
  power := by simp [State.init, Driver.State.init]

theorem Removed.initial (n : Nat) : Removed n (State.init n) where
  toTracked := Tracked.initial n
  detached := fun _ _ => ⟨rfl, rfl⟩

/-- The threads do not look at the number of cores, at the power unit or at the lines. -/
theorem threaded_of_same {s t : Driver.State} (inv : Driver.Threaded s)
    (h : t = { s with cores := t.cores, pm := t.pm, npu := t.npu, irqWake := t.irqWake }) :
    Driver.Threaded t := by
  rw [h]
  cases inv
  constructor <;> assumption

/-- The step takes the removal of core `c` from one point to the next. -/
inductive RemovePc.Moves : Action → Nat → RemovePc → RemovePc → Prop
  | powerOff {c} : Moves (.powerOff c) c .bound .powerOff
  | groupPut {c} : Moves (.groupPut c) c .powerOff .groupPut
  | schedFini {c} : Moves (.schedFini c) c .groupPut .returned
  | uncount {c} : Moves (.uncount c) c .returned .uncounted
  | release {c} : Moves (.release c) c .uncounted .released

section Moves
variable {s : State} {a : Action}

/-- A step takes the removal of a core one point further, or leaves it as it is. -/
theorem remove_effect (h : enabled s a = true) (c : Nat) :
    RemovePc.Moves a c (s.remove c) ((effect s a).remove c) ∨
      (effect s a).remove c = s.remove c := by
  have move : ∀ {i p q}, s.remove i = p → (effect s a).remove = update s.remove i q →
      RemovePc.Moves a i p q →
      RemovePc.Moves a c (s.remove c) ((effect s a).remove c) ∨
        (effect s a).remove c = s.remove c := by
    intro i p q hp hq hmove
    exact (component_moved (R := RemovePc.Moves a) hp hq hmove).imp_right And.right
  cases a with
  | driver a => exact Or.inr rfl
  | powerOff i => exact move (of_decide_eq_true h).1 rfl .powerOff
  | groupPut i => exact move (of_decide_eq_true h) rfl .groupPut
  | schedFini i => exact move (of_decide_eq_true h).1 rfl .schedFini
  | uncount i => exact move (of_decide_eq_true h) rfl .uncount
  | release i => exact move (of_decide_eq_true h).1 rfl .release

theorem scheduled_before (h : enabled s a = true) {c : Nat}
    (hc : ((effect s a).remove c).scheduled = false) :
    (s.remove c).scheduled = false ∨ a = .schedFini c := by
  rcases remove_effect h c with hmove | hstay
  · generalize s.remove c = p at hmove ⊢
    generalize (effect s a).remove c = q at hmove hc
    cases hmove with
    | powerOff | groupPut => cases hc
    | schedFini => exact Or.inr rfl
    | uncount | release => exact Or.inl rfl
  · exact Or.inl (hstay ▸ hc)

theorem grouped_before (h : enabled s a = true) {c : Nat}
    (hc : ((effect s a).remove c).grouped = false) :
    (s.remove c).grouped = false ∨ a = .groupPut c := by
  rcases remove_effect h c with hmove | hstay
  · generalize s.remove c = p at hmove ⊢
    generalize (effect s a).remove c = q at hmove hc
    cases hmove with
    | powerOff => cases hc
    | groupPut => exact Or.inr rfl
    | schedFini | uncount | release => exact Or.inl rfl
  · exact Or.inl (hstay ▸ hc)

end Moves

section Driver
variable {n : Nat} {s : State} {a : Driver.Action}

/-- A step of the driver that is admitted, its use of the group and of the scheduler. -/
theorem enabled_driver : enabled s (.driver a) = true ↔ s.admits a = true ∧
    (∀ c, usesGroup s.driver a = some c → (s.remove c).grouped = true) ∧
    ∀ c, usesScheduler a = some c → (s.remove c).scheduled = true := by
  simp only [enabled, Bool.and_eq_true, Option.all_eq_true, and_assoc]

/-- An admitted step is one of the driver, or an interrupt or a start of a worker on a core
that may be uncounted. -/
theorem admits_cases (h : s.admits a = true) : Driver.enabled s.driver a = true ∨
    ((∃ c bits, a = .raise c bits) ∨ ∃ c, a = .irqHard c) ∨
    (∃ c j e, a = .pop c j e) ∨ ∃ c j, a = .fire c j := by
  cases a with
  | raise c bits => exact .inr (.inl (.inl ⟨c, bits, rfl⟩))
  | irqHard c => exact .inr (.inl (.inr ⟨c, rfl⟩))
  | pop c j e => exact .inr (.inr (.inl ⟨c, j, e, rfl⟩))
  | fire c j => exact .inr (.inr (.inr ⟨c, j, rfl⟩))
  | _ => exact .inl h

theorem Tracked.counting (inv : Tracked n s) (c : Nat) : Driver.Threaded (counting s.driver c) :=
  threaded_of_same inv.threaded rfl

theorem driver_threaded (inv : Tracked n s) (h : s.admits a = true) :
    Driver.Threaded (Driver.effect s.driver a) := by
  rcases admits_cases h with hen | (⟨c, bits, rfl⟩ | ⟨c, rfl⟩) | ⟨c, j, e, rfl⟩ | ⟨c, j, rfl⟩
  · exact inv.threaded.preserve hen
  · exact threaded_of_same inv.threaded rfl
  · exact threaded_of_same inv.threaded rfl
  · exact threaded_of_same ((inv.counting c).preserve (a := .pop c j e) h) rfl
  · exact threaded_of_same ((inv.counting c).preserve (a := .fire c j) h) rfl

theorem driver_jobDomain (inv : Tracked n s) (h : s.admits a = true) :
    (Driver.effect s.driver a).JobDomain := by
  rcases admits_cases h with hen | (⟨c, bits, rfl⟩ | ⟨c, rfl⟩) | ⟨c, j, e, rfl⟩ | ⟨c, j, rfl⟩
  · exact Driver.keep_jobDomain inv.threaded inv.jobDomain hen
  · exact inv.jobDomain
  · exact inv.jobDomain
  · have keep := Driver.keep_jobDomain (a := .pop c j e) (inv.counting c)
    exact keep inv.jobDomain h
  · have keep := Driver.keep_jobDomain (a := .fire c j) (inv.counting c)
    exact keep inv.jobDomain h

/-- An admitted step moves the `run_job` worker of a core, or leaves it where it is. -/
theorem worker_effect (h : s.admits a = true) (c : Nat) :
    Driver.RunPc.Moves s.driver a c (s.driver.run c) ((Driver.effect s.driver a).run c) ∨
      a.runOf ≠ some c ∧ (Driver.effect s.driver a).run c = s.driver.run c := by
  rcases admits_cases h with hen | (⟨b, bits, rfl⟩ | ⟨b, rfl⟩) | ⟨b, j, e, rfl⟩ | ⟨b, j, rfl⟩
  · exact Driver.run_effect hen c
  · exact .inr ⟨nofun, rfl⟩
  · exact .inr ⟨nofun, rfl⟩
  · rcases Driver.run_effect (s := counting s.driver b) (a := .pop b j e) h c with hmove | hstay
    · left
      change Driver.RunPc.Moves _ _ c (s.driver.run c)
        ((Driver.effect s.driver (.pop b j e)).run c) at hmove
      generalize s.driver.run c = p at hmove ⊢
      generalize (Driver.effect s.driver (.pop b j e)).run c = q at hmove ⊢
      cases hmove
      exact .pop
    · exact .inr hstay
  · exact .inr ⟨nofun, rfl⟩

theorem bump_self (count : Nat → Nat) (c : Nat) : bump count (some c) c = count c + 1 :=
  Function.update_self _ _ _

theorem bump_of_ne {count : Nat → Nat} {o : Option Nat} {c : Nat} (h : o ≠ some c) :
    bump count o c = count c := by
  cases o with
  | none => rfl
  | some d => exact Function.update_of_ne (fun hc => h (congrArg some hc.symm)) _ _

/-- The power references of a core after a step of the driver. -/
def CountedAfter (s : State) (a : Driver.Action) (c : Nat) : Prop :=
  bump s.taken (takesPower s.driver a) c = bump s.returned (returnsPower s.driver a) c +
    (if ((Driver.effect s.driver a).run c).holdsPower then 1 else 0) +
      if (Driver.effect s.driver a).inFlight c = none then 0 else 1

/-- `rocket_job_run` takes a reference, and puts it or hands it to the job in flight. -/
theorem counted_of_worker (inv : Tracked n s) {c : Nat}
    (hmove : Driver.RunPc.Moves s.driver a c (s.driver.run c)
      ((Driver.effect s.driver a).run c)) : CountedAfter s a c := by
  have hc := inv.counted c
  have hempty := inv.threaded.unpublished c
  unfold CountedAfter
  generalize s.driver.run c = p at hmove hc hempty
  generalize (Driver.effect s.driver a).run c = q at hmove ⊢
  cases hmove with
  | pmGet ok =>
      simp only [takesPower, returnsPower, ok, if_true, bump_self]
      change s.taken c = s.returned c + 0 + _ at hc
      change s.taken c + 1 = s.returned c + 1 + _
      rw [hc]
      exact Nat.add_right_comm _ _ _
  | pmGetFail failed =>
      simp only [takesPower, failed, Bool.false_eq_true, if_false]
      exact hc
  | @skip _ j | @program _ j =>
      rw [hempty j rfl] at hc
      simpa [takesPower, returnsPower, bump, Driver.effect, Driver.RunPc.holdsPower] using hc
  | pmPut =>
      simp only [takesPower, returnsPower, bump_self]
      change s.taken c = s.returned c + 1 + _ at hc
      change s.taken c = s.returned c + 1 + 0 + _
      exact hc
  | _ => exact hc

/-- A reference is taken by the worker of its core. -/
theorem runOf_of_takesPower {t : Driver.State} {c : Nat} (h : takesPower t a = some c) :
    a.runOf = some c := by
  cases a with
  | runPmGet b j resume => exact (Option.ite_none_right_eq_some.mp h).2
  | _ => cases h

/-- A reference that another thread puts goes with the job in flight. -/
theorem inFlight_of_returnsPower (h : s.admits a = true) {c : Nat} (hother : a.runOf ≠ some c)
    (hc : returnsPower s.driver a = some c) :
    (Driver.effect s.driver a).inFlight c ≠ s.driver.inFlight c := by
  intro hsame
  cases a with
  | runPmPut b j e => exact hother hc
  | irqComplete b seen j =>
      obtain rfl := Option.some.inj hc
      simp [Driver.effect, (of_decide_eq_true h).2.2.1] at hsame
  | tdrSection b j =>
      obtain ⟨hfly, hb⟩ := Option.ite_none_left_eq_some.mp hc
      obtain rfl := Option.some.inj hb
      exact hfly (by rw [← hsame]; simp [Driver.effect])
  | _ => cases hc

/-- The references of a core are put by others with its job in flight. -/
theorem counted_of_other (inv : Tracked n s) (h : s.admits a = true) {c : Nat}
    (hother : a.runOf ≠ some c) (hstay : (Driver.effect s.driver a).run c = s.driver.run c) :
    CountedAfter s a c := by
  have hc := inv.counted c
  rw [CountedAfter, hstay, bump_of_ne fun htake => hother (runOf_of_takesPower htake)]
  rcases Driver.inFlight_effect (s := s.driver) (a := a) c with
    hsame | ⟨hnone, ⟨seen, j, rfl⟩ | ⟨j, rfl⟩⟩ | ⟨j, -, hpub⟩
  · rw [bump_of_ne fun hreturn => inFlight_of_returnsPower h hother hreturn hsame, hsame, hc]
  · rw [hnone, hc, (of_decide_eq_true h).2.2.1]
    simp only [returnsPower, bump_self]
    simp [Nat.add_right_comm]
  · rw [hnone, hc]
    by_cases hfly : s.driver.inFlight c = none
    · simp [returnsPower, hfly, bump]
    · simp [returnsPower, hfly, bump_self, Nat.add_right_comm]
  · exact absurd (by cases hpub <;> rfl) hother

theorem driver_counted (inv : Tracked n s) (h : s.admits a = true) :
    (effect s (.driver a)).Counted := by
  intro c
  rcases worker_effect h c with hmove | ⟨hother, hstay⟩
  · exact counted_of_worker inv hmove
  · exact counted_of_other inv h hother hstay

/-- A core past the ones of the start is not used. -/
theorem Tracked.lt_cores (inv : Tracked n s) {c : Nat}
    (h : s.driver.run c ≠ .idle ∨ s.driver.inFlight c ≠ none) : c < n := by
  by_contra hc
  obtain ⟨hremove, hfly⟩ := inv.absent c (Nat.not_lt.mp hc)
  rcases h with hrun | hbusy
  · exact hrun (inv.stopped c (by rw [hremove]; rfl))
  · exact hbusy hfly

theorem lt_cores_of_takesPower (inv : Tracked n s) (h : s.admits a = true) {c : Nat}
    (hc : takesPower s.driver a = some c) : c < n := by
  cases a with
  | runPmGet b j resume =>
      have hrun : s.driver.run b = .pmGet j := of_decide_eq_true h
      obtain rfl := Option.some.inj (Option.ite_none_right_eq_some.mp hc).2
      exact inv.lt_cores (.inl (by simp [hrun]))
  | _ => cases hc

/-- A reference that is put was taken for a job of the core, and not put yet. -/
theorem returned_lt_of_returnsPower (inv : Tracked n s) (h : s.admits a = true) {c : Nat}
    (hc : returnsPower s.driver a = some c) : c < n ∧ s.returned c < s.taken c := by
  have hcount := inv.counted c
  cases a with
  | runPmPut b j e =>
      have hrun : s.driver.run b = .pmPut j e := of_decide_eq_true h
      obtain rfl := Option.some.inj hc
      refine ⟨inv.lt_cores (.inl (by simp [hrun])), ?_⟩
      simp only [hrun, Driver.RunPc.holdsPower, if_true] at hcount
      omega
  | irqComplete b seen j =>
      have hfly : s.driver.inFlight b = some j := (of_decide_eq_true h).2.2.1
      obtain rfl := Option.some.inj hc
      refine ⟨inv.lt_cores (.inr (by simp [hfly])), ?_⟩
      simp only [hfly, reduceCtorEq, if_false] at hcount
      omega
  | tdrSection b j =>
      obtain ⟨hfly, hb⟩ := Option.ite_none_left_eq_some.mp hc
      obtain rfl := Option.some.inj hb
      refine ⟨inv.lt_cores (.inr hfly), ?_⟩
      simp only [hfly, if_false] at hcount
      omega
  | _ => cases hc

/-- `pm_refcount` follows the references taken and put. -/
theorem refcount_effect {t : Driver.State}
    (hput : ∀ c, returnsPower t a = some c → 0 < t.pm.refcount) :
    (Driver.effect t a).pm.refcount + (returnsPower t a).isSome.toNat =
      t.pm.refcount + (takesPower t a).isSome.toNat := by
  cases a with
  | runPmGet c j resume =>
      cases hget : (rocketDevicePmGet t.devs resume t.pm).1 with
      | false => simp [Driver.effect, returnsPower, takesPower, hget, pmGet_failed _ _ _ hget]
      | true =>
          simp [Driver.effect, returnsPower, takesPower, hget, (pmGet_succeeded _ _ _ hget).1]
  | runPmPut c j e | irqComplete c seen j =>
      have hpos := hput c rfl
      simp [Driver.effect, Driver.State.signalDone, returnsPower, takesPower,
        (pmPut_matched _ _ hpos).1]
      omega
  | tdrSection c j =>
      by_cases hfly : t.inFlight c = none
      · simp [Driver.effect, returnsPower, takesPower, hfly]
      · have hpos := hput c (by simp [returnsPower, hfly])
        simp [Driver.effect, returnsPower, takesPower, hfly, pmPutNoidle_eq,
          (pmPut_matched _ _ hpos).1]
        omega
  | _ => rfl

theorem sum_bump (count : Nat → Nat) {o : Option Nat} (h : ∀ c, o = some c → c < n) :
    ∑ c ∈ Finset.range n, bump count o c =
      ∑ c ∈ Finset.range n, count c + o.isSome.toNat := by
  cases o with
  | none => rfl
  | some d =>
      have hbump : ∀ c, bump count (some d) c = count c + if c = d then 1 else 0 := by
        intro c
        by_cases hc : c = d
        · subst hc
          simp [bump]
        · simp [bump, hc]
      simp [hbump, Finset.sum_add_distrib, h d rfl]

theorem driver_power (inv : Tracked n s) (h : s.admits a = true) :
    (effect s (.driver a)).driver.pm.refcount +
        ∑ c ∈ Finset.range n, (effect s (.driver a)).returned c =
      ∑ c ∈ Finset.range n, (effect s (.driver a)).taken c := by
  have hput : ∀ c, returnsPower s.driver a = some c → 0 < s.driver.pm.refcount := by
    intro c hc
    obtain ⟨hlt, hless⟩ := returned_lt_of_returnsPower inv h hc
    have hsum : ∑ k ∈ Finset.range n, s.returned k < ∑ k ∈ Finset.range n, s.taken k := by
      refine Finset.sum_lt_sum (fun k _ => ?_) ⟨c, Finset.mem_range.mpr hlt, hless⟩
      have hcount := inv.counted k
      omega
    have hpower := inv.power
    omega
  have hstep := refcount_effect hput
  have hpower := inv.power
  have htaken := sum_bump s.taken fun c => lt_cores_of_takesPower inv h
  have hreturned := sum_bump s.returned
    fun c hc => (returned_lt_of_returnsPower inv h hc).1
  simp only [effect]
  omega

/-- A worker that is idle is only started by its scheduler. -/
theorem driver_stopped (inv : Tracked n s) (h : enabled s (.driver a) = true) (c : Nat)
    (hc : (s.remove c).scheduled = false) : (Driver.effect s.driver a).run c = .idle := by
  have hidle := inv.stopped c hc
  obtain ⟨hstep, -, hsched⟩ := enabled_driver.mp h
  rcases worker_effect hstep c with hmove | ⟨-, hstay⟩
  · rw [hidle] at hmove
    generalize (Driver.effect s.driver a).run c = q at hmove
    cases hmove
    simp [hsched c rfl] at hc
  · rw [hstay, hidle]

/-- The job that `rocket_job_run` has before its section has a domain. -/
theorem domain_of_lock (inv : Tracked n s) {c j : Nat} (h : s.driver.run c = .lock j) :
    s.driver.domain j ≠ none := by
  have hstarted := (inv.threaded.running c j (by rw [h]; rfl)).2.1
  refine inv.jobDomain j (.inl fun hout => ?_)
  rw [hout] at hstarted
  cases hstarted

theorem lock_of_publishes (h : s.admits a = true) {c j : Nat} (hpub : Driver.Publishes a c j) :
    s.driver.run c = .lock j := by
  cases hpub <;> exact (of_decide_eq_true h).1

/-- A core without its group stays detached and idle: a job can only be attached through
the group. -/
theorem driver_detached (inv : Removed n s) (h : enabled s (.driver a) = true) (c : Nat)
    (hc : (s.remove c).grouped = false) : (Driver.effect s.driver a).attached c = none ∧
      (Driver.effect s.driver a).inFlight c = none := by
  obtain ⟨hnone, hfly⟩ := inv.detached c hc
  obtain ⟨hstep, hgroup, -⟩ := enabled_driver.mp h
  have hnot : ∀ j, ¬ Driver.Publishes a c j := by
    intro j hpub
    have hlock := lock_of_publishes hstep hpub
    have hdomain := domain_of_lock inv.toTracked hlock
    have huses : usesGroup s.driver a = some c := by
      cases hpub <;> simp [usesGroup, hnone, Ne.symm hdomain]
    simp [hgroup c huses] at hc
  constructor
  · rcases Driver.attached_effect (s := s.driver) (a := a) c with hsame | ⟨hgone, -⟩ | ⟨j, hpub, -⟩
    · rw [hsame, hnone]
    · exact hgone
    · exact absurd hpub (hnot j)
  · rcases Driver.inFlight_effect (s := s.driver) (a := a) c with
      hsame | ⟨hgone, -⟩ | ⟨j, -, hpub⟩
    · rw [hsame, hfly]
    · exact hgone
    · exact absurd hpub (hnot j)

end Driver

section Step
variable {n : Nat} {s : State} {a : Action}

/-- A core that is not used before a step is not used after it. -/
theorem absent_effect (inv : Tracked n s) (h : enabled s a = true) {c : Nat} (hc : n ≤ c) :
    (effect s a).remove c = .released ∧ (effect s a).driver.inFlight c = none := by
  obtain ⟨hremove, hfly⟩ := inv.absent c hc
  constructor
  · rcases remove_effect h c with hmove | hstay
    · rw [hremove] at hmove
      cases hmove
    · rw [hstay, hremove]
  · cases a with
    | driver a =>
        have hstep := (enabled_driver.mp h).1
        rcases Driver.inFlight_effect (s := s.driver) (a := a) c with
          hsame | ⟨hgone, -⟩ | ⟨j, -, hpub⟩
        · exact hsame.trans hfly
        · exact hgone
        · have hlock := lock_of_publishes hstep hpub
          exact absurd hc (Nat.not_le.mpr (inv.lt_cores (.inl (by simp [hlock]))))
    | _ => exact hfly

theorem Tracked.step (inv : Tracked n s) (h : enabled s a = true) : Tracked n (effect s a) := by
  have absent : ∀ c, n ≤ c → (effect s a).remove c = .released ∧
      (effect s a).driver.inFlight c = none := fun c => absent_effect inv h
  cases a with
  | driver a =>
      have hstep := (enabled_driver.mp h).1
      exact {
        threaded := driver_threaded inv hstep
        jobDomain := driver_jobDomain inv hstep
        attachedGroup := Driver.keep_attachedGroup inv.attachedGroup
        counted := driver_counted inv hstep
        stopped := driver_stopped inv h
        absent := absent
        power := driver_power inv hstep }
  | powerOff c | uncount c =>
      refine ⟨threaded_of_same inv.threaded rfl, inv.jobDomain, inv.attachedGroup, inv.counted,
        fun k hk => ?_, absent, inv.power⟩
      exact inv.stopped k ((scheduled_before h hk).resolve_right (by simp))
  | groupPut c | release c =>
      refine ⟨inv.threaded, inv.jobDomain, inv.attachedGroup, inv.counted, fun k hk => ?_,
        absent, inv.power⟩
      exact inv.stopped k ((scheduled_before h hk).resolve_right (by simp))
  | schedFini c =>
      refine ⟨inv.threaded, inv.jobDomain, inv.attachedGroup, inv.counted, fun k hk => ?_,
        absent, inv.power⟩
      rcases scheduled_before h hk with hbefore | hfini
      · exact inv.stopped k hbefore
      · obtain rfl := Action.schedFini.inj hfini
        exact (of_decide_eq_true h).2.1

theorem Removed.step (inv : Removed n s) (h : enabled s a = true) (idle : RemovesIdle s a) :
    Removed n (effect s a) := by
  refine ⟨inv.toTracked.step h, fun c hc => ?_⟩
  cases a with
  | driver a => exact driver_detached inv h c hc
  | groupPut k =>
      rcases grouped_before h hc with hbefore | hput
      · exact inv.detached c hbefore
      · obtain rfl := Action.groupPut.inj hput
        exact idle
  | powerOff k | uncount k | schedFini k | release k =>
      exact inv.detached c ((grouped_before h hc).resolve_right (by simp))

end Step

theorem Removed.sound {n : Nat} {s : State} (inv : Removed n s) : RemovalSound s := by
  have clean : ∀ c, (s.remove c).scheduled = false → s.Clean c := by
    intro c hc
    have hgrouped : (s.remove c).grouped = false := by
      cases hr : s.remove c <;> rw [hr] at hc <;> first | rfl | cases hc
    obtain ⟨hattached, hfly⟩ := inv.detached c hgrouped
    refine ⟨(inv.attachedGroup c).symm.trans hattached, hattached, hfly, ?_⟩
    simpa [inv.stopped c hc, Driver.RunPc.holdsPower, hfly] using inv.counted c
  refine ⟨clean, fun c d hc hd => ?_⟩
  rw [(clean c hc).group] at hd
  cases hd

/-- In every run `pm_refcount` is what was taken for the jobs of the cores and not put. -/
theorem refcount_eq_taken {n : Nat} {acts : List Action} {s : State}
    (run : Runs removal (State.init n) acts s) :
    s.driver.pm.refcount + ∑ c ∈ Finset.range n, s.returned c =
      ∑ c ∈ Finset.range n, s.taken c := by
  have tracked : Tracked n s := by
    refine invariant (Tracked n) (fun s a t inv hstep => ?_) run (Tracked.initial n)
    obtain ⟨h, rfl⟩ := removal_eq_some.mp hstep
    exact inv.step h
  exact tracked.power

/-- In every run in which each core is detached and idle when its group is put, a removed
core is clean from the return of `rocket_core_fini` on. -/
theorem removal_sound_of_removesIdle {n : Nat} {acts : List Action}
    (idle : Along removal RemovesIdle (State.init n) acts) :
    Throughout removal RemovalSound (State.init n) acts := by
  refine throughout_of_along (Removed n) (fun s a t inv hidle h => ?_) (fun s inv => inv.sound) idle
    (Removed.initial n)
  obtain ⟨hen, rfl⟩ := removal_eq_some.mp h
  exact inv.step hen hidle

/-- Call 0 of file 0 on one core, from its start to its return. -/
def serveOne : List Driver.Action :=
  Driver.startOne ++ Driver.irqSteps 0 0 0x300#32 ++ .freeJob 0 0 :: .waitDone 0 ::
    Driver.returnSteps 0 none

/-- The close of file 0 while `n` cores are counted, at most one. -/
def closeOne (n : Nat) : List Driver.Action :=
  .close 0 :: (List.range n).map (fun k => .destroyEntity 0 k) ++ .destroyed 0 n ::
    (List.range n).map (fun k => .scan 0 k) ++ .scanned 0 n ::
    (List.range Driver.maxIommuDomains).map (fun i => .putSlot 0 i) ++
    [.closed 0 Driver.maxIommuDomains]

/-- `rocket_remove` of core 0. -/
def removeSteps : List Action :=
  [.powerOff 0, .groupPut 0, .schedFini 0, .uncount 0, .release 0]

/-- The client closes its file before the core is removed. -/
def closedFirst : List Action :=
  (serveOne ++ closeOne 1).map .driver ++ removeSteps

theorem closedFirst_accepted : ((exec removal (State.init 1) closedFirst).map fun s =>
    decide (s.remove 0 = .released ∧ s.taken 0 = 1)) = some true := by
  decide

theorem removal_sound_of_removesIdle_closedFirst : ∃ t,
    Runs removal (State.init 1) closedFirst t ∧ t.remove 0 = .released ∧ RemovalSound t := by
  obtain ⟨t, run, test⟩ := runs_of_test closedFirst_accepted
  refine ⟨t, run, (of_decide_eq_true test).1, ?_⟩
  have all := removal_sound_of_removesIdle (along_of_check
    (fun s a (h : decide (RemovesIdle s a) = true) => of_decide_eq_true h)
    (show check removal _ (State.init 1) closedFirst = true by decide))
  exact all.last run

/-- The core is removed after a job has run on it; then the client closes its file. -/
def removedFirst : List Action :=
  serveOne.map .driver ++ removeSteps ++ (closeOne 0).map .driver

theorem removedFirst_accepted : ((exec removal (State.init 1) removedFirst).map fun s =>
    decide (s.remove 0 = .released ∧ s.driver.group 0 = some 0 ∧ s.driver.live 0 = false)) =
      some true := by
  decide

/-- The domain of the last job is freed while it is attached to the removed core. -/
theorem attached_after_removal :
    ¬ ∀ acts t, Runs removal (State.init 1) acts t → RemovalSound t := by
  intro all
  obtain ⟨t, run, test⟩ := runs_of_test removedFirst_accepted
  obtain ⟨hremove, hgroup, hlive⟩ := of_decide_eq_true test
  have alive := (all removedFirst t run).alive 0 0 (by rw [hremove]; rfl) hgroup
  rw [hlive] at alive
  cases alive

end Rkopnu.Removal
