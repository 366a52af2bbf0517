import Rkopnu.Power
import Rkopnu.Foundation.Transition

/-!
# Probing and removing cores while jobs run

`rocket_probe` adds a core to the table that `rocket_device_pm_get` and its puts
loop over, and the first probe registers the DRM device: jobs can be in flight on
the cores bound so far while a later one is probed. The jobs are seen here through
the power unit alone, as any sequence of gets and puts. Gets and puts exclude each
other by `pm_lock`, which `rocket_probe` does not take: it can come between any two
rounds of their loops.

## Implementation notes

A device is named by its index among the platform devices. One probe or removal at a
time is at the table and `num_cores`. A get or put that is under way when the device
goes with its last core is cut off. `held` lists the devices on which the get that
serves the present users took a reference that has not been put; no code reads it.
-/

namespace Rkopnu.Probe

open Function (update)
open Transition Power

/-- Where `rocket_probe` and `rocket_remove` stand with a device. -/
inductive ProbePc
  | idle
  /-- The DRM device is there; before the slot is filled. -/
  | entered
  /-- The slot at `num_cores` is filled; before `num_cores++`. -/
  | filled
  /-- In `rocket_core_init`, before `pm_runtime_resume_and_get`. -/
  | counted
  /-- In `rocket_core_init`, before `dev_pm_opp_set_rate`. -/
  | resumed
  /-- `rocket_core_init` returned an error; before `num_cores--`. -/
  | failed
  /-- `rocket_core_init` returned 0. -/
  | bound
  /-- In `rocket_remove`, before `num_cores--`. -/
  | removing
  deriving DecidableEq, Repr

/-- Where the thread that holds `pm_lock` stands. -/
inductive UnitPc
  /-- Nobody holds `pm_lock`. -/
  | free
  /-- In `rocket_device_pm_resume_unit`, before its test of `i`. -/
  | resuming (i : Nat)
  /-- The loop over all cores is over; before `pm_refcount++`. -/
  | resumed
  /-- A core has failed to resume; `i` are still to be put. -/
  | unwinding (i : Nat)
  /-- `pm_refcount` has come to 0; before `rocket_device_pm_release_unit` reads `num_cores`. -/
  | dropped
  /-- In `rocket_device_pm_release_unit`, `i` cores are still to be put. -/
  | releasing (i : Nat)
  /-- In `rocket_device_pm_put_noidle`, before its test of `i`. -/
  | puttingNoidle (i : Nat)
  deriving DecidableEq, Repr

structure State where
  /-- `rdev` is not NULL. -/
  registered : Bool
  /-- `rdev->num_cores`. -/
  numCores : Nat
  /-- `rdev->cores[i].dev`. -/
  coreDev : Nat → Nat
  /-- A probe has filled its slot and not raised `num_cores` yet. -/
  filling : Bool
  pm : PowerUnit
  unit : UnitPc
  probe : Nat → ProbePc
  held : List Nat

/-- The module is loaded, no device is probed. -/
def State.init : State where
  registered := false
  numCores := 0
  coreDev := fun _ => 0
  filling := false
  pm := { refcount := 0, usage := fun _ => 0, warned := false }
  unit := .free
  probe := fun _ => .idle
  held := []

/-- The devices of the first `n` slots. -/
def State.slots (s : State) (n : Nat) : List Nat := (List.range n).map s.coreDev

/-- The devices of the loops over `num_cores`. -/
def State.devs (s : State) : List Nat := s.slots s.numCores

inductive Action
  /-- `rocket_device_init`, by the probe of device `d`. -/
  | deviceInit (d : Nat) (ok : Bool)
  /-- `rocket_probe` finds `rdev` set. -/
  | enter (d : Nat)
  /-- The slot at `num_cores` is filled. -/
  | fill (d : Nat)
  /-- `num_cores++`. -/
  | count (d : Nat)
  /-- `rocket_core_init` fails before it turns on runtime PM. -/
  | setupFail (d : Nat)
  /-- The probe-time `pm_runtime_resume_and_get`. -/
  | resume (d : Nat) (ok : Bool)
  /-- `dev_pm_opp_set_rate`. -/
  | rate (d : Nat) (ok : Bool)
  /-- `num_cores--` of a failed probe or of a removal. -/
  | uncount (d : Nat)
  /-- `rocket_remove` finds the core and takes it down. -/
  | remove (d : Nat)
  /-- `rocket_remove` does not find the core. -/
  | removeMissing (d : Nat)
  -- rocket_device_pm_get
  /-- `pm_lock` is taken; `pm_refcount` is raised unless it is 0. -/
  | pmGet
  /-- `pm_runtime_resume_and_get` of core `i`. -/
  | resumeCore (i : Nat) (ok : Bool)
  /-- The loop of `rocket_device_pm_resume_unit` finds no core `i`. -/
  | resumeOver (i : Nat)
  /-- `pm_refcount++` after the unit was resumed. -/
  | getReturns
  /-- Core `i` is put after a later one has failed to resume. -/
  | unwindCore (i : Nat)
  /-- The get fails. -/
  | getFails
  -- rocket_device_pm_put
  /-- `pm_lock` is taken and `pm_refcount` lowered. -/
  | pmPut
  /-- `rocket_device_pm_release_unit` reads `num_cores`. -/
  | releaseUnit
  /-- It puts core `i`. -/
  | releaseCore (i : Nat)
  | putReturns
  -- rocket_device_pm_put_noidle
  /-- `pm_lock` is taken and `pm_refcount` lowered. -/
  | pmPutNoidle
  /-- `pm_runtime_put_noidle` of core `i`. -/
  | noidleCore (i : Nat)
  /-- The loop finds no core `i`. -/
  | noidleReturns (i : Nat)
  deriving DecidableEq, Repr

/-- The step can be taken. -/
def enabled (s : State) : Action → Bool
  | .deviceInit d _ => decide (s.registered = false ∧ s.probe d = .idle)
  | .enter d => decide (s.registered = true ∧ s.probe d = .idle)
  | .fill d => decide (s.registered = true ∧ s.filling = false ∧ s.probe d = .entered)
  | .count d => decide (s.probe d = .filled)
  | .setupFail d | .resume d _ => decide (s.probe d = .counted)
  | .rate d _ => decide (s.probe d = .resumed)
  | .uncount d => decide ((s.probe d = .failed ∨ s.probe d = .removing) ∧ s.filling = false)
  | .remove d => decide (s.probe d = .bound ∧ d ∈ s.devs)
  | .removeMissing d => decide (s.probe d = .bound ∧ d ∉ s.devs)
  | .pmGet | .pmPut | .pmPutNoidle => decide (s.registered = true ∧ s.unit = .free)
  | .resumeCore i _ => decide (s.unit = .resuming i ∧ i < s.numCores)
  | .resumeOver i => decide (s.unit = .resuming i ∧ ¬ i < s.numCores)
  | .getReturns => decide (s.unit = .resumed)
  | .unwindCore i => decide (s.unit = .unwinding (i + 1))
  | .getFails => decide (s.unit = .unwinding 0)
  | .releaseUnit => decide (s.unit = .dropped)
  | .releaseCore i => decide (s.unit = .releasing (i + 1))
  | .putReturns => decide (s.unit = .releasing 0)
  | .noidleCore i => decide (s.unit = .puttingNoidle i ∧ i < s.numCores)
  | .noidleReturns i => decide (s.unit = .puttingNoidle i ∧ ¬ i < s.numCores)

namespace State
variable (s : State)

/-- `--pm_refcount`, with where the put goes on if it comes to 0. -/
def lower (next : UnitPc) : State :=
  if s.pm.refcount = 0 then { s with pm := { s.pm with warned := true } }
  else { s with
    pm := { s.pm with refcount := s.pm.refcount - 1 }
    unit := if s.pm.refcount - 1 = 0 then next else .free }

/-- The put of a core by the thread that holds `pm_lock`. -/
def putCore (i : Nat) (next : UnitPc) : State :=
  { s with
    pm := { s.pm with usage := put s.pm.usage (s.coreDev i) }
    unit := next
    held := s.held.erase (s.coreDev i) }

/-- `pm_lock` is released with the unit unused. -/
def unlockUnused : State := { s with unit := .free, held := [] }

end State

/-- What the step does. -/
def effect (s : State) : Action → State
  -- the unit's counter is new with the device, the usage counts are not
  | .deviceInit d ok =>
      if ok then { s with
        registered := true
        numCores := 0
        filling := false
        pm := { s.pm with refcount := 0 }
        unit := .free
        probe := update s.probe d .entered
        held := [] }
      else s
  | .enter d => { s with probe := update s.probe d .entered }
  | .fill d => { s with
      coreDev := update s.coreDev s.numCores d
      filling := true
      probe := update s.probe d .filled }
  | .count d => { s with
      numCores := s.numCores + 1
      filling := false
      probe := update s.probe d .counted }
  | .setupFail d => { s with probe := update s.probe d .failed }
  -- both error paths end in the put of rocket_core_fini
  | .resume d ok =>
      if ok then { s with
        pm := { s.pm with usage := resumeAndGet s.pm.usage d }
        probe := update s.probe d .resumed }
      else { s with
        pm := { s.pm with usage := put s.pm.usage d }
        probe := update s.probe d .failed }
  | .rate d ok =>
      if ok then { s with probe := update s.probe d .bound }
      else { s with
        pm := { s.pm with usage := put (put s.pm.usage d) d }
        probe := update s.probe d .failed }
  | .uncount d => { s with
      numCores := s.numCores - 1
      registered := decide (s.numCores - 1 ≠ 0)
      probe := update s.probe d .idle }
  | .remove d => { s with
      pm := { s.pm with usage := put s.pm.usage d }
      probe := update s.probe d .removing }
  | .removeMissing d => { s with probe := update s.probe d .idle }
  | .pmGet =>
      if s.pm.refcount = 0 then { s with unit := .resuming 0 }
      else { s with pm := { s.pm with refcount := s.pm.refcount + 1 } }
  | .resumeCore i ok =>
      if ok then { s with
        pm := { s.pm with usage := resumeAndGet s.pm.usage (s.coreDev i) }
        unit := .resuming (i + 1)
        held := s.held ++ [s.coreDev i] }
      else { s with unit := .unwinding i }
  | .resumeOver _ => { s with unit := .resumed }
  | .getReturns => { s with
      pm := { s.pm with refcount := s.pm.refcount + 1 }
      unit := .free }
  | .unwindCore i => s.putCore i (.unwinding i)
  | .pmPut => s.lower .dropped
  | .releaseUnit => { s with unit := .releasing s.numCores }
  | .releaseCore i => s.putCore i (.releasing i)
  | .pmPutNoidle => s.lower (.puttingNoidle 0)
  | .noidleCore i => s.putCore i (.puttingNoidle (i + 1))
  | .getFails | .putReturns | .noidleReturns _ => s.unlockUnused

/-- Probes, removals and the users of the power unit as a transition system. -/
def probing : System State Action := fun s a =>
  if enabled s a then some (effect s a) else none

theorem probing_eq_some {s t : State} {a : Action} :
    probing s a = some t ↔ enabled s a = true ∧ effect s a = t := by
  unfold probing
  split <;> simp_all

/-- The device has been counted and neither failed nor been removed. -/
def ProbePc.tracked : ProbePc → Bool
  | .counted | .resumed | .bound => true
  | _ => false

/-- The references `rocket_core_init` itself has taken. -/
def ProbePc.own : ProbePc → Nat
  | .resumed | .bound => 1
  | _ => 0

namespace State
variable (s : State)

/-- The device that the thread with `pm_lock` is about to put. -/
def puts : Option Nat :=
  match s.unit with
  | .unwinding (i + 1) | .releasing (i + 1) => some (s.coreDev i)
  | .puttingNoidle i => if i < s.numCores then some (s.coreDev i) else none
  | _ => none

/-- Every bound core keeps a usage count, and a release of the unit puts only cores on which
the matching get has taken a reference that is not put yet. -/
def NeverGated : Prop :=
  (∀ d, s.probe d = .bound → 1 ≤ s.pm.usage d) ∧ ∀ d, s.puts = some d → d ∈ s.held

/-- The devices that a get or put under way is still going to put, or the next release
will. -/
def due : List Nat :=
  match s.unit with
  | .free => if 0 < s.pm.refcount then s.devs else []
  | .resuming i | .unwinding i | .releasing i => s.slots i
  | .resumed | .dropped => s.devs
  | .puttingNoidle i => s.devs.drop i

/-- The counts of every core in the table cover its own reference and what the unit holds,
and the unit holds what it is going to put. -/
structure Covered : Prop where
  usage : ∀ d, (s.probe d).tracked = true → (s.probe d).own + s.held.count d ≤ s.pm.usage d
  due : ∀ d, s.due.count d ≤ s.held.count d
  busy : s.unit ≠ .free → s.pm.refcount = 0
  unused : s.unit = .free → s.pm.refcount = 0 → s.held = []

end State

/-- No slot is filled while a get or put is under way, and `num_cores` is not raised then or
while the unit is in use. -/
def CountsIdle (s : State) : Action → Prop
  | .fill _ => s.unit = .free
  | .count _ => s.unit = .free ∧ s.pm.refcount = 0
  | _ => True

instance (s : State) (a : Action) : Decidable (CountsIdle s a) := by
  cases a with
  | fill d => exact inferInstanceAs (Decidable (s.unit = .free))
  | count d => exact inferInstanceAs (Decidable (s.unit = .free ∧ s.pm.refcount = 0))
  | _ => exact isTrue trivial

section Preserve
variable {s t : State} {a : Action}

theorem count_slots_succ (s : State) (i d : Nat) :
    (s.slots (i + 1)).count d = (s.slots i).count d + [s.coreDev i].count d := by
  simp [State.slots, List.range_succ]

theorem drop_devs {i : Nat} (h : i < s.numCores) :
    s.devs.drop i = s.coreDev i :: s.devs.drop (i + 1) := by
  rw [List.drop_eq_getElem_cons (by simpa [State.devs, State.slots] using h)]
  simp [State.devs, State.slots]

/-- The first slots are some of all that a longer table has. -/
theorem count_slots_le (s : State) {m n : Nat} (h : m ≤ n) (d : Nat) :
    (s.slots m).count d ≤ (s.slots n).count d :=
  List.Sublist.count_le d (List.Sublist.map s.coreDev (List.range_sublist.mpr h))

/-- Lowering `num_cores` leaves less to put. -/
theorem count_due_uncount (hcore : t.coreDev = s.coreDev) (hunit : t.unit = s.unit)
    (href : t.pm.refcount = s.pm.refcount) (hnum : t.numCores ≤ s.numCores) (d : Nat) :
    t.due.count d ≤ s.due.count d := by
  have hslots : ∀ n, t.slots n = s.slots n := fun n => by rw [State.slots, State.slots, hcore]
  have hdevs : t.devs.Sublist s.devs := by
    rw [State.devs, hslots]
    exact List.Sublist.map s.coreDev (List.range_sublist.mpr hnum)
  unfold State.due
  rw [hunit, href]
  cases s.unit with
  | free =>
      dsimp only
      split
      · exact hdevs.count_le d
      · exact Nat.le_refl _
  | resuming i | unwinding i | releasing i => exact Nat.le_of_eq (congrArg (List.count d) (hslots i))
  | resumed | dropped => exact hdevs.count_le d
  | puttingNoidle i => exact (hdevs.drop i).count_le d

/-- A step about one device that leaves the unit alone and does not lengthen the table. -/
theorem State.Covered.change (inv : s.Covered) {d : Nat} (hcore : t.coreDev = s.coreDev)
    (hunit : t.unit = s.unit) (href : t.pm.refcount = s.pm.refcount) (hheld : t.held = s.held)
    (hnum : t.numCores ≤ s.numCores)
    (hother : ∀ e, e ≠ d → t.probe e = s.probe e ∧ t.pm.usage e = s.pm.usage e)
    (hself : (t.probe d).tracked = true →
      (t.probe d).own + s.held.count d ≤ t.pm.usage d) : t.Covered where
  usage e he := by
    rw [hheld]
    by_cases hed : e = d
    · subst hed
      exact hself he
    · obtain ⟨hprobe, husage⟩ := hother e hed
      rw [hprobe] at he ⊢
      rw [husage]
      exact inv.usage e he
  due e := by
    rw [hheld]
    exact Nat.le_trans (count_due_uncount hcore hunit href hnum e) (inv.due e)
  busy := by
    rw [hunit, href]
    exact inv.busy
  unused := by
    rw [hunit, href, hheld]
    exact inv.unused

/-- A device that goes on without a reference, in a table that is not longer. -/
theorem State.Covered.leave (inv : s.Covered) {d n : Nat} {p : ProbePc} {usage : Nat → Nat}
    {r : Bool} (hp : p.tracked = false) (husage : ∀ e, e ≠ d → usage e = s.pm.usage e)
    (hnum : n ≤ s.numCores) :
    { s with
      registered := r
      numCores := n
      pm := { s.pm with usage := usage }
      probe := update s.probe d p }.Covered := by
  refine inv.change (d := d) rfl rfl rfl rfl hnum (fun e he => ⟨?_, husage e he⟩) ?_
  · exact Function.update_of_ne he _ _
  · simp [hp]

/-- The reference of the probe, or the put of its error path. -/
theorem covered_resume (inv : s.Covered) {d : Nat} (hcounted : s.probe d = .counted) (up : Bool) :
    (effect s (.resume d up)).Covered := by
  have hkeep := inv.usage d (by simp [hcounted, ProbePc.tracked])
  cases up with
  | false => exact inv.leave rfl (fun e he => by simp [put, he]) (Nat.le_refl _)
  | true =>
      refine inv.change (d := d) rfl rfl rfl rfl (Nat.le_refl _) (fun e he => ?_) ?_
      · simp [effect, resumeAndGet, he]
      · simp [effect, resumeAndGet, hcounted, ProbePc.own] at hkeep ⊢
        omega

/-- The reference stays, or is put twice. -/
theorem covered_rate (inv : s.Covered) {d : Nat} (hresumed : s.probe d = .resumed) (up : Bool) :
    (effect s (.rate d up)).Covered := by
  have hkeep := inv.usage d (by simp [hresumed, ProbePc.tracked])
  cases up with
  | false => exact inv.leave rfl (fun e he => by simp [put, he]) (Nat.le_refl _)
  | true =>
      refine inv.change (d := d) rfl rfl rfl rfl (Nat.le_refl _) (fun e he => ?_) ?_
      · simp [effect, he]
      · simpa [effect, hresumed, ProbePc.own] using fun _ => hkeep

/-- A put under `pm_lock` drops a reference that the get has taken. -/
theorem State.Covered.putCore (inv : s.Covered) {i : Nat} {next : UnitPc}
    (hdue : ∀ d, (s.putCore i next).due.count d + [s.coreDev i].count d ≤ s.due.count d)
    (hbusy : s.unit ≠ .free) (hnext : next ≠ .free) : (s.putCore i next).Covered where
  usage d hd := by
    have hkeep := inv.usage d hd
    have hone := Nat.le_trans (hdue d) (inv.due d)
    rw [List.count_singleton] at hone
    change (s.probe d).own + (s.held.erase (s.coreDev i)).count d ≤ put s.pm.usage (s.coreDev i) d
    rw [List.count_erase]
    by_cases hdi : s.coreDev i = d
    · subst hdi
      simp only [beq_self_eq_true, if_true, put, Function.update_self] at hone ⊢
      omega
    · simpa [put, Function.update_of_ne (Ne.symm hdi), hdi] using hkeep
  due d := by
    have hone := Nat.le_trans (hdue d) (inv.due d)
    rw [List.count_singleton] at hone
    change _ ≤ (s.held.erase (s.coreDev i)).count d
    rw [List.count_erase]
    split <;> simp_all
    omega
  busy _ := inv.busy hbusy
  unused h := absurd h hnext

/-- A call that goes on to another point with what it has. -/
theorem State.Covered.goOn (inv : s.Covered) (hprobe : t.probe = s.probe)
    (husage : t.pm.usage = s.pm.usage) (hheld : t.held = s.held)
    (hdue : ∀ d, t.due.count d ≤ s.due.count d)
    (hbusy : t.unit ≠ .free → t.pm.refcount = 0)
    (hused : t.unit = .free → t.pm.refcount ≠ 0) : t.Covered where
  usage d hd := by
    rw [hprobe] at hd ⊢
    rw [husage, hheld]
    exact inv.usage d hd
  due d := by
    rw [hheld]
    exact Nat.le_trans (hdue d) (inv.due d)
  busy := hbusy
  unused h hzero := absurd hzero (hused h)

/-- `pm_lock` is released with nothing more to put. -/
theorem State.Covered.unlockUnused (inv : s.Covered) (hbusy : s.unit ≠ .free) :
    s.unlockUnused.Covered where
  usage d hd := by
    have hkeep := inv.usage d hd
    change (s.probe d).own + ([] : List Nat).count d ≤ s.pm.usage d
    rw [List.count_nil]
    omega
  due d := by simp [State.unlockUnused, State.due, inv.busy hbusy]
  busy h := absurd rfl h
  unused _ _ := rfl

/-- A put of the unit: the last user leaves what the get has taken to the release. -/
theorem State.Covered.lower (inv : s.Covered) (hfree : s.unit = .free) {next : UnitPc}
    (hnext : next ≠ .free) (hdue : { s with unit := next }.due = s.devs) :
    (s.lower next).Covered := by
  unfold State.lower
  split
  · exact ⟨inv.usage, inv.due, inv.busy, inv.unused⟩
  · rename_i hused
    have hdevs : s.due = s.devs := by simp [State.due, hfree, Nat.pos_of_ne_zero hused]
    by_cases hlast : s.pm.refcount - 1 = 0
    · rw [if_pos hlast]
      refine inv.goOn rfl rfl rfl (fun d => ?_) (fun _ => hlast) (fun h => absurd h hnext)
      rw [hdevs, ← hdue]
      exact Nat.le_of_eq (by cases next <;> first | rfl | exact absurd rfl hnext)
    · rw [if_neg hlast]
      refine inv.goOn rfl rfl rfl (fun d => ?_) (fun h => absurd rfl h) (fun _ => hlast)
      rw [hdevs]
      exact Nat.le_of_eq (by simp [State.due, State.devs, State.slots, Nat.pos_of_ne_zero hlast])

/-- The get holds every core that it has resumed, or is about to put them again. -/
theorem covered_resumeCore (inv : s.Covered) {i : Nat} (hunit : s.unit = .resuming i) (up : Bool) :
    (effect s (.resumeCore i up)).Covered := by
  have hbusy := inv.busy (by simp [hunit])
  have hdue := inv.due
  simp only [State.due, hunit] at hdue
  cases up with
  | false =>
      refine inv.goOn rfl rfl rfl (fun d => ?_) (fun _ => hbusy) (fun h => by cases h)
      simp [State.due, hunit, effect, State.slots]
  | true =>
      refine ⟨fun d hd => ?_, fun d => ?_, fun _ => hbusy, fun h => by cases h⟩
      · have hkeep := inv.usage d hd
        change _ + (s.held ++ [s.coreDev i]).count d ≤ resumeAndGet s.pm.usage (s.coreDev i) d
        rw [resumeAndGet_apply, List.count_append]
        exact Nat.le_trans (Nat.le_of_eq (Nat.add_assoc _ _ _).symm) (Nat.add_le_add_right hkeep _)
      · change (s.slots (i + 1)).count d ≤ (s.held ++ [s.coreDev i]).count d
        rw [count_slots_succ, List.count_append]
        exact Nat.add_le_add_right (hdue d) _

/-- A new device has no users and no cores. -/
theorem covered_deviceInit (inv : s.Covered) (d : Nat) (up : Bool) :
    (effect s (.deviceInit d up)).Covered := by
  cases up with
  | false => exact inv
  | true =>
      refine ⟨fun e he => ?_, fun e => Nat.le_refl _, fun h => absurd rfl h, fun _ _ => rfl⟩
      by_cases hed : e = d
      · simp [effect, hed, ProbePc.tracked] at he
      · have hprobe : (effect s (.deviceInit d true)).probe e = s.probe e := by
          simp [effect, hed]
        have hkeep := inv.usage e (hprobe ▸ he)
        rw [hprobe]
        change (s.probe e).own + 0 ≤ s.pm.usage e
        omega

/-- A slot beyond the table is not looked at when no loop is under way. -/
theorem covered_fill (inv : s.Covered) (hfree : s.unit = .free) (d : Nat) :
    (effect s (.fill d)).Covered := by
  have hdevs : (effect s (.fill d)).devs = s.devs := by
    refine List.map_congr_left fun i hi => ?_
    exact Function.update_of_ne (Nat.ne_of_lt (List.mem_range.mp hi)) _ _
  refine ⟨fun e he => ?_, fun e => ?_, inv.busy, inv.unused⟩
  · by_cases hed : e = d
    · simp [effect, hed, ProbePc.tracked] at he
    · have hprobe : (effect s (.fill d)).probe e = s.probe e := by simp [effect, hed]
      rw [hprobe] at he ⊢
      exact inv.usage e he
  · have hsame : (effect s (.fill d)).due = s.due := by
      have hunit : (effect s (.fill d)).unit = .free := hfree
      simp only [State.due, hunit, hfree, hdevs]
      rfl
    rw [hsame]
    exact inv.due e

/-- A core that is counted while the unit is unused is not held. -/
theorem covered_count (inv : s.Covered) (hidle : s.unit = .free ∧ s.pm.refcount = 0) (d : Nat) :
    (effect s (.count d)).Covered := by
  have hnone := inv.unused hidle.1 hidle.2
  refine ⟨fun e he => ?_, fun e => ?_, inv.busy, inv.unused⟩
  · change _ + s.held.count e ≤ s.pm.usage e
    rw [hnone, List.count_nil]
    by_cases hed : e = d
    · simp [effect, hed, ProbePc.own]
    · have hprobe : (effect s (.count d)).probe e = s.probe e := by simp [effect, hed]
      rw [hprobe] at he ⊢
      exact Nat.le_trans (Nat.le_add_right _ _) (inv.usage e he)
  · simp [effect, State.due, hidle.1, hidle.2]

theorem State.Covered.preserve (inv : s.Covered) (h : enabled s a = true)
    (ok : CountsIdle s a) : (effect s a).Covered := by
  cases a with
  | deviceInit d up => exact covered_deviceInit inv d up
  | fill d => exact covered_fill inv ok d
  | count d => exact covered_count inv ok d
  | enter d | setupFail d | removeMissing d =>
      exact inv.leave rfl (fun _ _ => rfl) (Nat.le_refl _)
  | uncount d => exact inv.leave rfl (fun _ _ => rfl) (Nat.sub_le _ _)
  | remove d => exact inv.leave rfl (fun e he => by simp [put, he]) (Nat.le_refl _)
  | resume d up => exact covered_resume inv (of_decide_eq_true h) up
  | rate d up => exact covered_rate inv (of_decide_eq_true h) up
  | pmGet =>
      obtain ⟨-, hfree⟩ : s.registered = true ∧ s.unit = .free := of_decide_eq_true h
      simp only [effect]
      split
      · rename_i hzero
        exact inv.goOn rfl rfl rfl (fun d => by simp [State.due, State.slots])
          (fun _ => hzero) (fun h => by cases h)
      · rename_i hused
        refine inv.goOn rfl rfl rfl (fun d => ?_) (fun h => absurd hfree h)
          (fun _ => Nat.succ_ne_zero _)
        simp [State.due, hfree, Nat.pos_of_ne_zero hused, State.devs, State.slots]
  | resumeCore i up => exact covered_resumeCore inv (of_decide_eq_true h).1 up
  | resumeOver i =>
      obtain ⟨hunit, hlast⟩ : s.unit = .resuming i ∧ ¬ i < s.numCores := of_decide_eq_true h
      refine inv.goOn rfl rfl rfl (fun d => ?_) (fun _ => inv.busy (by simp [hunit]))
        (fun h => by cases h)
      simp only [State.due, hunit, effect]
      exact count_slots_le s (Nat.not_lt.mp hlast) d
  | getReturns =>
      have hunit : s.unit = .resumed := of_decide_eq_true h
      refine inv.goOn rfl rfl rfl (fun d => ?_) (fun h => absurd rfl h)
        (fun _ => Nat.succ_ne_zero _)
      simp [State.due, hunit, effect, State.devs, State.slots]
  | unwindCore i =>
      have hunit : s.unit = .unwinding (i + 1) := of_decide_eq_true h
      refine inv.putCore (fun d => ?_) (by simp [hunit]) (by simp)
      simp only [State.due, hunit]
      exact Nat.le_of_eq (count_slots_succ s i d).symm
  | releaseCore i =>
      have hunit : s.unit = .releasing (i + 1) := of_decide_eq_true h
      refine inv.putCore (fun d => ?_) (by simp [hunit]) (by simp)
      simp only [State.due, hunit]
      exact Nat.le_of_eq (count_slots_succ s i d).symm
  | noidleCore i =>
      obtain ⟨hunit, hlt⟩ : s.unit = .puttingNoidle i ∧ i < s.numCores := of_decide_eq_true h
      refine inv.putCore (fun d => ?_) (by simp [hunit]) (by simp)
      have hcons : s.due.count d = (s.devs.drop (i + 1)).count d + [s.coreDev i].count d := by
        simp [State.due, hunit, drop_devs hlt, List.count_cons]
      exact Nat.le_of_eq hcons.symm
  | pmPut =>
      exact inv.lower (of_decide_eq_true h).2 (by simp) rfl
  | pmPutNoidle =>
      exact inv.lower (of_decide_eq_true h).2 (by simp) rfl
  | releaseUnit =>
      have hunit : s.unit = .dropped := of_decide_eq_true h
      refine inv.goOn rfl rfl rfl (fun d => ?_) (fun _ => inv.busy (by simp [hunit]))
        (fun h => by cases h)
      simp [State.due, hunit, effect, State.devs, State.slots]
  | getFails =>
      have hunit : s.unit = .unwinding 0 := of_decide_eq_true h
      exact inv.unlockUnused (by simp [hunit])
  | putReturns =>
      have hunit : s.unit = .releasing 0 := of_decide_eq_true h
      exact inv.unlockUnused (by simp [hunit])
  | noidleReturns i =>
      exact inv.unlockUnused (by simp [(of_decide_eq_true h).1])

theorem State.Covered.neverGated (inv : s.Covered) : s.NeverGated := by
  constructor
  · intro d hd
    have hkeep := inv.usage d (by simp [hd, ProbePc.tracked])
    simp only [hd, ProbePc.own] at hkeep
    omega
  · intro d hd
    suffices hmem : d ∈ s.due from
      List.count_pos_iff.mp (Nat.lt_of_lt_of_le (List.count_pos_iff.mpr hmem) (inv.due d))
    unfold State.puts at hd
    split at hd
    · rename_i i hunit
      obtain rfl := Option.some.inj hd
      simp only [State.due, hunit]
      exact List.mem_map_of_mem (List.mem_range.mpr (Nat.lt_succ_self i))
    · rename_i i hunit
      obtain rfl := Option.some.inj hd
      simp only [State.due, hunit]
      exact List.mem_map_of_mem (List.mem_range.mpr (Nat.lt_succ_self i))
    · rename_i i hunit
      split at hd
      · rename_i hlt
        obtain rfl := Option.some.inj hd
        simp [State.due, hunit, drop_devs hlt]
      · cases hd
    · cases hd

end Preserve

theorem covered_init : State.init.Covered where
  usage d hd := by simp [State.init, ProbePc.tracked] at hd
  due _ := Nat.le_refl _
  busy h := absurd rfl h
  unused _ _ := rfl

/-- As long as no probe fills a slot while a get or put of the unit is under way, and none
raises `num_cores` then or while the unit is in use, no bound core is ever without a
reference, and a release takes back what the get has taken. -/
theorem neverGated_of_countsIdle {acts : List Action}
    (along : Along probing CountsIdle State.init acts) :
    Throughout probing State.NeverGated State.init acts := by
  refine throughout_of_along State.Covered ?_ (fun s => State.Covered.neverGated) along
    covered_init
  intro s a t inv ok hstep
  obtain ⟨h, rfl⟩ := probing_eq_some.mp hstep
  exact inv.preserve h ok

/-- `rocket_probe` of device `d` from its slot to its return. -/
def probeSteps (d : Nat) : List Action :=
  [.fill d, .count d, .resume d true, .rate d true]

/-- A get that resumes `n` cores. -/
def getSteps (n : Nat) : List Action :=
  .pmGet :: (List.range n).map (fun i => .resumeCore i true) ++ [.resumeOver n, .getReturns]

/-- The put of the last user, over `n` cores. -/
def putSteps (n : Nat) : List Action :=
  [.pmPut, .releaseUnit] ++ (List.range n).reverse.map (fun i => .releaseCore i) ++ [.putReturns]

/-- Core 1 is probed while a job is in flight on core 0. -/
def lateProbeSteps : List Action :=
  .deviceInit 0 true :: probeSteps 0 ++ getSteps 1 ++ .enter 1 :: probeSteps 1 ++ putSteps 2

theorem lateProbeSteps_accepted :
    ((exec probing State.init lateProbeSteps).map fun s =>
      decide (s.probe 1 = .bound ∧ s.pm.usage 1 = 0)) = some true := by
  decide

/-- The release after the job takes back core 1's never-gate reference. -/
theorem late_core_gated : ¬ ∀ s, Runs probing State.init lateProbeSteps s → s.NeverGated := by
  intro all
  obtain ⟨s, run, test⟩ := runs_of_test lateProbeSteps_accepted
  obtain ⟨hbound, husage⟩ := of_decide_eq_true test
  have := (all s run).1 1 hbound
  omega

/-- Core 1 is probed between a job on core 0 and the next one. -/
def earlyProbeSteps : List Action :=
  .deviceInit 0 true :: probeSteps 0 ++ getSteps 1 ++ putSteps 1 ++ .enter 1 :: probeSteps 1 ++
    getSteps 2 ++ putSteps 2

theorem earlyProbeSteps_accepted :
    ((exec probing State.init earlyProbeSteps).map fun s =>
      decide (s.probe 1 = .bound ∧ s.pm.usage 1 = 1)) = some true := by
  decide

theorem neverGated_of_countsIdle_on_earlyProbeSteps :
    (∃ s, Runs probing State.init earlyProbeSteps s) ∧
      Throughout probing State.NeverGated State.init earlyProbeSteps := by
  obtain ⟨s, run, -⟩ := runs_of_test earlyProbeSteps_accepted
  exact ⟨⟨s, run⟩, neverGated_of_countsIdle (along_of_decide (by decide))⟩

/-! ## Calls that nothing comes in between -/

/-- The rounds of a loop that puts the first `n` cores, last one first, and what ends it. -/
def downSteps (core : Nat → Action) (last : Action) : Nat → List Action
  | 0 => [last]
  | i + 1 => core i :: downSteps core last i

/-- The rounds of `rocket_device_pm_resume_unit` from core `i` on; `resume` answers each
resume attempt. -/
def resumeSteps (resume : Nat → Bool) (i : Nat) : List Nat → List Action
  | [] => [.resumeOver i, .getReturns]
  | dev :: rest =>
      if resume dev then .resumeCore i true :: resumeSteps resume (i + 1) rest
      else .resumeCore i false :: downSteps .unwindCore .getFails i

/-- The rounds of `rocket_device_pm_put_noidle` from core `i` on. -/
def noidleSteps (i : Nat) : List Nat → List Action
  | [] => [.noidleReturns i]
  | _ :: rest => .noidleCore i :: noidleSteps (i + 1) rest

/-- A call of `rocket_device_pm_get` that nothing comes in between. -/
def State.getCall (s : State) (resume : Nat → Bool) : List Action :=
  .pmGet :: if s.pm.refcount = 0 then resumeSteps resume 0 s.devs else []

/-- A call of `rocket_device_pm_put` that nothing comes in between. -/
def State.putCall (s : State) : List Action :=
  .pmPut :: if s.pm.refcount = 1
    then .releaseUnit :: downSteps .releaseCore .putReturns s.numCores else []

/-- A call of `rocket_device_pm_put_noidle` that nothing comes in between. -/
def State.noidleCall (s : State) : List Action :=
  .pmPutNoidle :: if s.pm.refcount = 1 then noidleSteps 0 s.devs else []

section Calls
variable {s : State}

/-- A call that has ended with these counts. -/
def State.settle (s : State) (usage : Nat → Nat) (held : List Nat) : State :=
  { s with pm := { s.pm with usage := usage }, unit := .free, held := held }

theorem runs_cons_of {a : Action} {acts : List Action} {t : State} (h : enabled s a = true)
    (rest : Runs probing (effect s a) acts t) : Runs probing s (a :: acts) t :=
  runs_cons.mpr ⟨_, probing_eq_some.mpr ⟨h, rfl⟩, rest⟩

theorem slots_reverse (s : State) (i : Nat) :
    (s.slots (i + 1)).reverse = s.coreDev i :: (s.slots i).reverse := by
  simp [State.slots, List.range_succ]

theorem lt_of_drop {i dev : Nat} {rest : List Nat} (h : s.devs.drop i = dev :: rest) :
    i < s.numCores ∧ dev = s.coreDev i ∧ s.devs.drop (i + 1) = rest := by
  have hlt : i < s.numCores := by
    by_contra hge
    rw [List.drop_eq_nil_of_le (by simpa [State.devs, State.slots] using hge)] at h
    cases h
  rw [drop_devs hlt] at h
  obtain ⟨hdev, hrest⟩ := List.cons.inj h
  exact ⟨hlt, hdev.symm, hrest⟩

theorem le_of_drop {i : Nat} (h : s.devs.drop i = []) : ¬ i < s.numCores := by
  intro hlt
  rw [drop_devs hlt] at h
  cases h

/-- The loops that put the cores from some core on down. -/
theorem runs_down (pc : Nat → UnitPc) (core : Nat → Action) (last : Action)
    (hcore : ∀ s i, s.unit = pc (i + 1) →
      enabled s (core i) = true ∧ effect s (core i) = s.putCore i (pc i))
    (hlast : ∀ s, s.unit = pc 0 → enabled s last = true ∧ effect s last = s.unlockUnused)
    {i : Nat} (hunit : s.unit = pc i) :
    Runs probing s (downSteps core last i)
      (s.settle (putAll s.pm.usage (s.slots i).reverse) []) := by
  induction i generalizing s with
  | zero =>
      obtain ⟨hen, heff⟩ := hlast s hunit
      exact runs_single.mpr (probing_eq_some.mpr ⟨hen, heff⟩)
  | succ i ih =>
      obtain ⟨hen, heff⟩ := hcore s i hunit
      refine runs_cons_of hen ?_
      rw [heff, slots_reverse]
      exact ih (s := s.putCore i (pc i)) rfl

theorem runs_noidle {i : Nat} {todo : List Nat} (hunit : s.unit = .puttingNoidle i)
    (htodo : s.devs.drop i = todo) :
    Runs probing s (noidleSteps i todo) (s.settle (putAll s.pm.usage todo) []) := by
  induction todo generalizing s i with
  | nil =>
      refine runs_cons_of (decide_eq_true ⟨hunit, le_of_drop htodo⟩) (runs_nil.mpr rfl)
  | cons dev rest ih =>
      obtain ⟨hlt, rfl, hrest⟩ := lt_of_drop htodo
      refine runs_cons_of (decide_eq_true ⟨hunit, hlt⟩) ?_
      exact ih (s := s.putCore i (.puttingNoidle (i + 1))) rfl hrest

/-- The loop of `rocket_device_pm_resume_unit` does what the fold over the table does. -/
theorem runs_resume {resume : Nat → Bool} {i : Nat} {todo : List Nat} {ok : Bool}
    {usage : Nat → Nat} (hunit : s.unit = .resuming i) (htodo : s.devs.drop i = todo)
    (hheld : s.held = s.slots i) (hle : i ≤ s.numCores)
    (hloop : resumeLoop resume (s.slots i).reverse s.pm.usage todo = (ok, usage)) :
    Runs probing s (resumeSteps resume i todo)
      { s.settle usage (if ok then s.devs else []) with
        pm := { s.pm with refcount := s.pm.refcount + ok.toNat, usage := usage } } := by
  induction todo generalizing s i with
  | nil =>
      have hlast := le_of_drop htodo
      obtain rfl : i = s.numCores := by omega
      obtain ⟨rfl, rfl⟩ : true = ok ∧ s.pm.usage = usage := Prod.mk.inj hloop
      refine runs_cons_of (decide_eq_true ⟨hunit, hlast⟩) (runs_cons_of rfl (runs_nil.mpr ?_))
      simp [effect, State.settle, hheld, State.devs]
  | cons dev rest ih =>
      obtain ⟨hlt, rfl, hrest⟩ := lt_of_drop htodo
      cases hr : resume (s.coreDev i) with
      | true =>
          simp only [resumeSteps, hr, if_true, resumeLoop] at hloop ⊢
          refine runs_cons_of (decide_eq_true ⟨hunit, hlt⟩) ?_
          refine ih (s := effect s (.resumeCore i true)) (i := i + 1) rfl hrest ?_ hlt ?_
          · simp [effect, hheld, State.slots, List.range_succ]
          · have hslots : (effect s (.resumeCore i true)).slots (i + 1) = s.slots (i + 1) := rfl
            rw [hslots, slots_reverse]
            exact hloop
      | false =>
          simp only [resumeSteps, hr, Bool.false_eq_true, if_false, resumeLoop] at hloop ⊢
          obtain ⟨rfl, rfl⟩ := Prod.mk.inj hloop
          refine runs_cons_of (decide_eq_true ⟨hunit, hlt⟩) ?_
          exact runs_down .unwinding .unwindCore .getFails
            (s := effect s (.resumeCore i false)) (fun s i h => ⟨decide_eq_true h, rfl⟩)
            (fun s h => ⟨decide_eq_true h, rfl⟩) rfl

/-- A get that nothing comes in between is `rocketDevicePmGet` on the table. -/
theorem runs_getCall (hreg : s.registered = true) (hfree : s.unit = .free)
    (hnone : s.pm.refcount = 0 → s.held = []) (resume : Nat → Bool) :
    Runs probing s (s.getCall resume) { s with
      unit := .free
      pm := (rocketDevicePmGet s.devs resume s.pm).2
      held := if s.pm.refcount = 0 ∧ (rocketDevicePmGet s.devs resume s.pm).1 = true
        then s.devs else s.held } := by
  refine runs_cons_of (decide_eq_true ⟨hreg, hfree⟩) ?_
  by_cases hzero : s.pm.refcount = 0
  · have hgo : effect s .pmGet = { s with unit := .resuming 0 } := by simp [effect, hzero]
    rw [hgo, if_pos hzero]
    rcases hr : resumeLoop resume [] s.pm.usage s.devs with ⟨ok, usage⟩
    have hloop := runs_resume (s := { s with unit := .resuming 0 }) (i := 0) rfl rfl
      (by simp [hnone hzero, State.slots]) (Nat.zero_le _) hr
    have hget : rocketDevicePmGet s.devs resume s.pm =
        (ok, { s.pm with refcount := s.pm.refcount + ok.toNat, usage := usage }) := by
      rw [rocketDevicePmGet, if_pos hzero, rocketDevicePmResumeUnit, hr]
      cases ok <;> rfl
    have hheld : (if s.pm.refcount = 0 ∧ ok = true then s.devs else s.held) =
        if ok then s.devs else [] := by simp [hzero, hnone hzero]
    rw [hget, hheld]
    exact hloop
  · rw [if_neg hzero]
    exact runs_nil.mpr (by simp [effect, rocketDevicePmGet, hzero, hfree])

theorem countsIdle_downSteps (core : Nat → Action) (last : Action)
    (hcore : ∀ i s, CountsIdle s (core i)) (hlast : ∀ s, CountsIdle s last) (i : Nat) :
    ∀ a ∈ downSteps core last i, ∀ s, CountsIdle s a := by
  induction i with
  | zero => simpa [downSteps] using hlast
  | succ i ih => exact List.forall_mem_cons.mpr ⟨hcore i, ih⟩

theorem countsIdle_resumeSteps (resume : Nat → Bool) (i : Nat) (todo : List Nat) :
    ∀ a ∈ resumeSteps resume i todo, ∀ s, CountsIdle s a := by
  induction todo generalizing i with
  | nil => simp [resumeSteps, CountsIdle]
  | cons dev rest ih =>
      simp only [resumeSteps]
      split
      · exact List.forall_mem_cons.mpr ⟨fun _ => trivial, ih (i + 1)⟩
      · exact List.forall_mem_cons.mpr ⟨fun _ => trivial,
          countsIdle_downSteps .unwindCore .getFails (fun _ _ => trivial) (fun _ => trivial) i⟩

theorem countsIdle_noidleSteps (i : Nat) (todo : List Nat) :
    ∀ a ∈ noidleSteps i todo, ∀ s, CountsIdle s a := by
  induction todo generalizing i with
  | nil => simp [noidleSteps, CountsIdle]
  | cons dev rest ih => exact List.forall_mem_cons.mpr ⟨fun _ => trivial, ih (i + 1)⟩

/-- A get or put neither fills a slot nor raises `num_cores`. -/
theorem countsIdle_call {acts : List Action} (h : (∃ resume, acts = s.getCall resume) ∨
    acts = s.putCall ∨ acts = s.noidleCall) : ∀ a ∈ acts, ∀ t, CountsIdle t a := by
  rcases h with ⟨resume, rfl⟩ | rfl | rfl <;>
    refine List.forall_mem_cons.mpr ⟨fun _ => trivial, ?_⟩ <;> split
  · exact countsIdle_resumeSteps resume 0 s.devs
  · exact fun a ha => absurd ha List.not_mem_nil
  · exact List.forall_mem_cons.mpr ⟨fun _ => trivial,
      countsIdle_downSteps .releaseCore .putReturns (fun _ _ => trivial) (fun _ => trivial) _⟩
  · exact fun a ha => absurd ha List.not_mem_nil
  · exact countsIdle_noidleSteps 0 s.devs
  · exact fun a ha => absurd ha List.not_mem_nil

/-- A put with other users left, or with none to begin with, visits no core. -/
theorem lower_eq (hfree : s.unit = .free) (hone : s.pm.refcount ≠ 1) (next : UnitPc) :
    s.lower next = { s with unit := .free, pm := rocketDevicePmPut s.devs s.pm } := by
  by_cases hzero : s.pm.refcount = 0
  · simp [State.lower, rocketDevicePmPut, hzero, hfree]
  · have hleft : s.pm.refcount - 1 ≠ 0 := by omega
    simp [State.lower, rocketDevicePmPut, hzero, hleft]

/-- A put that nothing comes in between is `rocketDevicePmPut` on the table. -/
theorem runs_putCall (hreg : s.registered = true) (hfree : s.unit = .free) :
    Runs probing s s.putCall { s with
      unit := .free
      pm := rocketDevicePmPut s.devs s.pm
      held := if s.pm.refcount = 1 then [] else s.held } := by
  refine runs_cons_of (decide_eq_true ⟨hreg, hfree⟩) ?_
  by_cases hone : s.pm.refcount = 1
  · have hgo : effect s .pmPut =
        { s with pm := { s.pm with refcount := 0 }, unit := .dropped } := by
      simp [effect, State.lower, hone]
    have hput : rocketDevicePmPut s.devs s.pm =
        { s.pm with refcount := 0, usage := putAll s.pm.usage s.devs.reverse } := by
      simp [rocketDevicePmPut, hone, rocketDevicePmReleaseUnit]
    rw [hgo, if_pos hone, if_pos hone, hput]
    refine runs_cons_of rfl ?_
    have hloop := runs_down .releasing .releaseCore .putReturns
      (s := { s with pm := { s.pm with refcount := 0 }, unit := .releasing s.numCores })
      (fun s i h => ⟨decide_eq_true h, rfl⟩) (fun s h => ⟨decide_eq_true h, rfl⟩) rfl
    exact hloop
  · rw [if_neg hone, if_neg hone]
    exact runs_nil.mpr (lower_eq hfree hone .dropped)

/-- A put that nothing comes in between is `rocketDevicePmPutNoidle` on the table. -/
theorem runs_noidleCall (hreg : s.registered = true) (hfree : s.unit = .free) :
    Runs probing s s.noidleCall { s with
      unit := .free
      pm := rocketDevicePmPutNoidle s.devs s.pm
      held := if s.pm.refcount = 1 then [] else s.held } := by
  refine runs_cons_of (decide_eq_true ⟨hreg, hfree⟩) ?_
  by_cases hone : s.pm.refcount = 1
  · have hgo : effect s .pmPutNoidle =
        { s with pm := { s.pm with refcount := 0 }, unit := .puttingNoidle 0 } := by
      simp [effect, State.lower, hone]
    rw [hgo, if_pos hone]
    have hput : rocketDevicePmPutNoidle s.devs s.pm =
        { s.pm with refcount := 0, usage := putAll s.pm.usage s.devs } := by
      simp [rocketDevicePmPutNoidle, hone]
    rw [if_pos hone, hput]
    exact runs_noidle
      (s := { s with pm := { s.pm with refcount := 0 }, unit := .puttingNoidle 0 }) rfl rfl
  · rw [if_neg hone, if_neg hone, pmPutNoidle_eq]
    exact runs_nil.mpr (lower_eq hfree hone (.puttingNoidle 0))

end Calls

end Rkopnu.Probe
