import Rkopnu.Driver.Step
import Rkopnu.Probe

/-!
# The driver as a user of the power unit

With its cores bound, the driver is one of the users that the probe machine allows:
each of its steps gets the unit, puts it, or leaves it alone. What holds there
through probes and removals holds in every run of the driver.
-/

namespace Rkopnu.Driver

open Transition

/-- The power unit and the table of the bound cores, with `pm_lock` free. -/
def State.unitView (s : State) : Probe.State where
  registered := true
  numCores := s.cores
  coreDev := id
  filling := false
  pm := s.pm
  unit := .free
  probe := fun d => if d < s.cores then .bound else .idle
  held := if s.pm.refcount = 0 then [] else s.devs

/-- The steps of the call on the unit that a step of the driver makes, with nothing in
between. -/
def unitAnswer (s : State) : Action → List Probe.Action
  | .runPmGet _ _ resume => s.unitView.getCall resume
  | .runPmPut _ _ _ | .irqComplete _ _ _ => s.unitView.putCall
  | .tdrSection c _ => if s.inFlight c = none then [] else s.unitView.noidleCall
  | _ => []

theorem unitView_devs (s : State) : s.unitView.devs = s.devs :=
  List.map_id _

/-- The view of a state with another power unit. -/
theorem unitView_of_pm (s : State) (pm : PowerUnit) {held : List Nat}
    (hheld : held = if pm.refcount = 0 then [] else s.devs) :
    { s.unitView with unit := .free, pm := pm, held := held } = { s with pm := pm }.unitView := by
  rw [hheld]
  rfl

/-- What the view holds after a get. -/
theorem held_get (s : State) (resume : Nat → Bool) :
    (if s.pm.refcount = 0 ∧ (rocketDevicePmGet s.devs resume s.pm).1 = true then s.devs
      else s.unitView.held) =
    if (rocketDevicePmGet s.devs resume s.pm).2.refcount = 0 then [] else s.devs := by
  change (if s.pm.refcount = 0 ∧ (rocketDevicePmGet s.devs resume s.pm).1 = true then s.devs
    else if s.pm.refcount = 0 then [] else s.devs) = _
  cases hok : (rocketDevicePmGet s.devs resume s.pm).1 with
  | true =>
      rw [(pmGet_succeeded s.devs resume s.pm hok).1]
      by_cases hzero : s.pm.refcount = 0 <;> simp [hzero]
  | false => simp [pmGet_failed s.devs resume s.pm hok]

theorem runs_get (s : State) (resume : Nat → Bool) :
    Runs Probe.probing s.unitView (s.unitView.getCall resume)
      { s with pm := (rocketDevicePmGet s.devs resume s.pm).2 }.unitView := by
  have hcall := Probe.runs_getCall (s := s.unitView) rfl rfl (fun h => if_pos h) resume
  rw [unitView_devs] at hcall
  rw [← unitView_of_pm s _ (held_get s resume)]
  exact hcall

/-- What the view holds after a put. -/
theorem held_put (s : State) : (if s.pm.refcount = 1 then [] else s.unitView.held) =
    if (rocketDevicePmPut s.devs s.pm).refcount = 0 then [] else s.devs := by
  change (if s.pm.refcount = 1 then [] else if s.pm.refcount = 0 then [] else s.devs) = _
  by_cases hzero : s.pm.refcount = 0
  · simp [rocketDevicePmPut, hzero]
  · have hlast : s.pm.refcount - 1 = 0 ↔ s.pm.refcount = 1 := by omega
    simp [rocketDevicePmPut, hzero, hlast]

theorem runs_put (s : State) : Runs Probe.probing s.unitView s.unitView.putCall
    { s with pm := rocketDevicePmPut s.devs s.pm }.unitView := by
  have hcall := Probe.runs_putCall (s := s.unitView) rfl rfl
  rw [unitView_devs] at hcall
  rw [← unitView_of_pm s _ (held_put s)]
  exact hcall

theorem runs_putNoidle (s : State) : Runs Probe.probing s.unitView s.unitView.noidleCall
    { s with pm := rocketDevicePmPutNoidle s.devs s.pm }.unitView := by
  have hcall := Probe.runs_noidleCall (s := s.unitView) rfl rfl
  rw [unitView_devs, pmPutNoidle_eq] at hcall
  rw [pmPutNoidle_eq, ← unitView_of_pm s _ (held_put s)]
  exact hcall

theorem unitAnswer_follows (s : State) (a : Action) :
    Runs Probe.probing s.unitView (unitAnswer s a) (effect s a).unitView := by
  cases a with
  | runPmGet c j resume => exact runs_get s resume
  | runPmPut c j e | irqComplete c b j => exact runs_put s
  | tdrSection c j =>
      by_cases hfly : s.inFlight c = none
      · simp only [unitAnswer, hfly, if_true]
        refine runs_nil.mpr ?_
        simp only [State.unitView, effect, hfly, if_true]
        rfl
      · simp only [unitAnswer, hfly, if_false]
        refine (congrArg (Runs Probe.probing _ _) ?_).mp (runs_putNoidle s)
        simp only [State.unitView, effect, hfly, if_false]
        rfl
  | _ => rfl

/-- Every step of the driver is answered by the probe machine. -/
def unitSimulation : Simulation driver Probe.probing (fun _ => True) where
  image := State.unitView
  answer := unitAnswer
  keep := fun _ _ _ _ _ => trivial
  follows := by
    intro s a t _ hstep
    obtain ⟨-, rfl⟩ := driver_eq_some.mp hstep
    exact unitAnswer_follows s a

/-- The driver never fills a slot and never raises `num_cores`. -/
theorem unitAnswer_countsIdle (s : State) (a : Action) :
    Along Probe.probing Probe.CountsIdle s.unitView (unitAnswer s a) := by
  have call : ∀ {uses}, (∃ resume, uses = s.unitView.getCall resume) ∨
      uses = s.unitView.putCall ∨ uses = s.unitView.noidleCall →
      Along Probe.probing Probe.CountsIdle s.unitView uses :=
    fun h => along_of_actions (Probe.countsIdle_call h)
  cases a with
  | runPmGet c j resume => exact call (Or.inl ⟨resume, rfl⟩)
  | runPmPut c j e | irqComplete c b j => exact call (Or.inr (Or.inl rfl))
  | tdrSection c j =>
      simp only [unitAnswer]
      split
      · trivial
      · exact call (Or.inr (Or.inr rfl))
  | _ => trivial

/-- At its power unit a run of the driver is a run of the probe machine, and one that
never raises `num_cores`. -/
theorem unit_runs_of_run {n : Nat} {acts : List Action} {s : State}
    (run : Runs driver (State.init n) acts s) :
    ∃ uses, Runs Probe.probing (State.init n).unitView uses s.unitView ∧
      Along Probe.probing Probe.CountsIdle (State.init n).unitView uses :=
  unitSimulation.runs (fun s a _ => unitAnswer_countsIdle s a) run trivial

theorem initial_covered (n : Nat) : (State.init n).unitView.Covered := by
  refine ⟨fun d _ => ?_, fun d => Nat.le_refl _, fun h => absurd rfl h, fun _ _ => rfl⟩
  have hown : ((State.init n).unitView.probe d).own ≤ 1 := by
    cases (State.init n).unitView.probe d <;> decide
  exact hown

/-- Every core of a driver with its cores bound keeps a usage count. -/
theorem usage_pos_of_run {n : Nat} {acts : List Action} {s : State}
    (run : Runs driver (State.init n) acts s) {d : Nat} (hd : d < n) : 1 ≤ s.pm.usage d := by
  obtain ⟨uses, hruns, hcounts⟩ := unit_runs_of_run run
  have covered : s.unitView.Covered := by
    refine invariant_along Probe.State.Covered (fun x a y inv ok hstep => ?_) hcounts hruns
      (initial_covered n)
    obtain ⟨h, rfl⟩ := Probe.probing_eq_some.mp hstep
    exact inv.preserve h ok
  exact covered.neverGated.1 d (by simp [State.unitView, cores_of_run run, hd])

end Rkopnu.Driver
