import Rkopnu.Foundation.Tally
import Rkopnu.Driver.References

/-!
# The power unit and its users

A core uses the shared power unit while a job is recorded as in flight on it,
and while its `rocket_job_run` has taken a reference it has neither handed to the
job in flight nor given back. Every release of the unit ends one such use.
-/

namespace Rkopnu.Driver

open Function (update)
open Transition Tally

namespace State
variable (s : State)

/-- How many cores have a job in flight. -/
def flying : Nat := tally (Finset.range s.cores) fun c => s.inFlight c ≠ none

/-- How many `rocket_job_run` hold a power reference of their own. -/
def entering : Nat := tally (Finset.range s.cores) fun c => (s.run c).holdsPower = true

/-- Only bound cores run jobs. -/
def OnCores : Prop := ∀ c, s.cores ≤ c → s.run c = .idle ∧ s.inFlight c = none

/-- The power unit serves exactly its users. -/
def PowerBalanced : Prop := s.pm.Serves s.devs (s.flying + s.entering)

end State

section Steps
variable {s t : State} {a : Action}

theorem keep_onCores (inv : s.OnCores) (h : enabled s a = true) : (effect s a).OnCores := by
  intro c hc
  rw [cores_effect] at hc
  obtain ⟨hrun, hfly⟩ := inv c hc
  constructor
  · rcases run_effect h c with hmove | ⟨-, hstay⟩
    · rw [hrun] at hmove
      generalize (effect s a).run c = q at hmove
      cases hmove
      exact absurd (of_decide_eq_true h).1 (Nat.not_lt.mpr hc)
    · rw [hstay, hrun]
  · rcases inFlight_effect (s := s) (a := a) c with hsame | ⟨hnone, -⟩ | ⟨j, -, hpub⟩
    · rw [hsame, hfly]
    · exact hnone
    · cases hrun.symm.trans (lock_of_publishes h hpub)

/-- A `rocket_job_run` takes its reference, hands it to the job in flight or gives it back. -/
theorem holdsPower_effect (h : enabled s a = true) (c : Nat) :
    ((effect s a).run c).holdsPower = (s.run c).holdsPower ∨
      (∃ j resume, a = .runPmGet c j resume ∧ (rocketDevicePmGet s.devs resume s.pm).1 = true) ∨
      (∃ j e, a = .runPmPut c j e) ∨ ∃ j, Publishes a c j := by
  rcases run_effect h c with hmove | ⟨-, hstay⟩
  · generalize s.run c = p at hmove ⊢
    generalize (effect s a).run c = q at hmove ⊢
    cases hmove with
    | pmGet ok => exact Or.inr (Or.inl ⟨_, _, rfl, ok⟩)
    | pmPut => exact Or.inr (Or.inr (Or.inl ⟨_, _, rfl⟩))
    | skip | program => exact Or.inr (Or.inr (Or.inr ⟨_, by constructor⟩))
    | _ => exact Or.inl rfl
  · exact Or.inl (congrArg RunPc.holdsPower hstay)

theorem mem_cores_of_running (inv : s.OnCores) {c : Nat} (h : s.run c ≠ .idle) :
    c ∈ Finset.range s.cores := by
  rw [Finset.mem_range]
  by_contra hc
  exact h (inv c (by omega)).1

theorem mem_cores_of_inFlight (inv : s.OnCores) {c : Nat} (h : s.inFlight c ≠ none) :
    c ∈ Finset.range s.cores := by
  rw [Finset.mem_range]
  by_contra hc
  exact h (inv c (by omega)).2

/-- A step of `rocket_job_run` that keeps what it holds keeps the balance. -/
theorem balanced_of_same (balanced : s.PowerBalanced) (hcores : t.cores = s.cores)
    (hpm : t.pm = s.pm) (hfly : t.inFlight = s.inFlight)
    (hrun : ∀ c, (t.run c).holdsPower = (s.run c).holdsPower) : t.PowerBalanced := by
  have henter : t.entering = s.entering := by
    unfold State.entering
    rw [hcores]
    exact tally_congr fun c _ => by rw [hrun c]
  unfold State.PowerBalanced State.devs State.flying at *
  rw [hpm, hcores, hfly, henter]
  exact balanced

theorem flying_gain (hcores : t.cores = s.cores) {c : Nat} (hc : c ∈ Finset.range s.cores)
    (hs : s.inFlight c = none) {j : Nat} (ht : t.inFlight = update s.inFlight c (some j)) :
    t.flying = s.flying + 1 := by
  unfold State.flying
  rw [hcores]
  refine tally_gain hc (by simp [hs]) (by simp [ht]) fun i _ hne => ?_
  simp [ht, hne]

theorem flying_loss (hcores : t.cores = s.cores) {c : Nat} (hc : c ∈ Finset.range s.cores)
    (hs : s.inFlight c ≠ none) (ht : t.inFlight = update s.inFlight c none) :
    s.flying = t.flying + 1 := by
  unfold State.flying
  rw [hcores]
  refine tally_loss hc hs (by simp [ht]) fun i _ hne => ?_
  simp [ht, hne]

theorem entering_gain (hcores : t.cores = s.cores) {c : Nat} (hc : c ∈ Finset.range s.cores)
    {pc : RunPc} (hs : (s.run c).holdsPower = false) (hpc : pc.holdsPower = true)
    (ht : t.run = update s.run c pc) : t.entering = s.entering + 1 := by
  unfold State.entering
  rw [hcores]
  refine tally_gain hc (by simp [hs]) (by simp [ht, hpc]) fun i _ hne => ?_
  simp [ht, hne]

theorem entering_loss (hcores : t.cores = s.cores) {c : Nat} (hc : c ∈ Finset.range s.cores)
    {pc : RunPc} (hs : (s.run c).holdsPower = true) (hpc : pc.holdsPower = false)
    (ht : t.run = update s.run c pc) : s.entering = t.entering + 1 := by
  unfold State.entering
  rw [hcores]
  refine tally_loss hc hs (by simp [ht, hpc]) fun i _ hne => ?_
  simp [ht, hne]

theorem devs_nodup (s : State) : s.devs.Nodup := List.nodup_range

/-- A successful get turns the activation into a user. -/
theorem balanced_runPmGet (on : s.OnCores) (balanced : s.PowerBalanced)
    {c j : Nat} {resume : Nat → Bool} (h : s.run c = .pmGet j) :
    (effect s (.runPmGet c j resume)).PowerBalanced := by
  have henabled : enabled s (.runPmGet c j resume) = true := decide_eq_true h
  cases hget : (rocketDevicePmGet s.devs resume s.pm).1 with
  | false =>
      refine balanced_of_same balanced rfl ?_ rfl fun k => ?_
      · exact pmGet_failed s.devs resume s.pm hget
      · refine (holdsPower_effect henabled k).resolve_right ?_
        rintro (⟨i, more, heq, hok⟩ | ⟨i, e, heq⟩ | ⟨i, hpub⟩)
        · cases heq
          simp [hget] at hok
        · cases heq
        · cases hpub
  | true =>
      have hc := mem_cores_of_running on (show s.run c ≠ .idle by simp [h])
      have henter : (effect s (.runPmGet c j resume)).entering = s.entering + 1 :=
        entering_gain rfl hc (by simp [h, RunPc.holdsPower])
          (show (RunPc.lock j).holdsPower = true from rfl) (by simp [effect, hget])
      have hserve := balanced.get (devs_nodup s) hget
      unfold State.PowerBalanced
      rw [henter, ← Nat.add_assoc]
      exact hserve

/-- Publishing `in_flight_job` hands the activation's reference to the job. -/
theorem balanced_publish (balanced : s.PowerBalanced) (on : s.OnCores)
    (hcores : t.cores = s.cores) (hpm : t.pm = s.pm) {c j : Nat} {pc : RunPc}
    (hlock : s.run c = .lock j) (hempty : s.inFlight c = none)
    (hfly : t.inFlight = update s.inFlight c (some j)) (hpc : pc.holdsPower = false)
    (hrun : t.run = update s.run c pc) : t.PowerBalanced := by
  have hc := mem_cores_of_running on (show s.run c ≠ .idle by simp [hlock])
  have hgain := flying_gain hcores hc hempty hfly
  have hloss := entering_loss hcores hc (by simp [hlock, RunPc.holdsPower]) hpc hrun
  unfold State.PowerBalanced State.devs at *
  rw [hpm, hcores, show t.flying + t.entering = s.flying + s.entering by omega]
  exact balanced

/-- A put that ends the use of the job in flight. -/
theorem balanced_land (balanced : s.PowerBalanced) (on : s.OnCores)
    (hcores : t.cores = s.cores) (hpm : t.pm = rocketDevicePmPut s.devs s.pm) {c : Nat}
    (hfly : s.inFlight c ≠ none) (hland : t.inFlight = update s.inFlight c none)
    (hrun : t.run = s.run) : t.PowerBalanced := by
  have hc := mem_cores_of_inFlight on hfly
  have hloss := flying_loss hcores hc hfly hland
  have henter : t.entering = s.entering := by
    unfold State.entering
    rw [hcores, hrun]
  have hserve : s.pm.Serves s.devs (t.flying + t.entering + 1) := by
    rw [show t.flying + t.entering + 1 = s.flying + s.entering by omega]
    exact balanced
  have hput := hserve.put (devs_nodup s)
  unfold State.PowerBalanced State.devs at *
  rw [hpm, hcores]
  exact hput

theorem keep_balanced (inv : Referenced s) (on : s.OnCores) (balanced : s.PowerBalanced)
    (h : enabled s a = true) : (effect s a).PowerBalanced := by
  cases a with
  | runPmGet c j resume =>
      simp only [enabled, decide_eq_true_eq] at h
      exact balanced_runPmGet on balanced h
  | runSkip c j | runProgram c j =>
      simp only [enabled, decide_eq_true_eq] at h
      have hempty := inv.unpublished c j (by simp [h, RunPc.unpublished])
      exact balanced_publish balanced on rfl rfl h.1 hempty rfl rfl rfl
  | runPmPut c j e =>
      simp only [enabled, decide_eq_true_eq] at h
      have hc := mem_cores_of_running on (show s.run c ≠ .idle by simp [h])
      have hloss : s.entering = (effect s (.runPmPut c j e)).entering + 1 :=
        entering_loss rfl hc (by simp [h, RunPc.holdsPower])
          (show (RunPc.fail j e).holdsPower = false from rfl) rfl
      have hserve : s.pm.Serves s.devs (s.flying + (effect s (.runPmPut c j e)).entering + 1) := by
        rw [Nat.add_assoc, ← hloss]
        exact balanced
      exact hserve.put (devs_nodup s)
  | irqComplete c seen j =>
      simp only [enabled, decide_eq_true_eq] at h
      exact balanced_land balanced on rfl rfl (by simp [h]) rfl rfl
  | tdrSection c j =>
      by_cases hfly : s.inFlight c = none
      · refine balanced_of_same balanced rfl ?_ ?_ fun _ => rfl
        · simp [effect, hfly]
        · exact Function.update_eq_self_iff.mpr hfly.symm
      · refine balanced_land balanced on rfl ?_ hfly rfl rfl
        simp [effect, hfly, pmPutNoidle_eq]
  | pop c j | runCheck c j | runCreate c j | runAttachFail c j | runWrite c j | runFail c j
  | runComplete c j | runArm c j =>
      refine balanced_of_same balanced rfl rfl rfl fun k => ?_
      refine (holdsPower_effect h k).resolve_right ?_
      rintro (⟨i, resume, heq, -⟩ | ⟨i, e, heq⟩ | ⟨i, hpub⟩)
      · cases heq
      · cases heq
      · cases hpub
  | _ =>
      refine balanced_of_same balanced ?_ ?_ ?_ fun _ => ?_ <;>
        simp only [effect, State.domainGet, State.domainPut, State.jobPut, State.schedFree,
          State.jobDone, State.hwWrite]

end Steps

/-- A state whose references and power uses are accounted for. -/
structure Powered (s : State) : Prop extends Referenced s where
  onCores : s.OnCores
  balanced : s.PowerBalanced

theorem Powered.initial (n : Nat) : Powered (State.init n) where
  toReferenced := Referenced.initial n
  onCores := fun _ _ => ⟨rfl, rfl⟩
  balanced := by
    refine ⟨?_, rfl, fun d _ => ?_⟩ <;>
      simp [State.init, State.flying, State.entering, tally, RunPc.holdsPower]

theorem Powered.preserve {s : State} {a : Action} (inv : Powered s) (h : enabled s a = true) :
    Powered (effect s a) where
  toReferenced := inv.toReferenced.preserve h
  onCores := keep_onCores inv.onCores h
  balanced := keep_balanced inv.toReferenced inv.onCores inv.balanced h

theorem Powered.reachable {n : Nat} {acts : List Action} {s : State}
    (run : Runs driver (State.init n) acts s) : Powered s :=
  run_invariant Powered (Powered.initial n) (fun _ _ inv h => inv.preserve h) run

/-- In every reachable state of `n` bound cores `pm_refcount` counts the cores with
a job in flight and the `rocket_job_run` between a successful `rocket_device_pm_get`
and its publication or put; no put has met a count of zero; and each bound core
has its never-gate reference plus one exactly when `pm_refcount` is positive. -/
theorem power_unit_balanced {n : Nat} {acts : List Action} {s : State}
    (run : Runs driver (State.init n) acts s) :
    s.pm.refcount = tally (Finset.range n) (fun c => s.inFlight c ≠ none) +
        tally (Finset.range n) (fun c => (s.run c).holdsPower = true) ∧
      s.pm.warned = false ∧
      ∀ c < n, s.pm.usage c = 1 + if 0 < s.pm.refcount then 1 else 0 := by
  have balanced := (Powered.reachable run).balanced
  obtain rfl := cores_of_run run
  have hcount : s.pm.refcount = s.flying + s.entering := balanced.refcount
  have husage : ∀ c < s.cores, s.pm.usage c = 1 + if 0 < s.pm.refcount then 1 else 0 := by
    intro c hc
    rw [hcount]
    exact balanced.usage c (List.mem_range.mpr hc)
  exact And.intro hcount (And.intro balanced.quiet husage)

theorem power_unit_balanced_started : ∃ s, Runs driver (State.init 1) startOne s ∧
    s.pm.refcount = tally (Finset.range 1) (fun c => s.inFlight c ≠ none) +
        tally (Finset.range 1) (fun c => (s.run c).holdsPower = true) ∧
      s.pm.warned = false ∧
      ∀ c < 1, s.pm.usage c = 1 + if 0 < s.pm.refcount then 1 else 0 := by
  obtain ⟨s, run, -⟩ := runs_of_test startOne_accepted
  exact ⟨s, run, power_unit_balanced run⟩

end Rkopnu.Driver
