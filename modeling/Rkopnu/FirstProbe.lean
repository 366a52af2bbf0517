import Rkopnu.CoreInit
import Rkopnu.Foundation.Transition

/-!
# The pointer that says whether a core was probed before

`rdev` is NULL until `rocket_probe` has made the DRM device, and that NULL is how the next
probe knows that it is the first. `rocket_device_init` answers a failure with an error
pointer, which stays in `rdev`.

## Implementation notes

The probes come one after the other. A probe that finds an error pointer reads
`num_cores` through it; this is no step of the system.
-/

namespace Rkopnu.FirstProbe

open Transition
open CoreInit (firstError rocketCoreInit Core)

/-- The static pointer `rdev` of `rocket_drv.c`. -/
inductive RdevPtr
  | null
  | err (e : Errno)
  | device
  deriving DecidableEq, Repr

/-- What the kernel answers to the calls of `rocket_device_init`. -/
structure DeviceAnswers where
  /-- `devm_drm_dev_alloc`. -/
  alloc : Option Errno
  /-- `devm_kcalloc` of the table of cores. -/
  cores : Bool
  /-- `dma_set_mask_and_coherent`. -/
  dmaMask : Option Errno
  /-- `devm_mutex_init` of `sched_lock` and of `pm_lock`. -/
  schedLock : Option Errno
  pmLock : Option Errno
  /-- `drm_dev_register`. -/
  register : Option Errno

/-- The error of `rocket_device_init`; it registers the DRM device last. -/
def rocketDeviceInit (d : DeviceAnswers) : Option Errno :=
  firstError [d.alloc, if d.cores then none else some .nomem, d.dmaMask,
    d.schedLock.map fun _ => .nomem, d.pmLock.map fun _ => .nomem, d.register]

structure State where
  rdev : RdevPtr
  /-- `rdev->num_cores`, 0 while there is no device. -/
  numCores : Nat
  /-- The DRM devices of the driver that are registered. -/
  registered : Nat
  /-- The entries of `rdev->cores`, with the counts of the devices probed into them. -/
  core : Nat → Core

/-- One call of `rocket_probe`. -/
structure Call where
  device : DeviceAnswers
  core : CoreInit.Answers

/-- `rdev` is set to the device that `rocket_device_init` made, its table cleared. -/
def State.deviceMade (s : State) : State :=
  { s with
    rdev := .device
    numCores := 0
    registered := s.registered + 1
    core := fun i => { s.core i with iommuGroup := none, iommuDev := none } }

/-- `num_cores--` of a failed probe; without a core left, `rocket_device_fini` unregisters
the DRM device and `rdev` is cleared. -/
def State.uncount (s : State) : State :=
  { s with
    numCores := s.numCores - 1
    registered := if s.numCores - 1 = 0 then s.registered - 1 else s.registered
    rdev := if s.numCores - 1 = 0 then .null else s.rdev }

/-- The core at `num_cores` is counted, and `rocket_core_init` leaves it as `core`. -/
def State.count (s : State) (core : Core) : State :=
  { s with
    numCores := s.numCores + 1
    core := Function.update s.core s.numCores core }

/-- `rocket_probe` after `rdev` is set. -/
def probeCore (a : CoreInit.Answers) (s : State) : Option Errno × State :=
  match rocketCoreInit a (s.core s.numCores) with
  | (none, core) => (none, s.count core)
  | (some e, core) => (some e, (s.count core).uncount)

/-- `rocket_probe`, with its return value; nothing after the read through an error pointer. -/
def rocketProbe (c : Call) (s : State) : Option (Option Errno × State) :=
  match s.rdev with
  | .null =>
      match rocketDeviceInit c.device with
      | some e => some (some e, { s with rdev := .err e })
      | none => some (probeCore c.core s.deviceMade)
  | .err _ => none
  | .device => some (probeCore c.core s)

/-- Calls of `rocket_probe` as a transition system. -/
def probing : System State Call := fun s c => (rocketProbe c s).map Prod.snd

/-- The driver is loaded, no core is bound. -/
def State.init (core : Nat → Core) : State where
  rdev := .null
  numCores := 0
  registered := 0
  core := core

/-- A call that fails leaves the pointer, the number of cores and the registered devices as
they were. -/
def FailsClean (s : State) (c : Call) : Prop := ∀ e t, rocketProbe c s = some (some e, t) →
  t.rdev = s.rdev ∧ t.numCores = s.numCores ∧ t.registered = s.registered

/-- `rdev` is NULL when no core is bound and the device otherwise, which is registered. -/
structure Consistent (s : State) : Prop where
  noError : ∀ e, s.rdev ≠ .err e
  null_iff : s.rdev = .null ↔ s.numCores = 0
  registered : s.registered = if s.rdev = .null then 0 else 1

/-- No probe of a first core fails in `rocket_device_init`. -/
def DeviceMade (s : State) (c : Call) : Prop := s.rdev = .null → rocketDeviceInit c.device = none

section Probing
variable {s t : State} {c : Call} {a : CoreInit.Answers}

/-- After `rdev` is set a probe binds a core, or takes the core back, and the device too
when the core was the first. -/
theorem probeCore_cases {r : Option Errno} (h : probeCore a s = (r, t)) :
    (r = none ∧ t.rdev = s.rdev ∧ t.numCores = s.numCores + 1 ∧ t.registered = s.registered) ∨
    (r ≠ none ∧ t.numCores = s.numCores ∧
      t.rdev = (if s.numCores = 0 then .null else s.rdev) ∧
      t.registered = if s.numCores = 0 then s.registered - 1 else s.registered) := by
  unfold probeCore at h
  split at h
  · obtain ⟨rfl, rfl⟩ := Prod.mk.inj h
    exact Or.inl ⟨rfl, rfl, rfl, rfl⟩
  · obtain ⟨rfl, rfl⟩ := Prod.mk.inj h
    exact Or.inr ⟨nofun, rfl, rfl, rfl⟩

/-- What one call does: it fails to make the device, it binds a core, or it fails and takes
back what it did. -/
theorem probe_cases {r : Option Errno} (inv : Consistent s)
    (h : rocketProbe c s = some (r, t)) :
    (∃ e, s.rdev = .null ∧ rocketDeviceInit c.device = some e ∧ r = some e ∧
      t.rdev = .err e) ∨
    (DeviceMade s c ∧ r = none ∧ t.rdev = .device ∧ t.numCores ≠ 0 ∧ t.registered = 1) ∨
    (DeviceMade s c ∧ r ≠ none ∧ t.rdev = s.rdev ∧ t.numCores = s.numCores ∧
      t.registered = s.registered) := by
  have hzero := inv.null_iff
  have hregistered := inv.registered
  unfold rocketProbe at h
  cases hrdev : s.rdev with
  | err e => exact absurd hrdev (inv.noError e)
  | null =>
      simp only [hrdev, true_iff, if_true] at h hzero hregistered
      cases hdevice : rocketDeviceInit c.device with
      | some e =>
          simp only [hdevice, Option.some.injEq, Prod.mk.injEq] at h
          obtain ⟨rfl, rfl⟩ := h
          exact Or.inl ⟨e, rfl, rfl, rfl, rfl⟩
      | none =>
          right
          have hmade : DeviceMade s c := fun _ => hdevice
          simp only [hdevice, Option.some.injEq] at h
          rcases probeCore_cases h with ⟨hr, hptr, hcores, hreg⟩ | ⟨hr, hcores, hptr, hreg⟩
          · refine Or.inl ⟨hmade, hr, hptr, by rw [hcores]; exact Nat.succ_ne_zero _, ?_⟩
            simp [hreg, State.deviceMade, hregistered]
          · exact Or.inr ⟨hmade, hr, hptr, hcores.trans hzero.symm, hreg⟩
  | device =>
      right
      have hmade : DeviceMade s c := fun hnull => by simp [hrdev] at hnull
      have hnonzero : s.numCores ≠ 0 := by simpa [hrdev] using hzero
      simp only [hrdev, reduceCtorEq, if_false, Option.some.injEq] at h hregistered
      rcases probeCore_cases h with ⟨hr, hptr, hcores, hreg⟩ | ⟨hr, hcores, hptr, hreg⟩
      · exact Or.inl ⟨hmade, hr, hptr.trans hrdev, by simp [hcores], hreg.trans hregistered⟩
      · rw [if_neg hnonzero] at hptr hreg
        exact Or.inr ⟨hmade, hr, hptr.trans hrdev, hcores, hreg⟩

theorem probing_eq_some : probing s c = some t ↔ ∃ r, rocketProbe c s = some (r, t) := by
  simp [probing]

/-- A call that finds no error pointer returns. -/
theorem Consistent.returns (inv : Consistent s) (c : Call) :
    ∃ r t, rocketProbe c s = some (r, t) := by
  unfold rocketProbe
  cases hrdev : s.rdev with
  | err e => exact absurd hrdev (inv.noError e)
  | null => cases rocketDeviceInit c.device <;> exact ⟨_, _, rfl⟩
  | device => exact ⟨_, _, rfl⟩

/-- A call fails clean unless it fails to make the device. -/
theorem Consistent.failsClean_iff (inv : Consistent s) : FailsClean s c ↔ DeviceMade s c := by
  constructor
  · intro clean hnull
    obtain ⟨r, t, hprobe⟩ := inv.returns c
    rcases probe_cases inv hprobe with ⟨e, -, -, rfl, hptr⟩ | ⟨hmade, -⟩ | ⟨hmade, -⟩
    · have hsame := (clean e t hprobe).1
      simp [hptr, hnull] at hsame
    · exact hmade hnull
    · exact hmade hnull
  · intro made e t hprobe
    rcases probe_cases inv hprobe with ⟨e', hnull, hfail, -⟩ | ⟨-, hr, -⟩ |
      ⟨-, -, hptr, hcores, hreg⟩
    · simp [made hnull] at hfail
    · cases hr
    · exact ⟨hptr, hcores, hreg⟩

theorem Consistent.preserve (inv : Consistent s) (made : DeviceMade s c)
    (hstep : probing s c = some t) : Consistent t := by
  obtain ⟨r, hprobe⟩ := probing_eq_some.mp hstep
  rcases probe_cases inv hprobe with ⟨e, hnull, hfail, -⟩ | ⟨-, -, hptr, hcores, hreg⟩ |
    ⟨-, -, hptr, hcores, hreg⟩
  · simp [made hnull] at hfail
  · exact ⟨by simp [hptr], by simp [hptr, hcores], by simp [hptr, hreg]⟩
  · exact ⟨by simpa [hptr] using inv.noError, by simpa [hptr, hcores] using inv.null_iff,
      by simpa [hptr, hreg] using inv.registered⟩

theorem Consistent.initial (core : Nat → Core) : Consistent (State.init core) where
  noError := fun _ => nofun
  null_iff := iff_of_true rfl rfl
  registered := rfl

theorem Consistent.sound_iff (inv : Consistent s) (calls : List Call) :
    (Along probing FailsClean s calls ∧ Throughout probing Consistent s calls) ↔
      Along probing DeviceMade s calls := by
  induction calls generalizing s with
  | nil => exact iff_of_true ⟨trivial, inv⟩ trivial
  | cons c rest ih =>
      constructor
      · rintro ⟨⟨clean, alongRest⟩, -, allRest⟩
        have made := inv.failsClean_iff.mp clean
        refine ⟨made, fun t ht => ?_⟩
        exact (ih (inv.preserve made ht)).mp ⟨alongRest t ht, allRest t ht⟩
      · rintro ⟨made, madeRest⟩
        have rest := fun t ht => (ih (inv.preserve made ht)).mpr (madeRest t ht)
        exact ⟨⟨inv.failsClean_iff.mpr made, fun t ht => (rest t ht).1⟩,
          inv, fun t ht => (rest t ht).2⟩

/-- For every sequence of probes: each failing probe leaves everything as it was and the
pointer always says whether a core is bound, exactly when no probe of a first core fails in
`rocket_device_init`. -/
theorem probes_sound_iff_deviceMade (core : Nat → Core) (calls : List Call) :
    (Along probing FailsClean (State.init core) calls ∧
      Throughout probing Consistent (State.init core) calls) ↔
      Along probing DeviceMade (State.init core) calls :=
  (Consistent.initial core).sound_iff calls

/-- A first probe whose `drm_dev_register` fails. -/
def unregisteredCall : Call where
  device := { alloc := none, cores := true, dmaMask := none, schedLock := none, pmLock := none,
              register := some .nomem }
  core := CoreInit.Answers.good

/-- The error pointer stays, and the next probe reads through it. -/
theorem error_pointer_kept :
    ¬ (∀ (core : Nat → Core) (calls : List Call),
        Along probing FailsClean (State.init core) calls ∧
          Throughout probing Consistent (State.init core) calls) ∧
      ∀ (core : Nat → Core) (c : Call),
        exec probing (State.init core) [unregisteredCall, c] = none := by
  constructor
  · intro all
    obtain ⟨clean, -⟩ := (all (fun _ => CoreInit.linkedCore) [unregisteredCall]).1
    exact absurd (clean .nomem _ rfl).1 nofun
  · intro core c
    rfl

end Probing

end Rkopnu.FirstProbe
