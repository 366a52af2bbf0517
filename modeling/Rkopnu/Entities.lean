import Rkopnu.HwSubmit
import Rkopnu.Foundation.Transition
import Mathlib.Logic.Function.Basic

/-!
# The scheduler entities of a file

`rocket_job_open` makes one entity over all cores and one for each of the first three
cores. `rkopnu_ioctl_submit` picks one of the latter and `rocket_job_close` destroys them.
Each of the three reads `num_cores` when it gets there, and probes and removals change it.

## Implementation notes

Every read of `num_cores` is a step. The DRM device is there from before the first
`num_cores++` until after the last `num_cores--`, so that a file can be opened without
cores. A probe that has found `rdev` and loses it takes no further step. What is written to
the array of schedulers, and what a call does apart from entities, is left out. A file that
no open has used is `absent`.
-/

namespace Rkopnu.Entities

open Function (update)
open Transition

/-- The entities of `struct rocket_file_priv`. -/
inductive Entity
  /-- `sched_entity`. -/
  | sched
  /-- `core_entity[i]`. -/
  | core (i : Nat)
  deriving DecidableEq, Repr

/-- Where a file stands between `rocket_open` and `rocket_postclose`. -/
inductive Phase
  | absent
  /-- `rocket_job_open` has its array of schedulers. -/
  | allocated
  /-- The array could not be had, and the open is lost in a store through NULL. -/
  | oops
  /-- Before `core_entity[c]` in the loop of `rocket_job_open`. -/
  | opening (c : Nat)
  | opened
  /-- `rocket_open` has returned an error. -/
  | failed
  /-- Before `core_entity[c]` in the loop of `rocket_job_close`. -/
  | closing (c : Nat)
  | closed
  deriving DecidableEq, Repr

/-- `struct rocket_file_priv` and what has been done with its entities. -/
structure File where
  phase : Phase
  /-- `sched_entity.num_sched_list`. -/
  numSchedList : Nat
  /-- `sched_entity.sched_list` is the array; it is NULL otherwise. -/
  schedList : Bool
  /-- How far the loop of `rocket_job_open` went. -/
  seen : Nat
  /-- `drm_sched_entity_init` has returned 0. -/
  initialised : Entity → Bool
  /-- Given to `drm_sched_job_init`. -/
  handed : Entity → Bool
  /-- How often `drm_sched_entity_destroy` was called. -/
  destroyed : Entity → Nat
  /-- How often the array was freed. -/
  freed : Nat

/-- A file before its open: `rocket_priv` is zeroed. -/
def File.blank : File where
  phase := .absent
  numSchedList := 0
  schedList := false
  seen := 0
  initialised := fun _ => false
  handed := fun _ => false
  destroyed := fun _ => 0
  freed := 0

/-- What happens to an open file. -/
inductive FileAction
  /-- `drm_sched_entity_init` of `sched_entity`. -/
  | entityInit (answer : Option Errno)
  /-- `drm_sched_entity_init` of `core_entity[c]`. -/
  | coreInit (c : Nat) (answer : Option Errno)
  /-- The loop of `rocket_job_open` is over. -/
  | openReturns (c : Nat)
  /-- `drm_sched_job_init` in `rkopnu_ioctl_submit`. -/
  | submit (args : RknpuSubmit)
  /-- `rocket_postclose` calls `rocket_job_close`. -/
  | close
  /-- `drm_sched_entity_destroy` of `core_entity[c]`. -/
  | coreDestroy (c : Nat)
  /-- The loop of `rocket_job_close` is over: `sched_list` is freed and `sched_entity`
  destroyed. -/
  | closeReturns (c : Nat)

namespace File
variable (n : Nat) (x : File)

/-- The loops over the entities of the cores go on. -/
def loops (c : Nat) : Bool := decide (c < n ∧ c < 3)

/-- The file stands at the action; `n` is `num_cores`. -/
def enabled : FileAction → Bool
  | .entityInit _ => decide (x.phase = .allocated)
  | .coreInit c _ => decide (x.phase = .opening c ∧ loops n c = true)
  | .openReturns c => decide (x.phase = .opening c ∧ loops n c = false)
  | .submit _ | .close => decide (x.phase = .opened)
  | .coreDestroy c => decide (x.phase = .closing c ∧ loops n c = true)
  | .closeReturns c => decide (x.phase = .closing c ∧ loops n c = false)

/-- `drm_sched_entity_destroy`. -/
def destroy (e : Entity) : File :=
  { x with destroyed := update x.destroyed e (x.destroyed e + 1) }

/-- What the piece of code does. -/
def effect : FileAction → File
  | .entityInit (some _) => { x with phase := .failed }
  -- the array is kept when there is a choice of schedulers
  | .entityInit none => { x with
      phase := .opening 0
      numSchedList := n
      schedList := decide (1 < n)
      initialised := update x.initialised .sched true }
  | .coreInit _ (some _) => { x with phase := .failed }
  | .coreInit c none => { x with
      phase := .opening (c + 1)
      initialised := update x.initialised (.core c) true }
  | .openReturns c => { x with phase := .opened, seen := c }
  | .submit args => { x with handed := update x.handed (.core (submitCore n args)) true }
  | .close => { x with phase := .closing 0 }
  | .coreDestroy c => { x.destroy (.core c) with phase := .closing (c + 1) }
  | .closeReturns _ => { x.destroy .sched with
      phase := .closed
      freed := if x.schedList then x.freed + 1 else x.freed }

/-- The file is closed, or its open has failed. -/
def Over : Prop := x.phase = .closed ∨ x.phase = .failed

/-- Only what the open has initialised is used and destroyed; when the file is gone, all
of it was destroyed once, and the array freed once. -/
structure Sound : Prop where
  handed : ∀ e, x.handed e = true → x.initialised e = true
  destroyed : ∀ e, 0 < x.destroyed e → x.initialised e = true
  once : x.Over → ∀ e, x.initialised e = true → x.destroyed e = 1
  freed : x.Over → x.freed = 1

/-- Open, submit and close see the same `num_cores`, as far as they look: a submit picks a
core that the open has gone over, the loops of open and close have the same length, the
open had two schedulers or more to give and does not fail. -/
def Agree : FileAction → Prop
  | .entityInit answer | .coreInit _ answer => answer = none
  | .submit args => submitCore n args < x.seen
  | .coreDestroy c => c < x.seen
  | .closeReturns c => c = x.seen ∧ 1 < x.numSchedList
  | .openReturns _ | .close => True

instance (a : FileAction) : Decidable (x.Agree n a) :=
  match a with
  | .entityInit answer | .coreInit _ answer => inferInstanceAs (Decidable (answer = none))
  | .submit args => inferInstanceAs (Decidable (submitCore n args < x.seen))
  | .coreDestroy c => inferInstanceAs (Decidable (c < x.seen))
  | .closeReturns c => inferInstanceAs (Decidable (c = x.seen ∧ 1 < x.numSchedList))
  | .openReturns _ | .close => isTrue trivial

end File

/-- Where the probe of a core stands. -/
inductive ProbePc
  | idle
  /-- `rdev` is set; before `num_cores++`. -/
  | entered
  /-- In `rocket_core_init`. -/
  | counted
  /-- `rocket_core_init` has failed and `num_cores` is lowered; before it is tested. -/
  | uncounted
  deriving DecidableEq, Repr

structure State where
  /-- The DRM device that the static `rdev` of `rocket_drv.c` points to. -/
  rdev : Option Nat
  /-- How many DRM devices were made. -/
  devices : Nat
  /-- `rdev->num_cores` of each device. -/
  numCores : Nat → Nat
  probe : ProbePc
  /-- `rocket_remove` has lowered `num_cores` and has not tested it yet. -/
  removing : Bool
  /-- `rocket_priv->rdev`. -/
  device : Nat → Nat
  file : Nat → File

def State.init : State where
  rdev := none
  devices := 0
  numCores := fun _ => 0
  probe := .idle
  removing := false
  device := fun _ => 0
  file := fun _ => File.blank

inductive Action
  /-- `rocket_device_init`, by the probe of a first core: the device is registered. -/
  | deviceInit
  /-- `rocket_probe` finds `rdev` set. -/
  | enter
  /-- `num_cores++`. -/
  | count
  | probeReturns
  /-- `rocket_core_init` fails, and `num_cores--`. -/
  | probeFails
  /-- The failed probe tests `num_cores`; `rocket_device_fini` without cores. -/
  | probeTests
  /-- `num_cores--` of `rocket_remove`. -/
  | remove
  /-- `rocket_remove` tests `num_cores`; `rocket_device_fini` without cores. -/
  | removeTests
  /-- `rocket_open`, up to the array of schedulers. -/
  | openFile (f : Nat) (memory : Bool)
  | file (f : Nat) (a : FileAction)

namespace State
variable (s : State)

/-- `num_cores` of the present device; there are no cores without one. -/
def cores : Nat := s.rdev.elim 0 s.numCores

/-- `num_cores` of the present device is changed. -/
def setCores (f : Nat → Nat) : State :=
  { s with numCores := match s.rdev with
      | none => s.numCores
      | some d => update s.numCores d (f (s.numCores d)) }

/-- The device goes when it has no core. -/
def testCores : State := { s with rdev := if s.cores = 0 then none else s.rdev }

/-- `num_cores` as a call on the file reads it. -/
def coresOf (f : Nat) : Nat := s.numCores (s.device f)

end State

/-- The step can be taken. -/
def enabled (s : State) : Action → Bool
  | .deviceInit => decide (s.probe = .idle ∧ s.rdev = none)
  | .enter => decide (s.probe = .idle ∧ s.rdev ≠ none)
  | .count => decide (s.probe = .entered ∧ s.rdev ≠ none)
  | .probeReturns | .probeFails => decide (s.probe = .counted)
  | .probeTests => decide (s.probe = .uncounted ∧ s.rdev ≠ none)
  | .remove => decide (s.removing = false ∧ (if s.probe = .counted then 1 else 0) < s.cores)
  | .removeTests => decide (s.removing = true ∧ s.rdev ≠ none)
  -- the allocation is checked by its first use, and there is none without cores
  | .openFile f memory => decide (s.rdev ≠ none ∧ (s.file f).phase = .absent) &&
      (memory || decide (0 < s.cores))
  | .file f a => (s.file f).enabled (s.coresOf f) a

/-- What the step does. -/
def effect (s : State) : Action → State
  | .deviceInit => { s with
      rdev := some s.devices
      devices := s.devices + 1
      numCores := update s.numCores s.devices 0
      probe := .entered }
  | .enter => { s with probe := .entered }
  | .count => { s.setCores (· + 1) with probe := .counted }
  | .probeReturns => { s with probe := .idle }
  | .probeFails => { s.setCores (· - 1) with probe := .uncounted }
  | .probeTests => { s.testCores with probe := .idle }
  | .remove => { s.setCores (· - 1) with removing := true }
  | .removeTests => { s.testCores with removing := false }
  | .openFile f memory => { s with
      device := update s.device f (s.rdev.getD 0)
      file := update s.file f
        { s.file f with phase := if memory then .allocated else .oops } }
  | .file f a => { s with file := update s.file f ((s.file f).effect (s.coresOf f) a) }

/-- The driver as a transition system. -/
def entities : System State Action := fun s a => if enabled s a then some (effect s a) else none

theorem entities_eq_some {s t : State} {a : Action} :
    entities s a = some t ↔ enabled s a = true ∧ effect s a = t := by
  unfold entities
  split <;> simp_all

/-- Every file is treated as it should. -/
def EntitiesSound (s : State) : Prop := ∀ f, (s.file f).Sound

/-- The step meets the condition of its file. -/
def CoresAgree (s : State) : Action → Prop
  | .file f a => (s.file f).Agree (s.coresOf f) a
  | _ => True

instance (s : State) (a : Action) : Decidable (CoresAgree s a) :=
  match a with
  | .file f b => inferInstanceAs (Decidable ((s.file f).Agree (s.coresOf f) b))
  | .deviceInit | .enter | .count | .probeReturns | .probeFails | .probeTests | .remove
  | .removeTests | .openFile _ _ => isTrue trivial

/-- `sched_entity` has been initialised. -/
def Phase.begun : Phase → Bool
  | .opening _ | .opened | .closing _ | .closed => true
  | _ => false

/-- How many entities of cores are destroyed. -/
def Phase.gone : Phase → Nat
  | .closing c => c
  | _ => 0

/-- How many entities of cores are initialised. -/
def File.count (x : File) : Nat :=
  match x.phase with
  | .opening c => c
  | .opened | .closing _ | .closed => x.seen
  | _ => 0

/-- What is known of a file from the place where it stands. -/
structure Filed (x : File) : Prop where
  sched : x.phase ≠ .failed → (x.initialised .sched = true ↔ x.phase.begun = true)
  core : x.phase ≠ .failed → ∀ i, x.initialised (.core i) = true ↔ i < x.count
  schedDestroyed : x.phase ≠ .closed → x.destroyed .sched = 0
  coreDestroyed : x.phase ≠ .closed → ∀ i,
    x.destroyed (.core i) = if i < x.phase.gone then 1 else 0
  freed : x.phase ≠ .closed → x.freed = 0
  schedList : x.schedList = decide (1 < x.numSchedList)

theorem Filed.blank : Filed File.blank where
  sched := fun _ => by simp [File.blank, Phase.begun]
  core := fun _ i => by simp [File.blank, File.count]
  schedDestroyed := fun _ => rfl
  coreDestroyed := fun _ i => by simp [File.blank, Phase.gone]
  freed := fun _ => rfl
  schedList := rfl

theorem File.Sound.blank : File.blank.Sound where
  handed := fun e h => by simp [File.blank] at h
  destroyed := fun e h => by simp [File.blank] at h
  once := fun h => by simp [File.Over, File.blank] at h
  freed := fun h => by simp [File.Over, File.blank] at h

section FileStep
variable {n : Nat} {x : File} {a : FileAction}

/-- A file takes steps before it is closed. -/
theorem phase_of_enabled (h : x.enabled n a = true) :
    x.phase ≠ .closed ∧ x.phase ≠ .failed := by
  cases a with
  | entityInit | submit | close => simp [show x.phase = _ from of_decide_eq_true h]
  | coreInit | openReturns | coreDestroy | closeReturns => simp [(of_decide_eq_true h).1]

theorem keep_sched (inv : Filed x) (h : x.enabled n a = true)
    (hp : (x.effect n a).phase ≠ .failed) :
    (x.effect n a).initialised .sched = true ↔ (x.effect n a).phase.begun = true := by
  have hold := inv.sched (phase_of_enabled h).2
  cases a with
  | entityInit answer =>
      cases answer with
      | none => simp [File.effect, Phase.begun]
      | some err => exact absurd rfl hp
  | coreInit c answer =>
      have hphase := (of_decide_eq_true h).1
      cases answer with
      | none => simpa [File.effect, hphase, Phase.begun] using hold
      | some err => exact absurd rfl hp
  | openReturns c | coreDestroy c | closeReturns c =>
      have hphase := (of_decide_eq_true h).1
      simpa [File.effect, File.destroy, hphase, Phase.begun] using hold
  | submit | close =>
      have hphase : x.phase = .opened := of_decide_eq_true h
      simpa [File.effect, hphase, Phase.begun] using hold

theorem keep_core (inv : Filed x) (h : x.enabled n a = true)
    (hp : (x.effect n a).phase ≠ .failed) (i : Nat) :
    (x.effect n a).initialised (.core i) = true ↔ i < (x.effect n a).count := by
  have hold := inv.core (phase_of_enabled h).2 i
  cases a with
  | entityInit answer =>
      have hphase : x.phase = .allocated := of_decide_eq_true h
      cases answer with
      | none => simpa [File.effect, hphase, File.count] using hold
      | some err => exact absurd rfl hp
  | coreInit c answer =>
      have hphase := (of_decide_eq_true h).1
      cases answer with
      | none =>
          rw [show x.count = c by simp [File.count, hphase]] at hold
          by_cases hi : i = c
          · simp [File.effect, File.count, hi]
          · have hlt : i < c + 1 ↔ i < c := by omega
            simpa [File.effect, File.count, hi, hlt] using hold
      | some err => exact absurd rfl hp
  | openReturns c | coreDestroy c | closeReturns c =>
      have hphase := (of_decide_eq_true h).1
      simpa [File.effect, File.destroy, hphase, File.count] using hold
  | submit | close =>
      have hphase : x.phase = .opened := of_decide_eq_true h
      simpa [File.effect, hphase, File.count] using hold

theorem keep_schedDestroyed (inv : Filed x) (h : x.enabled n a = true)
    (hp : (x.effect n a).phase ≠ .closed) : (x.effect n a).destroyed .sched = 0 := by
  have hold := inv.schedDestroyed (phase_of_enabled h).1
  cases a with
  | entityInit answer | coreInit c answer => cases answer <;> exact hold
  | coreDestroy c => simpa [File.effect, File.destroy] using hold
  | closeReturns c => exact absurd rfl hp
  | _ => exact hold

theorem keep_coreDestroyed (inv : Filed x) (h : x.enabled n a = true)
    (hp : (x.effect n a).phase ≠ .closed) (i : Nat) :
    (x.effect n a).destroyed (.core i) = if i < (x.effect n a).phase.gone then 1 else 0 := by
  have hold := inv.coreDestroyed (phase_of_enabled h).1 i
  cases a with
  | entityInit answer =>
      have hphase : x.phase = .allocated := of_decide_eq_true h
      cases answer <;> simpa [File.effect, hphase, Phase.gone] using hold
  | coreInit c answer =>
      have hphase := (of_decide_eq_true h).1
      cases answer <;> simpa [File.effect, hphase, Phase.gone] using hold
  | openReturns c =>
      have hphase := (of_decide_eq_true h).1
      simpa [File.effect, hphase, Phase.gone] using hold
  | submit | close =>
      have hphase : x.phase = .opened := of_decide_eq_true h
      simpa [File.effect, hphase, Phase.gone] using hold
  | coreDestroy c =>
      have hphase := (of_decide_eq_true h).1
      rw [hphase] at hold
      by_cases hi : i = c
      · subst hi
        simpa [File.effect, File.destroy, Phase.gone] using hold
      · have hkept : (x.effect n (.coreDestroy c)).destroyed (.core i) = x.destroyed (.core i) := by
          simp [File.effect, File.destroy, hi]
        have hlt : i < c ↔ i < c + 1 := by omega
        exact hkept.trans (hold.trans (if_congr hlt rfl rfl))
  | closeReturns c => exact absurd rfl hp

theorem keep_freed (inv : Filed x) (h : x.enabled n a = true)
    (hp : (x.effect n a).phase ≠ .closed) : (x.effect n a).freed = 0 := by
  have hold := inv.freed (phase_of_enabled h).1
  cases a with
  | entityInit answer | coreInit c answer => cases answer <;> exact hold
  | closeReturns c => exact absurd rfl hp
  | _ => exact hold

theorem keep_schedList (inv : Filed x) :
    (x.effect n a).schedList = decide (1 < (x.effect n a).numSchedList) := by
  have hold := inv.schedList
  cases a with
  | entityInit answer =>
      cases answer with
      | none => rfl
      | some err => exact hold
  | coreInit c answer => cases answer <;> exact hold
  | _ => exact hold

theorem Filed.step (inv : Filed x) (h : x.enabled n a = true) : Filed (x.effect n a) where
  sched := keep_sched inv h
  core := keep_core inv h
  schedDestroyed := keep_schedDestroyed inv h
  coreDestroyed := keep_coreDestroyed inv h
  freed := keep_freed inv h
  schedList := keep_schedList inv

/-- A file that is not over stays sound when nothing new is used or destroyed. -/
theorem File.Sound.of_not_over {y : File} (sound : x.Sound) (hover : ¬ y.Over)
    (hinit : ∀ e, x.initialised e = true → y.initialised e = true)
    (hhanded : ∀ e, y.handed e = true → x.handed e = true ∨ y.initialised e = true)
    (hdestroyed : ∀ e, 0 < y.destroyed e → 0 < x.destroyed e ∨ y.initialised e = true) :
    y.Sound where
  handed := fun e he => (hhanded e he).elim (fun h => hinit e (sound.handed e h)) id
  destroyed := fun e he => (hdestroyed e he).elim (fun h => hinit e (sound.destroyed e h)) id
  once := fun h => absurd h hover
  freed := fun h => absurd h hover

/-- A failed open leaves its array behind. -/
theorem not_sound_of_failed (inv : Filed x) (hp : x.phase = .failed) : ¬ x.Sound := by
  intro sound
  have hone := sound.freed (.inr hp)
  rw [inv.freed (by rw [hp]; decide)] at hone
  cases hone

theorem sound_entityInit (inv : Filed x) (sound : x.Sound) (answer : Option Errno)
    (h : x.enabled n (.entityInit answer) = true) :
    (x.effect n (.entityInit answer)).Sound ↔ answer = none := by
  have after := inv.step h
  cases answer with
  | some err => exact iff_of_false (not_sound_of_failed after rfl) (by simp)
  | none =>
      refine iff_of_true (sound.of_not_over (by simp [File.Over, File.effect])
        (fun e he => ?_) (fun e he => .inl he) (fun e he => .inl he)) rfl
      simp [File.effect, Function.update_apply, he]

theorem sound_coreInit (inv : Filed x) (sound : x.Sound) (c : Nat) (answer : Option Errno)
    (h : x.enabled n (.coreInit c answer) = true) :
    (x.effect n (.coreInit c answer)).Sound ↔ answer = none := by
  have after := inv.step h
  cases answer with
  | some err => exact iff_of_false (not_sound_of_failed after rfl) (by simp)
  | none =>
      refine iff_of_true (sound.of_not_over (by simp [File.Over, File.effect])
        (fun e he => ?_) (fun e he => .inl he) (fun e he => .inl he)) rfl
      simp [File.effect, Function.update_apply, he]

theorem sound_submit (inv : Filed x) (sound : x.Sound) (args : RknpuSubmit)
    (h : x.enabled n (.submit args) = true) :
    (x.effect n (.submit args)).Sound ↔ submitCore n args < x.seen := by
  have hp : x.phase = .opened := of_decide_eq_true h
  have hcore := inv.core (by rw [hp]; decide) (submitCore n args)
  rw [show x.count = x.seen by simp [File.count, hp]] at hcore
  constructor
  · intro hsound
    exact hcore.mp (hsound.handed (.core (submitCore n args)) (by simp [File.effect]))
  · intro hlt
    refine sound.of_not_over (by simp [File.Over, File.effect, hp]) (fun e he => he)
      (fun e he => ?_) (fun e he => .inl he)
    by_cases hsame : e = .core (submitCore n args)
    · rw [hsame]
      exact .inr (hcore.mpr hlt)
    · exact .inl (by simpa [File.effect, hsame] using he)

theorem sound_coreDestroy (inv : Filed x) (sound : x.Sound) (c : Nat)
    (h : x.enabled n (.coreDestroy c) = true) :
    (x.effect n (.coreDestroy c)).Sound ↔ c < x.seen := by
  have hp := (of_decide_eq_true h).1
  have hcore := inv.core (by rw [hp]; simp) c
  rw [show x.count = x.seen by simp [File.count, hp]] at hcore
  constructor
  · intro hsound
    exact hcore.mp (hsound.destroyed (.core c) (by simp [File.effect, File.destroy]))
  · intro hlt
    refine sound.of_not_over (by simp [File.Over, File.effect]) (fun e he => he)
      (fun e he => .inl he) (fun e he => ?_)
    by_cases hsame : e = .core c
    · rw [hsame]
      exact .inr (hcore.mpr hlt)
    · exact .inl (by simpa [File.effect, File.destroy, hsame] using he)

/-- The end of the close shows whether its loop was as long as the open's and whether the
array was kept. -/
theorem sound_closeReturns (inv : Filed x) (sound : x.Sound) (c : Nat)
    (h : x.enabled n (.closeReturns c) = true) :
    (x.effect n (.closeReturns c)).Sound ↔ c = x.seen ∧ 1 < x.numSchedList := by
  have hp := (of_decide_eq_true h).1
  have hcore := inv.core (by rw [hp]; simp)
  have hdestroyed := inv.coreDestroyed (by rw [hp]; simp)
  have hfreed := inv.freed (by rw [hp]; simp)
  have hsched := inv.schedDestroyed (by rw [hp]; simp)
  rw [show x.count = x.seen by simp [File.count, hp]] at hcore
  rw [show x.phase.gone = c by simp [Phase.gone, hp]] at hdestroyed
  have hover : (x.effect n (.closeReturns c)).Over := .inl rfl
  have hle : c ≤ x.seen := by
    by_contra hlt
    have hpos : 0 < x.destroyed (.core x.seen) := by
      rw [hdestroyed, if_pos (Nat.lt_of_not_le hlt)]
      exact Nat.one_pos
    exact Nat.lt_irrefl _ ((hcore x.seen).mp (sound.destroyed _ hpos))
  constructor
  · intro hsound
    constructor
    · by_contra hne
      have hlt : c < x.seen := Nat.lt_of_le_of_ne hle hne
      have honce : x.destroyed (.core c) = 1 := by
        simpa [File.effect, File.destroy] using hsound.once hover (.core c) ((hcore c).mpr hlt)
      rw [hdestroyed, if_neg (Nat.lt_irrefl c)] at honce
      cases honce
    · have hone := hsound.freed hover
      by_contra hsmall
      rw [File.effect, inv.schedList, decide_eq_false hsmall] at hone
      simp [hfreed] at hone
  · rintro ⟨rfl, hlarge⟩
    refine ⟨sound.handed, fun e he => ?_, fun _ e he => ?_, fun _ => ?_⟩
    · cases e with
      | sched => exact (inv.sched (by rw [hp]; simp)).mpr (by rw [hp]; rfl)
      | core i => exact sound.destroyed (.core i) (by simpa [File.effect, File.destroy] using he)
    · cases e with
      | sched => simp [File.effect, File.destroy, hsched]
      | core i =>
          have hi := (hcore i).mp he
          simp [File.effect, File.destroy, hdestroyed, hi]
    · simp [File.effect, inv.schedList, hlarge, hfreed]

/-- A step of a sound file leaves it sound exactly if it meets the condition. -/
theorem sound_effect_iff (inv : Filed x) (sound : x.Sound) (h : x.enabled n a = true) :
    (x.effect n a).Sound ↔ x.Agree n a := by
  cases a with
  | entityInit answer => exact sound_entityInit inv sound answer h
  | coreInit c answer => exact sound_coreInit inv sound c answer h
  | submit args => exact sound_submit inv sound args h
  | coreDestroy c => exact sound_coreDestroy inv sound c h
  | closeReturns c => exact sound_closeReturns inv sound c h
  | openReturns c =>
      exact iff_of_true (sound.of_not_over (by simp [File.Over, File.effect]) (fun e he => he)
        (fun e he => .inl he) (fun e he => .inl he)) trivial
  | close =>
      exact iff_of_true (sound.of_not_over (by simp [File.Over, File.effect]) (fun e he => he)
        (fun e he => .inl he) (fun e he => .inl he)) trivial

end FileStep

section Driver
variable {s : State} {a : Action}

/-- Of the files, a step changes the one it names. -/
theorem file_step (s : State) (a : Action) (f : Nat) :
    (effect s a).file f = s.file f ∨
      (∃ memory, a = .openFile f memory ∧ (effect s a).file f =
        { s.file f with phase := if memory then .allocated else .oops }) ∨
      ∃ b, a = .file f b ∧ (effect s a).file f = (s.file f).effect (s.coresOf f) b := by
  cases a with
  | openFile g memory =>
      by_cases hf : f = g
      · subst hf
        exact .inr (.inl ⟨memory, rfl, by simp [effect]⟩)
      · exact .inl (by simp [effect, hf])
  | file g b =>
      by_cases hf : f = g
      · subst hf
        exact .inr (.inr ⟨b, rfl, by simp [effect]⟩)
      · exact .inl (by simp [effect, hf])
  | _ => exact .inl rfl

/-- The open of a file that was never used. -/
theorem absent_of_open {f : Nat} {memory : Bool}
    (h : enabled s (.openFile f memory) = true) : (s.file f).phase = .absent := by
  simp only [enabled, Bool.and_eq_true, decide_eq_true_eq] at h
  exact h.1.2

theorem Filed.opened {x : File} (inv : Filed x) (hp : x.phase = .absent) (memory : Bool) :
    Filed { x with phase := if memory then .allocated else .oops } := by
  have hsched := inv.sched (by simp [hp])
  have hcore := inv.core (by simp [hp])
  have hcores := inv.coreDestroyed (by simp [hp])
  rw [hp] at hsched hcores
  rw [show x.count = 0 by simp [File.count, hp]] at hcore
  -- neither phase has begun with the entities
  cases memory <;>
    exact ⟨fun _ => hsched, fun _ => hcore, fun _ => inv.schedDestroyed (by simp [hp]),
      fun _ => hcores, fun _ => inv.freed (by simp [hp]), inv.schedList⟩

theorem filed_step (inv : ∀ f, Filed (s.file f)) (h : enabled s a = true) (f : Nat) :
    Filed ((effect s a).file f) := by
  rcases file_step s a f with heq | ⟨memory, rfl, heq⟩ | ⟨b, rfl, heq⟩
  · rw [heq]
    exact inv f
  · rw [heq]
    exact (inv f).opened (absent_of_open h) memory
  · rw [heq]
    exact (inv f).step h

theorem entitiesSound_iff (inv : ∀ f, Filed (s.file f)) (sound : EntitiesSound s)
    (h : enabled s a = true) : EntitiesSound (effect s a) ↔ CoresAgree s a := by
  constructor
  · intro after
    cases a with
    | file f b =>
        have hf : ((s.file f).effect (s.coresOf f) b).Sound := by
          simpa [effect] using after f
        exact (sound_effect_iff (inv f) (sound f) h).mp hf
    | _ => trivial
  · intro agree f
    rcases file_step s a f with heq | ⟨memory, rfl, heq⟩ | ⟨b, rfl, heq⟩
    · rw [heq]
      exact sound f
    · rw [heq]
      refine (sound f).of_not_over ?_ (fun e he => he) (fun e he => .inl he) (fun e he => .inl he)
      cases memory <;> simp [File.Over]
    · rw [heq]
      exact (sound_effect_iff (inv f) (sound f) h).mpr agree

end Driver

/-- The probe of the first core. -/
def firstProbe : List Action := [.deviceInit, .count, .probeReturns]

/-- The probe of a later core. -/
def laterProbe : List Action := [.enter, .count, .probeReturns]

/-- The open of file `f` with `c` entities of cores. -/
def openSteps (f c : Nat) : List Action :=
  [.openFile f true, .file f (.entityInit none)] ++
    (List.range c).map (fun i => .file f (.coreInit i none)) ++ [.file f (.openReturns c)]

/-- The close of file `f` that goes over `c` cores. -/
def closeSteps (f c : Nat) : List Action :=
  .file f .close :: (List.range c).map (fun i => .file f (.coreDestroy i)) ++
    [.file f (.closeReturns c)]

/-- The arguments of a submit to core 1. -/
def core1Args : RknpuSubmit where
  flags := 0#32
  taskStart := 0#32
  taskNumber := 1#32
  taskCounter := 0#32
  taskObjAddr := 0#64
  iommuDomainId := 0#32
  taskBaseAddr := 0#64
  coreMask := 2#32
  subcoreTask := fun _ => ⟨0#32, 0#32⟩

/-- A file is opened, used and closed while two cores are bound. -/
def twoCores : List Action :=
  firstProbe ++ laterProbe ++ openSteps 0 2 ++ .file 0 (.submit core1Args) :: closeSteps 0 2

theorem twoCores_accepted :
    ((exec entities State.init twoCores).map fun s => decide ((s.file 0).phase = .closed)) =
      some true := by
  decide

/-- A file is opened while core 0 is the only one; core 1 is probed, and a submit of the
file names it. -/
def lateCore : List Action :=
  firstProbe ++ openSteps 0 1 ++ laterProbe ++ [.file 0 (.submit core1Args)]

theorem lateCore_accepted : ((exec entities State.init lateCore).map fun s =>
    decide ((s.file 0).handed (.core 1) = true ∧ (s.file 0).initialised (.core 1) = false)) =
      some true := by
  decide

-- a file opened before the first `num_cores++` has no entity for the core it then submits to
example : ((exec entities State.init
    (.deviceInit :: openSteps 0 0 ++ [.count, .probeReturns, .file 0 (.submit core1Args)])).map
      fun s => decide ((s.file 0).handed (.core 0) = true ∧
        (s.file 0).initialised (.core 0) = false)) = some true := by
  decide

end Rkopnu.Entities
