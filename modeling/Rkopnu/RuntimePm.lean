import Rkopnu.Table
import Rkopnu.Uapi

/-!
# Clocks and runtime PM of the cores

A core's clocks are enabled once for as long as its driver is bound, and once more for as long
as runtime PM counts the core as active. The power-up sequence of the domains needs them
running before `rocket_device_runtime_resume` gets to enable them.

## Implementation notes

The driver core resumes a device before it unbinds it. `rocket_core_fini` puts its reference
without suspending, but turning autosuspend off right after lets runtime PM suspend an idle
core there. Every probe here succeeds; what a failing `rocket_core_init` takes back is the
subject of another module. The power unit and the scheduler are taken as they come: any `get`
and `put` of a core, any change of a `credit_count`. A core that sleeps with the system is not
unbound. `resumes` and `asleep` are what `pm_runtime_force_suspend`
leaves to `pm_runtime_force_resume`.
-/

namespace Rkopnu.RuntimePm

open Function (update)
open Transition

/-- `ENODEV`. -/
def enodev : Errno := .other 19

/-- `EBUSY`. -/
def ebusy : Errno := .other 16

/-- What runtime PM and the clock framework keep of a core device. -/
structure Device where
  usage : Nat
  /-- `disable_depth` is 0. -/
  enabled : Bool
  /-- `RPM_ACTIVE`; the device is suspended otherwise. -/
  active : Bool
  /-- How often the clocks are enabled. -/
  clocks : Nat
  /-- Between `pm_runtime_force_suspend` and `pm_runtime_force_resume`. -/
  asleep : Bool
  /-- `needs_force_resume`. -/
  resumes : Bool
  deriving DecidableEq, Repr

structure State where
  table : Table.State
  device : Nat → Device
  /-- `rdev->cores[i].sched.credit_count`. -/
  credits : Nat → Nat

/-- The module is loaded, no device is bound. -/
def State.init (available : Finset Nat) : State where
  table := Table.State.init available
  device := fun _ => ⟨0, false, false, 0, false, false⟩
  credits := fun _ => 0

/-- One device is changed. -/
def State.modify (s : State) (d : Nat) (f : Device → Device) : State :=
  { s with device := update s.device d (f (s.device d)) }

/-- `rocket_job_is_idle`. -/
def rocketJobIsIdle (s : State) (core : Nat) : Bool := decide (s.credits core = 0)

/-- `rocket_device_runtime_resume`; `clk` is the answer of `clk_bulk_prepare_enable`. -/
def rocketDeviceRuntimeResume (s : State) (d : Nat) (clk : Option Errno) :
    Option Errno × State :=
  match s.table.findCoreForDev d with
  | none => (some enodev, s)
  | some _ =>
      match clk with
      | some e => (some e, s)
      | none => (none, s.modify d fun p => { p with clocks := p.clocks + 1 })

/-- `rocket_device_runtime_suspend`. -/
def rocketDeviceRuntimeSuspend (s : State) (d : Nat) : Option Errno × State :=
  match s.table.findCoreForDev d with
  | none => (some enodev, s)
  | some core =>
      if rocketJobIsIdle s core then
        (none, s.modify d fun p => { p with clocks := p.clocks - 1 })
      else (some ebusy, s)

/-- `rpm_resume`, and whether the device is active then. -/
def rpmResume (s : State) (d : Nat) (clk : Option Errno) : Bool × State :=
  if (s.device d).active then (true, s)
  else if (s.device d).enabled = false then (false, s)
  else
    match rocketDeviceRuntimeResume s d clk with
    | (none, t) => (true, t.modify d fun p => { p with active := true })
    | (some _, t) => (false, t)

/-- `rpm_suspend`, which leaves a device in use as it is. -/
def rpmSuspend (s : State) (d : Nat) : State :=
  if (s.device d).usage = 0 ∧ (s.device d).enabled = true ∧ (s.device d).active = true then
    match rocketDeviceRuntimeSuspend s d with
    | (none, t) => t.modify d fun p => { p with active := false }
    | (some _, t) => t
  else s

/-- `pm_runtime_resume_and_get`. -/
def pmRuntimeResumeAndGet (s : State) (d : Nat) (clk : Option Errno) : Bool × State :=
  match rpmResume s d clk with
  | (true, t) => (true, t.modify d fun p => { p with usage := p.usage + 1 })
  | (false, t) => (false, t)

/-- `pm_runtime_force_suspend`: a device that nobody uses may stay suspended afterwards. -/
def pmRuntimeForceSuspend (s : State) (d : Nat) : Option Errno × State :=
  if (s.device d).active = false then
    (none, s.modify d fun p => { p with enabled := false, asleep := true, resumes := false })
  else
    match rocketDeviceRuntimeSuspend s d with
    | (none, t) => (none, t.modify d fun p => { p with
        enabled := false
        active := false
        asleep := true
        resumes := decide (p.usage ≠ 0) })
    | (some e, t) => (some e, t)

/-- `pm_runtime_force_resume`. -/
def pmRuntimeForceResume (s : State) (d : Nat) (clk : Option Errno) : Option Errno × State :=
  let awake := fun p : Device => { p with enabled := true, asleep := false, resumes := false }
  if (s.device d).resumes = false then (none, s.modify d awake)
  else
    match rocketDeviceRuntimeResume s d clk with
    | (none, t) => (none, t.modify d fun p => { awake p with active := true })
    | (some e, t) => (some e, t.modify d awake)

/-- `rocket_probe` with a `rocket_core_init` that succeeds: `drm_sched_init` clears the credits,
and the reference that is taken at the end is never put while the core is bound. -/
def rocketProbe (s : State) (d : Nat) : State :=
  let s := { s with
    table := Table.effect s.table (.probe d)
    credits := update s.credits s.table.deviceInit.numCores 0 }
  let s := s.modify d fun p => { p with clocks := p.clocks + 1, enabled := true }
  (pmRuntimeResumeAndGet s d none).2

/-- `rocket_core_fini`. -/
def rocketCoreFini (s : State) (d : Nat) : State :=
  let s := s.modify d fun p => { p with usage := p.usage - 1 }
  (rpmSuspend s d).modify d fun p => { p with enabled := false }

/-- `rocket_remove`. -/
def rocketRemove (s : State) (d : Nat) : State :=
  match s.table.findCoreForDev d with
  | none => { s with table := Table.effect s.table (.remove d) }
  | some _ =>
      let s := rocketCoreFini s d
      { s with table := Table.effect s.table (.remove d) }

/-- The driver core unbinds the device: `rocket_core_clk_disable` runs after `rocket_remove`,
and a device with runtime PM off counts as suspended from then on. -/
def unbind (s : State) (d : Nat) (clk : Option Errno) : State :=
  (rocketRemove (rpmResume s d clk).2 d).modify d fun p =>
    { p with clocks := p.clocks - 1, active := p.enabled && p.active }

inductive Action
  /-- A successful `rocket_probe` of the device. -/
  | probe (d : Nat)
  | unbind (d : Nat) (clk : Option Errno)
  /-- The power unit resumes the core. -/
  | get (d : Nat) (clk : Option Errno)
  /-- The power unit releases the core. -/
  | put (d : Nat)
  /-- The autosuspend delay of the device is over. -/
  | autosuspend (d : Nat)
  /-- The scheduler takes a credit of the core. -/
  | take (core : Nat)
  /-- It gives one back. -/
  | give (core : Nat)
  /-- The system suspends the device. -/
  | sleep (d : Nat)
  /-- It resumes the device. -/
  | wake (d : Nat) (clk : Option Errno)
  deriving DecidableEq, Repr

/-- The step can be taken. -/
def enabled (s : State) : Action → Bool
  | .probe d => Table.enabled s.table (.probe d)
  | .unbind d _ => Table.enabled s.table (.remove d) && !(s.device d).asleep
  | .get d _ | .put d => decide (d ∈ s.table.bound)
  | .autosuspend d => decide ((s.device d).usage = 0 ∧ (s.device d).enabled = true ∧
      (s.device d).active = true)
  | .take core => decide (core < s.table.numCores)
  | .give core => decide (0 < s.credits core)
  | .sleep d => decide (d ∈ s.table.bound ∧ (s.device d).asleep = false)
  | .wake d _ => (s.device d).asleep

/-- What the step does. -/
def effect (s : State) : Action → State
  | .probe d => rocketProbe s d
  | .unbind d clk => unbind s d clk
  | .get d clk => (pmRuntimeResumeAndGet s d clk).2
  | .put d => s.modify d fun p => { p with usage := p.usage - 1 }
  | .autosuspend d => rpmSuspend s d
  | .take core => { s with credits := update s.credits core (s.credits core + 1) }
  | .give core => { s with credits := update s.credits core (s.credits core - 1) }
  | .sleep d => (pmRuntimeForceSuspend s d).2
  | .wake d clk => (pmRuntimeForceResume s d clk).2

/-- The cores, their clocks and runtime PM as a transition system. -/
def runtimePm : System State Action := fun s a =>
  if enabled s a then some (effect s a) else none

theorem runtimePm_eq_some {s t : State} {a : Action} :
    runtimePm s a = some t ↔ enabled s a = true ∧ effect s a = t := by
  unfold runtimePm
  split <;> simp_all

/-- The unbound device is at the end of the table. -/
def RemovesLast (s : State) (a : Action) : Prop := ∀ d clk, a = .unbind d clk →
  (s.table.cores (s.table.numCores - 1)).dev = some d

/-- Somebody uses the core, or a job has a credit of its scheduler. -/
def State.busy (s : State) (d : Nat) : Bool :=
  decide (1 < (s.device d).usage) ||
    (s.table.findCoreForDev d).any fun core => !rocketJobIsIdle s core

/-- The step unbinds the device while it is busy, and active or made so. -/
def strands (d : Nat) (s : State) : Action → Nat
  | .unbind e clk => if e = d ∧ ((s.device d).active = true ∨ clk = none) ∧ s.busy d = true then 1
      else 0
  | _ => 0

/-- As many clock enables stay beside the one of the active state. -/
def Device.Even (p q : Device) : Prop :=
  q.clocks + p.active.toNat = p.clocks + q.active.toNat

/-- Runtime PM of a bound device is off exactly while it sleeps. -/
structure Device.Sound (p : Device) : Prop where
  awake : p.asleep = false → p.enabled = true
  asleep : p.asleep = true → p.active = false ∧ p.enabled = false

/-- What is known of the cores: the clocks of a bound core are enabled for its driver, and once
more while it is active. -/
structure Ledger (s : State) : Prop where
  sized : Table.Sized s.table
  table : Table.TableSound s.table
  unbound : ∀ d, d ∉ s.table.bound → (s.device d).active = false ∧ (s.device d).asleep = false
  bound : ∀ d ∈ s.table.bound, (s.device d).Sound ∧
    1 + (s.device d).active.toNat ≤ (s.device d).clocks

section Calls
variable {s : State} {d : Nat} {clk : Option Errno}

@[simp] theorem modify_table (f : Device → Device) : (s.modify d f).table = s.table := rfl

@[simp] theorem modify_self (f : Device → Device) :
    (s.modify d f).device d = f (s.device d) := by
  simp [State.modify]

theorem modify_of_ne {e : Nat} (h : e ≠ d) (f : Device → Device) :
    (s.modify d f).device e = s.device e := by
  simp [State.modify, h]

theorem modify_modify (f g : Device → Device) :
    (s.modify d f).modify d g = s.modify d fun p => g (f p) := by
  simp [State.modify]

/-- A bound device that is not active is resumed unless its clocks refuse, and nothing else
is changed. -/
theorem rpmResume_eq (hfind : (s.table.findCoreForDev d).isSome = true) :
    rpmResume s d clk =
      if (s.device d).active = true then (true, s)
      else if (s.device d).enabled = true ∧ clk = none then
        (true, s.modify d fun p => { p with clocks := p.clocks + 1, active := true })
      else (false, s) := by
  obtain ⟨core, hcore⟩ := Option.isSome_iff_exists.mp hfind
  unfold rpmResume rocketDeviceRuntimeResume
  cases (s.device d).active with
  | true => rfl
  | false =>
      cases hen : (s.device d).enabled with
      | false => simp
      | true => cases clk <;> simp [hcore, modify_modify]

/-- A bound device is suspended when nobody uses it and no job has a credit of its core. -/
theorem rpmSuspend_eq (hfind : (s.table.findCoreForDev d).isSome = true) :
    rpmSuspend s d =
      if (s.device d).usage = 0 ∧ (s.device d).enabled = true ∧ (s.device d).active = true ∧
        (s.table.findCoreForDev d).all (rocketJobIsIdle s) = true then
        s.modify d fun p => { p with clocks := p.clocks - 1, active := false }
      else s := by
  obtain ⟨core, hcore⟩ := Option.isSome_iff_exists.mp hfind
  unfold rpmSuspend rocketDeviceRuntimeSuspend
  cases hidle : rocketJobIsIdle s core with
  | true => simp [hcore, hidle, modify_modify]
  | false => simp [hcore, hidle]

/-- The reference is taken with the device active. -/
theorem resumeAndGet_eq (hfind : (s.table.findCoreForDev d).isSome = true) :
    (pmRuntimeResumeAndGet s d clk).2 =
      if (s.device d).active = true then s.modify d fun p => { p with usage := p.usage + 1 }
      else if (s.device d).enabled = true ∧ clk = none then
        s.modify d fun p => { p with
          clocks := p.clocks + 1
          active := true
          usage := p.usage + 1 }
      else s := by
  rw [pmRuntimeResumeAndGet, rpmResume_eq hfind]
  by_cases hactive : (s.device d).active = true
  · simp [hactive]
  · by_cases hgo : (s.device d).enabled = true ∧ clk = none
    · simp [hactive, hgo, modify_modify]
    · simp only [hactive, hgo, if_false, Bool.false_eq_true]

/-- An active device with a job on its core refuses to sleep. -/
theorem forceSuspend_eq (hfind : (s.table.findCoreForDev d).isSome = true) :
    (pmRuntimeForceSuspend s d).2 =
      if (s.device d).active = false then
        s.modify d fun p => { p with enabled := false, asleep := true, resumes := false }
      else if (s.table.findCoreForDev d).all (rocketJobIsIdle s) = true then
        s.modify d fun p => { p with
          clocks := p.clocks - 1
          enabled := false
          active := false
          asleep := true
          resumes := decide (p.usage ≠ 0) }
      else s := by
  obtain ⟨core, hcore⟩ := Option.isSome_iff_exists.mp hfind
  unfold pmRuntimeForceSuspend rocketDeviceRuntimeSuspend
  split
  · rfl
  · cases hidle : rocketJobIsIdle s core with
    | true => simp [hcore, hidle, modify_modify]
    | false => simp [hcore, hidle]

/-- The device is awake again, and active if it is to resume and its clocks do not refuse. -/
theorem forceResume_eq (hfind : (s.table.findCoreForDev d).isSome = true) :
    (pmRuntimeForceResume s d clk).2 =
      if (s.device d).resumes = true ∧ clk = none then
        s.modify d fun p => { p with
          clocks := p.clocks + 1
          enabled := true
          active := true
          asleep := false
          resumes := false }
      else s.modify d fun p => { p with enabled := true, asleep := false, resumes := false } := by
  obtain ⟨core, hcore⟩ := Option.isSome_iff_exists.mp hfind
  unfold pmRuntimeForceResume rocketDeviceRuntimeResume
  cases (s.device d).resumes with
  | false => simp
  | true => cases clk <;> simp [hcore, modify_modify]

/-- The core is left suspended unless it is busy, and runtime PM is off. -/
theorem rocketCoreFini_eq (hfind : (s.table.findCoreForDev d).isSome = true)
    (hen : (s.device d).enabled = true) :
    rocketCoreFini s d = s.modify d fun p =>
      if p.active = true ∧ s.busy d = false then
        { p with usage := p.usage - 1, clocks := p.clocks - 1, active := false, enabled := false }
      else { p with usage := p.usage - 1, enabled := false } := by
  obtain ⟨core, hcore⟩ := Option.isSome_iff_exists.mp hfind
  have hbusy : s.busy d = false ↔ (s.device d).usage - 1 = 0 ∧ s.credits core = 0 := by
    simp only [State.busy, hcore, Option.any_some, Bool.or_eq_false_iff, decide_eq_false_iff_not,
      Bool.not_eq_false', rocketJobIsIdle, decide_eq_true_eq]
    omega
  have hidle : rocketJobIsIdle (s.modify d fun p => { p with usage := p.usage - 1 }) core =
      decide (s.credits core = 0) := rfl
  unfold rocketCoreFini
  dsimp only
  rw [rpmSuspend_eq (by simpa using hfind)]
  simp only [modify_self, modify_table, hcore, Option.all_some, hidle, decide_eq_true_eq, hen,
    true_and]
  by_cases hgo : (s.device d).active = true ∧ s.busy d = false
  · obtain ⟨husage, hcredits⟩ := hbusy.mp hgo.2
    rw [if_pos ⟨husage, hgo.1, hcredits⟩]
    simp [State.modify, hgo]
  · rw [if_neg (fun h => hgo ⟨h.2.1, hbusy.mpr ⟨h.1, h.2.2⟩⟩)]
    simp [State.modify, hgo]

end Calls

section Step
variable {s : State} {d : Nat}

theorem Ledger.find (inv : Ledger s) (hd : d ∈ s.table.bound) :
    (s.table.findCoreForDev d).isSome = true := by
  obtain ⟨i, -, hfind, -⟩ := inv.table.found d hd
  simp [hfind]

theorem Ledger.mem_of_active (inv : Ledger s) (h : (s.device d).active = true) :
    d ∈ s.table.bound := by
  by_contra hd
  simp [(inv.unbound d hd).1] at h

theorem Ledger.mem_of_asleep (inv : Ledger s) (h : (s.device d).asleep = true) :
    d ∈ s.table.bound := by
  by_contra hd
  simp [(inv.unbound d hd).2] at h

/-- The step changes one bound device, and keeps its clocks even. -/
structure Touches (s t : State) (d : Nat) : Prop where
  mem : d ∈ s.table.bound
  table : t.table = s.table
  others : ∀ e, e ≠ d → t.device e = s.device e
  even : (s.device d).Even (t.device d)
  sound : (t.device d).Sound

theorem touches_modify (hd : d ∈ s.table.bound) (f : Device → Device)
    (heven : (s.device d).Even (f (s.device d))) (hsound : (f (s.device d)).Sound) :
    Touches s (s.modify d f) d where
  mem := hd
  table := rfl
  others := fun _ he => modify_of_ne he f
  even := by rwa [modify_self]
  sound := by rwa [modify_self]

theorem Touches.refl (hd : d ∈ s.table.bound) (hsound : (s.device d).Sound) :
    Touches s s d where
  mem := hd
  table := rfl
  others := fun _ _ => rfl
  even := rfl
  sound := hsound

theorem Ledger.touch_get (inv : Ledger s) (hd : d ∈ s.table.bound) (clk : Option Errno) :
    Touches s (effect s (.get d clk)) d := by
  obtain ⟨hsound, -⟩ := inv.bound d hd
  rw [show effect s (.get d clk) = _ from resumeAndGet_eq (inv.find hd)]
  split
  · exact touches_modify hd _ rfl ⟨hsound.awake, hsound.asleep⟩
  · rename_i hoff
    split
    · rename_i hgo
      refine touches_modify hd _ ?_ ⟨fun _ => hgo.1, fun hsleep => ?_⟩
      · simp [Device.Even, hoff]
      · simp [(hsound.asleep hsleep).2] at hgo
    · exact Touches.refl hd hsound

theorem Ledger.touch_suspend (inv : Ledger s) (hd : d ∈ s.table.bound) :
    Touches s (rpmSuspend s d) d := by
  obtain ⟨hsound, hclocks⟩ := inv.bound d hd
  rw [rpmSuspend_eq (inv.find hd)]
  split
  · rename_i hgo
    obtain ⟨-, hen, hactive, -⟩ := hgo
    refine touches_modify hd _ ?_ ⟨fun _ => hen, fun hsleep => ?_⟩
    · simp only [Device.Even, hactive, Bool.toNat_true, Bool.toNat_false] at hclocks ⊢
      omega
    · simp [(hsound.asleep hsleep).2] at hen
  · exact Touches.refl hd hsound

theorem Ledger.touch_sleep (inv : Ledger s) (hd : d ∈ s.table.bound) :
    Touches s (effect s (.sleep d)) d := by
  obtain ⟨hsound, hclocks⟩ := inv.bound d hd
  rw [show effect s (.sleep d) = _ from forceSuspend_eq (inv.find hd)]
  split
  · rename_i hoff
    exact touches_modify hd _ rfl ⟨fun h => by simp at h, fun _ => ⟨hoff, rfl⟩⟩
  · rename_i hactive
    rw [Bool.not_eq_false] at hactive
    split
    · refine touches_modify hd _ ?_ ⟨fun h => by simp at h, fun _ => ⟨rfl, rfl⟩⟩
      simp only [Device.Even, hactive, Bool.toNat_true, Bool.toNat_false] at hclocks ⊢
      omega
    · exact Touches.refl hd hsound

theorem Ledger.touch_wake (inv : Ledger s) (hsleep : (s.device d).asleep = true)
    (clk : Option Errno) : Touches s (effect s (.wake d clk)) d := by
  have hd := inv.mem_of_asleep hsleep
  have hoff := ((inv.bound d hd).1.asleep hsleep).1
  rw [show effect s (.wake d clk) = _ from forceResume_eq (inv.find hd)]
  split
  · refine touches_modify hd _ ?_ ⟨fun _ => rfl, fun h => by simp at h⟩
    simp [Device.Even, hoff]
  · exact touches_modify hd _ rfl ⟨fun _ => rfl, fun h => by simp at h⟩

/-- A step that is neither a probe nor an unbind changes one bound device at most. -/
theorem Ledger.touch (inv : Ledger s) {a : Action} (h : enabled s a = true)
    (hprobe : ∀ d, a ≠ .probe d) (hunbind : ∀ d clk, a ≠ .unbind d clk) :
    ((effect s a).table = s.table ∧ (effect s a).device = s.device) ∨
      ∃ d, Touches s (effect s a) d := by
  cases a with
  | probe d => exact absurd rfl (hprobe d)
  | unbind d clk => exact absurd rfl (hunbind d clk)
  | get d clk => exact .inr ⟨d, inv.touch_get (of_decide_eq_true h) clk⟩
  | put d =>
      have hd : d ∈ s.table.bound := of_decide_eq_true h
      obtain ⟨hsound, -⟩ := inv.bound d hd
      exact .inr ⟨d, touches_modify hd (fun p => { p with usage := p.usage - 1 }) rfl
        ⟨hsound.awake, hsound.asleep⟩⟩
  | autosuspend d =>
      exact .inr ⟨d, inv.touch_suspend (inv.mem_of_active (of_decide_eq_true h).2.2)⟩
  | take core | give core => exact .inl ⟨rfl, rfl⟩
  | sleep d => exact .inr ⟨d, inv.touch_sleep (of_decide_eq_true h).1⟩
  | wake d clk => exact .inr ⟨d, inv.touch_wake h clk⟩

/-- Touching a bound device leaves the ledger right. -/
theorem Ledger.of_touches {t : State} (inv : Ledger s) (ht : Touches s t d) : Ledger t where
  sized := ht.table ▸ inv.sized
  table := ht.table ▸ inv.table
  unbound := fun e he => by
    rw [ht.table] at he
    have hne : e ≠ d := by
      rintro rfl
      exact he ht.mem
    rw [ht.others e hne]
    exact inv.unbound e he
  bound := fun e he => by
    rw [ht.table] at he
    by_cases hne : e = d
    · subst hne
      have heven := ht.even
      have hclocks := (inv.bound e he).2
      simp only [Device.Even] at heven
      exact ⟨ht.sound, by omega⟩
    · rw [ht.others e hne]
      exact inv.bound e he

/-- A device that is probed has its clocks enabled twice, and is active. -/
theorem Ledger.probe (inv : Ledger s) (h : enabled s (.probe d) = true) :
    (effect s (.probe d)).table = Table.effect s.table (.probe d) ∧
      (∀ e, e ≠ d → (effect s (.probe d)).device e = s.device e) ∧
      (effect s (.probe d)).device d = { s.device d with
        usage := (s.device d).usage + 1
        enabled := true
        active := true
        clocks := (s.device d).clocks + 2 } := by
  have app := inv.sized.appended h
  have hoff := (inv.unbound d app.new).1
  have hfind := app.find_new inv.table
  simp only [effect, rocketProbe]
  rw [resumeAndGet_eq (by simp [hfind])]
  simp only [modify_self, hoff, Bool.false_eq_true, if_false, and_self, if_true, modify_table,
    true_and, and_true]
  intro e he
  rw [modify_of_ne he, modify_of_ne he]

/-- The driver core resumes a device that is awake before it unbinds it. -/
theorem Ledger.resumed (inv : Ledger s) (hd : d ∈ s.table.bound)
    (hasleep : (s.device d).asleep = false) (clk : Option Errno) :
    ∃ q, (rpmResume s d clk).2 = s.modify d (fun _ => q) ∧
      q.asleep = false ∧ q.enabled = true ∧ q.usage = (s.device d).usage ∧
      (q.active = true ↔ (s.device d).active = true ∨ clk = none) ∧ (s.device d).Even q := by
  have hen := (inv.bound d hd).1.awake hasleep
  have same : s.modify d (fun _ => s.device d) = s := by simp [State.modify]
  rw [rpmResume_eq (inv.find hd)]
  by_cases hactive : (s.device d).active = true
  · refine ⟨s.device d, ?_, hasleep, hen, rfl, ?_, rfl⟩
    · rw [if_pos hactive, same]
    · simp [hactive]
  · rw [if_neg hactive]
    by_cases hclk : clk = none
    · refine ⟨{ s.device d with clocks := (s.device d).clocks + 1, active := true }, ?_, hasleep,
        hen, rfl, ?_, ?_⟩
      · rw [if_pos ⟨hen, hclk⟩]
        rfl
      · simp [hclk]
      · simp [Device.Even, hactive]
    · refine ⟨s.device d, ?_, hasleep, hen, rfl, ?_, rfl⟩
      · rw [if_neg (fun h => hclk h.2), same]
      · simp [hactive, hclk]

/-- A device that is unbound is suspended, and keeps one clock enable if it was stranded. -/
theorem Ledger.unbind (inv : Ledger s) {clk : Option Errno}
    (h : enabled s (.unbind d clk) = true) :
    (effect s (.unbind d clk)).table = Table.effect s.table (.remove d) ∧
      (∀ e, e ≠ d → (effect s (.unbind d clk)).device e = s.device e) ∧
      ((effect s (.unbind d clk)).device d).active = false ∧
      ((effect s (.unbind d clk)).device d).asleep = false ∧
      ((effect s (.unbind d clk)).device d).clocks + 1 + (s.device d).active.toNat =
        (s.device d).clocks + strands d s (.unbind d clk) := by
  obtain ⟨hbound, hawake⟩ := Bool.and_eq_true_iff.mp h
  have hd : d ∈ s.table.bound := of_decide_eq_true hbound
  obtain ⟨q, hs, hasleep, hen, husage, hactive, heven⟩ :=
    inv.resumed hd (by simpa using hawake) clk
  have hclocks := (inv.bound d hd).2
  obtain ⟨core, hcore⟩ := Option.isSome_iff_exists.mp (inv.find hd)
  have hbusy : (s.modify d fun _ => q).busy d = s.busy d := by
    simp only [State.busy, modify_self, modify_table, husage]
    rfl
  have hfini := rocketCoreFini_eq (s := s.modify d fun _ => q) (d := d)
    (by simp [hcore]) (by simpa using hen)
  rw [hbusy, modify_modify] at hfini
  have hstrands : strands d s (.unbind d clk) =
      if q.active = true ∧ s.busy d = true then 1 else 0 := by
    simp [strands, hactive]
  simp only [effect, RuntimePm.unbind, rocketRemove, hs, modify_table, hcore, hfini, modify_self,
    true_and]
  refine ⟨fun e he => ?_, ?_, ?_, ?_⟩
  · simp [State.modify, he]
  · split <;> rfl
  · split <;> exact hasleep
  · rw [hstrands]
    simp only [Device.Even] at heven
    cases hq : q.active with
    | false =>
        simp only [hq, Bool.toNat_false, Bool.false_eq_true, false_and, if_false] at heven ⊢
        omega
    | true =>
        cases hb : s.busy d <;>
          simp only [hq, Bool.toNat_true, true_and, if_true, Bool.true_eq_false,
            Bool.false_eq_true, if_false] at heven ⊢ <;> omega

theorem Ledger.step_probe (inv : Ledger s) (h : enabled s (.probe d) = true) :
    Ledger (effect s (.probe d)) := by
  obtain ⟨htable, hothers, hself⟩ := inv.probe h
  have app := inv.sized.appended h
  have hasleep := (inv.unbound d app.new).2
  refine ⟨htable ▸ inv.sized.preserve h, htable ▸ inv.table.probe inv.sized h, fun e he => ?_,
    fun e he => ?_⟩
  · rw [htable, app.bound, Finset.mem_insert, not_or] at he
    rw [hothers e he.1]
    exact inv.unbound e he.2
  · rw [htable, app.bound, Finset.mem_insert] at he
    by_cases hne : e = d
    · subst hne
      rw [hself]
      exact ⟨⟨fun _ => rfl, fun hsleep => by simp [hasleep] at hsleep⟩, by simp⟩
    · rw [hothers e hne]
      exact inv.bound e (he.resolve_left hne)

theorem Ledger.bound_unbind (inv : Ledger s) (hd : d ∈ s.table.bound) :
    (Table.effect s.table (.remove d)).bound = s.table.bound.erase d := by
  obtain ⟨core, hcore⟩ := Option.isSome_iff_exists.mp (inv.find hd)
  simp only [Table.effect, hcore]

theorem Ledger.step_unbind (inv : Ledger s) {clk : Option Errno}
    (h : enabled s (.unbind d clk) = true) (last : RemovesLast s (.unbind d clk)) :
    Ledger (effect s (.unbind d clk)) := by
  obtain ⟨htable, hothers, hoff, hasleep, -⟩ := inv.unbind h
  have hbound := (Bool.and_eq_true_iff.mp h).1
  have hmem := inv.bound_unbind (of_decide_eq_true hbound)
  have htail : Table.RemovesLast s.table (.remove d) := by
    intro e he
    obtain rfl := Table.Action.remove.inj he
    exact last d clk rfl
  refine ⟨htable ▸ inv.sized.preserve hbound, htable ▸ inv.table.remove htail hbound,
    fun e he => ?_, fun e he => ?_⟩
  · by_cases hne : e = d
    · subst hne
      exact ⟨hoff, hasleep⟩
    · rw [hothers e hne]
      refine inv.unbound e fun hmem' => he ?_
      rw [htable, hmem]
      exact Finset.mem_erase.mpr ⟨hne, hmem'⟩
  · rw [htable, hmem, Finset.mem_erase] at he
    rw [hothers e he.1]
    exact inv.bound e he.2

theorem Ledger.preserve (inv : Ledger s) {a : Action} (last : RemovesLast s a)
    (h : enabled s a = true) : Ledger (effect s a) := by
  by_cases hprobe : ∃ d, a = .probe d
  · obtain ⟨d, rfl⟩ := hprobe
    exact inv.step_probe h
  · by_cases hunbind : ∃ d clk, a = .unbind d clk
    · obtain ⟨d, clk, rfl⟩ := hunbind
      exact inv.step_unbind h last
    · rcases inv.touch h (not_exists.mp hprobe) (fun d clk => not_exists.mp
        (not_exists.mp hunbind d) clk) with ⟨htable, hdevice⟩ | ⟨d, ht⟩
      · exact ⟨htable ▸ inv.sized, htable ▸ inv.table, htable ▸ hdevice ▸ inv.unbound,
          htable ▸ hdevice ▸ inv.bound⟩
      · exact inv.of_touches ht

theorem Ledger.initial (devs : Finset Nat) : Ledger (State.init devs) where
  sized := Table.Sized.initial devs
  table := Table.TableSound.initial devs
  unbound := fun _ _ => ⟨rfl, rfl⟩
  bound := fun d hd => absurd hd (Finset.notMem_empty d)

/-- The clock enables of a device that neither its driver nor its active state accounts for. -/
def State.spare (s : State) (d : Nat) : Nat :=
  (s.device d).clocks - ((if d ∈ s.table.bound then 1 else 0) + (s.device d).active.toNat)

theorem Ledger.clocks_eq (inv : Ledger s) (d : Nat) : (s.device d).clocks =
    (if d ∈ s.table.bound then 1 else 0) + (s.device d).active.toNat + s.spare d := by
  unfold State.spare
  by_cases hd : d ∈ s.table.bound
  · have hclocks := (inv.bound d hd).2
    rw [if_pos hd]
    omega
  · rw [if_neg hd, (inv.unbound d hd).1, Bool.toNat_false]
    omega

/-- A step leaves one more enable behind where it strands the device, and none elsewhere. -/
theorem Ledger.spare_step (inv : Ledger s) {a : Action} (last : RemovesLast s a)
    (h : enabled s a = true) (d : Nat) : (effect s a).spare d = s.spare d + strands d s a := by
  have hbefore := inv.clocks_eq d
  have hafter := (inv.preserve last h).clocks_eq d
  by_cases hprobe : ∃ e, a = .probe e
  · obtain ⟨e, rfl⟩ := hprobe
    obtain ⟨htable, hothers, hself⟩ := inv.probe h
    have app := inv.sized.appended h
    rw [htable, app.bound] at hafter
    by_cases hne : d = e
    · subst hne
      rw [if_neg app.new, (inv.unbound d app.new).1] at hbefore
      rw [hself, if_pos (Finset.mem_insert_self d _)] at hafter
      simp only [Bool.toNat_true, Bool.toNat_false, strands] at hbefore hafter ⊢
      omega
    · rw [hothers d hne] at hafter
      simp only [Finset.mem_insert, hne, false_or, strands] at hafter ⊢
      omega
  · by_cases hunbind : ∃ e clk, a = .unbind e clk
    · obtain ⟨e, clk, rfl⟩ := hunbind
      obtain ⟨htable, hothers, hoff, -, hclocks⟩ := inv.unbind h
      have hd := of_decide_eq_true (Bool.and_eq_true_iff.mp h).1
      rw [htable, inv.bound_unbind hd] at hafter
      by_cases hne : d = e
      · subst hne
        rw [if_pos hd] at hbefore
        rw [hoff, if_neg (Finset.notMem_erase d _), Bool.toNat_false] at hafter
        omega
      · rw [hothers d hne] at hafter
        simp only [Finset.mem_erase, ne_eq, hne, not_false_eq_true, true_and, strands,
          Ne.symm (a := d) hne, false_and, if_false] at hafter ⊢
        omega
    · have hnone : strands d s a = 0 := by
        cases a with
        | unbind e clk => exact absurd ⟨e, clk, rfl⟩ hunbind
        | _ => rfl
      rcases inv.touch h (not_exists.mp hprobe) (fun d clk => not_exists.mp
        (not_exists.mp hunbind d) clk) with ⟨htable, hdevice⟩ | ⟨e, ht⟩
      · simp only [State.spare, htable, hdevice, hnone, Nat.add_zero]
      · rw [ht.table] at hafter
        by_cases hne : d = e
        · subst hne
          have heven := ht.even
          simp only [Device.Even] at heven
          omega
        · rw [ht.others d hne] at hafter
          omega

theorem Ledger.of_run {t : State} {acts : List Action} (inv : Ledger s)
    (run : Runs runtimePm s acts t) (last : Along runtimePm RemovesLast s acts) : Ledger t := by
  refine invariant_along Ledger (fun s a t inv hlast hstep => ?_) last run inv
  obtain ⟨h, rfl⟩ := runtimePm_eq_some.mp hstep
  exact inv.preserve hlast h

/-- No step but its unbinding makes a core with a job inactive. -/
theorem Ledger.active_step (inv : Ledger s) {a : Action} (h : enabled s a = true) {core : Nat}
    (hcore : s.table.findCoreForDev d = some core) (hjob : s.credits core ≠ 0)
    (hactive : (s.device d).active = true) (hstay : ∀ clk, a ≠ .unbind d clk) :
    ((effect s a).device d).active = true := by
  have hd := inv.mem_of_active hactive
  have hbusy : (s.table.findCoreForDev d).all (rocketJobIsIdle s) = false := by
    simp [hcore, rocketJobIsIdle, hjob]
  have other : ∀ {e f}, (d = e → (f (s.device d)).active = true) →
      ((s.modify e f).device d).active = true := by
    intro e f hself
    by_cases hne : d = e
    · subst hne
      rw [modify_self]
      exact hself rfl
    · rwa [modify_of_ne hne]
  cases a with
  | probe e =>
      have hne : d ≠ e := by
        rintro rfl
        exact (inv.sized.appended h).new hd
      rwa [(inv.probe h).2.1 d hne]
  | unbind e clk =>
      have hne : d ≠ e := by
        rintro rfl
        exact hstay clk rfl
      rwa [(inv.unbind h).2.1 d hne]
  | get e clk =>
      rw [show effect s (.get e clk) = _ from resumeAndGet_eq (inv.find (of_decide_eq_true h))]
      split
      · exact other fun _ => hactive
      · split
        · exact other fun _ => rfl
        · exact hactive
  | put e => exact other (f := fun p => { p with usage := p.usage - 1 }) fun _ => hactive
  | autosuspend e =>
      have he := inv.mem_of_active (of_decide_eq_true h).2.2
      rw [show effect s (.autosuspend e) = _ from rpmSuspend_eq (inv.find he)]
      split
      · rename_i hgo
        refine other fun hde => ?_
        subst hde
        simp [hbusy] at hgo
      · exact hactive
  | take e | give e => exact hactive
  | sleep e =>
      rw [show effect s (.sleep e) = _ from forceSuspend_eq (inv.find (of_decide_eq_true h).1)]
      split
      · exact other fun _ => hactive
      · split
        · rename_i hidle
          refine other fun hde => ?_
          subst hde
          simp [hbusy] at hidle
        · exact hactive
  | wake e clk =>
      rw [show effect s (.wake e clk) = _ from forceResume_eq (inv.find (inv.mem_of_asleep h))]
      split
      · exact other fun _ => rfl
      · exact other fun _ => hactive

end Step

variable {devs : Finset Nat} {acts : List Action} {s : State}

/-- In every run that unbinds the cores from the end of the table, whatever the power unit, the
scheduler and the system ask of runtime PM in between: a core is active only while it is bound,
and its clocks are enabled once for its driver, once more while it is active, and once more for
each time it was unbound while it was busy. So the clocks of a bound core always run, and those
of an unbound one run on exactly if it was ever stranded. -/
theorem clocks_follow_cores (run : Runs runtimePm (State.init devs) acts s)
    (last : Along runtimePm RemovesLast (State.init devs) acts) (d : Nat) :
    ((s.device d).active = true → d ∈ s.table.bound) ∧
      (s.device d).clocks = (if d ∈ s.table.bound then 1 else 0) + (s.device d).active.toNat +
        total runtimePm (strands d) (State.init devs) acts := by
  have inv := (Ledger.initial devs).of_run run last
  refine ⟨inv.mem_of_active, ?_⟩
  have hcount := count_eq_total_along (fun s => s.spare d) (strands d)
    (fun s a t (inv : Ledger s) hlast hstep => ?_) (fun s a t inv hlast hstep => ?_) run last
    (Ledger.initial devs)
  · rw [inv.clocks_eq d, hcount]
    simp [State.spare, State.init, Table.State.init]
  · obtain ⟨h, rfl⟩ := runtimePm_eq_some.mp hstep
    exact inv.preserve hlast h
  · obtain ⟨h, rfl⟩ := runtimePm_eq_some.mp hstep
    exact inv.spare_step hlast h d

/-- In every such run a core that has a job and is active stays so, with its clocks enabled
twice, through every step that does not unbind it: neither the autosuspend delay nor the
system's sleep takes the power from under a job. -/
theorem job_keeps_core_active (run : Runs runtimePm (State.init devs) acts s)
    (last : Along runtimePm RemovesLast (State.init devs) acts) {a : Action} {t : State}
    (hstep : runtimePm s a = some t) (hlast : RemovesLast s a) {d core : Nat}
    (hcore : s.table.findCoreForDev d = some core) (hjob : s.credits core ≠ 0)
    (hactive : (s.device d).active = true) (hstay : ∀ clk, a ≠ .unbind d clk) :
    (t.device d).active = true ∧ 2 ≤ (t.device d).clocks := by
  obtain ⟨h, rfl⟩ := runtimePm_eq_some.mp hstep
  have inv := (Ledger.initial devs).of_run run last
  have hstill := inv.active_step h hcore hjob hactive hstay
  have later := inv.preserve hlast h
  have hclocks := (later.bound d (later.mem_of_active hstill)).2
  rw [hstill] at hclocks
  exact ⟨hstill, hclocks⟩

/-- A core is unbound with a job on it, then bound and unbound again without one. -/
def unboundBusy : List Action :=
  [.probe 0, .take 0, .unbind 0 none, .probe 0, .sleep 0, .wake 0 none, .unbind 0 none]

instance (s : State) (a : Action) : Decidable (RemovesLast s a) :=
  match a with
  | .unbind d clk => decidable_of_iff ((s.table.cores (s.table.numCores - 1)).dev = some d)
      ⟨fun h e clk' he => by obtain ⟨rfl, -⟩ := Action.unbind.inj he; exact h, fun h => h d clk rfl⟩
  | .probe _ | .get _ _ | .put _ | .autosuspend _ | .take _ | .give _ | .sleep _ | .wake _ _ =>
      isTrue fun _ _ h => by cases h

theorem unboundBusy_accepted :
    ((exec runtimePm (State.init {0}) unboundBusy).map fun s =>
      decide ((s.device 0).clocks = 1)) = some true := by
  decide

theorem clocks_follow_cores_unboundBusy : ∃ s, Runs runtimePm (State.init {0}) unboundBusy s ∧
    (s.device 0).clocks = 1 ∧
    (s.device 0).clocks = (if 0 ∈ s.table.bound then 1 else 0) + (s.device 0).active.toNat +
      total runtimePm (strands 0) (State.init {0}) unboundBusy := by
  obtain ⟨s, run, test⟩ := runs_of_test unboundBusy_accepted
  refine ⟨s, run, of_decide_eq_true test, (clocks_follow_cores run ?_ 0).2⟩
  exact along_of_decide (by decide)

/-- The core bound last is unbound, the other one takes a job, and the system is to sleep. -/
def takenJob : List Action := [.probe 0, .probe 1, .unbind 1 none, .take 0]

theorem takenJob_accepted :
    ((exec runtimePm (State.init {0, 1}) takenJob).map fun s =>
      decide (s.table.findCoreForDev 0 = some 0 ∧ s.credits 0 ≠ 0 ∧
        (s.device 0).active = true ∧ enabled s (.sleep 0) = true)) = some true := by
  decide

theorem job_keeps_core_active_takenJob : ∃ s, Runs runtimePm (State.init {0, 1}) takenJob s ∧
    ((effect s (.sleep 0)).device 0).active = true := by
  obtain ⟨s, run, test⟩ := runs_of_test takenJob_accepted
  obtain ⟨hcore, hjob, hactive, hen⟩ := of_decide_eq_true test
  refine ⟨s, run, (job_keeps_core_active run ?_ (a := .sleep 0) (runtimePm_eq_some.mpr ⟨hen, rfl⟩)
    (fun _ _ h => by cases h) hcore hjob hactive (fun _ h => by cases h)).1⟩
  exact along_of_decide (by decide)

end Rkopnu.RuntimePm
