import Rkopnu.Uapi
import Mathlib.Algebra.Group.Basic
import Mathlib.Algebra.Group.Int.Defs
import Mathlib.Logic.Function.Basic

/-!
# Taking back a half-initialised core

`rocket_core_init` takes a reference on the IOMMU group and on the IOMMU device, makes a
workqueue and a scheduler, and turns runtime PM on. Its late error paths leave the way
back to `rocket_core_fini`, which is written for a core that was initialised to the end:
it also drops the never-gate reference.

## Implementation notes

What is managed by the device (`devm_`) is released by the driver core and left out; the
steps that take nothing else are seen by their answers alone. A reference count is an
integer, as a put lowers it whatever it is; the runtime-PM usage count stops at zero.
-/

namespace Rkopnu.CoreInit

open Function (update)

/-- What the kernel answers to the calls of `rocket_core_init`. -/
structure Answers where
  /-- `devm_reset_control_bulk_get_exclusive`. -/
  resets : Option Errno
  /-- `devm_clk_bulk_get`. -/
  clks : Option Errno
  /-- `clk_bulk_prepare_enable`. -/
  clkEnable : Option Errno
  /-- `devm_add_action_or_reset`. -/
  clkAction : Option Errno
  /-- `devm_pm_opp_set_config`. -/
  oppConfig : Option Errno
  /-- `devm_pm_opp_of_add_table`. -/
  oppTable : Option Errno
  /-- `devm_platform_ioremap_resource_byname` for `pc`, `cna` and `core`. -/
  pcIomem : Option Errno
  cnaIomem : Option Errno
  coreIomem : Option Errno
  /-- `dma_set_mask_and_coherent`. -/
  dmaMask : Option Errno
  /-- `iommu_group_get`. -/
  group : Option Nat
  /-- `of_find_device_by_node` on the `iommus` node. -/
  iommu : Option Nat
  /-- `platform_get_irq`. -/
  irq : Option Errno
  /-- `devm_request_threaded_irq`. -/
  requestIrq : Option Errno
  /-- `alloc_ordered_workqueue`. -/
  workqueue : Bool
  /-- `drm_sched_init`. -/
  sched : Option Errno
  /-- `pm_runtime_resume_and_get`. -/
  resume : Option Errno
  /-- `dev_pm_opp_set_rate`. -/
  rate : Option Errno

/-- The pointers of `struct rocket_core` and the counts behind them. -/
structure Core where
  /-- `core->iommu_group`. -/
  iommuGroup : Option Nat
  /-- `core->iommu_dev`. -/
  iommuDev : Option Nat
  groupRefs : Nat → Int
  devRefs : Nat → Int
  /-- `dev->power.usage_count`. -/
  usage : Nat
  /-- `dev->power.disable_depth`. -/
  disableDepth : Nat
  /-- The reset workqueues there are. -/
  workqueues : Nat
  /-- How often `drm_sched_init` has succeeded for the core. -/
  schedInits : Nat
  /-- How often `drm_sched_fini` has run for the core. -/
  schedFinis : Nat

/-- The first error in the order of the calls. -/
def firstError (answers : List (Option Errno)) : Option Errno := answers.findSome? id

namespace Answers
variable (a : Answers)

/-- The calls before `iommu_group_get`; each returns its error at once. -/
def setup : Option Errno :=
  firstError [a.resets, a.clks, a.clkEnable, a.clkAction, a.oppConfig, a.oppTable, a.pcIomem,
    a.cnaIomem, a.coreIomem, a.dmaMask]

/-- The calls of `rocket_job_init` before `drm_sched_init`. -/
def jobSetup : Option Errno :=
  firstError [a.irq, a.requestIrq, if a.workqueue then none else some .nomem]

end Answers

namespace Core
variable (c : Core)

/-- `core->iommu_group = iommu_group_get(dev)`. -/
def groupGet (group : Option Nat) : Core :=
  { c with
    iommuGroup := group
    groupRefs := match group with
      | none => c.groupRefs
      | some g => update c.groupRefs g (c.groupRefs g + 1) }

/-- `iommu_group_put(core->iommu_group)`; the pointer is cleared. -/
def groupPut : Core :=
  { c with
    iommuGroup := none
    groupRefs := match c.iommuGroup with
      | none => c.groupRefs
      | some g => update c.groupRefs g (c.groupRefs g - 1) }

/-- The look-up of the IOMMU device; `of_find_device_by_node` takes a reference. -/
def iommuFind (iommu : Option Nat) : Core :=
  { c with
    iommuDev := match iommu with
      | none => c.iommuDev
      | some d => some d
    devRefs := match iommu with
      | none => c.devRefs
      | some d => update c.devRefs d (c.devRefs d + 1) }

/-- `put_device(core->iommu_dev)`, if there is one; the pointer is cleared. -/
def iommuPut : Core :=
  { c with
    iommuDev := none
    devRefs := match c.iommuDev with
      | none => c.devRefs
      | some d => update c.devRefs d (c.devRefs d - 1) }

/-- `pm_runtime_enable`; one too many only warns. -/
def pmEnable : Core := { c with disableDepth := c.disableDepth - 1 }

/-- `pm_runtime_disable`. -/
def pmDisable : Core := { c with disableDepth := c.disableDepth + 1 }

/-- A successful `pm_runtime_resume_and_get`. -/
def pmGet : Core := { c with usage := c.usage + 1 }

/-- `pm_runtime_put_noidle` and `pm_runtime_put_autosuspend`. -/
def pmPut : Core := { c with usage := c.usage - 1 }

/-- `drm_sched_fini`. -/
def schedFini : Core := { c with schedFinis := c.schedFinis + 1 }

/-- `destroy_workqueue`. -/
def destroyWorkqueue : Core := { c with workqueues := c.workqueues - 1 }

/-- `rocket_job_fini`. -/
def rocketJobFini : Core := c.schedFini.destroyWorkqueue

/-- `rocket_core_fini`. -/
def rocketCoreFini : Core := c.pmPut.pmDisable.iommuPut.groupPut.rocketJobFini

end Core

/-- `rocket_job_init`. -/
def rocketJobInit (a : Answers) (c : Core) : Option Errno × Core :=
  match a.jobSetup with
  | some e => (some e, c)
  | none =>
      let c := { c with workqueues := c.workqueues + 1 }
      match a.sched with
      -- err_sched finalises the scheduler that was not initialised
      | some e => (some e, c.schedFini.destroyWorkqueue)
      | none => (none, { c with schedInits := c.schedInits + 1 })

/-- `rocket_core_init`. -/
def rocketCoreInit (a : Answers) (c : Core) : Option Errno × Core :=
  match a.setup with
  | some e => (some e, c)
  | none =>
      match rocketJobInit a ((c.groupGet a.group).iommuFind a.iommu) with
      | (some e, c) => (some e, c.groupPut)
      | (none, c) =>
          match a.resume with
          | some e => (some e, c.pmEnable.rocketCoreFini)
          | none =>
              match a.rate with
              | some e => (some e, c.pmEnable.pmGet.pmPut.rocketCoreFini)
              | none => (none, c.pmEnable.pmGet)

/-- The counts are those of before the call, no workqueue is left, and the scheduler was
finalised as often as it was initialised. -/
structure Restored (c d : Core) : Prop where
  groupRefs : d.groupRefs = c.groupRefs
  devRefs : d.devRefs = c.devRefs
  usage : d.usage = c.usage
  disableDepth : d.disableDepth = c.disableDepth
  workqueues : d.workqueues = c.workqueues
  sched : d.schedFinis + c.schedInits = c.schedFinis + d.schedInits

/-- The call fails before it takes a reference, or in `rocket_job_init` with no IOMMU device
found and the scheduler not tried, or later on a core that nothing holds resumed. -/
def FailsClean (a : Answers) (c : Core) : Prop :=
  a.setup ≠ none ∨ (a.jobSetup ≠ none ∧ a.iommu = none) ∨
    (a.jobSetup = none ∧ a.sched = none ∧ c.usage = 0 ∧ 0 < c.disableDepth ∧
      (a.iommu = none → c.iommuDev = none))

section Unwinding
variable {a : Answers} {c d : Core}

@[simp] theorem pmPut_pmGet (c : Core) : c.pmGet.pmPut = c := rfl

/-- The core when `rocket_job_init` is called. -/
def prepared (a : Answers) (c : Core) : Core := (c.groupGet a.group).iommuFind a.iommu

/-- The core when runtime PM has been turned on. -/
def enabled (a : Answers) (c : Core) : Core :=
  { prepared a c with
    workqueues := (prepared a c).workqueues + 1
    schedInits := (prepared a c).schedInits + 1 }.pmEnable

theorem groupRefs_groupPut (a : Answers) (c : Core) :
    (prepared a c).groupPut.groupRefs = c.groupRefs := by
  cases hgroup : a.group <;> simp [prepared, hgroup, Core.groupGet, Core.iommuFind, Core.groupPut]

/-- Where a call can fail, and what it leaves of the core. -/
theorem error_cases {e : Errno} (h : rocketCoreInit a c = (some e, d)) :
    (a.setup ≠ none ∧ d = c) ∨
    (a.setup = none ∧ a.jobSetup ≠ none ∧ d = (prepared a c).groupPut) ∨
    (a.setup = none ∧ a.jobSetup = none ∧ a.sched ≠ none ∧
      d = { prepared a c with
        workqueues := (prepared a c).workqueues + 1 }.schedFini.destroyWorkqueue.groupPut) ∨
    (a.setup = none ∧ a.jobSetup = none ∧ a.sched = none ∧
      d = (enabled a c).rocketCoreFini) := by
  unfold rocketCoreInit rocketJobInit at h
  cases hsetup : a.setup with
  | some _ =>
      simp only [hsetup, Prod.mk.injEq] at h
      exact Or.inl ⟨nofun, h.2.symm⟩
  | none =>
      cases hjob : a.jobSetup with
      | some _ =>
          simp only [hsetup, hjob, Prod.mk.injEq] at h
          exact Or.inr (Or.inl ⟨rfl, nofun, h.2.symm⟩)
      | none =>
          cases hsched : a.sched with
          | some _ =>
              simp only [hsetup, hjob, hsched, Prod.mk.injEq] at h
              exact Or.inr (Or.inr (Or.inl ⟨rfl, rfl, nofun, h.2.symm⟩))
          | none =>
              refine Or.inr (Or.inr (Or.inr ⟨rfl, rfl, rfl, ?_⟩))
              cases hresume : a.resume with
              | some _ =>
                  simp only [hsetup, hjob, hsched, hresume, Prod.mk.injEq] at h
                  exact h.2.symm
              | none =>
                  cases hrate : a.rate with
                  | some _ =>
                      simp only [hsetup, hjob, hsched, hresume, hrate, Prod.mk.injEq] at h
                      exact h.2.symm
                  | none => simp [hsetup, hjob, hsched, hresume, hrate] at h

/-- `rocket_job_init` failed early: the group is put, the IOMMU device is not. -/
theorem restored_groupPut_iff : Restored c (prepared a c).groupPut ↔ a.iommu = none := by
  have hgroup := groupRefs_groupPut a c
  constructor
  · intro restored
    cases hiommu : a.iommu with
    | none => rfl
    | some d =>
        refine absurd restored.devRefs ?_
        simp [prepared, hiommu, Core.iommuFind, Core.groupGet, Core.groupPut]
  · intro hiommu
    refine ⟨hgroup, ?_, rfl, rfl, rfl, rfl⟩
    simp [prepared, hiommu, Core.iommuFind, Core.groupGet, Core.groupPut]

/-- `drm_sched_init` failed: the scheduler is finalised all the same. -/
theorem not_restored_schedFini : ¬ Restored c
    ({ prepared a c with
      workqueues := (prepared a c).workqueues + 1 }.schedFini.destroyWorkqueue.groupPut) := by
  intro restored
  have hsched : c.schedFinis + 1 + c.schedInits = c.schedFinis + c.schedInits := restored.sched
  omega

/-- What `rocket_core_fini` does to the references on the IOMMU device. -/
theorem devRefs_coreFini_iff : (enabled a c).rocketCoreFini.devRefs = c.devRefs ↔
    (a.iommu = none → c.iommuDev = none) := by
  cases hiommu : a.iommu with
  | some d =>
      simp [enabled, prepared, hiommu, Core.rocketCoreFini, Core.rocketJobFini, Core.schedFini,
        Core.destroyWorkqueue, Core.groupPut, Core.iommuPut, Core.pmDisable, Core.pmPut,
        Core.pmEnable, Core.iommuFind, Core.groupGet]
  | none =>
      cases hold : c.iommuDev with
      | none =>
          simp [enabled, prepared, hiommu, hold, Core.rocketCoreFini, Core.rocketJobFini,
            Core.schedFini, Core.destroyWorkqueue, Core.groupPut, Core.iommuPut,
            Core.pmDisable, Core.pmPut, Core.pmEnable, Core.iommuFind, Core.groupGet]
      | some d =>
          simp [enabled, prepared, hiommu, hold, Core.rocketCoreFini, Core.rocketJobFini,
            Core.schedFini, Core.destroyWorkqueue, Core.groupPut, Core.iommuPut,
            Core.pmDisable, Core.pmPut, Core.pmEnable, Core.iommuFind, Core.groupGet]

/-- `rocket_core_fini` after runtime PM was turned on. -/
theorem restored_coreFini_iff : Restored c (enabled a c).rocketCoreFini ↔
    c.usage = 0 ∧ 0 < c.disableDepth ∧ (a.iommu = none → c.iommuDev = none) := by
  rw [← devRefs_coreFini_iff]
  have husage : (enabled a c).rocketCoreFini.usage = c.usage - 1 := rfl
  have hdepth : (enabled a c).rocketCoreFini.disableDepth = c.disableDepth - 1 + 1 := rfl
  constructor
  · rintro ⟨-, hrefs, husage', hdepth', -, -⟩
    exact ⟨by omega, by omega, hrefs⟩
  · rintro ⟨husage', hdepth', hrefs⟩
    refine ⟨?_, hrefs, by omega, by omega, rfl, ?_⟩
    · exact groupRefs_groupPut a c
    · change c.schedFinis + 1 + c.schedInits = c.schedFinis + (c.schedInits + 1)
      omega

/-- Whatever the counts were: a call that returns an error has restored them exactly when
it fails clean. -/
theorem restored_iff_failsClean {e : Errno} (h : rocketCoreInit a c = (some e, d)) :
    Restored c d ↔ FailsClean a c := by
  unfold FailsClean
  rcases error_cases h with ⟨hsetup, rfl⟩ | ⟨hsetup, hjob, rfl⟩ | ⟨hsetup, hjob, hsched, rfl⟩ |
    ⟨hsetup, hjob, hsched, rfl⟩
  · exact iff_of_true ⟨rfl, rfl, rfl, rfl, rfl, rfl⟩ (Or.inl hsetup)
  · simp [restored_groupPut_iff, hsetup, hjob]
  · exact iff_of_false not_restored_schedFini (by simp [hsetup, hjob, hsched])
  · simp [restored_coreFini_iff, hsetup, hjob, hsched]

end Unwinding

/-- A core whose device a supplier link holds resumed; group 0 and IOMMU device 0 have
their owners' references. -/
def linkedCore : Core where
  iommuGroup := none
  iommuDev := none
  groupRefs := fun _ => 1
  devRefs := fun _ => 1
  usage := 1
  disableDepth := 1
  workqueues := 0
  schedInits := 0
  schedFinis := 0

/-- Every call succeeds. -/
def Answers.good : Answers where
  resets := none
  clks := none
  clkEnable := none
  clkAction := none
  oppConfig := none
  oppTable := none
  pcIomem := none
  cnaIomem := none
  coreIomem := none
  dmaMask := none
  group := some 0
  iommu := some 0
  irq := none
  requestIrq := none
  workqueue := true
  sched := none
  resume := none
  rate := none

theorem restored_iff_failsClean_unlinked :
    Restored { linkedCore with usage := 0 }
      (rocketCoreInit { Answers.good with rate := some .inval }
        { linkedCore with usage := 0 }).2 :=
  (restored_iff_failsClean (a := { Answers.good with rate := some .inval }) (e := .inval)
    rfl).mpr (Or.inr (Or.inr ⟨rfl, rfl, rfl, by decide, nofun⟩))

/-- A deferred look-up of the interrupt leaves a reference on the IOMMU device behind, and
a failed OPP rate drops the usage count of a supplier link. -/
theorem core_not_restored :
    (¬ ∀ a c d e, rocketCoreInit a c = (some e, d) → Restored c d) ∧
      ¬ Restored linkedCore
        (rocketCoreInit { Answers.good with rate := some .inval } linkedCore).2 := by
  constructor
  · intro all
    have hrefs := (all { Answers.good with irq := some (.other 517) } linkedCore _ _ rfl).devRefs
    exact absurd (congrFun hrefs 0) (by decide)
  · intro restored
    exact absurd restored.usage (by decide)

end Rkopnu.CoreInit
