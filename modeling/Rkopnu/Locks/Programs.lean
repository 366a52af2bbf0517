import Rkopnu.Driver.Step
import Rkopnu.Foundation.Locking

/-!
# The locks of the driver

Every function that takes a lock, as the program of its lock operations, in the order
of the source: what it does to the power unit and the IOMMU groups and to the fields
that decide its branches is an action, a branch on these fields is a test, every
other branch is a free choice. A function that calls another takes the rest of its
code as an argument, one for each outcome.

## Implementation notes

A program names the objects it will meet (the domain that `rocket_iommu_domain_get`
returns, the BO) from the start. A reservation lock is the one `drm_gem_vmap`,
`drm_gem_vunmap`, `drm_gem_shmem_get_pages_sgt` and `drm_gem_shmem_free` take inside;
spinlocks of the DRM core and the scheduler are left out, since nobody sleeps with
one held. The bounded wait of a submit counts as a wait for the threads that may
complete its job.
-/

namespace Rkopnu.Locks

open Function (update)
open Locking
open Driver (maxIommuDomains domainSlot submitEarly)

inductive Lock
  /-- `rocket_priv->domains_lock`. -/
  | domains (f : Nat)
  /-- `domain->mm_lock`. -/
  | mm (d : Nat)
  /-- The reservation lock of a BO. -/
  | resv (b : Nat)
  /-- `rdev->sched_lock`. -/
  | sched
  /-- `core->job_lock`. -/
  | job (c : Nat)
  /-- `rdev->pm_lock`. -/
  | pm
  deriving DecidableEq, Repr

inductive Thread
  /-- A thread in an ioctl or in `close`. -/
  | user (i : Nat)
  /-- The `run_job` worker of a core. -/
  | run (c : Nat)
  /-- The `free_job` worker of a core. -/
  | free (c : Nat)
  | irq (c : Nat)
  /-- The timeout worker of a core. -/
  | tdr (c : Nat)
  deriving DecidableEq, Repr

/-- The function that detaches an IOMMU group. -/
inductive Site
  | run
  | reset
  | close
  deriving DecidableEq, Repr

inductive Act
  /-- `iommu_attach_group`. -/
  | attach (c d : Nat)
  /-- `iommu_detach_group`. -/
  | detach (site : Site) (c : Nat)
  /-- `rocket_device_pm_resume_unit`. -/
  | resume
  /-- `rocket_device_pm_release_unit`. -/
  | release
  /-- The `pm_runtime_put_noidle` loop of `rocket_device_pm_put_noidle`. -/
  | putNoidle
  /-- `rdev->pm_refcount++`. -/
  | pmRef
  /-- `--rdev->pm_refcount`. -/
  | pmUnref
  /-- `core->attached_domain = ...`. -/
  | setAttached (c : Nat) (d : Option Nat)
  /-- `core->in_flight_job = ...`, set to a job or to NULL. -/
  | setInFlight (c : Nat) (job : Bool)
  /-- `rocket_priv->domains[i] = ...`. -/
  | setSlot (f i : Nat) (d : Option Nat)
  /-- `rocket_job_free`. -/
  | jobFree
  deriving DecidableEq, Repr

inductive Cond
  /-- `rdev->pm_refcount == 0`. -/
  | unitIdle
  /-- `core->attached_domain == job->domain`. -/
  | attachedTo (c d : Nat)
  /-- `core->attached_domain` is set. -/
  | attachedAny (c : Nat)
  /-- `core->in_flight_job` is set. -/
  | inFlight (c : Nat)
  /-- `rocket_priv->domains[i]` is set. -/
  | slotFilled (f i : Nat)
  /-- `rocket_job_close` finds a domain of the file attached to the core. -/
  | scanHit (f c : Nat)
  deriving DecidableEq, Repr

/-- The fields that the tests read. -/
structure Shared where
  /-- `rdev->pm_refcount`. -/
  pmRefcount : Nat
  /-- `core->attached_domain`. -/
  attached : Nat → Option Nat
  /-- `core->in_flight_job` is set. -/
  inFlight : Nat → Bool
  /-- `rocket_priv->domains`. -/
  slot : Nat → Nat → Option Nat

/-- Nothing is attached, in flight or powered, and no domain exists. -/
def Shared.init : Shared where
  pmRefcount := 0
  attached := fun _ => none
  inFlight := fun _ => false
  slot := fun _ _ => none

namespace Shared
variable (s : Shared)

/-- The effect of an action on the fields. -/
def perform : Act → Shared
  | .attach _ _ | .detach _ _ | .resume | .release | .putNoidle | .jobFree => s
  | .pmRef => { s with pmRefcount := s.pmRefcount + 1 }
  | .pmUnref => { s with pmRefcount := s.pmRefcount - 1 }
  | .setAttached c d => { s with attached := update s.attached c d }
  | .setInFlight c job => { s with inFlight := update s.inFlight c job }
  | .setSlot f i d => { s with slot := update s.slot f (update (s.slot f) i d) }

def holds : Cond → Bool
  | .unitIdle => decide (s.pmRefcount = 0)
  | .attachedTo c d => decide (s.attached c = some d)
  | .attachedAny c => (s.attached c).isSome
  | .inFlight c => s.inFlight c
  | .slotFilled f i => (s.slot f i).isSome
  | .scanHit f c => (List.range maxIommuDomains).any fun i =>
      decide (s.slot f i ≠ none ∧ s.attached c = s.slot f i)

end Shared

/-- The code of a thread. -/
abbrev Code := Prog Lock Thread Act Cond

section Device

/-- `rocket_device_pm_get`, returning 0 or an error. -/
def rocketDevicePmGet (ok fail : Code) : Code :=
  .lock .pm <| .test .unitIdle
    (.act .resume <| .choose (.act .pmRef <| .unlock .pm ok) (.unlock .pm fail))
    (.act .pmRef <| .unlock .pm ok)

/-- `rocket_device_pm_put`. -/
def rocketDevicePmPut (rest : Code) : Code :=
  .lock .pm <| .test .unitIdle (.unlock .pm rest) <|
    .act .pmUnref <| .test .unitIdle (.act .release <| .unlock .pm rest) (.unlock .pm rest)

/-- `rocket_device_pm_put_noidle`. -/
def rocketDevicePmPutNoidle (rest : Code) : Code :=
  .lock .pm <| .test .unitIdle (.unlock .pm rest) <|
    .act .pmUnref <| .test .unitIdle (.act .putNoidle <| .unlock .pm rest) (.unlock .pm rest)

end Device

section Gem

/-- `rocket_iommu_domain_get` of slot `i`, which comes to hold `d`. -/
def rocketIommuDomainGet (f i d : Nat) (ok fail : Code) : Code :=
  .lock (.domains f) <| .test (.slotFilled f i) (.unlock (.domains f) ok) <|
    .unlock (.domains f) <| .choose
      (.lock (.domains f) <| .test (.slotFilled f i) (.unlock (.domains f) ok) <|
        .act (.setSlot f i (some d)) <| .unlock (.domains f) ok)
      fail

/-- `drm_gem_shmem_free` of BO `b`. -/
def drmGemShmemFree (b : Nat) (rest : Code) : Code :=
  .lock (.resv b) <| .unlock (.resv b) rest

/-- `rocket_gem_bo_free` of BO `b` in domain `d`. -/
def rocketGemBoFree (b d : Nat) (rest : Code) : Code :=
  .lock (.mm d) <| .unlock (.mm d) <| drmGemShmemFree b rest

/-- `drm_gem_object_put` of BO `b` in domain `d`, the last reference or not. -/
def drmGemObjectPut (b d : Nat) (rest : Code) : Code :=
  .choose (rocketGemBoFree b d rest) rest

/-- `rkopnu_ioctl_mem_create` making BO `b` in domain `d` of slot `i`. -/
def rkopnuIoctlMemCreate (f i d b : Nat) : Code :=
  let err := drmGemShmemFree b .done
  let errRemoveNode := .lock (.mm d) <| .unlock (.mm d) err
  -- the results of drm_gem_handle_create, iommu_map_sgtable and drm_mm_insert_node_generic
  let handle := .choose (drmGemObjectPut b d .done) errRemoveNode
  let map := .choose handle errRemoveNode
  let insert := .lock (.mm d) <| .unlock (.mm d) <| .choose map err
  let pages := .lock (.resv b) <| .unlock (.resv b) <| .choose insert err
  .choose (rocketIommuDomainGet f i d pages err) .done

end Gem

section Job

/-- `drm_gem_lock_reservations`, when it succeeds at once. -/
def drmGemLockReservations (bos : List Nat) (rest : Code) : Code :=
  bos.foldr (fun b p => .lock (.resv b) p) rest

/-- `drm_gem_unlock_reservations`. -/
def drmGemUnlockReservations (bos : List Nat) (rest : Code) : Code :=
  bos.foldl (fun p b => .unlock (.resv b) p) rest

/-- `rocket_job_push` of a job that lists these BOs. -/
def rocketJobPush (bos : List Nat) (ok fail : Code) : Code :=
  .choose
    (drmGemLockReservations bos <| .lock .sched <| .choose
      (.unlock .sched <| drmGemUnlockReservations bos ok)
      (.unlock .sched <| drmGemUnlockReservations bos fail))
    fail

/-- The threads that may complete a job of core `c`. -/
def completers (c : Nat) : List Thread := [.run c, .free c, .irq c, .tdr c]

/-- `rkopnu_ioctl_submit` with task BO `b` of domain `e`, for a job on core `c` in domain
`d` of slot `i`. It lists no BO for the job. -/
def rkopnuIoctlSubmit (f i d b e c : Nat) : Code :=
  let outVunmap := .lock (.resv b) <| .unlock (.resv b) <| drmGemObjectPut b e .done
  let wait := .await (completers c) outVunmap
  let domain := rocketIommuDomainGet f i d (rocketJobPush [] wait outVunmap) outVunmap
  -- the early returns, drm_gem_vmap, the allocation and drm_sched_job_init
  .choose .done <| .lock (.resv b) <| .unlock (.resv b) <| .choose
    (.choose domain outVunmap) (drmGemObjectPut b e .done)

/-- `rocket_job_run` of a job in domain `d` on core `c`. -/
def rocketJobRun (c d : Nat) : Code :=
  let submit := .act (.setInFlight c true) <| .unlock (.job c) .done
  let attach := .act (.attach c d) <| .choose
    (.unlock .pm <| .act (.setAttached c (some d)) submit)
    (.unlock .pm <| .act (.setAttached c none) <| .unlock (.job c) <| rocketDevicePmPut .done)
  let attachSection := .lock (.job c) <| .test (.attachedTo c d) submit <| .lock .pm <|
    .test (.attachedAny c) (.act (.detach .run c) attach) attach
  -- a canceled job, one with nothing to run, a fence that was not allocated
  .choose .done (rocketDevicePmGet attachSection .done)

/-- `rocket_job_handle_irq`. -/
def rocketJobHandleIrq (c : Nat) : Code :=
  .lock (.job c) <| .test (.inFlight c)
    (.choose (.unlock (.job c) .done)
      (rocketDevicePmPut <| .act (.setInFlight c false) <| .unlock (.job c) .done))
    (.unlock (.job c) .done)

/-- `rocket_reset`: `drm_sched_stop` waits for the workers and for the callback of a
fence that is being signaled. -/
def rocketReset (c : Nat) : Code :=
  let clear := .act (.setInFlight c false) <| .unlock (.job c) .done
  let detach := .test (.attachedAny c)
    (.lock .pm <| .act (.detach .reset c) <| .unlock .pm <| .act (.setAttached c none) clear)
    clear
  .choose .done <| .await [.run c, .free c, .irq c] <| .lock (.job c) <|
    .test (.inFlight c) (rocketDevicePmPutNoidle detach) detach

/-- `rocket_job_timedout`. -/
def rocketJobTimedout (c : Nat) : Code := rocketReset c

/-- The `free_job` worker in `rocket_job_free`. -/
def rocketJobFree : Code := .act .jobFree .done

end Job

section Close

/-- `drm_sched_entity_destroy` of one entity for each listed core. -/
def destroyEntities (cores : List Nat) (rest : Code) : Code :=
  cores.foldr (fun c p => .await (completers c) p) rest

/-- `rocket_job_close` searches the listed cores for a domain of the file. -/
def scanCores (f : Nat) (cores : List Nat) (rest : Code) : Code :=
  cores.foldr (fun c p => .lock (.job c) <| .test (.scanHit f c)
    (.act (.detach .close c) <| .act (.setAttached c none) <| .unlock (.job c) p)
    (.unlock (.job c) p)) rest

/-- `rocket_job_close`; `sched_entity` may be scheduled on any core. -/
def rocketJobClose (n f : Nat) (rest : Code) : Code :=
  destroyEntities (List.range (min n 3)) <| destroyEntities (List.range n) <|
    scanCores f (List.range n) rest

/-- `rocket_iommu_domains_close`, which takes no lock. -/
def rocketIommuDomainsClose (f : Nat) (slots : List Nat) : Code :=
  slots.foldr (fun i p => .act (.setSlot f i none) p) .done

/-- `drm_gem_release` puts the listed BOs, each with its domain. -/
def drmGemRelease (bos : List (Nat × Nat)) (rest : Code) : Code :=
  bos.foldr (fun b p => drmGemObjectPut b.1 b.2 p) rest

/-- The close of a file with handles to these BOs: the DRM core's release and
`rocket_postclose`. -/
def closeFile (n f : Nat) (bos : List (Nat × Nat)) : Code :=
  drmGemRelease bos <| rocketJobClose n f <|
    rocketIommuDomainsClose f (List.range maxIommuDomains)

end Close

/-- What a thread may enter. -/
inductive Entry
  | memCreate (f i d b : Nat)
  | submit (f i d b e c : Nat)
  /-- Any `drm_gem_object_put` that drops the last reference, `MEM_DESTROY` among them. -/
  | boFree (b d : Nat)
  | close (f : Nat) (bos : List (Nat × Nat))
  | runJob (c d : Nat)
  | freeJob (c : Nat)
  | irq (c : Nat)
  | timeout (c : Nat)
  deriving DecidableEq, Repr

/-- The code of an entry, with `n` bound cores. -/
def program (n : Nat) : Entry → Code
  | .memCreate f i d b => rkopnuIoctlMemCreate f i d b
  | .submit f i d b e c => rkopnuIoctlSubmit f i d b e c
  | .boFree b d => rocketGemBoFree b d .done
  | .close f bos => closeFile n f bos
  | .runJob c d => rocketJobRun c d
  | .freeJob _ => rocketJobFree
  | .irq c => rocketJobHandleIrq c
  | .timeout c => rocketJobTimedout c

/-- Which thread runs an entry. -/
def may : Thread → Entry → Bool
  | .user _, .memCreate .. | .user _, .submit .. | .user _, .boFree .. | .user _, .close .. => true
  | .run c, .runJob k _ => decide (c = k)
  | .free c, .freeJob k => decide (c = k)
  | .irq c, .irq k => decide (c = k)
  | .tdr c, .timeout k => decide (c = k)
  | _, _ => false

/-- The threads of the driver with `n` bound cores. -/
def threads (n : Nat) : Setup Lock Thread Act Cond Shared Entry where
  program := program n
  may := may
  perform := fun a s => s.perform a
  holds := fun c s => s.holds c

/-- Nothing runs and every lock is free. -/
abbrev start : Locking.State Lock Thread Act Cond Shared := Locking.State.init Shared.init

end Rkopnu.Locks
