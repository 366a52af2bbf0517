import Rkopnu.Sync
import Rkopnu.Native
import Mathlib.Order.WellFounded
import Mathlib.Algebra.Order.Group.Nat

/-!
# Waiting for the jobs of a BO

A job waits only for jobs that were pushed before it, so the waits never close a cycle, and the
first of the jobs that have not ended waits for none that has not. `PREP_BO` waits for the fences
it finds on a BO: some of the writers it has to wait for left a fence that has given way to a
later one since.

## Implementation notes

`PREP_BO` may sleep, so it is stated about two states of a run: the one that it finds the fences
in and the one that it returns in. The page table of a BO is set up when the BO is created.
-/

namespace Rkopnu.Sync

open Transition

/-- `struct drm_rocket_prep_bo`. -/
structure DrmRocketPrepBo where
  handle : U32
  reserved : U32
  timeoutNs : U64

/-- `struct drm_rocket_fini_bo`. -/
structure DrmRocketFiniBo where
  handle : U32
  reserved : U32

/-- Cache maintenance on the pages of a BO. -/
inductive CacheOp
  /-- `dma_sync_sgtable_for_cpu`. -/
  | forCpu (bo : Nat)
  /-- `dma_sync_sgtable_for_device`. -/
  | forDevice (bo : Nat)
  deriving DecidableEq, Repr

/-- What the two calls change. -/
structure BoWorld where
  /-- The references on each BO. -/
  refs : Nat → Nat
  /-- The cache maintenance so far. -/
  cache : List CacheOp

/-- What the two calls find, and what the kernel answers to them. -/
structure BoEnv where
  /-- The GEM handles of the file. -/
  handles : U32 → Option Nat
  /-- `drm_timeout_abs_to_jiffies`. -/
  jiffies : U64 → Nat
  /-- `dma_resv_wait_timeout`: what is left of the time, 0, or a negative error. -/
  wait : Nat → Usage → Nat → Int

/-- `EBUSY`. -/
def ebusy : Errno := .other 16

/-- `drm_gem_object_lookup` takes a reference. -/
def BoWorld.get (w : BoWorld) (bo : Nat) : BoWorld :=
  { w with refs := Function.update w.refs bo (w.refs bo + 1) }

/-- `drm_gem_object_put`. -/
def BoWorld.put (w : BoWorld) (bo : Nat) : BoWorld :=
  { w with refs := Function.update w.refs bo (w.refs bo - 1) }

def BoWorld.sync (w : BoWorld) (op : CacheOp) : BoWorld := { w with cache := w.cache ++ [op] }

/-- What `rocket_ioctl_prep_bo` makes of the answer to its wait. -/
def prepReturn (timeout : Nat) (ret : Int) : Option Errno :=
  if ret = 0 then some (if timeout ≠ 0 then .timedout else ebusy)
  else if 0 < ret then none
  else some (.other ret.natAbs)

/-- `rocket_ioctl_prep_bo`. -/
def rocketIoctlPrepBo (env : BoEnv) (args : DrmRocketPrepBo) (w : BoWorld) :
    Option Errno × BoWorld :=
  let timeout := env.jiffies args.timeoutNs
  if args.reserved ≠ 0#32 then (some .inval, w)
  else
    match env.handles args.handle with
    | none => (some Native.enoent, w)
    -- the caches are synchronised after a wait that has failed, too
    | some bo =>
        (prepReturn timeout (env.wait bo .write timeout), ((w.get bo).sync (.forCpu bo)).put bo)

/-- `rocket_ioctl_fini_bo`. -/
def rocketIoctlFiniBo (env : BoEnv) (args : DrmRocketFiniBo) (w : BoWorld) :
    Option Errno × BoWorld :=
  if args.reserved ≠ 0#32 then (some .inval, w)
  else
    match env.handles args.handle with
    | none => (some Native.enoent, w)
    | some bo => (none, ((w.get bo).sync (.forDevice bo)).put bo)

/-- The first job was pushed, and before the second. -/
def State.Before (s : State) (d k : Nat) : Prop :=
  d ∈ s.order ∧ s.order.idxOf d < s.order.idxOf k

/-- What is known of the order that the jobs wait in. -/
structure Layered (s : State) : Prop extends Synced s where
  /-- A fence on a BO is of a job that was pushed. -/
  onBos : ∀ bo, ∀ f ∈ s.resv bo, f.job ∈ s.order
  earlier : ∀ k, ∀ d ∈ s.dependencies k, s.Before d k

/-- The job is the first of the pushed ones that are not signaled. -/
structure State.First (s : State) (k : Nat) : Prop where
  pushed : k ∈ s.order
  waiting : s.signaled k = false
  first : ∀ j, s.Before j k → s.signaled j = true

section Order
variable {s : State} {a : Action}

/-- The step takes no job off the order of pushes, and puts new ones at its end. -/
theorem before_step (a : Action) {d k : Nat} (h : s.Before d k) : (effect s a).Before d k := by
  obtain ⟨hd, hlt⟩ := h
  rcases order_step s a with hsame | ⟨m, -, hmore⟩
  · rw [State.Before, hsame]
    exact ⟨hd, hlt⟩
  · rw [State.Before, hmore]
    refine ⟨List.mem_append_left [m] hd, ?_⟩
    rw [List.idxOf_append_of_mem hd]
    by_cases hk : k ∈ s.order
    · rwa [List.idxOf_append_of_mem hk]
    · rw [List.idxOf_append_of_notMem hk]
      exact Nat.lt_add_right _ (List.idxOf_lt_length_of_mem hd)

theorem mem_order_step (a : Action) {k : Nat} (hk : k ∈ s.order) : k ∈ (effect s a).order := by
  rcases order_step s a with hsame | ⟨m, -, hmore⟩
  · rwa [hsame]
  · rw [hmore]
    exact List.mem_append_left [m] hk

/-- A job that was not pushed comes after all that were. -/
theorem Synced.before_of_unpushed (inv : Synced s) {d k : Nat} (hd : d ∈ s.order)
    (hk : (s.pc k).queued = false) : s.Before d k := by
  have hnot : k ∉ s.order := fun hmem => by
    rw [(inv.queued k).mp hmem] at hk
    cases hk
  refine ⟨hd, ?_⟩
  rw [List.idxOf_of_notMem hnot]
  exact List.idxOf_lt_length_of_mem hd

theorem keep_onBos (inv : Layered s) (h : enabled s a = true) (bo : Nat) :
    ∀ f ∈ (effect s a).resv bo, f.job ∈ (effect s a).order := by
  intro f hf
  rcases resv_effect (s := s) (a := a) with hsame | ⟨m, rfl⟩
  · rw [hsame] at hf
    exact mem_order_step a (inv.onBos bo f hf)
  · rcases eq_or_mem_of_mem_attachObjectFences hf with rfl | hold
    · have hm : s.pc m = .pushed := of_decide_eq_true h
      exact mem_order_step _ ((inv.queued m).mpr (by rw [hm]; rfl))
    · exact mem_order_step _ (inv.onBos bo f hold)

/-- What a job waits for it found on a BO when it was not yet pushed. -/
theorem keep_earlier (inv : Layered s) (h : enabled s a = true) (k : Nat) :
    ∀ d ∈ (effect s a).dependencies k, (effect s a).Before d k := by
  intro d hd
  refine before_step a ?_
  cases a with
  | acquire m fault =>
      have hm : s.pc m = .armed := of_decide_eq_true h
      cases hw : s.waitsFor m fault with
      | error err =>
          simp only [effect, hw, State.release] at hd
          exact inv.earlier k d hd
      | ok deps =>
          simp only [effect, hw] at hd
          by_cases hk : k = m
          · subst hk
            rw [Function.update_self] at hd
            have onBo : ∀ bo write, d ∈ implicitDependencies (s.resv bo) write →
                s.Before d k := by
              intro bo write hdep
              obtain ⟨f, hf, -, rfl⟩ := mem_implicitDependencies.mp hdep
              exact inv.before_of_unpushed (inv.onBos bo f hf) (by rw [hm]; rfl)
            rcases (mem_waitsFor hw).mp hd with hold | ⟨bo, -, hin⟩ | ⟨bo, -, hout⟩
            · exact inv.earlier k d hold
            · exact onBo bo false hin
            · exact onBo bo true hout
          · rw [Function.update_of_ne hk] at hd
            exact inv.earlier k d hd
  | _ => exact inv.earlier k d hd

theorem Layered.step (inv : Layered s) (h : enabled s a = true) : Layered (effect s a) where
  toSynced := inv.toSynced.step h
  onBos := keep_onBos inv h
  earlier := keep_earlier inv h

theorem Layered.initial : Layered State.init where
  toSynced := Synced.initial
  onBos := fun bo f h => by simp [State.init] at h
  earlier := fun k d h => by simp [State.init] at h

theorem Layered.of_run {t : State} {acts : List Action} (inv : Layered s)
    (run : Runs sync s acts t) : Layered t := by
  refine invariant Layered (fun s a t inv hstep => ?_) run inv
  obtain ⟨h, rfl⟩ := sync_eq_some.mp hstep
  exact inv.step h

/-- A wait of any length goes back in the order of pushes. -/
theorem Layered.before_of_waits (inv : Layered s) {k j : Nat} (h : Waits s k j) :
    s.Before j k := by
  induction h using Relation.TransGen.head_induction_on with
  | single hdep => exact inv.earlier _ _ hdep
  | head hdep _ ih => exact ⟨ih.1, ih.2.trans (inv.earlier _ _ hdep).2⟩

/-- The waits that a run adds leave those there were. -/
theorem Waits.of_run {t : State} {acts : List Action} {k j : Nat} (h : Waits s k j)
    (run : Runs sync s acts t) : Waits t k j := by
  refine invariant (fun u => Waits u k j) (fun u a v hw hstep => ?_) run h
  obtain ⟨-, rfl⟩ := sync_eq_some.mp hstep
  exact waits_step a hw

end Order

section First
variable {s : State}

/-- As long as a pushed job is not signaled, one of these was pushed first. -/
theorem State.exists_first (h : ∃ m ∈ s.order, s.signaled m = false) : ∃ k, s.First k := by
  obtain ⟨m, hm, hwaiting⟩ := h
  obtain ⟨k, ⟨hk, hsig⟩, first⟩ := (measure s.order.idxOf).wf.has_min
    {k | k ∈ s.order ∧ s.signaled k = false} ⟨m, hm, hwaiting⟩
  refine ⟨k, hk, hsig, fun j hj => ?_⟩
  by_contra hopen
  exact first j ⟨hj.1, by simpa using hopen⟩ hj.2

/-- All that the first job waits for, over however many jobs between, has ended. -/
theorem Layered.signaled_of_first (inv : Layered s) {k j : Nat} (first : s.First k)
    (hw : Waits s k j) : s.signaled j = true :=
  first.first j (inv.before_of_waits hw)

/-- The scheduler has started the first job, or nothing keeps it from doing so. -/
theorem Layered.startable_of_first (inv : Layered s) {k : Nat} (first : s.First k) :
    s.started k = true ∨ enabled s (.start k) = true := by
  cases hstart : s.started k with
  | true => exact .inl rfl
  | false =>
      have hready : s.ready k = true :=
        ready_iff.mpr fun d hd => inv.signaled_of_first first (.single hd)
      exact .inr (decide_eq_true
        ⟨(inv.queued k).mp first.pushed, hstart, first.waiting, hready⟩)

end First

/-- One job writes a BO, and a later one of the same entity writes it again. -/
def rewritten : List Action := pushSteps 0 ⟨[], [6], 0⟩ ++ pushSteps 1 ⟨[], [6], 0⟩

/-- The hardware runs both. -/
def runBoth : List Action := [.start 0, .finish 0, .start 1, .finish 1]

/-- The fence of the first job has given way to that of the second. -/
theorem rewritten_accepted : ((exec sync State.init rewritten).map fun s =>
    decide (s.order = [0, 1] ∧ s.resv 6 = [⟨1, .write⟩] ∧ (s.pc 0).shown = true ∧
      6 ∈ (s.job 0).outBos) &&
    decide ((exec sync s runBoth).map (State.signaled · 1) = some true)) = some true := by
  decide

/-- The second job waits for the first. -/
theorem rewritten_waits : ((exec sync State.init rewritten).map fun s =>
    decide (s.order = [0, 1] ∧ s.dependencies 1 = [0] ∧ s.signaled 0 = false)) = some true := by
  decide

section PrepBo
variable {env : BoEnv} {w v : BoWorld}

/-- The reference of the look-up is given back. -/
theorem refs_put_sync_get (w : BoWorld) (op : CacheOp) (bo : Nat) :
    (((w.get bo).sync op).put bo).refs = w.refs := by
  simp [BoWorld.get, BoWorld.sync, BoWorld.put]

/-- Whatever the two calls return, they keep no reference. -/
theorem refs_of_bo_calls (env : BoEnv) (prep : DrmRocketPrepBo) (fini : DrmRocketFiniBo)
    (w : BoWorld) : (rocketIoctlPrepBo env prep w).2.refs = w.refs ∧
      (rocketIoctlFiniBo env fini w).2.refs = w.refs := by
  constructor
  · simp only [rocketIoctlPrepBo]
    split
    · rfl
    · cases env.handles prep.handle with
      | none => rfl
      | some bo => exact refs_put_sync_get w _ bo
  · simp only [rocketIoctlFiniBo]
    split
    · rfl
    · cases env.handles fini.handle with
      | none => rfl
      | some bo => exact refs_put_sync_get w _ bo

/-- 0 is returned for a handle of the file, after a wait that has come to its end. -/
theorem prepBo_eq_zero {args : DrmRocketPrepBo} (h : rocketIoctlPrepBo env args w = (none, v)) :
    ∃ bo, env.handles args.handle = some bo ∧
      0 < env.wait bo .write (env.jiffies args.timeoutNs) ∧
      v = ((w.get bo).sync (.forCpu bo)).put bo := by
  unfold rocketIoctlPrepBo at h
  split at h
  · cases h
  · cases hbo : env.handles args.handle with
    | none => simp [hbo] at h
    | some bo =>
        simp only [hbo, Prod.mk.injEq] at h
        refine ⟨bo, rfl, ?_, h.2.symm⟩
        have hret := h.1
        unfold prepReturn at hret
        split at hret
        · cases hret
        · split at hret
          · assumption
          · cases hret

/-- When all fences that stood on a BO are signaled, so is every writer that had left one. -/
theorem Synced.writers_signaled {s t : State} {acts : List Action} {bo : Nat} (inv : Synced s)
    (later : Synced t) (rest : Runs sync s acts t)
    (fences : ∀ f ∈ s.resv bo, f.usage.level ≤ Usage.write.level → t.signaled f.job = true)
    {j : Nat} (hj : (s.pc j).shown = true) (hbo : bo ∈ (s.job j).outBos) :
    t.signaled j = true := by
  obtain ⟨f, hf, hcover⟩ := inv.shown j hj bo hbo
  have hsig := fences f hf (by rw [inv.written bo f hf])
  rcases hcover with rfl | hwait
  · exact hsig
  · exact later.signaled_of_waits (hwait.of_run rest) (.inr hsig)

end PrepBo

/-- `PREP_BO` that returns 0 has waited for every job that had left its fence on the BO, and for
all that these waited for, even where the fence itself is no longer there. The wait answers for
the fences it finds on the BO and no others; the call keeps no reference, and has handed
the pages to the CPU. -/
theorem prep_bo_waits_for_writers {acts during : List Action} {s t : State}
    (run : Runs sync State.init acts s) (rest : Runs sync s during t) {env : BoEnv}
    (waited : ∀ bo usage timeout, 0 < env.wait bo usage timeout →
      ∀ f ∈ s.resv bo, f.usage.level ≤ usage.level → t.signaled f.job = true)
    {args : DrmRocketPrepBo} {w v : BoWorld} (h : rocketIoctlPrepBo env args w = (none, v)) :
    ∃ bo, env.handles args.handle = some bo ∧ v.refs = w.refs ∧
      v.cache = w.cache ++ [.forCpu bo] ∧
      ∀ j, (s.pc j).shown = true → bo ∈ (s.job j).outBos →
        t.signaled j = true ∧ ∀ k, Waits s j k → t.signaled k = true := by
  have hrefs := (refs_of_bo_calls env args ⟨0#32, 0#32⟩ w).1
  rw [h] at hrefs
  obtain ⟨bo, hbo, hpos, rfl⟩ := prepBo_eq_zero h
  have inv := (Layered.initial.of_run run).toSynced
  have later := (Layered.initial.of_run (run.append rest)).toSynced
  refine ⟨bo, hbo, hrefs, rfl, fun j hj hout => ?_⟩
  have hsig := inv.writers_signaled later rest (waited bo .write _ hpos) hj hout
  exact ⟨hsig, fun k hwait => later.signaled_of_waits (hwait.of_run rest) (.inr hsig)⟩

/-- The file has BO 6, and the wait for it ends in time. -/
def boEnvOne : BoEnv where
  handles := fun h => if h = 1#32 then some 6 else none
  jiffies := fun _ => 100
  wait := fun bo _ _ => if bo = 6 then 40 else 0

theorem prep_bo_waits_for_writers_rewritten : ∃ s t, Runs sync State.init rewritten s ∧
    Runs sync s runBoth t ∧ s.resv 6 = [⟨1, .write⟩] ∧ t.signaled 0 = true := by
  obtain ⟨s, run, test⟩ := runs_of_test rewritten_accepted
  obtain ⟨hstate, hlater⟩ := Bool.and_eq_true_iff.mp test
  obtain ⟨-, hresv, hshown, hout⟩ := of_decide_eq_true hstate
  obtain ⟨t, rest, hsig⟩ := runs_of_test (of_decide_eq_true hlater)
  have waited : ∀ bo usage timeout, 0 < boEnvOne.wait bo usage timeout →
      ∀ f ∈ s.resv bo, f.usage.level ≤ usage.level → t.signaled f.job = true := by
    intro bo usage timeout hpos f hf _
    obtain rfl : bo = 6 := by
      by_contra hne
      simp [boEnvOne, hne] at hpos
    rw [hresv, List.mem_singleton] at hf
    rw [hf]
    exact hsig
  have prepared : rocketIoctlPrepBo boEnvOne ⟨1#32, 0#32, 0#64⟩ ⟨fun _ => 1, []⟩ = (none, _) := rfl
  obtain ⟨bo, hbo, -, -, writers⟩ := prep_bo_waits_for_writers run rest waited prepared
  obtain rfl : 6 = bo := Option.some.inj hbo
  exact ⟨s, t, run, rest, hresv, (writers 0 hshown hout).1⟩

end Rkopnu.Sync
