import Rkopnu.Driver.Schedule
import Rkopnu.Driver.Trace

/-!
# The two references on a job

A job is referenced by the submitting ioctl from its allocation to `out_put_job`,
and by the scheduler from `rocket_job_push` to `rocket_job_free`. The threads
that touch a job without a reference of their own, the IRQ thread through
`in_flight_job` and the timeout worker through its argument, rely on the
scheduler's. The timeout worker relies on it one step too long.
-/

namespace Rkopnu.Driver

open Function (update)
open Transition

/-- The references that exist on a job. -/
def State.RefCounted (s : State) : Prop := ∀ j,
  s.refcount j = (s.call j).holdsJob.toNat + (s.place j).held.toNat

/-- The job of the timeout worker, from its call to the restart of the scheduler. -/
def TdrPc.borrowed : TdrPc → Option Nat
  | .entry j | .mark j | .stop j | .stopLoop j | .hwReset j | .clear j | .startLoop j => some j
  | _ => none

theorem TdrPc.job_of_borrowed {pc : TdrPc} {j : Nat} (h : pc.borrowed = some j) :
    pc.job = some j := by
  cases pc <;> simp_all [TdrPc.borrowed, TdrPc.job]

theorem TdrPc.offList_of_borrowed {pc : TdrPc} {j : Nat} (h : pc.borrowed = some j)
    (hpark : pc.parked = false) : pc.offList = some j := by
  cases pc <;> simp_all [TdrPc.borrowed, TdrPc.parked, TdrPc.offList]

theorem Place.held_of_started {p : Place} (h : p.started = true) : p.held = true := by
  cases p <;> first | rfl | cases h

/-- Up to the restart of the scheduler its reference is there for the timeout worker. -/
def State.BorrowedHeld (s : State) : Prop := ∀ c j, (s.tdr c).borrowed = some j →
  (s.place j).held = true

/-- Both references are accounted for, and the timeout worker's loan is covered. -/
structure Referenced (s : State) : Prop extends Scheduled s where
  counted : s.RefCounted
  borrowed : s.BorrowedHeld

/-- The job that `rocket_job_timedout` is about to count is still referenced. -/
def State.CountingHeld (s : State) : Prop := ∀ c j, s.tdr c = .count j → 0 < s.refcount j

/-- The job whose fields the step reads or writes in `rocket_job_run`,
`rocket_job_hw_submit`, `rocket_job_handle_irq`, `rocket_reset` or
`rocket_job_timedout`. -/
def Action.touchedJob : Action → Option Nat
  | .runCheck _ j | .runCreate _ j _ | .runAttachFail _ j _ | .runSkip _ j
  | .runProgram _ j _ | .runWrite _ j _ _ _ | .irqSkip _ _ j | .irqResubmit _ _ j _
  | .irqWrite _ j _ _ _ | .irqComplete _ _ j | .tdrEntry _ j | .tdrCount _ j => some j
  | _ => none

/-- Every job that some thread may touch next is still referenced. -/
def State.TouchesLive (s : State) : Prop := ∀ a j, enabled s a = true →
  a.touchedJob = some j → 0 < s.refcount j

/-- The step does not drop the last reference on a job while the timeout worker
stands between `drm_sched_start` and `++job->timeout_count` for it. -/
def KeepsCounted (s : State) (a : Action) : Prop := ∀ c j, s.tdr c = .count j →
  s.refcount j = 1 → (∀ b, a ≠ .freeJob b j) ∧ ∀ r, a ≠ .putJob j r

section Counting
variable {s : State} {a : Action}

/-- The ioctl's reference is the one of the allocation, until the ioctl puts it. -/
theorem Threaded.holdsJob_effect (inv : Threaded s) (h : enabled s a = true) {j : Nat}
    (halloc : ∀ ok, a ≠ .alloc j ok) (hput : ∀ r, a ≠ .putJob j r) :
    ((effect s a).call j).holdsJob = (s.call j).holdsJob := by
  rcases inv.call_effect h j with hmove | ⟨-, hstay⟩
  · generalize s.call j = p at hmove ⊢
    generalize (effect s a).call j = q at hmove ⊢
    cases hmove with
    | alloc | allocFail => exact absurd rfl (halloc _)
    | putJob => exact absurd rfl (hput _)
    | _ => rfl
  · rw [hstay]

/-- The scheduler's reference is the one of the push, until the job is freed. -/
theorem Threaded.held_effect (inv : Threaded s) (h : enabled s a = true) {j : Nat}
    (hpush : a ≠ .push j none) (hfree : a.freesJob ≠ some j) :
    ((effect s a).place j).held = (s.place j).held := by
  rcases inv.place_effect h j with hmove | ⟨-, hstay⟩
  · generalize s.place j = p at hmove ⊢
    generalize (effect s a).place j = q at hmove ⊢
    cases hmove with
    | push => exact absurd rfl hpush
    | freeJob | reap | freeGuilty | kill => exact absurd rfl hfree
    | _ => rfl
  · rw [hstay]

/-- The scheduler frees a job that it holds. -/
theorem Threaded.held_of_freesJob (inv : Threaded s) (h : enabled s a = true) {j : Nat}
    (hfree : a.freesJob = some j) :
    (s.place j).held = true ∧ ((effect s a).place j).held = false := by
  rcases inv.place_effect h j with hmove | ⟨hother, -⟩
  · generalize s.place j = p at hmove ⊢
    generalize (effect s a).place j = q at hmove ⊢
    cases hmove with
    | freeJob | reap | freeGuilty | kill => exact ⟨rfl, rfl⟩
    | _ => cases hfree
  · exact absurd (placed_of_freesJob hfree) hother

theorem keep_refCounted (inv : Referenced s) (h : enabled s a = true) :
    (effect s a).RefCounted := by
  intro j
  have counted := inv.counted j
  rcases refcount_cases (s := s) (a := a) j with
    ⟨hsame, hput, hpush, halloc⟩ | ⟨ok, rfl⟩ | rfl | ⟨hput, hless⟩
  · rw [hsame, counted, inv.holdsJob_effect h halloc (fun r ha => hput (ha ▸ rfl)),
      inv.held_effect h hpush (fun hfree => hput (putsJob_of_freesJob hfree))]
  · have hcall : s.call j = .alloc := of_decide_eq_true h
    have hplace : s.place j = .outside := inv.outside j (by rw [hcall]; rfl)
    cases ok <;> simp [effect, hplace, CallPc.holdsJob, Place.held]
  · have hcall : s.call j = .push := of_decide_eq_true h
    have hplace : s.place j = .outside := inv.outside j (by rw [hcall]; rfl)
    simp [effect, counted, hcall, hplace, CallPc.holdsJob, Place.held]
  · rcases putsJob_cases hput with ⟨r, rfl⟩ | hfree
    · have hcall : s.call j = .putJob r := of_decide_eq_true h
      rw [hless, counted, hcall]
      simp [effect, State.jobPut, State.domainPut, CallPc.holdsJob]
    · obtain ⟨hbefore, hafter⟩ := inv.held_of_freesJob h hfree
      rw [hless, counted, hbefore, hafter, inv.holdsJob_effect h]
      · rfl
      · rintro ok rfl
        cases hfree
      · rintro r rfl
        cases hfree

theorem keep_borrowedHeld (inv : Referenced s) (h : enabled s a = true) :
    (effect s a).BorrowedHeld := by
  intro c j hj
  have hbefore : (s.tdr c).borrowed = some j ∨ a = .fire c j := by
    rcases tdr_effect h c with hmove | ⟨-, hstay⟩
    · generalize s.tdr c = p at hmove ⊢
      generalize (effect s a).tdr c = q at hmove hj
      cases hmove with
      | fire => exact Or.inr (by rw [Option.some.inj hj])
      | entry | mark | stop | jobSection | hwReset | clear => exact Or.inl hj
      | _ => cases hj
    · exact Or.inl (hstay ▸ hj)
  rcases hbefore with hold | rfl
  · obtain ⟨hcore, -, hqueued⟩ := inv.handlerCore c j (TdrPc.job_of_borrowed hold)
    rcases inv.place_effect h j with hmove | ⟨-, hstay⟩
    · have hfired : (s.tdr c).parked = false → s.place j = .timedOut := fun hpark =>
        inv.handlerHolds c j (TdrPc.offList_of_borrowed hold hpark)
      generalize s.place j = p at hmove hqueued hfired
      generalize (effect s a).place j = q at hmove ⊢
      cases hmove with
      | @freeJob b =>
          obtain ⟨hpark, -, hb, -⟩ := of_decide_eq_true h
          obtain rfl : b = c := hb.symm.trans hcore
          cases hfired hpark
      | @reap b i =>
          obtain ⟨hstop, hne, -, hb, -⟩ := of_decide_eq_true h
          obtain rfl : b = c := hb.symm.trans hcore
          rw [hstop] at hold
          exact absurd (Option.some.inj hold).symm hne
      | @freeGuilty b =>
          have hret : s.tdr b = .ret j := (of_decide_eq_true h).1
          obtain rfl : b = c := (inv.handlerCore b j (by rw [hret]; rfl)).1.symm.trans hcore
          simp [hret, TdrPc.borrowed] at hold
      | kill => exact absurd rfl hqueued
      | _ => rfl
    · rw [hstay]
      exact inv.borrowed c j hold
  · simp [effect, Place.held]

theorem Referenced.preserve (inv : Referenced s) (h : enabled s a = true) :
    Referenced (effect s a) where
  toScheduled := inv.toScheduled.preserve h
  counted := keep_refCounted inv h
  borrowed := keep_borrowedHeld inv h

end Counting

theorem Referenced.initial (n : Nat) : Referenced (State.init n) where
  toScheduled := Scheduled.initial n
  counted := fun _ => rfl
  borrowed := fun _ _ h => by simp [State.init, TdrPc.borrowed] at h

/-- Every reachable state has its references accounted for. -/
theorem Referenced.reachable {n : Nat} {acts : List Action} {s : State}
    (run : Runs driver (State.init n) acts s) : Referenced s :=
  run_invariant Referenced (Referenced.initial n) (fun _ _ inv h => inv.preserve h) run

section Touching
variable {s : State} {a : Action}

theorem Referenced.pos_of_held (inv : Referenced s) {j : Nat} (h : (s.place j).held = true) :
    0 < s.refcount j := by
  rw [inv.counted j, h]
  simp

theorem Referenced.pos_of_started (inv : Referenced s) {j : Nat}
    (h : (s.place j).started = true) : 0 < s.refcount j :=
  inv.pos_of_held (Place.held_of_started h)

theorem Referenced.pos_of_running (inv : Referenced s) {c j : Nat}
    (h : (s.run c).job = some j) : 0 < s.refcount j :=
  inv.pos_of_started (inv.running c j h).2.1

theorem Referenced.pos_of_inFlight (inv : Referenced s) {c j : Nat}
    (h : s.inFlight c = some j) : 0 < s.refcount j :=
  inv.pos_of_started (inv.inFlight c j h).2.1

/-- Every touch but one is covered by the scheduler's reference. -/
theorem Referenced.touchesLive (inv : Referenced s) (counting : s.CountingHeld) :
    s.TouchesLive := by
  intro a j h ha
  cases a with
  | runCheck c i | runCreate c i | runAttachFail c i | runSkip c i | runProgram c i
  | runWrite c i =>
      obtain rfl := Option.some.inj ha
      simp only [enabled, decide_eq_true_eq] at h
      exact inv.pos_of_running (show (s.run c).job = some i by simp [h, RunPc.job])
  | irqSkip c seen i | irqResubmit c seen i | irqComplete c seen i =>
      obtain rfl := Option.some.inj ha
      simp only [enabled, decide_eq_true_eq] at h
      exact inv.pos_of_inFlight h.2.2.1
  | irqWrite c i p w rest => simp [inv.irqWrite_disabled] at h
  | tdrEntry c i =>
      obtain rfl := Option.some.inj ha
      simp only [enabled, decide_eq_true_eq] at h
      exact inv.pos_of_held (inv.borrowed c i (by simp [h, TdrPc.borrowed]))
  | tdrCount c i =>
      obtain rfl := Option.some.inj ha
      simp only [enabled, decide_eq_true_eq] at h
      exact counting c i h
  | _ => simp [Action.touchedJob] at ha

theorem Referenced.keep_countingHeld (inv : Referenced s) (counting : s.CountingHeld)
    (ok : KeepsCounted s a) (h : enabled s a = true) : (effect s a).CountingHeld := by
  intro c k hk
  rcases tdr_effect h c with hmove | ⟨-, hstay⟩
  · have hpending := inv.pendingFlag c
    have hheld := inv.borrowed c
    generalize s.tdr c = p at hmove hpending hheld
    generalize (effect s a).tdr c = q at hmove hk
    cases hmove with
    | noReset => simp [(of_decide_eq_true h).2, TdrPc.resetting] at hpending
    | restart =>
        obtain rfl := TdrPc.count.inj hk
        exact inv.pos_of_held (hheld _ rfl)
    | _ => cases hk
  · rw [hstay] at hk
    have hpos := counting c k hk
    obtain ⟨hcore, hout, hqueued⟩ := inv.handlerCore c k (by rw [hk]; rfl)
    rcases refcount_cases (s := s) (a := a) k with
      ⟨hsame, -⟩ | ⟨o, rfl⟩ | rfl | ⟨hputs, hless⟩
    · rwa [hsame]
    · have hcall : s.call k = .alloc := of_decide_eq_true h
      exact absurd (inv.outside k (by rw [hcall]; rfl)) hout
    · have hcall : s.call k = .push := of_decide_eq_true h
      exact absurd (inv.outside k (by rw [hcall]; rfl)) hout
    · suffices s.refcount k ≠ 1 by omega
      intro hone
      obtain ⟨hfree, hput⟩ := ok c k hk hone
      rcases putsJob_cases hputs with ⟨r, rfl⟩ | hfrees
      · exact hput r rfl
      · cases a with
        | freeJob b i =>
            obtain rfl := Option.some.inj hfrees
            exact hfree b rfl
        | tdrReap b j i =>
            obtain rfl := Option.some.inj hfrees
            obtain ⟨hstop, -, -, hb, -⟩ := of_decide_eq_true h
            obtain rfl : b = c := hb.symm.trans hcore
            cases hstop.symm.trans hk
        | tdrFreeGuilty b i =>
            obtain rfl := Option.some.inj hfrees
            have hret : s.tdr b = .ret i := (of_decide_eq_true h).1
            obtain rfl : b = c := (inv.handlerCore b i (by rw [hret]; rfl)).1.symm.trans hcore
            cases hret.symm.trans hk
        | killJob i =>
            obtain rfl := Option.some.inj hfrees
            exact hqueued (of_decide_eq_true h).1
        | _ => cases hfrees

/-- Dropping the last reference in that window leaves the worker with a freed job. -/
theorem keepsCounted_of_touchesLive (h : enabled s a = true)
    (live : (effect s a).TouchesLive) : KeepsCounted s a := by
  intro c j hc href
  have hcount : ∀ t, t.tdr c = .count j → enabled t (.tdrCount c j) = true := by
    intro t ht
    simp [enabled, ht]
  refine ⟨?_, ?_⟩
  · rintro b rfl
    have := live (.tdrCount c j) j (hcount _ hc) rfl
    simp [effect, State.schedFree, State.jobPut, href] at this
  · rintro r rfl
    have := live (.tdrCount c j) j (hcount _ hc) rfl
    simp [effect, State.jobPut, href] at this

end Touching

/-- No thread touches a freed job in a run exactly when the run never drops the
last reference on a job between the restart of the scheduler and the
`++job->timeout_count` of that job's `rocket_job_timedout`. -/
theorem touchesLive_iff_keepsCounted {n : Nat} {acts : List Action} {s : State}
    (run : Runs driver (State.init n) acts s) :
    Throughout driver State.TouchesLive (State.init n) acts ↔
      Along driver KeepsCounted (State.init n) acts := by
  constructor
  · intro all
    refine along_of_throughout Referenced ?_ ?_ run all (Referenced.initial n)
    · intro s a t inv hstep
      obtain ⟨h, rfl⟩ := driver_eq_some.mp hstep
      exact inv.preserve h
    · intro s a t inv _ hstep live
      obtain ⟨h, rfl⟩ := driver_eq_some.mp hstep
      exact keepsCounted_of_touchesLive h live
  · intro along
    refine throughout_of_along (fun s => Referenced s ∧ s.CountingHeld) ?_ ?_ along
      ⟨Referenced.initial n, fun c j h => by simp [State.init] at h⟩
    · rintro s a t ⟨inv, counting⟩ ok hstep
      obtain ⟨h, rfl⟩ := driver_eq_some.mp hstep
      exact ⟨inv.preserve h, inv.keep_countingHeld counting ok h⟩
    · rintro s ⟨inv, counting⟩
      exact inv.touchesLive counting

/-- A timed-out job is canceled, its ioctl returns and `free_job` runs, all
before its `rocket_job_timedout` gets to `++job->timeout_count`. -/
def freedWhileCounting : List Action :=
  startOne ++ resetSteps 0 0 ++ [.waitDone 0, .putJob 0 none, .freeJob 0 0]

theorem freedWhileCounting_accepted :
    ((exec driver (State.init 1) freedWhileCounting).map fun s =>
      decide (s.tdr 0 = .count 0 ∧ s.refcount 0 = 0)) = some true := by
  decide

/-- The timeout worker touches a job whose last reference is gone. -/
theorem timeout_touches_freed_job :
    ¬ ∀ s, Runs driver (State.init 1) freedWhileCounting s → s.TouchesLive := by
  intro all
  obtain ⟨s, run, test⟩ := runs_of_test freedWhileCounting_accepted
  obtain ⟨hcount, href⟩ := of_decide_eq_true test
  have := all s run (.tdrCount 0 0) 0 (by simp [enabled, hcount]) rfl
  omega

theorem touchesLive_iff_keepsCounted_on_freedWhileCounting :
    ∃ s, Runs driver (State.init 1) freedWhileCounting s ∧
      (Throughout driver State.TouchesLive (State.init 1) freedWhileCounting ↔
        Along driver KeepsCounted (State.init 1) freedWhileCounting) := by
  obtain ⟨s, run, -⟩ := runs_of_test freedWhileCounting_accepted
  exact ⟨s, run, touchesLive_iff_keepsCounted run⟩

end Rkopnu.Driver
