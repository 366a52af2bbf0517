import Rkopnu.Driver.Timeouts
import Rkopnu.Foundation.Progress
import Rkopnu.Foundation.Tally
import Mathlib.Data.Prod.Lex

/-!
# A pushed job can always be finished

Whatever has happened, the workers of a job's core can still bring the job to its end: the
call of `rocket_job_run` under way runs out, so does the timeout under way, and a timeout of the
job itself finishes it. No interrupt, no client and no other core has to do anything for it.
-/

namespace Rkopnu.Driver

open Function (update)
open Transition Tally

/-- The core whose workers take the step: `run_job`, or the timeout worker with its walks over
the pending list. -/
def Action.workerOf : Action → Option Nat
  | .tdrDetach c _ _ | .tdrReap c _ _ | .tdrGuilty c _ | .tdrCancel c _ _ => some c
  | a => a.runOf.or a.tdrOf

namespace State
variable (s : State)

/-- A program that is being written is not at its end. -/
def WritingMore : Prop := ∀ c j p, s.run c ≠ .writing j p []

/-- The credit of a core is with a started job of the core that is not finished. -/
def ActiveJob : Prop := ∀ c k, s.active c = some k →
  (s.job k).core = c ∧ (s.place k).started = true ∧ s.finished k = false

/-- A freed job is finished. -/
def ReleasedFinished : Prop := ∀ j, s.place j = .released → s.finished j = true

/-- There is a core where a file is open, a call made or a job pushed. -/
def CoresServe : Prop := (∀ f, s.file f = .opened → 0 < s.cores) ∧
  (∀ j, s.call j ≠ .idle → 0 < s.cores) ∧ ∀ j, s.place j ≠ .outside → 0 < s.cores

end State

/-- What is known about the jobs that are still to be finished. -/
structure Recoverable (s : State) : Prop extends Timed s where
  writingMore : s.WritingMore
  activeJob : s.ActiveJob
  releasedFinished : s.ReleasedFinished
  coresServe : s.CoresServe

section Preserve
variable {s : State} {a : Action}

theorem keep_writingMore (inv : s.WritingMore) (h : enabled s a = true) :
    (effect s a).WritingMore := by
  intro c j p hwriting
  rcases run_effect h c with hmove | ⟨-, hstay⟩
  · rw [hwriting] at hmove
    generalize s.run c = q at hmove
    generalize hrest : ([] : List RegWrite) = rest at hmove
    cases hmove with
    | program hp => simp [hp, hwProgram, hwSubmitWrites] at hrest
    | write more => exact more hrest.symm
  · exact inv c j p (hstay ▸ hwriting)

/-- The credit of a core is with the job that had it, or with the one just popped. -/
theorem active_before {c k : Nat} (hk : (effect s a).active c = some k) :
    s.active c = some k ∨ ∃ e, a = .pop c k e := by
  cases a with
  | pop b j e =>
      by_cases hc : c = b
      · subst hc
        exact Or.inr ⟨e, by simpa [effect, eq_comm] using hk⟩
      · exact Or.inl (by simpa [effect, hc] using hk)
  | runFail b j e | irqComplete b seen j | runComplete b j r | tdrCancel b i j
  | tdrDetach b i j =>
      simp only [effect, State.signalDone, State.jobDone] at hk
      split at hk
      · rw [Function.update_apply] at hk
        split at hk
        · cases hk
        · exact Or.inl hk
      · exact Or.inl hk
  | _ => exact Or.inl hk

/-- A finished job gives the credit of its core back. -/
theorem Finishes.returns_credit {k : Nat} (hfin : Finishes s a k) (h : enabled s a = true)
    (hstarted : (s.place k).started = true) :
    (effect s a).active (s.job k).core ≠ some k := by
  intro hk
  cases hfin with
  | fail armed | irq armed =>
      simp only [effect, State.signalDone, armed, true_and] at hk
      split at hk
      · simp at hk
      · contradiction
  | complete | cancel =>
      simp only [effect, State.jobDone] at hk
      split at hk
      · simp at hk
      · contradiction
  | kill => simp [(of_decide_eq_true h).1, Place.started] at hstarted

theorem keep_activeJob (inv : Recoverable s) (h : enabled s a = true) :
    (effect s a).ActiveJob := by
  intro c k hk
  rcases active_before hk with hold | ⟨e, rfl⟩
  · obtain ⟨hcore, hstarted, hfin⟩ := inv.activeJob c k hold
    refine ⟨?_, inv.started_stays h hstarted hfin, ?_⟩
    · rw [inv.job_of_placed h (Place.ne_outside_of_started hstarted), hcore]
    · rw [Bool.eq_false_iff]
      intro hdone
      rcases finished_before hdone with hbefore | hfinishes
      · simp [hfin] at hbefore
      · exact hfinishes.returns_credit h hstarted (hcore ▸ hk)
  · obtain ⟨-, -, -, -, hqueued, hcore, -⟩ := of_decide_eq_true h
    have hblank := inv.blank k (by rw [hqueued]; rfl) (by simp [hqueued])
    exact ⟨hcore, by simp [effect, Place.started], hblank.2.2.2.1⟩

theorem keep_releasedFinished (inv : Recoverable s) (h : enabled s a = true) :
    (effect s a).ReleasedFinished := by
  intro j hj
  rcases inv.place_effect h j with hmove | ⟨-, hstay⟩
  · generalize s.place j = p at hmove
    generalize (effect s a).place j = q at hmove hj
    cases hmove with
    | freeJob => exact finished_stays (of_decide_eq_true h).2.2.2
    | reap => exact finished_stays (of_decide_eq_true h).2.2.2.2.2
    | @freeGuilty c =>
        obtain ⟨hret, hguilty⟩ := of_decide_eq_true h
        obtain ⟨k, hk, -, -, hfin⟩ := inv.guiltyHeld c hguilty
        obtain rfl : j = k := by simpa [hret, TdrPc.job] using hk
        exact finished_stays hfin
    | kill => exact Finishes.kill.finished
    | _ => cases hj
  · exact finished_stays (inv.releasedFinished j (hstay ▸ hj))

theorem keep_coresServe (inv : Recoverable s) (h : enabled s a = true) :
    (effect s a).CoresServe := by
  obtain ⟨hfile, hcall, hplace⟩ := inv.coresServe
  unfold State.CoresServe
  rw [cores_effect]
  refine ⟨fun f hf => ?_, fun j hj => ?_, fun j hj => ?_⟩
  · cases a with
    | openFile => exact of_decide_eq_true h
    | close g | destroyEntity g k | destroyed g k | scan g k | scanned g k | putSlot g k
    | closed g k =>
        by_cases hg : f = g
        · subst hg
          simp [effect] at hf
        · exact hfile f (by simpa [effect, State.domainPut, hg] using hf)
    | _ => exact hfile f hf
  · rcases inv.call_effect h j with hmove | ⟨-, hstay⟩
    · have keep := hcall j
      generalize s.call j = p at hmove keep
      generalize (effect s a).call j = q at hmove
      cases hmove with
      | enter | refuse => exact hfile _ (of_decide_eq_true h)
      | _ => exact keep (by simp)
    · exact hcall j (hstay ▸ hj)
  · rcases inv.place_effect h j with hmove | ⟨-, hstay⟩
    · have keep := hplace j
      generalize s.place j = p at hmove keep
      generalize (effect s a).place j = q at hmove
      cases hmove with
      | push =>
          have hpush : s.call j = .push := of_decide_eq_true h
          exact hcall j (by simp [hpush])
      | _ => exact keep (by simp)
    · exact hplace j (hstay ▸ hj)

theorem Recoverable.preserve (inv : Recoverable s) (h : enabled s a = true) :
    Recoverable (effect s a) where
  toTimed := inv.toTimed.preserve h
  writingMore := keep_writingMore inv.writingMore h
  activeJob := keep_activeJob inv h
  releasedFinished := keep_releasedFinished inv h
  coresServe := keep_coresServe inv h

end Preserve

theorem Recoverable.initial (n : Nat) : Recoverable (State.init n) where
  toTimed := Timed.initial n
  writingMore := fun c j p h => by simp [State.init] at h
  activeJob := fun c k h => by simp [State.init] at h
  releasedFinished := fun j h => by simp [State.init] at h
  coresServe := by simp [State.CoresServe, State.init]

theorem Recoverable.reachable {n : Nat} {acts : List Action} {s : State}
    (run : Runs driver (State.init n) acts s) : Recoverable s :=
  run_invariant Recoverable (Recoverable.initial n) (fun _ _ inv h => inv.preserve h) run

/-! ## The call of `rocket_job_run` under way runs out -/

/-- How far `rocket_job_run` is from its return. -/
def RunPc.left : RunPc → Nat
  | .idle => 0
  | .ret _ _ => 1
  | .fail _ _ => 2
  | .pmPut _ _ => 3
  | .writing _ _ rest => rest.length + 1
  | .lock _ => 13
  | .pmGet _ => 14
  | .create _ => 15
  | .check _ => 16

/-- How far `rocket_job_timedout` is from its return. -/
def TdrPc.left : TdrPc → Nat
  | .idle => 0
  | .ret _ => 1
  | .count _ => 2
  | .startLoop _ => 3
  | .clear _ => 4
  | .hwReset _ => 5
  | .stopLoop _ => 6
  | .stop _ => 7
  | .mark _ => 8
  | .entry _ => 9

section Left
variable {s : State} {a : Action} {c : Nat}

/-- Every step of a `rocket_job_run` brings it closer to its return. -/
theorem RunPc.Moves.left_lt {p q : RunPc} (hmove : RunPc.Moves s a c p q) (hp : p ≠ .idle) :
    q.left < p.left := by
  cases hmove with
  | pop => exact absurd rfl hp
  | program hprogram => simp [hprogram, hwProgram, hwSubmitWrites, RunPc.left]
  | _ => simp [RunPc.left]

/-- Every step of a `rocket_job_timedout` brings it closer to its return. -/
theorem TdrPc.Moves.left_lt {p q : TdrPc} (hmove : TdrPc.Moves a c p q) (hp : p ≠ .idle) :
    q.left < p.left := by
  cases hmove with
  | fire => exact absurd rfl hp
  | _ => simp [TdrPc.left]

/-- Some step of a `rocket_job_run` under way is never waited for. -/
theorem Recoverable.run_enabled (inv : Recoverable s) (hrun : s.run c ≠ .idle) :
    ∃ a, a.runOf = some c ∧ enabled s a = true := by
  have hirq := inv.irqOutside c
  cases hpc : s.run c with
  | idle => exact absurd hpc hrun
  | check j => exact ⟨.runCheck c j, rfl, decide_eq_true hpc⟩
  | create j => exact ⟨.runCreate c j true, rfl, decide_eq_true hpc⟩
  | pmGet j => exact ⟨.runPmGet c j fun _ => true, rfl, decide_eq_true hpc⟩
  | lock j =>
      have hfree : s.jobLockFree c = true := by simp [State.jobLockFree, hpc, hirq, RunPc.locked]
      cases hpending : s.resetPending c with
      | true => exact ⟨.runSkip c j, rfl, decide_eq_true ⟨hpc, hfree, hpending⟩⟩
      | false =>
          exact ⟨.runProgram c j fun _ => ⟨0#32, 0#32, 0#64⟩, rfl,
            decide_eq_true ⟨hpc, hfree, hpending⟩⟩
  | writing j p rest =>
      cases rest with
      | nil => exact absurd hpc (inv.writingMore c j p)
      | cons w rest => exact ⟨.runWrite c j p w rest, rfl, decide_eq_true hpc⟩
  | pmPut j e => exact ⟨.runPmPut c j e, rfl, decide_eq_true hpc⟩
  | fail j e => exact ⟨.runFail c j e, rfl, decide_eq_true hpc⟩
  | ret j r =>
      by_cases hnow : s.immediate j r = none
      · cases r with
        | fence => exact ⟨.runArm c j, rfl, decide_eq_true ⟨hpc, hnow⟩⟩
        | null | err => cases hnow
      · exact ⟨.runComplete c j r, rfl, decide_eq_true ⟨hpc, hnow⟩⟩

end Left

/-- Job `j` was pushed to core `c`. -/
structure Pushed (c j : Nat) (s : State) : Prop extends Recoverable s where
  placed : s.place j ≠ .outside
  core : (s.job j).core = c

section Stages
variable {s : State} {a : Action} {c j k : Nat}

theorem Pushed.preserve (inv : Pushed c j s) (h : enabled s a = true) :
    Pushed c j (effect s a) where
  toRecoverable := inv.toRecoverable.preserve h
  placed := inv.placed_stays h inv.placed
  core := by rw [inv.job_of_placed h inv.placed, inv.core]

theorem Pushed.core_lt (inv : Pushed c j s) : c < s.cores := by
  have hcores := inv.coresServe.2.2 j inv.placed
  rw [← inv.core, inv.filled j (Or.inl inv.placed)]
  exact submitCore_lt hcores (s.args j)

/-- Who has to act for job `j` of core `c`: the core's workers, and the end of the job's
entity. -/
def Serves (c j : Nat) (a : Action) : Prop := a.workerOf = some c ∨ a = .killJob j

theorem serves_of_run (ha : a.runOf = some c) : Serves c j a := by
  refine Or.inl ?_
  cases a <;> simp_all [Action.workerOf, Action.runOf]

theorem serves_of_tdr (ha : a.tdrOf = some c) : Serves c j a := by
  refine Or.inl ?_
  cases a <;> simp_all [Action.workerOf, Action.runOf, Action.tdrOf]

/-- The `rocket_job_run` under way on the core returns. -/
theorem Pushed.reach_runIdle (inv : Pushed c j s) :
    CanReach driver (Serves c j) (fun t => Pushed c j t ∧ t.run c = .idle) s := by
  refine canReach_of_measure (Pushed c j) (fun s => (s.run c).left) (fun s inv hrun => ?_) inv
  obtain ⟨a, ha, h⟩ := inv.run_enabled hrun
  refine ⟨a, effect s a, serves_of_run ha, driver_eq_some.mpr ⟨h, rfl⟩, inv.preserve h, ?_⟩
  rcases run_effect h c with hmove | ⟨hother, -⟩
  · exact hmove.left_lt hrun
  · exact absurd ha hother

end Stages

/-! ## The timeout under way runs out -/

/-- `drm_sched_stop` or `drm_sched_start` has still to deal with a job on the pending list. -/
def TdrPc.visits : TdrPc → Bool → Bool → Bool
  | .stopLoop _, callback, finished => callback || finished
  | .startLoop _, _, finished => !finished
  | _, _, _ => false

/-- The timeout worker of core `c` has still to deal with job `k`. -/
def State.ToVisit (s : State) (c k : Nat) : Prop := s.place k = .pending ∧
  (s.job k).core = c ∧ (s.tdr c).visits (s.callback k) (s.finished k) = true

instance (s : State) (c : Nat) : DecidablePred (s.ToVisit c) := fun _ =>
  inferInstanceAs (Decidable (_ ∧ _ ∧ _))

/-- What is left of the timeout worker's code, and of the list it walks over. -/
def State.timeoutLeft (s : State) (c : Nat) : Nat ×ₗ Nat :=
  toLex ((s.tdr c).left, tally (Finset.range s.jobs) (s.ToVisit c))

/-- The step deals with job `k` on the walk of the timeout worker of core `c`. -/
inductive Visits : Action → Nat → Nat → Prop
  | detach {c j k} : Visits (.tdrDetach c j k) c k
  | reap {c j k} : Visits (.tdrReap c j k) c k
  | guilty {c j} : Visits (.tdrGuilty c j) c j
  | cancel {c j k} : Visits (.tdrCancel c j k) c k

/-- While job `k` is handled by the timeout worker of core `c`, nothing runs on the core, and
its credit is with `credit` or back. -/
structure Draining (c j : Nat) (credit : Option Nat) (k : Nat) (s : State) : Prop
    extends Pushed c j s where
  runIdle : s.run c = .idle
  handled : (s.tdr c).job = some k ∨ s.tdr c = .idle ∧ s.finished k = true
  credited : s.active c = none ∨ s.active c = credit

section Timeout
variable {s : State} {a : Action} {c j k : Nat} {credit : Option Nat}

theorem Draining.preserve (inv : Draining c j credit k s) (h : enabled s a = true)
    (hrun : a.runOf ≠ some c) (hbusy : s.tdr c ≠ .idle) :
    Draining c j credit k (effect s a) where
  toPushed := inv.toPushed.preserve h
  runIdle := by
    rcases run_effect h c with hmove | ⟨-, hstay⟩
    · rw [inv.runIdle] at hmove
      generalize (effect s a).run c = q at hmove
      cases hmove
      exact absurd rfl hrun
    · rw [hstay, inv.runIdle]
  handled := by
    have hjob := inv.handled.resolve_right fun hidle => hbusy hidle.1
    rcases tdr_effect h c with hmove | ⟨-, hstay⟩
    · generalize hp : s.tdr c = p at hmove hjob hbusy
      generalize (effect s a).tdr c = q at hmove ⊢
      cases hmove with
      | fire => exact absurd rfl hbusy
      | @ret _ i | @freeGuilty _ i =>
          obtain rfl : i = k := Option.some.inj hjob
          exact Or.inr ⟨rfl, finished_stays (inv.restartFinished c i (Or.inr hp))⟩
      | _ => exact Or.inl hjob
    · exact Or.inl (hstay ▸ hjob)
  credited := by
    cases hactive : (effect s a).active c with
    | none => exact Or.inl rfl
    | some m =>
        rcases active_before hactive with hold | ⟨e, rfl⟩
        · exact inv.credited.imp (fun hnone => by simp [hnone] at hold) (hold ▸ ·)
        · exact absurd rfl hrun

theorem Recoverable.lt_jobs (inv : Recoverable s) (hk : s.place k ≠ .outside) : k < s.jobs := by
  by_contra hge
  have hidle := inv.freshCalls k (by omega)
  exact hk (inv.outside k (by simp [hidle, CallPc.beforePush]))

/-- Some step of a timeout under way is never waited for, once nothing runs on the core. -/
theorem Draining.tdr_enabled (inv : Draining c j credit k s) (hbusy : s.tdr c ≠ .idle) :
    ∃ a, enabled s a = true ∧ (a.tdrOf = some c ∨ ∃ i, Visits a c i) := by
  cases hpc : s.tdr c with
  | idle => exact absurd hpc hbusy
  | entry i => exact ⟨.tdrEntry c i, decide_eq_true hpc, Or.inl rfl⟩
  | mark i => exact ⟨.tdrMark c i, decide_eq_true hpc, Or.inl rfl⟩
  | stop i =>
      have hpending : s.resetPending c = true := by rw [inv.pendingFlag c, hpc]; rfl
      exact ⟨.tdrStop c i, decide_eq_true ⟨hpc, hpending, inv.runIdle⟩, Or.inl rfl⟩
  | stopLoop i =>
      by_cases hwalk : ∃ m, s.place m = .pending ∧ (s.job m).core = c ∧
          (s.callback m = true ∨ s.finished m = true)
      · obtain ⟨m, hplace, hcore, hwaits⟩ := hwalk
        by_cases harmed : s.callback m = true
        · exact ⟨.tdrDetach c i m, decide_eq_true ⟨hpc, hplace, hcore, harmed⟩,
            Or.inr ⟨m, .detach⟩⟩
        · have hfin := hwaits.resolve_left harmed
          rw [Bool.not_eq_true] at harmed
          by_cases hm : m = i
          · subst hm
            exact ⟨.tdrGuilty c m, decide_eq_true ⟨hpc, hplace, harmed, hfin⟩,
              Or.inr ⟨m, .guilty⟩⟩
          · exact ⟨.tdrReap c i m, decide_eq_true ⟨hpc, hm, hplace, hcore, harmed, hfin⟩,
              Or.inr ⟨m, .reap⟩⟩
      · have hfree : s.jobLockFree c = true := by
          simp [State.jobLockFree, inv.runIdle, inv.irqOutside c, RunPc.locked]
        refine ⟨.tdrSection c i, decide_eq_true ⟨hpc, hfree, fun m _ hplace hcore => ?_⟩,
          Or.inl rfl⟩
        by_contra hwaits
        exact hwalk ⟨m, hplace, hcore, by simpa [imp_iff_not_or] using hwaits⟩
  | hwReset i => exact ⟨.tdrHwReset c i, decide_eq_true hpc, Or.inl rfl⟩
  | clear i => exact ⟨.tdrClear c i, decide_eq_true hpc, Or.inl rfl⟩
  | startLoop i =>
      by_cases hwalk : ∃ m, s.place m = .pending ∧ (s.job m).core = c ∧ s.finished m = false
      · obtain ⟨m, hplace, hcore, hfin⟩ := hwalk
        exact ⟨.tdrCancel c i m, decide_eq_true ⟨hpc, hplace, hcore, hfin⟩, Or.inr ⟨m, .cancel⟩⟩
      · refine ⟨.tdrRestart c i, decide_eq_true ⟨hpc, fun m _ hplace hcore => ?_⟩, Or.inl rfl⟩
        by_contra hfin
        exact hwalk ⟨m, hplace, hcore, Bool.eq_false_iff.mpr hfin⟩
  | count i => exact ⟨.tdrCount c i, decide_eq_true hpc, Or.inl rfl⟩
  | ret i =>
      cases hguilty : s.freeGuilty c with
      | true => exact ⟨.tdrFreeGuilty c i, decide_eq_true ⟨hpc, hguilty⟩, Or.inl rfl⟩
      | false => exact ⟨.tdrReturn c i, decide_eq_true ⟨hpc, hguilty⟩, Or.inl rfl⟩

/-- A step of the walk is done with its job. -/
theorem Visits.visited (hvisit : Visits a c k) (inv : Recoverable s) (h : enabled s a = true) :
    s.ToVisit c k ∧ ¬ (effect s a).ToVisit c k := by
  cases hvisit with
  | detach =>
      obtain ⟨hloop, hplace, hcore, harmed⟩ := of_decide_eq_true h
      have hfin := (inv.armed k harmed).2.1
      refine ⟨⟨hplace, hcore, by simp [hloop, harmed, TdrPc.visits]⟩, ?_⟩
      simp [State.ToVisit, effect, hloop, hfin, TdrPc.visits]
  | reap =>
      obtain ⟨hloop, -, hplace, hcore, -, hfin⟩ := of_decide_eq_true h
      refine ⟨⟨hplace, hcore, by simp [hloop, hfin, TdrPc.visits]⟩, ?_⟩
      simp [State.ToVisit, effect, State.schedFree]
  | guilty =>
      obtain ⟨hloop, hplace, -, hfin⟩ := of_decide_eq_true h
      have hcore := (inv.handlerCore c k (by rw [hloop]; rfl)).1
      refine ⟨⟨hplace, hcore, by simp [hloop, hfin, TdrPc.visits]⟩, ?_⟩
      simp [State.ToVisit, effect]
  | cancel =>
      obtain ⟨hloop, hplace, hcore, hfin⟩ := of_decide_eq_true h
      refine ⟨⟨hplace, hcore, by simp [hloop, hfin, TdrPc.visits]⟩, ?_⟩
      simp [State.ToVisit, effect, State.jobDone, hloop, TdrPc.visits]

/-- It leaves the other jobs and the worker's place, so there is one job less to visit. -/
theorem Visits.timeoutLeft_lt (hvisit : Visits a c k) (inv : Recoverable s)
    (h : enabled s a = true) : (effect s a).timeoutLeft c < s.timeoutLeft c := by
  obtain ⟨hbefore, hafter⟩ := hvisit.visited inv h
  have hjobs : (effect s a).jobs = s.jobs := by cases hvisit <;> rfl
  have htdr : (effect s a).tdr c = s.tdr c := by cases hvisit <;> rfl
  have hothers : ∀ i, i ≠ k → (s.ToVisit c i ↔ (effect s a).ToVisit c i) := by
    intro i hi
    cases hvisit <;>
      simp [State.ToVisit, effect, State.schedFree, State.jobPut, State.domainPut,
        State.jobDone, hi]
  have hmem : k ∈ Finset.range s.jobs :=
    Finset.mem_range.mpr (inv.lt_jobs (by simp [hbefore.1]))
  have hloss := tally_loss hmem hbefore hafter fun i _ hi => hothers i hi
  refine Prod.Lex.toLex_lt_toLex.mpr (Or.inr ⟨congrArg TdrPc.left htdr, ?_⟩)
  rw [hjobs]
  omega

theorem Visits.workerOf (hvisit : Visits a c k) : a.workerOf = some c ∧ a.runOf ≠ some c := by
  cases hvisit <;> simp [Action.workerOf, Action.runOf]

/-- The timeout under way on the core returns, and its job is finished. -/
theorem Draining.reach_tdrIdle (inv : Draining c j credit k s) :
    CanReach driver (Serves c j) (fun t => Draining c j credit k t ∧ t.tdr c = .idle) s := by
  refine canReach_of_measure (Draining c j credit k) (fun s => s.timeoutLeft c)
    (fun s inv hbusy => ?_) inv
  obtain ⟨a, h, hstep | ⟨i, hvisit⟩⟩ := inv.tdr_enabled hbusy
  · have hrun : a.runOf ≠ some c := by
      intro ha
      cases a <;> simp_all [Action.runOf, Action.tdrOf]
    refine ⟨a, effect s a, serves_of_tdr hstep, driver_eq_some.mpr ⟨h, rfl⟩,
      inv.preserve h hrun hbusy, Prod.Lex.toLex_lt_toLex.mpr (Or.inl ?_)⟩
    rcases tdr_effect h c with hmove | ⟨hother, -⟩
    · exact hmove.left_lt hbusy
    · exact absurd hstep hother
  · exact ⟨a, effect s a, Or.inl hvisit.workerOf.1, driver_eq_some.mpr ⟨h, rfl⟩,
      inv.preserve h hvisit.workerOf.2 hbusy, hvisit.timeoutLeft_lt inv.toRecoverable h⟩

end Timeout

/-! ## One timeout of the job finishes it -/

/-- Nothing runs on the core of job `j`, and no timeout is handled there. -/
structure Resting (c j : Nat) (s : State) : Prop extends Pushed c j s where
  runIdle : s.run c = .idle
  tdrIdle : s.tdr c = .idle

section Finish
variable {s : State} {c j k : Nat}

theorem Pushed.reach_resting (inv : Pushed c j s) :
    CanReach driver (Serves c j) (Resting c j) s := by
  refine inv.reach_runIdle.bind ?_
  rintro t ⟨inv, hrun⟩
  cases hjob : (t.tdr c).job with
  | none =>
      have htdr : t.tdr c = .idle := by
        cases hpc : t.tdr c <;> simp_all [TdrPc.job]
      exact .here ⟨inv, hrun, htdr⟩
  | some k =>
      have draining : Draining c j (t.active c) k t := ⟨inv, hrun, Or.inl hjob, Or.inr rfl⟩
      refine draining.reach_tdrIdle.bind ?_
      rintro u ⟨inv, htdr⟩
      exact .here ⟨inv.toPushed, inv.runIdle, htdr⟩

/-- No job is in the hands of a timeout worker that rests. -/
theorem Resting.not_timedOut (inv : Resting c j s) (hk : (s.job k).core = c) :
    s.place k ≠ .timedOut := by
  intro hplace
  rcases inv.timedOut k hplace with hoff | ⟨hjob, -⟩
  · simp [hk, inv.tdrIdle, TdrPc.offList] at hoff
  · simp [hk, inv.tdrIdle, TdrPc.job] at hjob

/-- A pending job times out, and its timeout finishes it. -/
theorem Resting.reach_finished_of_pending (inv : Resting c j s) (hk : (s.job k).core = c)
    (hplace : s.place k = .pending) :
    CanReach driver (Serves c j)
      (fun t => Resting c j t ∧ t.finished k = true ∧
        (t.active c = none ∨ t.active c = s.active c)) s := by
  have h : enabled s (.fire c k) = true :=
    decide_eq_true ⟨inv.core_lt, inv.tdrIdle, hplace, hk⟩
  have draining : Draining c j (s.active c) k (effect s (.fire c k)) :=
    ⟨inv.toPushed.preserve h, inv.runIdle, Or.inl (by simp [effect, TdrPc.job]), Or.inr rfl⟩
  refine .next (serves_of_tdr rfl) (driver_eq_some.mpr ⟨h, rfl⟩) ?_
  refine draining.reach_tdrIdle.bind ?_
  rintro t ⟨inv, htdr⟩
  refine .here ⟨?_, ?_, inv.credited⟩
  · exact ⟨inv.toPushed, inv.runIdle, htdr⟩
  · exact (inv.handled.resolve_left (by simp [htdr, TdrPc.job])).2

/-- The core gets its credit back. -/
theorem Resting.reach_credit (inv : Resting c j s) :
    CanReach driver (Serves c j) (fun t => Resting c j t ∧ t.active c = none) s := by
  cases hactive : s.active c with
  | none => exact .here ⟨inv, hactive⟩
  | some k =>
      obtain ⟨hcore, hstarted, -⟩ := inv.activeJob c k hactive
      have hpending : s.place k = .pending := by
        have := inv.not_timedOut hcore
        cases hplace : s.place k <;> simp_all [Place.started]
      refine (inv.reach_finished_of_pending hcore hpending).bind ?_
      rintro t ⟨inv, hfin, hcredit⟩
      refine .here ⟨inv, hcredit.resolve_right fun hsame => ?_⟩
      have hunfinished := (inv.activeJob c k (hsame.trans hactive)).2.2
      simp [hfin] at hunfinished

theorem Resting.reach_finished_of_popped (inv : Resting c j s) (hj : s.place j ≠ .queued) :
    CanReach driver (Serves c j) (fun t => t.finished j = true) s := by
  cases hplace : s.place j with
  | outside => exact absurd hplace inv.placed
  | queued => exact absurd hplace hj
  | pending =>
      exact (inv.reach_finished_of_pending inv.core hplace).bind fun t h => .here h.2.1
  | timedOut => exact absurd hplace (inv.not_timedOut inv.core)
  | released => exact .here (inv.releasedFinished j hplace)

/-- Job `j` was taken out of its queue. -/
def Popped (j : Nat) (s : State) : Prop :=
  Threaded s ∧ s.place j ≠ .outside ∧ s.place j ≠ .queued

theorem Popped.preserve {a : Action} {t : State} (inv : Popped j s)
    (hstep : driver s a = some t) : Popped j t := by
  obtain ⟨h, rfl⟩ := driver_eq_some.mp hstep
  exact ⟨inv.1.preserve h, inv.1.popped_stays h inv.2⟩

/-- A queued job is ended with its entity, or popped by the core that has its credit. -/
theorem Resting.reach_finished (inv : Resting c j s) (hcredit : s.active c = none) :
    CanReach driver (Serves c j) (fun t => t.finished j = true) s := by
  by_cases hj : s.place j = .queued
  · cases hgone : (s.file (s.caller j)).entityGone c with
    | true =>
        have h : enabled s (.killJob j) = true := decide_eq_true ⟨hj, by rw [inv.core, hgone]⟩
        exact .next (Or.inr rfl) (driver_eq_some.mpr ⟨h, rfl⟩) (.here Finishes.kill.finished)
    | false =>
        have h : enabled s (.pop c j none) = true :=
          decide_eq_true ⟨inv.core_lt, inv.runIdle, by rw [inv.tdrIdle]; rfl, hcredit, hj,
            inv.core, hgone⟩
        refine .next (serves_of_run rfl) (driver_eq_some.mpr ⟨h, rfl⟩) ?_
        have pushed := inv.toPushed.preserve h
        have rested := pushed.reach_resting.keep (Popped j)
          (fun t a u _ h hstep => h.preserve hstep)
          ⟨pushed.toThreaded, by simp [effect], by simp [effect]⟩
        exact rested.bind fun t h => h.2.reach_finished_of_popped h.1.2.2
  · exact inv.reach_finished_of_popped hj

theorem Pushed.reach_finished (inv : Pushed c j s) :
    CanReach driver (Serves c j) (fun t => t.finished j = true) s :=
  inv.reach_resting.bind fun _ resting =>
    resting.reach_credit.bind fun _ h => h.1.reach_finished h.2

end Finish

/-- Job 0 hangs on its core, and job 1 is queued behind it. -/
def queuedBehind : List Action := startOne ++ submitSteps 0 1 0 submitOne

theorem queuedBehind_accepted :
    ((exec driver (State.init 1) queuedBehind).map fun s =>
      decide (s.place 1 = .queued ∧ s.finished 0 = false)) = some true := by
  decide

end Rkopnu.Driver
