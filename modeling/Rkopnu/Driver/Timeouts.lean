import Rkopnu.Driver.Fences
import Rkopnu.Driver.Programs

/-!
# What a timeout does to its job

`rocket_job_timedout` counts the timeouts of a job and gives it up after the third. But the
restart at the end of `rocket_reset` has finished the job by then, so a second timeout can only
find a finished job, which `drm_sched_stop` keeps back to free it.
-/

namespace Rkopnu.Driver

open Function (update)
open Transition

/-- `enum drm_gpu_sched_stat`, what `rocket_job_timedout` returns of it. -/
inductive GpuSchedStat
  | reset
  | enodev
  deriving DecidableEq, Repr

/-- The end of `rocket_job_timedout`, with `timeout_count` before it is raised. -/
def timedoutStat (timeoutCount : Nat) : GpuSchedStat :=
  if 3 < timeoutCount + 1 then .enodev else .reset

/-- The job section of `rocket_reset` is done, and the timeout is not counted. -/
def TdrPc.sectionDone : TdrPc → Bool
  | .hwReset _ | .clear _ | .startLoop _ | .count _ => true
  | _ => false

namespace State
variable (s : State)

/-- While the scheduler is stopped for a job, the job is not freed. -/
def ParkedStarted : Prop := ∀ c j, (s.tdr c).parked = true → (s.tdr c).job = some j →
  (s.place j).started = true

/-- After the restart the job of the timeout is finished. -/
def RestartFinished : Prop := ∀ c j, s.tdr c = .count j ∨ s.tdr c = .ret j →
  s.finished j = true

/-- A job whose timeout was counted is finished. -/
def CountedFinished : Prop := ∀ j, 0 < s.timeoutCount j → s.finished j = true

/-- A job that times out again is kept back to be freed. -/
def SecondGuilty : Prop := ∀ c j, (s.tdr c).sectionDone = true → (s.tdr c).job = some j →
  0 < s.timeoutCount j → s.freeGuilty c = true

/-- A job that was counted twice is freed, or about to be. -/
def SecondLast : Prop := ∀ j, 1 < s.timeoutCount j → s.timeoutCount j = 2 ∧
  (s.place j = .released ∨ ∃ c, s.tdr c = .ret j ∧ s.freeGuilty c = true)

end State

/-- What is known about the jobs that have timed out. -/
structure Timed (s : State) : Prop extends Scheduled s where
  parkedStarted : s.ParkedStarted
  restartFinished : s.RestartFinished
  countedFinished : s.CountedFinished
  secondGuilty : s.SecondGuilty
  secondLast : s.SecondLast

section Preserve
variable {s : State} {a : Action}

theorem timeoutCount_effect (j : Nat) : (effect s a).timeoutCount j = s.timeoutCount j ∨
    (∃ c, a = .tdrCount c j) ∧ (effect s a).timeoutCount j = s.timeoutCount j + 1 := by
  cases a with
  | tdrCount c k =>
      by_cases hk : j = k
      · subst hk
        exact Or.inr ⟨⟨c, rfl⟩, Function.update_self _ _ _⟩
      · exact Or.inl (Function.update_of_ne hk _ _)
  | _ => exact Or.inl rfl

/-- A timeout always resets the core. -/
theorem Threaded.noReset_disabled (inv : Threaded s) (c j : Nat) :
    enabled s (.tdrNoReset c j) = false := by
  by_contra h
  obtain ⟨hstop, hclear⟩ : s.tdr c = .stop j ∧ s.resetPending c = false :=
    of_decide_eq_true (Bool.of_not_eq_false h)
  have := inv.pendingFlag c
  simp [hstop, hclear, TdrPc.resetting] at this

theorem keep_parkedStarted (inv : Timed s) (h : enabled s a = true) :
    (effect s a).ParkedStarted := by
  intro c j hparked hjob
  have keep := inv.parkedStarted c j
  rcases tdr_effect h c with hmove | ⟨-, hstay⟩
  · generalize s.tdr c = p at hmove keep
    generalize (effect s a).tdr c = q at hmove hparked hjob
    cases hmove with
    | stop =>
        obtain rfl := Option.some.inj hjob
        simp [effect, Place.started]
    | jobSection | hwReset | clear => exact keep rfl hjob
    | _ => cases hparked
  · rw [hstay] at hparked hjob
    have hstarted := keep hparked hjob
    have hcore := (inv.handlerCore c j hjob).1
    rcases inv.place_effect h j with hmove | ⟨-, hsame⟩
    · generalize s.place j = p at hmove hstarted
      generalize (effect s a).place j = q at hmove ⊢
      cases hmove with
      | fire | stop | guilty => rfl
      | @freeJob b =>
          obtain ⟨hrunning, -, hb, -⟩ := of_decide_eq_true h
          rw [← hcore, hb, hrunning] at hparked
          cases hparked
      | @reap b i =>
          obtain ⟨hloop, hne, -, hb, -⟩ := of_decide_eq_true h
          rw [← hcore, hb, hloop] at hjob
          exact absurd (Option.some.inj hjob).symm hne
      | @freeGuilty b =>
          have hret : s.tdr b = .ret j := (of_decide_eq_true h).1
          have hb := (inv.handlerCore b j (by rw [hret]; rfl)).1
          rw [← hcore, hb, hret] at hparked
          cases hparked
      | push | pop | kill => cases hstarted
    · rw [hsame, hstarted]

theorem keep_restartFinished (inv : Timed s) (h : enabled s a = true) :
    (effect s a).RestartFinished := by
  intro c j hj
  rcases tdr_effect h c with hmove | ⟨-, hstay⟩
  · generalize hp : s.tdr c = p at hmove
    generalize (effect s a).tdr c = q at hmove hj
    cases hmove with
    | noReset => simp [inv.noReset_disabled] at h
    | @restart _ k =>
        obtain rfl : k = j := by simpa using hj
        have hjob : (s.tdr c).job = some k := by rw [hp]; rfl
        have hstarted := inv.parkedStarted c k (by rw [hp]; rfl) hjob
        exact inv.finished_of_restart h hstarted (inv.handlerCore c k hjob).1
    | @count _ k =>
        obtain rfl : k = j := by simpa using hj
        exact inv.restartFinished c k (Or.inl hp)
    | _ => simp at hj
  · exact finished_stays (inv.restartFinished c j (hstay ▸ hj))

theorem keep_countedFinished (inv : Timed s) (h : enabled s a = true) :
    (effect s a).CountedFinished := by
  intro j hj
  rcases timeoutCount_effect (s := s) (a := a) j with hsame | ⟨⟨c, rfl⟩, -⟩
  · exact finished_stays (inv.countedFinished j (hsame ▸ hj))
  · exact finished_stays (inv.restartFinished c j (Or.inl (of_decide_eq_true h)))

theorem keep_secondGuilty (inv : Timed s) (h : enabled s a = true) :
    (effect s a).SecondGuilty := by
  intro c j hdone hjob hcount
  have keep := inv.secondGuilty c j
  rcases tdr_effect h c with hmove | ⟨hother, hstay⟩
  · generalize hp : s.tdr c = p at hmove keep
    generalize (effect s a).tdr c = q at hmove hdone hjob
    cases hmove with
    | noReset => simp [inv.noReset_disabled] at h
    | @jobSection _ k =>
        obtain rfl := Option.some.inj hjob
        have hjob : (s.tdr c).job = some k := by rw [hp]; rfl
        have hcore := (inv.handlerCore c k hjob).1
        have hstarted := inv.parkedStarted c k (by rw [hp]; rfl) hjob
        have hfinished := inv.countedFinished k hcount
        obtain ⟨-, -, hpending⟩ := of_decide_eq_true h
        -- a finished job is no longer pending when the walk of the list ends
        cases hplace : s.place k with
        | pending =>
            have hlt : k < s.jobs := by
              by_contra hge
              have hidle := inv.freshCalls k (by omega)
              have hout := inv.outside k (by simp [hidle, CallPc.beforePush])
              simp [hplace] at hout
            simp [(hpending k hlt hplace hcore).2] at hfinished
        | timedOut =>
            rcases inv.timedOut k hplace with hoff | ⟨-, hguilty⟩
            · simp [hcore, hp, TdrPc.offList] at hoff
            · rwa [hcore] at hguilty
        | outside | queued | released => simp [hplace, Place.started] at hstarted
    | hwReset | clear | restart => exact keep rfl hjob hcount
    | _ => cases hdone
  · rw [hstay] at hdone hjob
    have hsame : (effect s a).timeoutCount j = s.timeoutCount j := by
      refine (timeoutCount_effect j).resolve_right ?_
      rintro ⟨⟨b, rfl⟩, -⟩
      have hb : s.tdr b = .count j := of_decide_eq_true h
      have hcore := (inv.handlerCore b j (by rw [hb]; rfl)).1
      exact hother (congrArg some (hcore.symm.trans (inv.handlerCore c j hjob).1))
    exact freeGuilty_stays (keep hdone hjob (hsame ▸ hcount)) hother

theorem keep_secondLast (inv : Timed s) (h : enabled s a = true) : (effect s a).SecondLast := by
  intro j hj
  rcases timeoutCount_effect (s := s) (a := a) j with hsame | ⟨⟨c, rfl⟩, hnext⟩
  · rw [hsame] at hj ⊢
    obtain ⟨htwo, hreleased | ⟨c, hret, hguilty⟩⟩ := inv.secondLast j hj
    · refine ⟨htwo, Or.inl ?_⟩
      rcases inv.place_effect h j with hmove | ⟨-, hstay⟩
      · rw [hreleased] at hmove
        generalize (effect s a).place j = q at hmove
        cases hmove
      · rw [hstay, hreleased]
    · refine ⟨htwo, ?_⟩
      rcases tdr_effect h c with hmove | ⟨hother, hstay⟩
      · rw [hret] at hmove
        generalize (effect s a).tdr c = q at hmove
        cases hmove with
        | ret =>
            have hclear : s.freeGuilty c = false := (of_decide_eq_true h).2
            simp [hguilty] at hclear
        | freeGuilty => exact Or.inl (by simp [effect, State.schedFree])
      · exact Or.inr ⟨c, hstay.trans hret, freeGuilty_stays hguilty hother⟩
  · have hcount : s.tdr c = .count j := of_decide_eq_true h
    rw [hnext] at hj ⊢
    have hguilty := inv.secondGuilty c j (by rw [hcount]; rfl) (by rw [hcount]; rfl) (by omega)
    have hone : s.timeoutCount j ≤ 1 := by
      by_contra hmore
      rcases (inv.secondLast j (by omega)).2 with hreleased | ⟨b, hret, -⟩
      · obtain ⟨k, hk, -, hplace, -⟩ := inv.guiltyHeld c hguilty
        obtain rfl : j = k := by simpa [hcount, TdrPc.job] using hk
        simp [hreleased] at hplace
      · have hb := (inv.handlerCore b j (by rw [hret]; rfl)).1
        have hc := (inv.handlerCore c j (by rw [hcount]; rfl)).1
        obtain rfl : b = c := hb.symm.trans hc
        simp [hret] at hcount
    exact ⟨by omega, Or.inr ⟨c, by simp [effect], hguilty⟩⟩

theorem Timed.preserve (inv : Timed s) (h : enabled s a = true) : Timed (effect s a) where
  toScheduled := inv.toScheduled.preserve h
  parkedStarted := keep_parkedStarted inv h
  restartFinished := keep_restartFinished inv h
  countedFinished := keep_countedFinished inv h
  secondGuilty := keep_secondGuilty inv h
  secondLast := keep_secondLast inv h

end Preserve

theorem Timed.initial (n : Nat) : Timed (State.init n) where
  toScheduled := Scheduled.initial n
  parkedStarted := fun c j h => by simp [State.init, TdrPc.parked] at h
  restartFinished := fun c j h => by simp [State.init] at h
  countedFinished := fun j h => by simp [State.init] at h
  secondGuilty := fun c j h => by simp [State.init, TdrPc.sectionDone] at h
  secondLast := fun j h => by simp [State.init] at h

theorem Timed.reachable {n : Nat} {acts : List Action} {s : State}
    (run : Runs driver (State.init n) acts s) : Timed s :=
  run_invariant Timed (Timed.initial n) (fun _ _ inv h => inv.preserve h) run

/-- The programs of job `j` that were started on the hardware. -/
def State.programsOf (s : State) (j : Nat) : List Program := s.log.filter fun p => p.job = j

/-- A job whose timeout was counted is not started on the hardware any more. -/
theorem programsOf_effect {s : State} {a : Action} (inv : Programmed s) (timed : Timed s)
    (h : enabled s a = true) {j : Nat} (hj : 0 < s.timeoutCount j) :
    (effect s a).programsOf j = s.programsOf j := by
  unfold State.programsOf
  rcases log_effect inv.toThreaded h with hsame | ⟨c, k, p, rest, rfl, happend⟩
  · rw [hsame]
  · obtain ⟨hrun, -, hp, -⟩ := inv.program_of_runWrite h
    have hne : p.job ≠ j := by
      rintro rfl
      have hunfinished := (inv.running c k hrun).2.2.1
      rw [← hp] at hunfinished
      simp [timed.countedFinished p.job hj] at hunfinished
    rw [happend, List.filter_append]
    simp [hne]

/-- In every run a timeout ends its job for good: where `rocket_job_timedout` counts it, the job is
finished and `DRM_GPU_SCHED_STAT_RESET` is returned, no job is counted more than twice, so
that none is ever given up after the third; and a counted job is not started on the hardware
again, however the run goes on. -/
theorem timeout_ends_job {n : Nat} {acts : List Action} {s : State}
    (run : Runs driver (State.init n) acts s) :
    (∀ j, s.timeoutCount j ≤ 2) ∧
    (∀ c j, enabled s (.tdrCount c j) = true →
      s.finished j = true ∧ timedoutStat (s.timeoutCount j) = .reset) ∧
    ∀ j, 0 < s.timeoutCount j → ∀ more t, Runs driver s more t →
      t.finished j = true ∧ t.programsOf j = s.programsOf j := by
  have inv := Timed.reachable run
  have hbound : ∀ j, s.timeoutCount j ≤ 2 := by
    intro j
    by_contra hmore
    have := (inv.secondLast j (by omega)).1
    omega
  refine ⟨hbound, fun c j h => ?_, fun j hj more t hmore => ?_⟩
  · have hcount : s.tdr c = .count j := of_decide_eq_true h
    refine ⟨inv.restartFinished c j (Or.inl hcount), if_neg ?_⟩
    have := hbound j
    omega
  · have hlater : Programmed t ∧ Timed t ∧ 0 < t.timeoutCount j ∧
        t.programsOf j = s.programsOf j := by
      refine invariant (fun t => Programmed t ∧ Timed t ∧ 0 < t.timeoutCount j ∧
        t.programsOf j = s.programsOf j) ?_ hmore ⟨Programmed.reachable run, inv, hj, rfl⟩
      rintro u a v ⟨hprogrammed, htimed, hpos, hsame⟩ hstep
      obtain ⟨h, rfl⟩ := driver_eq_some.mp hstep
      refine ⟨hprogrammed.preserve h, htimed.preserve h, ?_,
        (programsOf_effect hprogrammed htimed h hpos).trans hsame⟩
      rcases timeoutCount_effect (s := u) (a := a) j with hstay | ⟨-, hnext⟩ <;> omega
    exact ⟨hlater.2.1.countedFinished j hlater.2.2.1, hlater.2.2.2⟩

/-- Job 0 is started and times out; its timeout is about to be counted. -/
def timedOutSteps : List Action := startOne ++ resetSteps 0 0

theorem timedOutSteps_accepted :
    ((exec driver (State.init 1) timedOutSteps).map fun s => enabled s (.tdrCount 0 0)) =
      some true := by
  decide

theorem timeout_ends_job_timedOut :
    ∃ s, Runs driver (State.init 1) timedOutSteps s ∧ s.finished 0 = true := by
  obtain ⟨s, run, test⟩ := runs_of_test timedOutSteps_accepted
  exact ⟨s, run, ((timeout_ends_job run).2.1 0 0 test).1⟩

end Rkopnu.Driver
