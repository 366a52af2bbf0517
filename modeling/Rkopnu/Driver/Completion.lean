import Rkopnu.Driver.Schedule
import Rkopnu.Driver.Trace

/-!
# What a submit that returns 0 says about its job

Every way a job can end: completed by the interrupt, failed or skipped by
`rocket_job_run`, canceled by the restart after a reset, killed with its entity.
`rkopnu_ioctl_submit` only learns that the job has ended, so a return of 0 means
success exactly in the runs in which nothing disturbed the job.
-/

namespace Rkopnu.Driver

open Function (update)
open Transition

/-- `rocket_job_run` has not made the done fence yet. -/
def RunPc.unfenced : RunPc → Option Nat
  | .check j | .create j => some j
  | _ => none

/-- `rocket_job_run` is on its way to end the job with an error. -/
def RunPc.failing : RunPc → Option Nat
  | .pmPut j _ | .fail j _ | .ret j (.err _) => some j
  | _ => none

/-- The ioctl is on its way to return 0. -/
def CallPc.succeeding : CallPc → Bool
  | .putJob none | .vunmap none | .gemPut none | .returned none => true
  | _ => false

theorem RunPc.job_of_failing {pc : RunPc} {j : Nat} (h : pc.failing = some j) :
    pc.job = some j := by
  unfold RunPc.failing at h
  split at h <;> simp_all [RunPc.job]

theorem RunPc.job_of_unfenced {pc : RunPc} {j : Nat} (h : pc.unfenced = some j) :
    pc.job = some j := by
  cases pc <;> simp_all [RunPc.unfenced, RunPc.job]

theorem CallPc.not_busy_of_done {pc : CallPc} (h : pc.done = true) : pc.busy = false := by
  cases pc <;> simp_all [CallPc.done, CallPc.busy]

theorem CallPc.ne_idle_of_busy {pc : CallPc} (h : pc.busy = true) : pc ≠ .idle := by
  rintro rfl
  cases h

theorem CallPc.ne_idle_of_succeeding {pc : CallPc} (h : pc.succeeding = true) : pc ≠ .idle := by
  rintro rfl
  cases h

namespace State
variable (s : State)

/-- A done fence is unsignaled, or it tells apart by its error who signaled it. -/
def FenceReports : Prop := ∀ j f, s.doneFence j = some f →
  (f.signaler ≠ some .runJob → f.error = none) ∧ (f.signaler = some .runJob → f.error ≠ none)

/-- The done fence of a job is made once. -/
def FenceFresh : Prop := ∀ c j, (s.run c).unfenced = some j → s.doneFence j = none

/-- A job that finished without an error was completed by the IRQ thread. -/
def SuccessByIrq : Prop := ∀ j, s.finished j = true → s.error j = none →
  (s.doneFence j).map Fence.signaler = some (some .irqThread)

/-- A call with tasks that is about to return 0 has waited for its job. -/
def SuccessWaited : Prop := ∀ j, (s.call j).succeeding = true →
  (s.args j).taskNumber ≠ 0#32 → s.finished j = true

/-- A file is open while a call on it is running. -/
def BusyFile : Prop := ∀ j, (s.call j).busy = true → s.file (s.caller j) = .opened

/-- The job ends, or has ended, with an error. -/
def Doomed (j : Nat) : Prop := s.error j ≠ none ∨ (∃ c, (s.run c).failing = some j) ∨
  ∃ f, s.doneFence j = some f ∧ f.error ≠ none

/-- The submit has returned, and not with success for a task. -/
def SubmitFailed (j : Nat) : Prop :=
  ∃ r, s.call j = .returned r ∧ (r = none → (s.args j).taskNumber = 0#32)

/-- The submit returned 0 and reported all its tasks done. -/
def SubmitSucceeded (j : Nat) : Prop := s.call j = .returned none ∧
  (s.args j).taskNumber ≠ 0#32 ∧ s.counter j = (s.args j).taskNumber

/-- The finished fence is signaled without an error, by way of the interrupt. -/
def CompletedByIrq (j : Nat) : Prop := s.finished j = true ∧ s.error j = none ∧
  ∃ f, s.doneFence j = some f ∧ f.signaler = some .irqThread ∧ f.error = none

end State

/-- The step does not disturb job `j`: the scheduler does not start it with an error on
its finished fence, its done fence is allocated, its domain attaches, and it
is not canceled after a reset. -/
def Undisturbed (j : Nat) (_s : State) : Action → Prop
  | .pop _ k e => k = j → e = none
  | .runCreate _ k ok => k = j → ok = true
  | .runAttachFail _ k _ => k ≠ j
  | .tdrCancel _ _ k => k ≠ j
  | _ => True

/-- What every ended job was ended by. -/
structure Reported (s : State) : Prop extends Scheduled s where
  fenceReports : s.FenceReports
  fenceFresh : s.FenceFresh
  successByIrq : s.SuccessByIrq
  successWaited : s.SuccessWaited
  busyFile : s.BusyFile

section Preserve
variable {s : State} {a : Action}

theorem keep_fenceReports (inv : Reported s) (_h : enabled s a = true) :
    (effect s a).FenceReports := by
  intro j f hf
  have keep := inv.fenceReports j
  rcases doneFence_before hf with
    hold | ⟨c, -, rfl⟩ | ⟨g, hg, ⟨c, e, -, rfl⟩ | ⟨c, seen, -, rfl⟩⟩
  · exact keep f hold
  · exact ⟨fun _ => rfl, by simp⟩
  all_goals
    simp only [Fence.signal]
    split
    · simp
    · exact keep g hg

theorem keep_fenceFresh (inv : Reported s) (h : enabled s a = true) :
    (effect s a).FenceFresh := by
  intro c j hj
  have keep := inv.fenceFresh c j
  rcases run_effect h c with hmove | ⟨hother, hstay⟩
  · generalize s.run c = p at hmove keep
    generalize (effect s a).run c = q at hmove hj
    cases hmove with
    | pop =>
        obtain rfl := Option.some.inj hj
        have hqueued := (of_decide_eq_true h).2.2.2.2.1
        exact (inv.blank _ (by rw [hqueued]; rfl) (by simp [hqueued])).2.1
    | check => exact keep hj
    | _ => cases hj
  · rw [hstay] at hj
    cases hf : (effect s a).doneFence j with
    | none => rfl
    | some f =>
        rcases doneFence_before hf with hold | ⟨b, rfl, -⟩ | ⟨g, hg, -⟩
        · simp [keep hj] at hold
        · have hcreate : s.run b = .create j := of_decide_eq_true h
          have hb := inv.run_unique (by rw [hcreate]; rfl) (RunPc.job_of_unfenced hj)
          exact absurd (congrArg some hb) hother
        · simp [keep hj] at hg

/-- A signaled done fence stays what it is. -/
theorem Reported.signaled_stays (inv : Reported s) (h : enabled s a = true) {j : Nat} {f : Fence}
    (hf : s.doneFence j = some f) (hsig : f.signaler ≠ none) :
    (effect s a).doneFence j = some f := by
  rcases doneFence_cases (s := s) (a := a) j with hsame | ⟨c, rfl⟩ | ⟨c, e, rfl⟩ | ⟨c, seen, rfl⟩
  · rw [hsame, hf]
  · have hcreate : s.run c = .create j := of_decide_eq_true h
    simp [inv.fenceFresh c j (by rw [hcreate]; rfl)] at hf
  · simp [effect, State.signalDone, hf, signal_of_signaled hsig]
  · simp [effect, State.signalDone, hf, signal_of_signaled hsig]

/-- A job that the step finishes without an error has been completed by the IRQ thread. -/
theorem Reported.irq_of_finishes (inv : Reported s) (h : enabled s a = true) {j : Nat}
    (hfin : Finishes s a j) (herr : (effect s a).error j = none) :
    ∃ f, (effect s a).doneFence j = some f ∧ f.signaler = some .irqThread := by
  cases hfin with
  | fail armed => simp [effect, State.signalDone, armed] at herr
  | irq =>
      obtain ⟨f, hf, hopen⟩ :=
        Option.map_eq_some_iff.mp (inv.inFlight _ j (of_decide_eq_true h).2.2.1).2.2.2.1
      exact ⟨f.signal .irqThread none, by simp [effect, State.signalDone, hf],
        by simp [Fence.signal, hopen]⟩
  | @complete c _ r =>
      obtain ⟨hret, hnow⟩ := of_decide_eq_true h
      cases r with
      | null => exact absurd herr (error_stays ((inv.returned c j).2 hret))
      | err e => simp [effect, State.jobDone, State.immediate] at herr
      | fence =>
          cases hf : s.doneFence j with
          | none => simp [State.immediate, hf] at hnow
          | some f =>
              have hsig : f.signaler ≠ none := fun hopen =>
                hnow (by simp [State.immediate, hf, hopen])
              refine ⟨f, hf, ?_⟩
              cases hwho : f.signaler with
              | none => exact absurd hwho hsig
              | some who =>
                  cases who with
                  | irqThread => rfl
                  | runJob =>
                      have hfail := (inv.fenceReports j f hf).2 hwho
                      simp [effect, State.jobDone, State.immediate, hf, hsig, hfail] at herr
  | cancel => simp [effect, State.jobDone] at herr
  | kill => simp [effect] at herr

theorem keep_successByIrq (inv : Reported s) (h : enabled s a = true) :
    (effect s a).SuccessByIrq := by
  intro j hfin herr
  suffices ∃ f, (effect s a).doneFence j = some f ∧ f.signaler = some .irqThread from
    Option.map_eq_some_iff.mpr this
  rcases finished_before hfin with hold | hfinishes
  · have hclean : s.error j = none := not_not.mp fun hdirty => error_stays hdirty herr
    obtain ⟨f, hf, hsig⟩ := Option.map_eq_some_iff.mp (inv.successByIrq j hold hclean)
    exact ⟨f, inv.signaled_stays h hf (by simp [hsig]), hsig⟩
  · exact inv.irq_of_finishes h hfinishes herr

theorem keep_successWaited (inv : Reported s) (h : enabled s a = true) :
    (effect s a).SuccessWaited := by
  intro j hj hn
  have keep := inv.successWaited j
  rcases inv.call_effect h j with hmove | ⟨hother, hstay⟩
  · generalize s.call j = p at hmove keep
    generalize (effect s a).call j = q at hmove hj
    cases hmove with
    | @refuse f args r early =>
        -- only a submit without tasks succeeds so early
        cases r with
        | none => simp_all [effect, submitEarly]
        | some e => cases hj
    | waitDone => exact (of_decide_eq_true h).2
    | @putJob _ r | @vunmap _ r | @gemPut _ r =>
        cases r with
        | none => exact finished_stays (keep rfl hn)
        | some e => cases hj
    | _ => cases hj
  · rw [hstay] at hj
    rw [(inv.record_of_called (CallPc.ne_idle_of_succeeding hj)).2] at hn
    exact finished_stays (keep hj hn)

theorem keep_busyFile (inv : Reported s) (h : enabled s a = true) : (effect s a).BusyFile := by
  intro j hj
  have keep := inv.busyFile j
  have hbefore : s.file ((effect s a).caller j) = .opened := by
    rcases inv.call_effect h j with hmove | ⟨hother, hstay⟩
    · generalize s.call j = p at hmove keep
      generalize (effect s a).call j = q at hmove hj
      cases hmove with
      | enter => simpa [effect, enabled] using h
      | refuse | gemPut => cases hj
      | _ => exact keep rfl
    · rw [hstay] at hj
      rw [(inv.record_of_called (CallPc.ne_idle_of_busy hj)).1, keep hj]
  generalize hf : (effect s a).caller j = f at hbefore ⊢
  refine opened_until_close h hbefore ?_
  -- the file is closed after its calls have returned
  rintro rfl
  have hlt : j < s.jobs := by
    by_contra hge
    exact CallPc.ne_idle_of_busy hj (inv.freshCalls j (by omega))
  have hdone := (of_decide_eq_true h).2 j hlt hf
  exact absurd hj (by simpa [effect] using CallPc.not_busy_of_done hdone)

theorem Reported.preserve (inv : Reported s) (h : enabled s a = true) :
    Reported (effect s a) where
  toScheduled := inv.toScheduled.preserve h
  fenceReports := keep_fenceReports inv h
  fenceFresh := keep_fenceFresh inv h
  successByIrq := keep_successByIrq inv h
  successWaited := keep_successWaited inv h
  busyFile := keep_busyFile inv h

end Preserve

theorem Reported.initial (n : Nat) : Reported (State.init n) where
  toScheduled := Scheduled.initial n
  fenceReports := fun j f h => by simp [State.init] at h
  fenceFresh := fun _ _ _ => rfl
  successByIrq := fun j h => by simp [State.init] at h
  successWaited := fun j h => by simp [State.init, CallPc.succeeding] at h
  busyFile := fun j h => by simp [State.init, CallPc.busy] at h

theorem Reported.reachable {n : Nat} {acts : List Action} {s : State}
    (run : Runs driver (State.init n) acts s) : Reported s :=
  run_invariant Reported (Reported.initial n) (fun _ _ inv h => inv.preserve h) run

section Doom
variable {s : State} {a : Action} {j : Nat}

/-- An error on the done fence is never taken back. -/
theorem fenceError_stays (inv : Reported s) (h : enabled s a = true) {f : Fence}
    (hf : s.doneFence j = some f) (he : f.error ≠ none) :
    (effect s a).doneFence j = some f := by
  refine inv.signaled_stays h hf fun hopen => he ?_
  exact (inv.fenceReports j f hf).1 (by simp [hopen])

theorem doomed_stays (inv : Reported s) (h : enabled s a = true) (doom : s.Doomed j) :
    (effect s a).Doomed j := by
  rcases doom with he | ⟨c, hc⟩ | ⟨f, hf, he⟩
  · exact Or.inl (error_stays he)
  · -- the failing `rocket_job_run` goes on to the fence, or to the scheduler
    rcases run_effect h c with hmove | ⟨-, hstay⟩
    · have hfenced := inv.fenced c
      generalize s.run c = p at hmove hc hfenced
      generalize hq : (effect s a).run c = q at hmove
      cases hmove with
      | pmPut => exact Or.inr (Or.inl ⟨c, by rw [hq]; exact hc⟩)
      | @fail _ k e =>
          obtain rfl := Option.some.inj hc
          obtain ⟨f, hf, hsig⟩ := Option.map_eq_some_iff.mp (hfenced k rfl)
          refine Or.inr (Or.inr ⟨f.signal .runJob (some e), ?_, ?_⟩)
          · simp [effect, State.signalDone, hf]
          · simp [Fence.signal, hsig]
      | @complete _ k r =>
          refine Or.inl ?_
          cases r with
          | err e =>
              obtain rfl := Option.some.inj hc
              simp [effect, State.jobDone, State.immediate]
          | null | fence => cases hc
      | _ => cases hc
    · exact Or.inr (Or.inl ⟨c, hstay ▸ hc⟩)
  · exact Or.inr (Or.inr ⟨f, fenceError_stays inv h hf he, he⟩)

/-- Each disturbance dooms the job. -/
theorem doomed_of_disturbed (h : ¬ Undisturbed j s a) : (effect s a).Doomed j := by
  cases a with
  | pop c k e =>
      simp only [Undisturbed, Classical.not_imp] at h
      obtain ⟨rfl, he⟩ := h
      exact Or.inl (by simp [effect, he])
  | runCreate c k ok =>
      simp only [Undisturbed, Classical.not_imp] at h
      obtain ⟨rfl, hok⟩ := h
      exact Or.inr (Or.inl ⟨c, by simp [effect, hok, RunPc.failing]⟩)
  | runAttachFail c k e =>
      obtain rfl : k = j := by simpa [Undisturbed] using h
      exact Or.inr (Or.inl ⟨c, by simp [effect, RunPc.failing]⟩)
  | tdrCancel c b k =>
      obtain rfl : k = j := by simpa [Undisturbed] using h
      exact Or.inl (by simp [effect, State.jobDone])
  | _ => exact absurd trivial h

theorem submitFailed_stays (inv : Reported s) (h : enabled s a = true)
    (failed : s.SubmitFailed j) : (effect s a).SubmitFailed j := by
  obtain ⟨r, hr, hn⟩ := failed
  have hargs := (inv.record_of_called (a := a) (j := j) (by simp [hr])).2
  rcases inv.call_effect h j with hmove | ⟨-, hstay⟩
  · rw [hr] at hmove
    cases hmove
  · exact ⟨r, by rw [hstay, hr], by rwa [hargs]⟩

/-- An entity is destroyed only after the ioctls of its file have returned. -/
theorem submitFailed_of_killed (inv : Reported s) (h : enabled s (.killJob j) = true) :
    s.SubmitFailed j := by
  simp only [enabled, decide_eq_true_eq] at h
  have hpushed : (s.call j).beforePush = false := by
    cases hb : (s.call j).beforePush with
    | false => rfl
    | true => simp [inv.outside j hb] at h
  have hidle : (s.call j).busy = false := by
    cases hb : (s.call j).busy with
    | false => rfl
    | true =>
        have hfile := inv.busyFile j hb
        simp [hfile, FilePc.entityGone] at h
  have hunfinished := (inv.blank j (by simp [h, Place.started]) (by simp [h])).2.2.2.1
  cases hcall : s.call j with
  | returned r =>
      refine ⟨r, hcall, ?_⟩
      rintro rfl
      by_contra hn
      have := inv.successWaited j (by simp [hcall, CallPc.succeeding]) hn
      simp [hunfinished] at this
  | _ => simp [hcall, CallPc.busy, CallPc.beforePush] at hidle hpushed

theorem not_doomed_iff : ¬ s.Doomed j ↔ s.error j = none ∧
    (∀ c, (s.run c).failing ≠ some j) ∧ ∀ f, s.doneFence j = some f → f.error = none := by
  simp only [State.Doomed, not_or, not_exists, not_and, not_not]

/-- A finished fence is set with an error only for a doomed job, a canceled one or a killed one. -/
theorem error_of_undisturbed (h : enabled s a = true) (ok : Undisturbed j s a)
    (hkill : a ≠ .killJob j) (safe : ¬ s.Doomed j) : (effect s a).error j = none := by
  obtain ⟨herr, hrun, hfence⟩ := not_doomed_iff.mp safe
  rcases error_effect (s := s) (a := a) j with hsame | ⟨c, e, rfl⟩ | hfinishes
  · rw [hsame, herr]
  · simp [effect, ok rfl, herr]
  · cases hfinishes with
    | @fail c _ e =>
        have hfail : s.run c = .fail j e := of_decide_eq_true h
        exact absurd (by rw [hfail]; rfl) (hrun c)
    | irq => simpa [effect, State.signalDone] using herr
    | @complete c _ r =>
        obtain ⟨hret, hnow⟩ := of_decide_eq_true h
        cases r with
        | null => simpa [effect, State.jobDone, State.immediate] using herr
        | err e => exact absurd (by rw [hret]; rfl) (hrun c)
        | fence =>
            -- the scheduler takes over the error of the fence, which is signaled already
            cases hf : s.doneFence j with
            | none => simp [State.immediate, hf] at hnow
            | some f =>
                have hsig : f.signaler ≠ none :=
                  fun hopen => hnow (by simp [State.immediate, hf, hopen])
                simp [effect, State.jobDone, State.immediate, hf, hsig, hfence f hf, herr]
    | cancel => exact absurd rfl ok
    | kill => exact absurd rfl hkill

/-- `rocket_job_run` turns to failing only where it is disturbed. -/
theorem failing_of_undisturbed (h : enabled s a = true) (ok : Undisturbed j s a)
    (hrun : ∀ c, (s.run c).failing ≠ some j) (c : Nat) :
    ((effect s a).run c).failing ≠ some j := by
  intro hc
  rcases run_effect h c with hmove | ⟨-, hstay⟩
  · have hbefore := hrun c
    generalize s.run c = p at hmove hbefore
    generalize (effect s a).run c = q at hmove hc
    cases hmove with
    | createFail =>
        obtain rfl := Option.some.inj hc
        cases ok rfl
    | attachFail =>
        obtain rfl := Option.some.inj hc
        exact ok rfl
    | pmPut => exact hbefore hc
    | _ => cases hc
  · exact hrun c (hstay ▸ hc)

/-- The error of a done fence comes from a failing `rocket_job_run`. -/
theorem fenceError_of_unharmed (h : enabled s a = true) (safe : ¬ s.Doomed j) {f : Fence}
    (hf : (effect s a).doneFence j = some f) : f.error = none := by
  obtain ⟨-, hrun, hfence⟩ := not_doomed_iff.mp safe
  rcases doneFence_before hf with
    hold | ⟨c, -, rfl⟩ | ⟨g, hg, ⟨c, e, rfl, -⟩ | ⟨c, seen, -, rfl⟩⟩
  · exact hfence f hold
  · rfl
  · have hfail : s.run c = .fail j e := of_decide_eq_true h
    exact absurd (by rw [hfail]; rfl) (hrun c)
  · have hclean := hfence g hg
    simp only [Fence.signal]
    split
    · rfl
    · exact hclean

/-- Nothing else dooms a job whose submit succeeds. -/
theorem unharmed_step (inv : Reported s) (h : enabled s a = true) (ok : Undisturbed j s a)
    (safe : ¬ s.Doomed j) : ¬ (effect s a).Doomed j ∨ (effect s a).SubmitFailed j := by
  by_cases hkill : a = .killJob j
  · subst hkill
    exact Or.inr (submitFailed_stays inv h (submitFailed_of_killed inv h))
  · refine Or.inl (not_doomed_iff.mpr ⟨error_of_undisturbed h ok hkill safe, ?_, ?_⟩)
    · exact failing_of_undisturbed h ok (not_doomed_iff.mp safe).2.1
    · exact fun f hf => fenceError_of_unharmed h safe hf

end Doom

/-- For every run and every submit of it that returned 0 with all its tasks counted: the
job's finished fence was signaled without an error by way of the interrupt
exactly when no step of the run disturbed the job. -/
theorem succeeded_completed_iff {n : Nat} {acts : List Action} {s : State} {j : Nat}
    (run : Runs driver (State.init n) acts s) (succeeded : s.SubmitSucceeded j) :
    s.CompletedByIrq j ↔ Along driver (Undisturbed j) (State.init n) acts := by
  have inv := Reported.reachable run
  obtain ⟨hcall, hnumber, -⟩ := succeeded
  have hfinished := inv.successWaited j (by simp [hcall, CallPc.succeeding]) hnumber
  constructor
  · rintro ⟨-, herr, f, hf, -, hfe⟩
    refine along_of_unmarked Reported (fun s => s.Doomed j) ?_ ?_ ?_ run
      (Reported.initial n) ?_
    · intro s a t inv hstep
      obtain ⟨h, rfl⟩ := driver_eq_some.mp hstep
      exact inv.preserve h
    · intro s a t inv hstep doom
      obtain ⟨h, rfl⟩ := driver_eq_some.mp hstep
      exact doomed_stays inv h doom
    · intro s a t _ hstep bad
      obtain ⟨-, rfl⟩ := driver_eq_some.mp hstep
      exact doomed_of_disturbed bad
    · rintro (he | ⟨c, hc⟩ | ⟨g, hg, he⟩)
      · exact he herr
      · have := (inv.running c j (RunPc.job_of_failing hc)).2.2.1
        simp [hfinished] at this
      · obtain rfl := Option.some.inj (hf.symm.trans hg)
        exact he hfe
  · intro along
    have safe : Reported s ∧ (¬ s.Doomed j ∨ s.SubmitFailed j) := by
      refine invariant_along (fun s => Reported s ∧ (¬ s.Doomed j ∨ s.SubmitFailed j)) ?_ along
        run ⟨Reported.initial n, Or.inl ?_⟩
      · rintro s a t ⟨inv, safe⟩ ok hstep
        obtain ⟨h, rfl⟩ := driver_eq_some.mp hstep
        refine ⟨inv.preserve h, ?_⟩
        rcases safe with safe | failed
        · exact unharmed_step inv h ok safe
        · exact Or.inr (submitFailed_stays inv h failed)
      · simp [State.Doomed, State.init, RunPc.failing]
    rcases safe.2 with safe | ⟨r, hr, hzero⟩
    · have herr : s.error j = none := by
        by_contra he
        exact safe (Or.inl he)
      obtain ⟨f, hf, hsig⟩ := Option.map_eq_some_iff.mp (inv.successByIrq j hfinished herr)
      refine ⟨hfinished, herr, f, hf, hsig, ?_⟩
      exact (inv.fenceReports j f hf).1 (by simp [hsig])
    · rw [hcall] at hr
      obtain rfl := CallPc.returned.inj hr
      exact absurd (hzero rfl) hnumber

/-- A job is started, times out, is canceled, and its submit returns. -/
def canceledSteps : List Action :=
  startOne ++ resetSteps 0 0 ++ .waitDone 0 :: returnSteps 0 none

theorem canceledSteps_accepted :
    ((exec driver (State.init 1) canceledSteps).map fun s =>
      decide (s.call 0 = .returned none ∧ (s.args 0).taskNumber ≠ 0#32 ∧
        s.counter 0 = (s.args 0).taskNumber ∧ s.error 0 = some .canceled)) = some true := by
  decide

/-- The submit of a canceled job returns 0 with its task counted. -/
theorem canceled_job_succeeds :
    ¬ ∀ s, Runs driver (State.init 1) canceledSteps s → s.SubmitSucceeded 0 →
      s.CompletedByIrq 0 := by
  intro all
  obtain ⟨s, run, test⟩ := runs_of_test canceledSteps_accepted
  obtain ⟨hcall, hnumber, hcounter, herr⟩ := of_decide_eq_true test
  have := (all s run ⟨hcall, hnumber, hcounter⟩).2.1
  simp [herr] at this

theorem succeeded_completed_iff_on_canceledSteps :
    ∃ s, Runs driver (State.init 1) canceledSteps s ∧ s.SubmitSucceeded 0 ∧
      (s.CompletedByIrq 0 ↔ Along driver (Undisturbed 0) (State.init 1) canceledSteps) := by
  obtain ⟨s, run, test⟩ := runs_of_test canceledSteps_accepted
  obtain ⟨hcall, hnumber, hcounter, -⟩ := of_decide_eq_true test
  exact ⟨s, run, ⟨hcall, hnumber, hcounter⟩,
    succeeded_completed_iff run ⟨hcall, hnumber, hcounter⟩⟩

end Rkopnu.Driver
