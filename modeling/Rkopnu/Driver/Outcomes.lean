import Rkopnu.Driver.Timeouts

/-!
# What the return value of a submit says

`rkopnu_ioctl_submit` has one exit for every way it can fail and one for success. A caller that
sees a value has to know from it whether the job was pushed, whether it has ended, and what is
in `task_counter`.
-/

namespace Rkopnu.Driver

open Function (update)
open Transition

/-- The value the ioctl has decided to return. -/
def CallPc.result : CallPc → Option (Option Errno)
  | .cleanup e => some (some e)
  | .putJob r | .vunmap r | .gemPut r | .returned r => some r
  | _ => none

namespace State
variable (s : State)

/-- The call did not push a job, and `task_counter` is as the caller gave it. -/
def Refused (j : Nat) : Prop := s.place j = .outside ∧ s.counter j = (s.args j).taskCounter

/-- The job is pushed and has ended, and all tasks are reported. -/
def Waited (j : Nat) : Prop := s.place j ≠ .outside ∧ s.finished j = true ∧
  s.counter j = (s.args j).taskNumber

/-- The job is pushed, and nothing is said of it. -/
def Abandoned (j : Nat) : Prop := s.place j ≠ .outside ∧ s.counter j = 0#32

/-- What a return value of call `j` stands for. -/
def Answer (j : Nat) : Option Errno → Prop
  | none => (s.args j).taskNumber = 0#32 ∧ s.Refused j ∨
      (s.args j).taskNumber ≠ 0#32 ∧ s.Waited j
  | some e => s.Refused j ∨ e = .timedout ∧ s.Abandoned j

/-- A call that has decided what to return has a reason for it. -/
def Answered : Prop := ∀ j r, (s.call j).result = some r → s.Answer j r

/-- Until then the caller's struct is as it was given, and has tasks. -/
def Unanswered : Prop := ∀ j, (s.call j).busy = true → (s.call j).result = none →
  (s.args j).taskNumber ≠ 0#32 ∧ s.counter j = (s.args j).taskCounter

/-- A call waits for a job it has pushed. -/
def WaitPushed : Prop := ∀ j, s.call j = .wait → s.place j ≠ .outside

end State

/-- What is known about the values of the submits. -/
structure Answering (s : State) : Prop extends Threaded s where
  answered : s.Answered
  unanswered : s.Unanswered
  waitPushed : s.WaitPushed

section Preserve
variable {s : State} {a : Action} {j : Nat}

/-- The caller's struct is written by the end of the wait. -/
theorem record_stays (inv : Threaded s) (_h : enabled s a = true) (hcalled : s.call j ≠ .idle)
    (hdone : a ≠ .waitDone j) (hexpire : a ≠ .waitExpire j) :
    (effect s a).args j = s.args j ∧ (effect s a).counter j = s.counter j := by
  refine ⟨(inv.record_of_called hcalled).2, ?_⟩
  cases a with
  | submit f args =>
      refine Function.update_of_ne ?_ _ _
      rintro rfl
      exact hcalled (inv.freshCalls _ (Nat.le_refl _))
  | waitDone i => exact Function.update_of_ne (fun hj => hdone (by rw [hj])) _ _
  | waitExpire i => exact Function.update_of_ne (fun hj => hexpire (by rw [hj])) _ _
  | _ => rfl

/-- A submit that is not turned away at once has tasks. -/
theorem taskNumber_of_submitEarly {args : RknpuSubmit} (h : submitEarly args = none) :
    args.taskNumber ≠ 0#32 := by
  intro hzero
  simp [submitEarly, hzero] at h

theorem keep_waitPushed (inv : Answering s) (h : enabled s a = true) :
    (effect s a).WaitPushed := by
  intro j hwait
  rcases inv.call_effect h j with hmove | ⟨-, hstay⟩
  · rw [hwait] at hmove
    generalize s.call j = p at hmove
    cases hmove
    simp [effect]
  · exact inv.placed_stays h (inv.waitPushed j (hstay ▸ hwait))

theorem keep_unanswered (inv : Answering s) (h : enabled s a = true) :
    (effect s a).Unanswered := by
  intro j hbusy hresult
  have keep := inv.unanswered j
  rcases inv.call_effect h j with hmove | ⟨hother, hstay⟩
  · generalize hp : s.call j = p at hmove keep
    generalize (effect s a).call j = q at hmove hbusy hresult
    cases hmove with
    | enter hearly => simp [effect, taskNumber_of_submitEarly hearly]
    | vmap | alloc | jobInit | domainGet | push =>
        obtain ⟨hargs, hcounter⟩ := record_stays (j := j) inv.toThreaded h (by simp [hp]) (by simp)
          (by simp)
        rw [hargs, hcounter]
        exact keep rfl rfl
    | refuse | gemPut => cases hbusy
    | _ => cases hresult
  · rw [hstay] at hbusy hresult
    have hcalled : s.call j ≠ .idle := by
      intro hidle
      simp [hidle, CallPc.busy] at hbusy
    obtain ⟨hargs, hcounter⟩ := record_stays inv.toThreaded h hcalled
      (fun ha => hother (by rw [ha]; rfl)) (fun ha => hother (by rw [ha]; rfl))
    rw [hargs, hcounter]
    exact keep hbusy hresult

/-- The reason for a return value stays one. -/
theorem answer_stays (inv : Answering s) (h : enabled s a = true) {r : Option Errno}
    (hresult : (s.call j).result = some r) : (effect s a).Answer j r := by
  have hbefore := inv.answered j r hresult
  have hcalled : ∀ {pc}, s.call j = pc → pc.result = some r := fun hpc => hpc ▸ hresult
  have hidle : s.call j ≠ .idle := fun hpc => by cases hcalled hpc
  have hdone : a ≠ .waitDone j := by
    rintro rfl
    cases hcalled (of_decide_eq_true h).1
  have hexpire : a ≠ .waitExpire j := by
    rintro rfl
    cases hcalled (of_decide_eq_true h).1
  have hpush : a ≠ .push j none := by
    rintro rfl
    cases hcalled (of_decide_eq_true h)
  obtain ⟨hargs, hcounter⟩ := record_stays inv.toThreaded h hidle hdone hexpire
  have hrefused : s.Refused j → (effect s a).Refused j := fun hrefused =>
    ⟨inv.outside_stays h hrefused.1 hpush, by rw [hcounter, hargs, hrefused.2]⟩
  cases r with
  | none =>
      rcases hbefore with ⟨hzero, hno⟩ | ⟨hpos, hplace, hfin, hcount⟩
      · exact Or.inl ⟨by rw [hargs, hzero], hrefused hno⟩
      · exact Or.inr ⟨by rw [hargs]; exact hpos, inv.placed_stays h hplace, finished_stays hfin,
          by rw [hcounter, hargs, hcount]⟩
  | some e =>
      rcases hbefore with hno | ⟨htimedout, hplace, hcount⟩
      · exact Or.inl (hrefused hno)
      · exact Or.inr ⟨htimedout, inv.placed_stays h hplace, by rw [hcounter, hcount]⟩

theorem keep_answered (inv : Answering s) (h : enabled s a = true) :
    (effect s a).Answered := by
  intro j r hr
  rcases inv.call_effect h j with hmove | ⟨-, hstay⟩
  · have hout := inv.outside j
    have hgiven := inv.unanswered j
    have hwait := inv.waitPushed j
    have hkeep := answer_stays (j := j) (r := r) inv h
    generalize hp : s.call j = p at hmove hout hgiven hwait hkeep
    generalize (effect s a).call j = q at hmove hr
    -- a call that fails before the push is refused
    have refused : p.beforePush = true → p.busy = true → p.result = none →
        a ≠ .push j none → (effect s a).Refused j := by
      intro hbefore hbusy hnone hpush
      have hidle : s.call j ≠ .idle := fun hidle => by
        rw [← hp, hidle] at hbusy
        cases hbusy
      have hdone : a ≠ .waitDone j := by
        rintro rfl
        have hpc : s.call j = .wait := (of_decide_eq_true h).1
        rw [← hp, hpc] at hbefore
        cases hbefore
      have hexpire : a ≠ .waitExpire j := by
        rintro rfl
        have hpc : s.call j = .wait := (of_decide_eq_true h).1
        rw [← hp, hpc] at hbefore
        cases hbefore
      obtain ⟨hargs, hcounter⟩ := record_stays inv.toThreaded h hidle hdone hexpire
      exact ⟨inv.outside_stays h (hout hbefore) hpush,
        by rw [hargs, hcounter, (hgiven hbusy hnone).2]⟩
    cases hmove with
    | @refuse f args _ hearly =>
        obtain rfl := Option.some.inj hr
        have hrefused : (effect s (.submit f args)).Refused s.jobs :=
          ⟨inv.outside_stays h (hout rfl) (by simp), by simp [effect]⟩
        simp only [submitEarly] at hearly
        split at hearly
        · obtain rfl := Option.some.inj hearly
          exact Or.inl ⟨by simpa [effect], hrefused⟩
        · split at hearly
          · obtain rfl := Option.some.inj hearly
            exact Or.inl hrefused
          · cases hearly
    | vmapFail | allocFail | jobInitFail | domainFail | pushFail =>
        obtain rfl := Option.some.inj hr
        exact Or.inl (refused rfl rfl rfl (by simp))
    | waitDone =>
        obtain rfl := Option.some.inj hr
        obtain ⟨-, hfin⟩ := of_decide_eq_true h
        exact Or.inr ⟨(hgiven rfl rfl).1, inv.placed_stays h (hwait rfl), finished_stays hfin,
          by simp [effect]⟩
    | waitExpire =>
        obtain rfl := Option.some.inj hr
        exact Or.inr ⟨rfl, inv.placed_stays h (hwait rfl), by simp [effect]⟩
    | cleanup | putJob | vunmap | gemPut => exact hkeep hr
    | _ => cases hr
  · exact answer_stays inv h (hstay ▸ hr)

theorem Answering.preserve (inv : Answering s) (h : enabled s a = true) :
    Answering (effect s a) where
  toThreaded := inv.toThreaded.preserve h
  answered := keep_answered inv h
  unanswered := keep_unanswered inv h
  waitPushed := keep_waitPushed inv h

end Preserve

theorem Answering.initial (n : Nat) : Answering (State.init n) where
  toThreaded := Threaded.initial n
  answered := fun j r h => by simp [State.init, CallPc.result] at h
  unanswered := fun j h => by simp [State.init, CallPc.busy] at h
  waitPushed := fun j h => by simp [State.init] at h

theorem Answering.reachable {n : Nat} {acts : List Action} {s : State}
    (run : Runs driver (State.init n) acts s) : Answering s :=
  run_invariant Answering (Answering.initial n) (fun _ _ inv h => inv.preserve h) run

/-- A refused call stays without a job in the scheduler, and so without a program. -/
theorem refused_forever {s t : State} {more : List Action} {j : Nat} {r : Option Errno}
    (inv : Programmed s) (hret : s.call j = .returned r) (hout : s.place j = .outside)
    (rest : Runs driver s more t) : t.place j = .outside ∧ t.programsOf j = [] := by
  have hlater : Programmed t ∧ t.call j = .returned r ∧ t.place j = .outside := by
    refine invariant (fun t => Programmed t ∧ t.call j = .returned r ∧ t.place j = .outside) ?_
      rest ⟨inv, hret, hout⟩
    rintro u a v ⟨hu, hcall, hplace⟩ hstep
    obtain ⟨h, rfl⟩ := driver_eq_some.mp hstep
    have hpush : a ≠ .push j none := by
      rintro rfl
      cases hcall.symm.trans (of_decide_eq_true h)
    refine ⟨hu.preserve h, ?_, hu.outside_stays h hplace hpush⟩
    rcases hu.call_effect h j with hmove | ⟨-, hstay⟩
    · rw [hcall] at hmove
      generalize (effect u a).call j = q at hmove
      cases hmove
    · rw [hstay, hcall]
  obtain ⟨hprogrammed, -, hplace⟩ := hlater
  refine ⟨hplace, List.filter_eq_nil_iff.mpr fun p hp => ?_⟩
  have hne : p.job ≠ j := by
    rintro rfl
    exact (hprogrammed.logProgram p hp).2.2.2 hplace
  simpa using hne

/-- In every run, for every call that has returned: 0 means that there was nothing to do, or
that the job was pushed and has ended, with all tasks reported; an error means that no job was
pushed and `task_counter` is as it was given, or, for `-ETIMEDOUT`, that a pushed job was left
to the scheduler with no task reported. A call without a pushed job never reaches the hardware,
however the run goes on. -/
theorem submit_outcome {n : Nat} {acts : List Action} {s : State}
    (run : Runs driver (State.init n) acts s) {j : Nat} {r : Option Errno}
    (hret : s.call j = .returned r) :
    s.Answer j r ∧ (s.place j = .outside → ∀ more t, Runs driver s more t →
      t.place j = .outside ∧ t.programsOf j = []) := by
  have inv := Answering.reachable run
  refine ⟨inv.answered j r (by rw [hret]; rfl), fun hout more t rest => ?_⟩
  exact refused_forever (Programmed.reachable run) hret hout rest

/-- Job 0 completes, and its call returns. -/
def answeredOne : List Action :=
  startOne ++ irqSteps 0 0 0x300#32 ++ .waitDone 0 :: returnSteps 0 none

theorem answeredOne_accepted :
    ((exec driver (State.init 1) answeredOne).map fun s => decide (s.call 0 = .returned none)) =
      some true := by
  decide

theorem submit_outcome_answeredOne : ∃ s, Runs driver (State.init 1) answeredOne s ∧
    s.Answer 0 none := by
  obtain ⟨s, run, test⟩ := runs_of_test answeredOne_accepted
  exact ⟨s, run, (submit_outcome run (of_decide_eq_true test)).1⟩

end Rkopnu.Driver
