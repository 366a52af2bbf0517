import Rkopnu.Driver.Completion
import Rkopnu.Driver.Moves
import Rkopnu.Driver.Programs

/-!
# What a call of `rocket_job_run` leaves behind

A fence that `rocket_job_run` returns unsignaled promises that the hardware will complete
the job. A ledger kept beside the run notes what each call has done so far: the jobs it
published, the registers it wrote, the power references it took and returned. Two exits
break the promise: the power unit that does not resume, and the pending reset.
-/

namespace Rkopnu.Driver

open Function (update)
open Transition

/-- What one call of `rocket_job_run` has done so far. -/
structure RunLedger where
  /-- The jobs made `core->in_flight_job`. -/
  published : List Nat
  /-- The registers written by `rocket_job_hw_submit`, in order. -/
  writes : List RegWrite
  /-- The successful calls of `rocket_device_pm_get`. -/
  gets : Nat
  /-- The calls of `rocket_device_pm_put`. -/
  puts : Nat

namespace RunLedger

/-- A call that has done nothing. -/
def blank : RunLedger := ⟨[], [], 0, 0⟩

/-- What a step of the worker adds to the ledger of its call. -/
def note (s : State) : Action → RunLedger → RunLedger
  | .pop _ _ _, _ => blank
  | .runPmGet _ _ resume, l =>
      if (rocketDevicePmGet s.devs resume s.pm).1 then { l with gets := l.gets + 1 } else l
  | .runSkip _ j, l => { l with published := l.published ++ [j] }
  | .runProgram _ j _, l => { l with published := l.published ++ [j] }
  | .runWrite _ _ _ w _, l => { l with writes := l.writes ++ [w] }
  | .runPmPut _ _ _, l => { l with puts := l.puts + 1 }
  | _, l => l

end RunLedger

/-- The ledger of every core's last call, after one more step. -/
def noteRun (s : State) (a : Action) (led : Nat → RunLedger) : Nat → RunLedger :=
  match a.runOf with
  | none => led
  | some c => update led c ((led c).note s a)

/-- `rocket_job_run` has signaled the done fence of the job itself, with an error. -/
def State.FailedByRun (s : State) (j : Nat) : Prop :=
  ∃ f e, s.doneFence j = some f ∧ f.signaler = some .runJob ∧ f.error = some e

namespace RunLedger

/-- The call made the job the one in flight, wrote its program once, from the first
register to the last, and keeps one power reference for it. -/
structure Submitted (l : RunLedger) (s : State) (c j : Nat) : Prop where
  published : l.published = [j]
  written : ∃ mem, l.writes = (hwProgram (s.job j) j c mem).writes
  kept : l.gets = l.puts + 1

/-- The law of a returned call: an unsignaled fence stands for a job on the hardware, and
every other result for a call that keeps no power reference. -/
def Lawful (l : RunLedger) (s : State) (c j : Nat) : RunResult → Prop
  | .fence => (¬ s.FailedByRun j → l.Submitted s c j) ∧ (s.FailedByRun j → l.gets = l.puts)
  | .null | .err _ => l.gets = l.puts

/-- What the ledger says at each point of `rocket_job_run` before its return. -/
def Agrees (l : RunLedger) : RunPc → Prop
  | .check _ | .create _ | .pmGet _ => l = blank
  | .lock _ | .pmPut _ _ => l = { blank with gets := 1 }
  | .writing j p rest => l.published = [j] ∧ l.gets = 1 ∧ l.puts = 0 ∧ l.writes ++ rest = p.writes
  | .fail _ _ => l = { blank with gets := 1, puts := 1 }
  | .idle | .ret _ _ => True

end RunLedger

/-- Every call that has returned has kept the law. -/
def RunsLawful (x : State × (Nat → RunLedger)) : Prop :=
  ∀ c j r, x.1.run c = .ret j r → (x.2 c).Lawful x.1 c j r

/-- The power unit can be had when `rocket_job_run` asks for it, and no reset is pending
when it gets to the hardware. -/
def ReachesHardware (s : State) : Action → Prop
  | .runPmGet _ _ resume => s.pm.refcount ≠ 0 ∨ ∀ d ∈ s.devs, resume d = true
  | .runSkip _ _ => False
  | _ => True

section Ledger
variable {s : State} {a : Action} {led : Nat → RunLedger} {c j : Nat}

theorem noteRun_self (h : a.runOf = some c) : noteRun s a led c = (led c).note s a := by
  simp [noteRun, h]

theorem noteRun_other (h : a.runOf ≠ some c) : noteRun s a led c = led c := by
  unfold noteRun
  cases hcore : a.runOf with
  | none => rfl
  | some b => exact Function.update_of_ne (fun hb => h (hcore.trans (congrArg some hb.symm))) _ _

/-- The ledger agrees with the worker after every step. -/
theorem agrees_step (agree : (led c).Agrees (s.run c)) (h : enabled s a = true) :
    (noteRun s a led c).Agrees ((effect s a).run c) := by
  rcases run_effect h c with hmove | ⟨hother, hstay⟩
  · generalize s.run c = before at hmove agree
    generalize (effect s a).run c = next at hmove
    have hself : a.runOf = some c → noteRun s a led c = (led c).note s a := noteRun_self
    cases hmove with
    | pop => exact hself rfl
    | check | create => exact (hself rfl).trans agree
    | pmGet ok =>
        rw [hself rfl]
        simp only [RunLedger.Agrees] at agree ⊢
        simp only [RunLedger.note, ok, agree]
        rfl
    | attachFail => exact (hself rfl).trans agree
    | program hp =>
        rw [hself rfl]
        simp only [RunLedger.Agrees] at agree ⊢
        simp [RunLedger.note, agree, RunLedger.blank]
    | write more =>
        obtain ⟨hpublished, hgets, hputs, hwrites⟩ := agree
        rw [hself rfl]
        exact ⟨hpublished, hgets, hputs, by simpa [RunLedger.note] using hwrites⟩
    | pmPut =>
        rw [hself rfl]
        simp only [RunLedger.Agrees] at agree ⊢
        simp only [RunLedger.note, agree, RunLedger.blank]
    | null | createFail | pmGetFail failed | skip pending | lastWrite | fail | complete | arm =>
        trivial
  · rw [noteRun_other hother, hstay]
    exact agree

end Ledger

/-- What is known about a run and the ledgers kept beside it. -/
structure Accounted (x : State × (Nat → RunLedger)) : Prop where
  reported : Reported x.1
  programmed : Programmed x.1
  agrees : ∀ c, (x.2 c).Agrees (x.1.run c)

section Law
variable {s : State} {a : Action} {c j : Nat}

theorem Accounted.initial (n : Nat) : Accounted (State.init n, fun _ => RunLedger.blank) :=
  ⟨Reported.initial n, Programmed.initial n, fun _ => trivial⟩

theorem Accounted.preserve {x y : State × (Nat → RunLedger)} (inv : Accounted x)
    (hstep : watched driver noteRun x a = some y) : Accounted y := by
  obtain ⟨hs, hnote⟩ := watched_eq_some.mp hstep
  obtain ⟨h, heffect⟩ := driver_eq_some.mp hs
  refine ⟨heffect ▸ inv.reported.preserve h, heffect ▸ inv.programmed.preserve h, fun c => ?_⟩
  rw [← hnote, ← heffect]
  exact agrees_step (inv.agrees c) h

/-- The record of a running job does not change. -/
theorem Scheduled.job_of_running (inv : Scheduled s) (h : enabled s a = true)
    (hrun : (s.run c).job = some j) : (effect s a).job j = s.job j := by
  cases a with
  | jobInit i e =>
      have hcall : s.call i = .jobInit := of_decide_eq_true h
      have hne : j ≠ i := by
        rintro rfl
        have hout := inv.outside j (by simp [hcall, CallPc.beforePush])
        have hstarted := (inv.running c j hrun).2.1
        simp [hout, Place.started] at hstarted
      simp only [effect]
      split
      · exact Function.update_of_ne hne _ _
      · rfl
  | _ => rfl

/-- The thread that fails a done fence is the worker that runs the job. -/
theorem Scheduled.failedByRun_stays (inv : Scheduled s) (h : enabled s a = true)
    (hrun : (s.run c).job = some j) (hother : a.runOf ≠ some c) :
    (effect s a).FailedByRun j ↔ s.FailedByRun j := by
  have hcore := (inv.running c j hrun).1
  cases a with
  | runCreate b i ok =>
      have hb : s.run b = .create i := of_decide_eq_true h
      have hne : j ≠ i := by
        rintro rfl
        have hcore' := (inv.running b j (by rw [hb]; rfl)).1
        exact hother (congrArg some (hcore'.symm.trans hcore))
      cases ok with
      | true => simp [State.FailedByRun, effect, Function.update_of_ne hne]
      | false => rfl
  | runFail b i e =>
      have hb : s.run b = .fail i e := of_decide_eq_true h
      have hne : j ≠ i := by
        rintro rfl
        have hcore' := (inv.running b j (by rw [hb]; rfl)).1
        exact hother (congrArg some (hcore'.symm.trans hcore))
      simp [State.FailedByRun, effect, State.signalDone, Function.update_of_ne hne]
  | irqComplete b seen i =>
      have hfly : s.inFlight b = some i := (of_decide_eq_true h).2.2.1
      obtain ⟨f, hf, hnone⟩ := Option.map_eq_some_iff.mp (inv.inFlight b i hfly).2.2.2.1
      by_cases hji : j = i
      · subst hji
        simp [State.FailedByRun, effect, State.signalDone, hf, hnone, Fence.signal]
      · simp [State.FailedByRun, effect, State.signalDone, Function.update_of_ne hji]
  | _ => rfl

theorem lawful_of_same {l : RunLedger} {t : State} {r : RunResult} (law : l.Lawful s c j r)
    (hfailed : t.FailedByRun j ↔ s.FailedByRun j) (hjob : t.job j = s.job j) :
    l.Lawful t c j r := by
  cases r with
  | null => exact law
  | err e => exact law
  | fence =>
      refine ⟨fun hnot => ?_, fun hfail => law.2 (hfailed.mp hfail)⟩
      obtain ⟨hpublished, hwritten, hkept⟩ := law.1 fun hfail => hnot (hfailed.mpr hfail)
      exact ⟨hpublished, by rwa [hjob], hkept⟩

/-- After its last register write the call has submitted the job. -/
theorem submitted_of_lastWrite {l : RunLedger} {p : Program} {w : RegWrite}
    (inv : Programmed s) (agree : l.Agrees (s.run c)) (hrun : s.run c = .writing j p [w])
    (h : enabled s (.runWrite c j p w []) = true) :
    (l.note s (.runWrite c j p w [])).Submitted (effect s (.runWrite c j p w [])) c j := by
  rw [hrun] at agree
  obtain ⟨hpublished, hgets, hputs, hwrites⟩ := agree
  obtain ⟨mem, hp⟩ := (inv.writingProgram c j p [w] hrun).1
  have hjob := inv.toScheduled.job_of_running h (c := c) (j := j) (by rw [hrun]; rfl)
  refine ⟨hpublished, ⟨mem, ?_⟩, ?_⟩
  · rw [hjob, ← hp]
    exact hwrites
  · simp [RunLedger.note, hgets, hputs]

/-- The fence that the call fails was not signaled before. -/
theorem failedByRun_of_fail (inv : Scheduled s) {e : Errno} (hrun : s.run c = .fail j e) :
    (effect s (.runFail c j e)).FailedByRun j := by
  obtain ⟨f, hf, hnone⟩ := Option.map_eq_some_iff.mp (inv.fenced c j (by rw [hrun]; rfl))
  simp [State.FailedByRun, effect, State.signalDone, hf, hnone, Fence.signal]

theorem not_failedByRun_of_unsignaled (h : s.unsignaled j) : ¬ s.FailedByRun j := by
  rintro ⟨f, e, hf, hsignaler, -⟩
  simp [State.unsignaled, hf, hsignaler] at h

/-- Calls that reach the hardware when they are to keep the law. -/
theorem lawful_step {led : Nat → RunLedger} (inv : Accounted (s, led))
    (law : RunsLawful (s, led)) (ok : ReachesHardware s a) (h : enabled s a = true) :
    RunsLawful (effect s a, noteRun s a led) := by
  intro c j r hret
  have agree : (led c).Agrees (s.run c) := inv.agrees c
  have hsched := inv.reported.toScheduled
  rcases run_effect h c with hmove | ⟨hother, hstay⟩
  · generalize hbefore : s.run c = before at hmove
    change (effect s a).run c = .ret j r at hret
    rw [hret] at hmove
    change ((noteRun s a led) c).Lawful (effect s a) c j r
    have hself : a.runOf = some c → noteRun s a led c = (led c).note s a := noteRun_self
    cases hmove with
    | null =>
        rw [hbefore] at agree
        rw [hself rfl, show led c = .blank from agree]
        rfl
    | createFail =>
        rw [hbefore] at agree
        rw [hself rfl, show led c = .blank from agree]
        rfl
    | pmGetFail failed =>
        exact absurd ((pmGet_ok_iff _ _ _).mpr ok) (by simp [failed])
    | skip pending => exact ok.elim
    | lastWrite =>
        rw [hself rfl]
        have hopen := hsched.fenced c j (by rw [hbefore]; rfl)
        exact ⟨fun _ => submitted_of_lastWrite inv.programmed agree hbefore h,
          fun hfail => absurd hfail (not_failedByRun_of_unsignaled hopen)⟩
    | fail =>
        rw [hbefore] at agree
        rw [hself rfl, show led c = _ from agree]
        exact ⟨fun hnot => absurd (failedByRun_of_fail hsched hbefore) hnot, fun _ => rfl⟩
  · have hrun : s.run c = .ret j r := hstay.symm.trans hret
    have hjob : (s.run c).job = some j := by rw [hrun]; rfl
    change ((noteRun s a led) c).Lawful (effect s a) c j r
    rw [noteRun_other hother]
    exact lawful_of_same (law c j r hrun) (hsched.failedByRun_stays h hjob hother)
      (hsched.job_of_running h hjob)

/-- A call that does not reach the hardware breaks the law on its return. -/
theorem reaches_of_lawful {led : Nat → RunLedger} (inv : Accounted (s, led))
    (law : RunsLawful (effect s a, noteRun s a led)) (h : enabled s a = true) :
    ReachesHardware s a := by
  cases a with
  | runPmGet c j resume =>
      have hrun : s.run c = .pmGet j := of_decide_eq_true h
      have agree : (led c).Agrees (s.run c) := inv.agrees c
      rw [hrun] at agree
      refine (pmGet_ok_iff s.devs resume s.pm).mp ?_
      by_contra hfailed
      have hret : (effect s (.runPmGet c j resume)).run c = .ret j .fence := by
        simp [effect, hfailed]
      have hopen := inv.reported.fenced c j (by rw [hrun]; rfl)
      have hsubmit := (law c j .fence hret).1 (not_failedByRun_of_unsignaled hopen)
      have hpublished := hsubmit.published
      have hblank : noteRun s (.runPmGet c j resume) led c = .blank := by
        rw [noteRun_self rfl, ← show led c = .blank from agree]
        simp [RunLedger.note, hfailed]
      exact absurd hpublished (by simp [hblank, RunLedger.blank])
  | runSkip c j =>
      obtain ⟨hrun, -, -⟩ := of_decide_eq_true h
      have agree : (led c).Agrees (s.run c) := inv.agrees c
      rw [hrun] at agree
      have hret : (effect s (.runSkip c j)).run c = .ret j .fence := by simp [effect]
      have hopen := inv.reported.fenced c j (by rw [hrun]; rfl)
      have hsubmit := (law c j .fence hret).1 (not_failedByRun_of_unsignaled hopen)
      obtain ⟨mem, hwritten⟩ := hsubmit.written
      have hnone : (noteRun s (.runSkip c j) led c).writes = [] := by
        rw [noteRun_self rfl, show led c = _ from agree]
        rfl
      exact absurd (hnone.symm.trans hwritten) (by simp [hwProgram, hwSubmitWrites])
  | _ => trivial

/-- Over any number of cores: in every state of a run every returned call has kept the law,
exactly when every call of the run reaches the hardware once it asks for power. -/
theorem runs_lawful_iff_reachesHardware {n : Nat} {acts : List Action} {s : State}
    (run : Runs driver (State.init n) acts s) :
    Throughout (watched driver noteRun) RunsLawful (State.init n, fun _ => RunLedger.blank)
      acts ↔ Along driver ReachesHardware (State.init n) acts := by
  have start := Accounted.initial n
  constructor
  · intro all
    obtain ⟨led, hrun⟩ : ∃ led, Runs (watched driver noteRun)
        (State.init n, fun _ => RunLedger.blank) acts (s, led) := run.watched _
    refine along_watched.mp (along_of_throughout Accounted (fun x a y inv hstep =>
      inv.preserve hstep) ?_ hrun all start)
    rintro ⟨s, led⟩ a y inv - hstep hlaw
    obtain ⟨hs, hnote⟩ := watched_eq_some.mp hstep
    obtain ⟨h, heffect⟩ := driver_eq_some.mp hs
    obtain rfl : (effect s a, noteRun s a led) = y := Prod.ext heffect hnote
    exact reaches_of_lawful inv hlaw h
  · intro along
    refine throughout_of_along (P := fun x a => ReachesHardware x.1 a)
      (fun x => Accounted x ∧ RunsLawful x) ?_ (fun x hx => hx.2)
      (along_watched.mpr along) ⟨start, fun c j r h => nomatch h⟩
    rintro ⟨s, led⟩ a y ⟨inv, law⟩ ok hstep
    refine ⟨inv.preserve hstep, ?_⟩
    obtain ⟨hs, hnote⟩ := watched_eq_some.mp hstep
    obtain ⟨h, heffect⟩ := driver_eq_some.mp hs
    obtain rfl : (effect s a, noteRun s a led) = y := Prod.ext heffect hnote
    exact lawful_step inv law ok h

end Law

/-- The first job of a core whose power domain does not resume. -/
def deadPowerSteps : List Action :=
  .openFile :: submitSteps 0 0 0 submitOne ++
    [.pop 0 0 none, .runCheck 0 0, .runCreate 0 0 true, .runPmGet 0 0 fun _ => false]

theorem deadPowerSteps_accepted :
    ((exec (watched driver noteRun) (State.init 1, fun _ => RunLedger.blank)
      deadPowerSteps).map fun x => decide (x.1.run 0 = .ret 0 .fence ∧
        x.1.doneFence 0 = some ⟨1, none, none⟩ ∧ (x.2 0).published = [])) = some true := by
  decide

/-- The job of a core that did not get its power is returned as if it were submitted. -/
theorem phantom_job_returned :
    ¬ ∀ (n : Nat) (acts : List Action) (x : State × (Nat → RunLedger)),
      Runs (watched driver noteRun) (State.init n, fun _ => RunLedger.blank) acts x →
        RunsLawful x := by
  intro all
  obtain ⟨x, run, test⟩ := runs_of_test deadPowerSteps_accepted
  obtain ⟨hret, hfence, hnone⟩ := of_decide_eq_true test
  have hnot : ¬ x.1.FailedByRun 0 := by simp [State.FailedByRun, hfence]
  have hpublished := ((all 1 deadPowerSteps x run 0 0 .fence hret).1 hnot).published
  exact absurd (hnone.symm.trans hpublished) (by simp)

theorem runs_lawful_iff_reachesHardware_started :
    Throughout (watched driver noteRun) RunsLawful (State.init 1, fun _ => RunLedger.blank)
      startOne := by
  obtain ⟨s, run, -⟩ := runs_of_test startOne_accepted
  refine (runs_lawful_iff_reachesHardware run).mpr (along_of_actions ?_)
  simp [startOne, startSteps, submitSteps, runSteps, programSteps, writeSteps, hwProgram,
    hwSubmitWrites, ReachesHardware]

end Rkopnu.Driver
