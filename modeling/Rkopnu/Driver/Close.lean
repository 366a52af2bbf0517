import Rkopnu.Driver.Completion
import Rkopnu.Driver.Domains

/-!
# Closing a file while its jobs run

`rocket_job_close` takes the destruction of the entities for the end of the
file's jobs. Destroying an entity ends the jobs that were not started; a job on
the hardware is only known to have ended when somebody has waited for it, and a
submit may give up waiting.
-/

namespace Rkopnu.Driver

open Function (update)
open Transition

namespace State
variable (s : State)

/-- The search of core `k` by the closing file `f` would detach the domain that the job
in flight on the core uses, the core having been started on that job. -/
def DetachesRunning (f k : Nat) : Prop := s.scanHit f k = true ∧
  ∃ j, s.inFlight k = some j ∧ (s.npu k).started = some j ∧ s.domain j = s.attached k

/-- No closing file can detach the domain of a running job next. -/
def RunningKeepsDomain : Prop := ∀ f k, enabled s (.scan f k) = true → ¬ s.DetachesRunning f k

/-- The file was opened and its `rocket_postclose` has begun. -/
def Closing (f : Nat) : Prop := s.file f ≠ .unopened ∧ s.file f ≠ .opened

/-- Every job of a closing file has finished. -/
def ClosingFinished : Prop := ∀ j, s.Closing (s.caller j) → (s.place j).held = true →
  s.finished j = true

/-- A domain is in one pool only, and in one slot of it. -/
def SlotOwner : Prop := ∀ f g i k d, s.slot f i = some d → s.slot g k = some d → f = g ∧ i = k

end State

/-- The step does not close a file that has an unfinished job in the scheduler. -/
def ClosesIdle (s : State) (a : Action) : Prop := ∀ f, a = .close f →
  ∀ j, s.caller j = f → (s.place j).held = true → s.finished j = true

/-- Domains are accounted for, and a closing file has no unfinished job. -/
structure Closed (s : State) : Prop extends Domained s where
  reported : Reported s
  slotOwner : s.SlotOwner
  closingFinished : s.ClosingFinished

section Preserve
variable {s : State} {a : Action}

/-- An address that is free for a new domain is in no pool. -/
theorem Domained.slot_ne_of_dead (inv : Domained s) {d : Nat} (hd : s.live d = false)
    (f i : Nat) : s.slot f i ≠ some d := by
  intro hslot
  have hheld : s.holding (.slot f i) = some d := hslot
  have hlive := (inv.pool.live d).mpr (inv.pool.counts.pos hheld)
  simp [hd] at hlive

/-- The pool slot in which the step gets a domain. -/
def Action.fills (s : State) : Action → Option (Nat × Nat)
  | .memCreate f id _ => some (f, domainSlot id)
  | .domainGet j _ => some (s.caller j, domainSlot (s.args j).iommuDomainId)
  | _ => none

/-- A domain in a pool slot was there before the step, or is new and put there by it. -/
theorem slot_before (h : enabled s a = true) {f i d : Nat}
    (hd : (effect s a).slot f i = some d) :
    s.slot f i = some d ∨ s.live d = false ∧ a.fills s = some (f, i) := by
  have answered : ∀ {g k e : Nat}, s.domainAnswer g k e = true →
      (s.domainGet g k e).slot f i = some d →
      s.slot f i = some d ∨ s.live d = false ∧ (g, k) = (f, i) := by
    intro g k e hans hget
    simp only [State.domainGet, update_slot_apply] at hget
    split at hget
    · rename_i hsame
      obtain ⟨rfl, rfl⟩ := hsame
      obtain rfl := Option.some.inj hget
      simp only [State.domainAnswer, Bool.or_eq_true, Bool.and_eq_true, decide_eq_true_eq,
        Bool.not_eq_true'] at hans
      exact hans.imp_right fun hnew => ⟨hnew.2, rfl⟩
    · exact Or.inl hget
  cases a with
  | memCreate g id e =>
      exact (answered (Bool.and_eq_true_iff.mp h).2 hd).imp_right fun hnew =>
        ⟨hnew.1, congrArg some hnew.2⟩
  | domainGet j e =>
      exact (answered (Bool.and_eq_true_iff.mp h).2 hd).imp_right fun hnew =>
        ⟨hnew.1, congrArg some hnew.2⟩
  | putSlot g k =>
      simp only [effect, State.domainPut, update_slot_apply] at hd
      split at hd
      · cases hd
      · exact Or.inl hd
  | _ => exact Or.inl hd

theorem keep_slotOwner (inv : Domained s) (keep : s.SlotOwner) (h : enabled s a = true) :
    (effect s a).SlotOwner := by
  intro f g i k d hf hg
  rcases slot_before h hf with hf | ⟨hdead, hfill⟩
  · rcases slot_before h hg with hg | ⟨hdead, -⟩
    · exact keep f g i k d hf hg
    · exact absurd hf (inv.slot_ne_of_dead hdead f i)
  · rcases slot_before h hg with hg | ⟨-, hfill'⟩
    · exact absurd hg (inv.slot_ne_of_dead hdead g k)
    · exact Prod.mk.inj (Option.some.inj (hfill.symm.trans hfill'))

/-- A file that is closing was so before the step, or is closed by it. -/
theorem closing_before (inv : Domained s) (h : enabled s a = true) {f : Nat}
    (hf : (effect s a).Closing f) : s.Closing f ∨ a = .close f := by
  obtain ⟨hopened, hclosed⟩ := hf
  rcases inv.file_effect h f with hmove | ⟨-, hstay⟩
  · unfold State.Closing
    generalize s.file f = p at hmove ⊢
    generalize (effect s a).file f = q at hmove hclosed
    cases hmove with
    | openFile => exact absurd rfl hclosed
    | close => exact Or.inr rfl
    | _ => exact Or.inl ⟨by simp, by simp⟩
  · rw [hstay] at hopened hclosed
    exact Or.inl ⟨hopened, hclosed⟩

theorem keep_closingFinished (inv : Closed s) (ok : ClosesIdle s a) (h : enabled s a = true) :
    (effect s a).ClosingFinished := by
  intro j hclosing hheld
  by_cases hpush : a = .push j none
  · -- a call that is still running keeps its file open
    subst hpush
    have hcall : s.call j = .push := of_decide_eq_true h
    exact absurd (inv.reported.busyFile j (by rw [hcall]; rfl)) hclosing.2
  · have hbefore : (s.place j).held = true := by
      by_cases hfree : a.freesJob = some j
      · simp [(inv.held_of_freesJob h hfree).2] at hheld
      · rwa [inv.held_effect h hpush hfree] at hheld
    have hcall : s.call j ≠ .idle := by
      intro hidle
      rw [inv.outside j (by rw [hidle]; rfl)] at hbefore
      cases hbefore
    rw [(inv.record_of_called hcall).1] at hclosing
    refine finished_stays ?_
    rcases closing_before inv.toDomained h hclosing with hold | hclose
    · exact inv.closingFinished j hold hbefore
    · exact ok _ hclose j rfl hbefore

theorem Closed.preserve (inv : Closed s) (ok : ClosesIdle s a) (h : enabled s a = true) :
    Closed (effect s a) where
  toDomained := inv.toDomained.preserve h
  reported := inv.reported.preserve h
  slotOwner := keep_slotOwner inv.toDomained inv.slotOwner h
  closingFinished := keep_closingFinished inv ok h

/-- The job in flight uses the domain of an open file, or of one that is not closing. -/
theorem Closed.runningKeepsDomain (inv : Closed s) : s.RunningKeepsDomain := by
  rintro f k h ⟨hhit, j, hfly, -, hdom⟩
  simp only [enabled, decide_eq_true_eq] at h
  simp only [State.scanHit, List.any_eq_true, List.mem_range, decide_eq_true_eq] at hhit
  obtain ⟨i, -, hslot, hattached⟩ := hhit
  obtain ⟨d, hd⟩ := Option.ne_none_iff_exists'.mp hslot
  have hjd : s.domain j = some d := by rw [hdom, hattached, hd]
  obtain ⟨-, hstarted, hunfinished, -⟩ := inv.inFlight k j hfly
  have hheld : (s.place j).held = true := by
    cases hp : s.place j <;> simp_all [Place.started, Place.held]
  have hclosing : s.Closing (s.caller j) := by
    by_cases hpooled : (s.file (s.caller j)).pooled = true
    · have howner := (inv.slotOwner _ _ _ _ d (inv.jobSlot j d hjd hpooled) hd).1
      simp [State.Closing, howner, h.1]
    · have hcalled : s.file (s.caller j) ≠ .unopened := by
        refine inv.callFile j fun hidle => ?_
        have hout := inv.outside j (by simp [hidle, CallPc.beforePush])
        simp [hout, Place.held] at hheld
      refine ⟨hcalled, fun hopen => hpooled ?_⟩
      simp [hopen, FilePc.pooled]
  have hfinished := inv.closingFinished j hclosing hheld
  simp [hunfinished] at hfinished

end Preserve

theorem Closed.initial (n : Nat) : Closed (State.init n) where
  toDomained := Domained.initial n
  reported := Reported.initial n
  slotOwner := fun f g i k d h => by simp [State.init] at h
  closingFinished := fun j h => absurd rfl h.1

/-- In every run that closes a file only when none of its jobs is unfinished in the
scheduler, `rocket_job_close` never detaches the domain of a job that its core
was started on and that is still in flight there. -/
theorem running_keeps_domain_of_closesIdle {n : Nat} {acts : List Action}
    (idle : Along driver ClosesIdle (State.init n) acts) :
    Throughout driver State.RunningKeepsDomain (State.init n) acts := by
  refine throughout_of_along Closed ?_ (fun s inv => inv.runningKeepsDomain) idle
    (Closed.initial n)
  intro s a t inv ok hstep
  obtain ⟨h, rfl⟩ := driver_eq_some.mp hstep
  exact inv.preserve ok h

/-- The bounded wait of a running job expires, its ioctl returns, its file is closed
and core 0 is searched. -/
def closedWhileRunning : List Action :=
  startOne ++ .waitExpire 0 :: returnSteps 0 (some .timedout) ++
    [.close 0, .destroyEntity 0 0, .destroyed 0 1]

theorem closedWhileRunning_accepted :
    ((exec driver (State.init 1) closedWhileRunning).map fun s =>
      enabled s (.scan 0 0) && s.scanHit 0 0 && decide (s.inFlight 0 = some 0 ∧
        (s.npu 0).started = some 0 ∧ s.domain 0 = s.attached 0)) = some true := by
  decide

/-- A file closed after a submit gave up waiting takes the domain off a running core. -/
theorem closing_detaches_running_job :
    ¬ ∀ s, Runs driver (State.init 1) closedWhileRunning s → s.RunningKeepsDomain := by
  intro all
  obtain ⟨s, run, test⟩ := runs_of_test closedWhileRunning_accepted
  simp only [Bool.and_eq_true, decide_eq_true_eq] at test
  obtain ⟨⟨hscan, hhit⟩, hfly, hstarted, hdom⟩ := test
  exact all s run 0 0 hscan ⟨hhit, 0, hfly, hstarted, hdom⟩

/-- Call 0 is completed and returns; the scheduler has not freed its job. -/
def finishedOne : List Action :=
  startOne ++ irqSteps 0 0 0x300#32 ++ .waitDone 0 :: returnSteps 0 none

theorem finishedOne_accepted :
    ((exec driver (State.init 1) finishedOne).map fun s =>
      decide (s.jobs = 1 ∧ s.place 0 = .pending ∧ s.finished 0 = true)) = some true := by
  decide

/-- The file of the finished job is closed, up to the search of core 0. -/
def closedAfterJob : List Action :=
  finishedOne ++ [.close 0, .destroyEntity 0 0, .destroyed 0 1]

/-- The search finds the domain of the finished job. -/
theorem closedAfterJob_accepted :
    ((exec driver (State.init 1) closedAfterJob).map fun s =>
      enabled s (.scan 0 0) && s.scanHit 0 0 && decide (s.domain 0 = s.attached 0)) =
      some true := by
  decide

theorem running_keeps_domain_of_closesIdle_on_closedAfterJob :
    (∃ s, Runs driver (State.init 1) closedAfterJob s ∧ enabled s (.scan 0 0) = true ∧
      s.scanHit 0 0 = true) ∧
      Throughout driver State.RunningKeepsDomain (State.init 1)
        (closedAfterJob ++ [.scan 0 0]) := by
  obtain ⟨s, run, test⟩ := runs_of_test closedAfterJob_accepted
  obtain ⟨t, finished, htest⟩ := runs_of_test finishedOne_accepted
  obtain ⟨hjobs, -, hfinished⟩ := of_decide_eq_true htest
  simp only [Bool.and_eq_true] at test
  rw [closedAfterJob] at run ⊢
  rw [List.append_assoc]
  refine ⟨⟨s, run, test.1⟩, running_keeps_domain_of_closesIdle
    (Along.append (along_of_actions fun a ha u f hf => ?_) finished
      ⟨fun f _ j _ hheld => ?_, fun u _ => along_of_actions fun a ha v f hf => ?_⟩)⟩
  · subst hf
    simp [finishedOne, startOne, startSteps, submitSteps, runSteps, programSteps, writeSteps,
      hwProgram, hwSubmitWrites, irqSteps, returnSteps] at ha
  · -- the one job there is has finished
    have hlt : j < t.jobs := (Scheduled.reachable finished).lt_jobs fun hj => by
      simp [hj, Place.held] at hheld
    obtain rfl : j = 0 := by omega
    exact hfinished
  · subst hf
    simp at ha

end Rkopnu.Driver
