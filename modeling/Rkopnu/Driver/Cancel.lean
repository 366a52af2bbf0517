import Rkopnu.Driver.Fences

/-!
# Which job a timeout cancels

`rocket_job_timedout` stops the scheduler, resets the core and lets the scheduler
cancel what it then finds unfinished. It never looks at the job it was called
for, and until the scheduler is stopped that job may complete and the next one
may start: then the reset is the end of the next one.
-/

namespace Rkopnu.Driver

open Function (update)
open Transition

/-- The core and the job of a step that cancels: the restart after a reset, or a
`rocket_job_hw_submit` that returns at `reset.pending`. -/
def Action.cancels : Action → Option (Nat × Nat)
  | .tdrCancel c _ k | .runSkip c k | .irqSkip c _ k => some (c, k)
  | _ => none

/-- The job of a `rocket_job_timedout` that has set `reset.pending` and has not seen the
scheduler restarted. -/
def TdrPc.begun : TdrPc → Option Nat
  | .stop j | .stopLoop j | .hwReset j | .clear j | .startLoop j => some j
  | _ => none

theorem TdrPc.begun_of_parked {pc : TdrPc} (h : pc.parked = true) : pc.begun = pc.job := by
  cases pc <;> simp_all [TdrPc.begun, TdrPc.parked, TdrPc.job]

namespace State
variable (s : State)

/-- A stopped scheduler's unfinished job was never programmed, unless it is the one given
to `rocket_job_timedout`. -/
def ParkedOwn : Prop := ∀ c k, (s.tdr c).parked = true → (s.place k).started = true →
  (s.job k).core = c → s.finished k = false → 0 < s.nextTaskIdx k → (s.tdr c).job = some k

/-- The scheduler knows, or is about to be told, that the fence of the job is signaled. -/
def Settled (k : Nat) : Prop := s.finished k = true ∨
  (s.DoneSignaled k ∧ ∃ c, s.run c = .ret k .fence)

end State

/-- When `drm_sched_stop` stops the core for the timed-out job, no other job that was
programmed holds the core's credit. -/
def StopsOwn (s : State) (a : Action) : Prop := ∀ c j k, a = .tdrStop c j →
  s.active c = some k → 0 < s.nextTaskIdx k → k = j

/-- In the run `acts` the last reset of core `c` was begun for job `k`, whose done fence
was not signaled then. -/
def BeganUnsignaled (n : Nat) (acts : List Action) (c k : Nat) : Prop :=
  ∃ before after r, acts = before ++ .tdrMark c k :: after ∧
    Runs driver (State.init n) before r ∧ (∀ i, .tdrMark c i ∉ after) ∧ ¬ r.DoneSignaled k

section Preserve
variable {s : State} {a : Action}

/-- The job of a started scheduler's core is programmed before the scheduler is stopped. -/
theorem Fenced.programmed_before (inv : Fenced s) (h : enabled s a = true) {c k : Nat}
    (hparked : ((effect s a).tdr c).parked = true) (hcore : (s.job k).core = c)
    (hk : 0 < (effect s a).nextTaskIdx k) : 0 < s.nextTaskIdx k := by
  rcases nextTaskIdx_effect (s := s) (a := a) k with
    hsame | ⟨-, ⟨b, mem, rfl⟩ | ⟨b, seen, mem, rfl⟩⟩
  · rwa [hsame] at hk
  · have hlock : s.run b = .lock k := (of_decide_eq_true h).1
    obtain rfl : b = c := (inv.running b k (by rw [hlock]; rfl)).1.symm.trans hcore
    simp [inv.parkedIdle b hparked] at hlock
  · simp [inv.resubmit_disabled] at h

theorem keep_parkedOwn (inv : Fenced s) (keep : s.ParkedOwn) (ok : StopsOwn s a)
    (h : enabled s a = true) : (effect s a).ParkedOwn := by
  intro c k hparked hk hcore hfin hidx
  obtain ⟨hold, -⟩ := unfinished_before hfin
  rcases inv.started_before h hk with hstarted | ⟨b, e, rfl⟩
  · rw [inv.job_of_placed h (Place.ne_outside_of_started hstarted)] at hcore
    have hprogrammed := inv.programmed_before h hparked hcore hidx
    have hkeep := fun hp => keep c k hp hstarted hcore hold hprogrammed
    rcases tdr_effect h c with hmove | ⟨-, hstay⟩
    · have hcredit := inv.creditHeld k hstarted hold
      rw [hcore] at hcredit
      generalize s.tdr c = p at hmove hkeep hcredit
      generalize (effect s a).tdr c = q at hmove hparked ⊢
      cases hmove with
      | @stop _ j =>
          -- the unfinished job holds the credit, and is the one the core is stopped for
          have hactive := hcredit.resolve_right (by simp [TdrPc.parked])
          rw [ok c j k rfl hactive hprogrammed]
          rfl
      | jobSection | hwReset | clear => exact hkeep rfl
      | _ => cases hparked
    · rw [hstay] at hparked ⊢
      exact hkeep hparked
  · have hqueued : s.place k = .queued := (of_decide_eq_true h).2.2.2.2.1
    have hzero := (inv.blank k (by rw [hqueued]; rfl) (by simp [hqueued])).1
    have : (0 : Nat) < s.nextTaskIdx k := hidx
    omega

/-- A signal that reaches the scheduler is not lost. -/
theorem keep_settled (inv : Fenced s) (h : enabled s a = true) {k : Nat}
    (settled : s.Settled k) : (effect s a).Settled k := by
  rcases settled with hfin | ⟨⟨f, hf, hsig⟩, c, hret⟩
  · exact Or.inl (finished_stays hfin)
  · have hsignaled : (effect s a).DoneSignaled k := ⟨f, inv.signaled_stays h hf hsig, hsig⟩
    rcases run_effect h c with hmove | ⟨-, hstay⟩
    · rw [hret] at hmove
      generalize (effect s a).run c = q at hmove
      cases hmove with
      | complete => exact Or.inl Finishes.complete.finished
      | arm => simp [enabled, State.immediate, hf, hsig] at h
    · exact Or.inr ⟨hsignaled, c, hstay.trans hret⟩

/-- A reset is begun by the step that sets `reset.pending`. -/
theorem begun_of_effect (h : enabled s a = true) {c k : Nat}
    (hk : ((effect s a).tdr c).begun = some k) :
    a = .tdrMark c k ∨ ((s.tdr c).begun = some k ∧ ∀ i, a ≠ .tdrMark c i) := by
  rcases tdr_effect h c with hmove | ⟨hother, hstay⟩
  · generalize s.tdr c = p at hmove ⊢
    generalize (effect s a).tdr c = q at hmove hk
    cases hmove with
    | mark => exact Or.inl (by rw [Option.some.inj hk])
    | stop | jobSection | hwReset | clear => exact Or.inr ⟨hk, by simp⟩
    | _ => cases hk
  · refine Or.inr ⟨hstay ▸ hk, ?_⟩
    rintro i rfl
    exact hother rfl

/-- Before its reset begins, the scheduler knows of every signal of the timed-out job. -/
theorem settled_of_mark (inv : Fenced s) {c k : Nat} (h : enabled s (.tdrMark c k) = true)
    (hsig : s.DoneSignaled k) : s.Settled k := by
  have hmark : s.tdr c = .mark k := of_decide_eq_true h
  have hplace := inv.handlerHolds c k (by rw [hmark]; rfl)
  obtain ⟨hcore, -⟩ := inv.handlerCore c k (by rw [hmark]; rfl)
  rcases inv.signaledSettled k (by rw [hplace]; rfl) hsig with hfin | hret | hpark
  · exact Or.inl hfin
  · exact Or.inr ⟨hsig, _, hret⟩
  · simp [hcore, hmark, TdrPc.parked] at hpark

end Preserve

/-- Every reset under way was begun by a step of the run, and a signal that was there then has
reached the scheduler. -/
theorem reset_began {n : Nat} {acts : List Action} {s : State} {c k : Nat}
    (run : Runs driver (State.init n) acts s) (hk : (s.tdr c).begun = some k) :
    ∃ before after r, acts = before ++ .tdrMark c k :: after ∧
      Runs driver (State.init n) before r ∧ (∀ i, .tdrMark c i ∉ after) ∧
      (r.DoneSignaled k → s.Settled k) := by
  refine history (fun acts s => ∀ c k, (s.tdr c).begun = some k → ∃ before after r,
    acts = before ++ .tdrMark c k :: after ∧ Runs driver (State.init n) before r ∧
      (∀ i, .tdrMark c i ∉ after) ∧ (r.DoneSignaled k → s.Settled k)) ?_ ?_ run c k hk
  · intro c k hk
    simp [State.init, TdrPc.begun] at hk
  · intro done u a v hdone hInv hstep c k hk
    have inv := Fenced.reachable hdone
    obtain ⟨h, rfl⟩ := driver_eq_some.mp hstep
    rcases begun_of_effect h hk with rfl | ⟨hk, hne⟩
    · exact ⟨done, [], u, rfl, hdone, by simp,
        fun hsig => keep_settled inv h (settled_of_mark inv h hsig)⟩
    · obtain ⟨before, after, r, rfl, hr, hafter, hsettled⟩ := hInv c k hk
      refine ⟨before, after ++ [a], r, by simp, hr, fun i => ?_, fun hsig =>
        keep_settled inv h (hsettled hsig)⟩
      simp [hafter i, Ne.symm (hne i)]

/-- In every run in which no other programmed job holds a core's credit when
`drm_sched_stop` stops the core for a timed-out job: a programmed job that is
about to be canceled, in any state of the run, is the one the last reset of its
core was begun for, and its done fence was not signaled when the reset began. -/
theorem canceled_was_stuck_of_stopsOwn {n : Nat} {acts : List Action} {s : State}
    (run : Runs driver (State.init n) acts s)
    (own : Along driver StopsOwn (State.init n) acts) {a : Action} {c k : Nat}
    (h : enabled s a = true) (ha : a.cancels = some (c, k))
    (programmed : 0 < s.nextTaskIdx k) : BeganUnsignaled n acts c k := by
  have parked : Fenced s ∧ s.ParkedOwn := by
    refine invariant_along (fun s => Fenced s ∧ s.ParkedOwn) ?_ own run
      ⟨Fenced.initial n, fun c k hp => by simp [State.init, TdrPc.parked] at hp⟩
    rintro u a v ⟨inv, keep⟩ ok hstep
    obtain ⟨h, rfl⟩ := driver_eq_some.mp hstep
    exact ⟨inv.preserve h, keep_parkedOwn inv keep ok h⟩
  obtain ⟨inv, keep⟩ := parked
  cases a with
  | tdrCancel b j i =>
      obtain ⟨rfl, rfl⟩ := Prod.mk.inj (Option.some.inj ha)
      simp only [enabled, decide_eq_true_eq] at h
      obtain ⟨htdr, hplace, hcore, hunfinished⟩ := h
      have hparked : (s.tdr b).parked = true := by simp [htdr, TdrPc.parked]
      have hjob := keep b i hparked (by simp [hplace, Place.started]) hcore hunfinished programmed
      rw [← TdrPc.begun_of_parked hparked] at hjob
      obtain ⟨before, after, r, hacts, hr, hafter, hsettled⟩ := reset_began run hjob
      refine ⟨before, after, r, hacts, hr, hafter, fun hsig => ?_⟩
      rcases hsettled hsig with hfin | ⟨-, d, hret⟩
      · simp [hunfinished] at hfin
      · obtain ⟨hd, -⟩ := inv.running d i (by simp [hret, RunPc.job])
        rw [hcore] at hd
        simp [← hd, inv.parkedIdle b hparked] at hret
  | runSkip b i =>
      obtain ⟨rfl, rfl⟩ := Prod.mk.inj (Option.some.inj ha)
      simp only [enabled, decide_eq_true_eq] at h
      have := inv.firstRun b i (by simp [h, RunPc.unprogrammed])
      omega
  | irqSkip b seen i =>
      obtain ⟨rfl, rfl⟩ := Prod.mk.inj (Option.some.inj ha)
      simp only [enabled, decide_eq_true_eq] at h
      obtain ⟨-, -, hfly, hidx, -⟩ := h
      have := inv.toReported.toScheduled.oneTask_of_started (inv.inFlight b i hfly).2.1
      omega
  | _ => simp [Action.cancels] at ha

/-- Job 0 times out, completes before `reset.pending` is set, and job 1 is started before the
scheduler is stopped. -/
def innocentSteps : List Action :=
  startOne ++ submitSteps 0 1 0 submitOne ++ [.fire 0 0, .tdrEntry 0 0] ++
    irqSteps 0 0 0x300#32 ++ runSteps 0 1 ++
    programSteps 0 1 dpuTasks (hwProgram (submitJob 1 submitOne) 1 0 dpuTasks) ++
    [.tdrMark 0 0, .tdrStop 0 0, .tdrGuilty 0 0, .tdrDetach 0 0 1, .tdrSection 0 0,
      .tdrHwReset 0 0, .tdrClear 0 0]

theorem innocentSteps_accepted :
    ((exec driver (State.init 1) innocentSteps).map fun s =>
      enabled s (.tdrCancel 0 0 1) && decide (0 < s.nextTaskIdx 1)) = some true := by
  decide

/-- The successor of a job that timed out and then completed is canceled in its place. -/
theorem successor_canceled :
    ¬ ∀ s, Runs driver (State.init 1) innocentSteps s → ∀ a c k, enabled s a = true →
      a.cancels = some (c, k) → 0 < s.nextTaskIdx k → BeganUnsignaled 1 innocentSteps c k := by
  intro all
  obtain ⟨s, run, test⟩ := runs_of_test innocentSteps_accepted
  simp only [Bool.and_eq_true, decide_eq_true_eq] at test
  obtain ⟨before, after, r, hacts, -⟩ := all s run (.tdrCancel 0 0 1) 0 1 test.1 rfl test.2
  have hmem : Action.tdrMark 0 1 ∈ innocentSteps := by simp [hacts]
  simp [innocentSteps, startOne, startSteps, submitSteps, runSteps, programSteps, writeSteps,
    irqSteps, hwProgram, hwSubmitWrites] at hmem

/-- Job 0 is started and times out for good; its restart is about to cancel it. -/
def stuckSteps : List Action :=
  startOne ++ [.fire 0 0, .tdrEntry 0 0, .tdrMark 0 0, .tdrStop 0 0, .tdrDetach 0 0 0,
    .tdrSection 0 0, .tdrHwReset 0 0, .tdrClear 0 0]

theorem stuckSteps_accepted :
    ((exec driver (State.init 1) stuckSteps).map fun s =>
      enabled s (.tdrCancel 0 0 0) && decide (0 < s.nextTaskIdx 0)) = some true := by
  decide

/-- The credit is with the timed-out job, or with none. -/
def stopsOwnTest (s : State) : Action → Bool
  | .tdrStop c j => (s.active c).all fun k => decide (k = j)
  | _ => true

theorem stopsOwn_of_test (s : State) (a : Action) (h : stopsOwnTest s a = true) :
    StopsOwn s a := by
  rintro c j k rfl hk -
  simpa [stopsOwnTest, hk] using h

theorem canceled_was_stuck_of_stopsOwn_on_stuckSteps :
    BeganUnsignaled 1 stuckSteps 0 0 := by
  obtain ⟨s, run, test⟩ := runs_of_test stuckSteps_accepted
  simp only [Bool.and_eq_true, decide_eq_true_eq] at test
  exact canceled_was_stuck_of_stopsOwn run (along_of_check stopsOwn_of_test (by decide)) test.1
    rfl test.2

end Rkopnu.Driver
