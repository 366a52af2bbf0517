import Rkopnu.Driver.Recovery
import Rkopnu.Foundation.Service

/-!
# The driver serves jobs one at a time

Seen from outside, the threads of the driver are a service of exclusive cores: a push accepts a
job for the core of its mask, the write that starts the core starts the job, and the job ends
when its finished fence is signaled. What is proved of every such service then holds of the
driver.
-/

namespace Rkopnu.Driver

open Function (update)
open Transition Service

/-- The events and the board of the service, its jobs submit calls and its servers cores. -/
abbrev JobEvent := Event Nat Nat (Option Errno)
abbrev JobBoard := Board Nat Nat (Option Errno)

/-- What the driver offers: jobs served one at a time by each core. -/
noncomputable abbrev jobService : System JobBoard JobEvent := service

namespace State
variable (s : State)

/-- A program of the job was started on the hardware. -/
def Programs (j : Nat) : Prop := ∃ p ∈ s.log, p.job = j

instance (j : Nat) : Decidable (s.Programs j) :=
  inferInstanceAs (Decidable (∃ p ∈ s.log, p.job = j))

/-- How far the service has come with the job. -/
def stage (j : Nat) : Stage Nat (Option Errno) :=
  if s.place j = .outside then .absent
  else if s.finished j then .ended (s.job j).core (s.error j)
  else if s.Programs j then .running (s.job j).core
  else .waiting (s.job j).core

/-- The service as the state shows it. -/
def board : JobBoard where
  stage := s.stage
  starts := s.log.map fun p => (p.job, p.core)

end State

section Stage
variable {s : State} {j : Nat}

theorem stage_of_outside (hplace : s.place j = .outside) : s.stage j = .absent := by
  simp [State.stage, hplace]

theorem stage_of_finished (hplace : s.place j ≠ .outside) (hfin : s.finished j = true) :
    s.stage j = .ended (s.job j).core (s.error j) := by
  simp [State.stage, hplace, hfin]

theorem stage_of_programs (hplace : s.place j ≠ .outside) (hfin : s.finished j = false)
    (hprograms : s.Programs j) : s.stage j = .running (s.job j).core := by
  simp [State.stage, hplace, hfin, hprograms]

theorem stage_of_unprogrammed (hplace : s.place j ≠ .outside) (hfin : s.finished j = false)
    (hprograms : ¬ s.Programs j) : s.stage j = .waiting (s.job j).core := by
  simp [State.stage, hplace, hfin, hprograms]

/-- The jobs running on a core are unfinished and have a program there. -/
theorem programs_of_stage {c : Nat} (h : s.stage j = .running c) :
    s.finished j = false ∧ s.Programs j ∧ (s.job j).core = c := by
  unfold State.stage at h
  split at h
  · cases h
  · split at h
    · cases h
    · split at h
      · exact ⟨by simpa using ‹¬ s.finished j = true›, ‹_›, Stage.running.inj h⟩
      · cases h

theorem finished_of_stage {c : Nat} {e : Option Errno} (h : s.stage j = .ended c e) :
    s.finished j = true ∧ s.error j = e := by
  unfold State.stage at h
  split at h
  · cases h
  · split at h
    · exact ⟨‹_›, (Stage.ended.inj h).2⟩
    · split at h <;> cases h

end Stage

/-- The job whose finished fence the step signals. -/
def Action.finishes (s : State) : Action → Option Nat
  | .runFail _ j _ | .irqComplete _ _ j => if s.callback j then some j else none
  | .runComplete _ j _ | .tdrCancel _ _ j | .killJob j => some j
  | _ => none

/-- What the step is to a client of the service. -/
def served (s : State) (a : Action) : List JobEvent :=
  match a with
  | .push j none => [.accept j (s.job j).core]
  | .runWrite c j _ w _ => if w = goWrite then [.start j c] else []
  | a => ((a.finishes s).map fun j => Event.finish j (s.job j).core ((effect s a).error j)).toList

section Simulation
variable {s : State} {a : Action} {c j k : Nat}

theorem finishes_iff : a.finishes s = some j ↔ Finishes s a j := by
  constructor
  · intro ha
    cases a with
    | runFail i k e | irqComplete i b k =>
        obtain ⟨harmed, rfl⟩ : s.callback k = true ∧ k = j := by
          simpa [Action.finishes] using ha
        constructor
        exact harmed
    | runComplete | tdrCancel | killJob =>
        obtain rfl := Option.some.inj ha
        constructor
    | _ => cases ha
  · intro hfin
    cases hfin with
    | fail armed | irq armed => simp [Action.finishes, armed]
    | complete | cancel | kill => rfl

/-- What the service relies on. -/
structure Serving (s : State) : Prop extends Fenced s, Programmed s, Recoverable s

theorem Serving.preserve (inv : Serving s) (h : enabled s a = true) : Serving (effect s a) :=
  { inv.toFenced.preserve h, inv.toProgrammed.preserve h, inv.toRecoverable.preserve h with }

theorem Serving.initial (n : Nat) : Serving (State.init n) :=
  { Fenced.initial n, Programmed.initial n, Recoverable.initial n with }

/-- No job is finished twice. -/
theorem Serving.unfinished_of_finishes (inv : Serving s) (h : enabled s a = true)
    (hfin : Finishes s a j) : s.finished j = false ∧ s.place j ≠ .outside := by
  cases hfin with
  | fail armed | irq armed =>
      obtain ⟨hstarted, hunfinished, -⟩ := inv.armed j armed
      exact ⟨hunfinished, Place.ne_outside_of_started hstarted⟩
  | @complete c _ r =>
      have hret : s.run c = .ret j r := (of_decide_eq_true h).1
      obtain ⟨-, hstarted, hunfinished, -⟩ := inv.running c j (by rw [hret]; rfl)
      exact ⟨hunfinished, Place.ne_outside_of_started hstarted⟩
  | cancel =>
      obtain ⟨-, hplace, -, hunfinished⟩ := of_decide_eq_true h
      exact ⟨hunfinished, by simp [hplace]⟩
  | kill =>
      have hplace : s.place j = .queued := (of_decide_eq_true h).1
      have hblank := inv.blank j (by rw [hplace]; rfl) (by simp [hplace])
      exact ⟨hblank.2.2.2.1, by simp [hplace]⟩

/-- The error of a finished job is the one it was finished with. -/
theorem Serving.error_of_finished (inv : Serving s) (h : enabled s a = true)
    (hfin : s.finished j = true) : (effect s a).error j = s.error j := by
  rcases error_effect (s := s) (a := a) j with hsame | ⟨c, e, rfl⟩ | hfinishes
  · exact hsame
  · have hplace : s.place j = .queued := (of_decide_eq_true h).2.2.2.2.1
    have hblank := inv.blank j (by rw [hplace]; rfl) (by simp [hplace])
    simp [hfin] at hblank
  · simp [(inv.unfinished_of_finishes h hfinishes).1] at hfin

/-- A step that does not push, start or finish a job leaves its stage. -/
theorem Serving.stage_stays (inv : Serving s) (h : enabled s a = true)
    (hpush : a ≠ .push j none) (hstart : ∀ c p rest, a ≠ .runWrite c j p goWrite rest)
    (hfinish : ¬ Finishes s a j) : (effect s a).stage j = s.stage j := by
  by_cases hout : s.place j = .outside
  · have hstay := inv.outside_stays h hout hpush
    simp [State.stage, hout, hstay]
  · have hstay := inv.placed_stays h hout
    have hjob := inv.job_of_placed h hout
    cases hfin : s.finished j with
    | true =>
        have hlater := finished_stays (a := a) hfin
        simp [State.stage, hout, hstay, hfin, hlater, hjob, inv.error_of_finished h hfin]
    | false =>
        have hlater : (effect s a).finished j = false := by
          rw [Bool.eq_false_iff]
          exact fun hdone => (finished_before hdone).elim (by simp [hfin]) hfinish
        have hprograms : (effect s a).Programs j ↔ s.Programs j := by
          constructor
          · rintro ⟨p, hp, rfl⟩
            rcases logged_before inv.toThreaded h hp with hold | ⟨c, k, rest, rfl⟩
            · exact ⟨p, hold, rfl⟩
            · obtain ⟨-, -, rfl, -⟩ := inv.program_of_runWrite h
              exact absurd rfl (hstart c p rest)
          · rintro ⟨p, hp, rfl⟩
            exact ⟨p, logged_stays inv.toThreaded h hp, rfl⟩
        simp [State.stage, hout, hstay, hfin, hlater, hjob, hprograms]

/-- A step that starts no core leaves the starts. -/
theorem Serving.log_stays (inv : Serving s) (h : enabled s a = true)
    (hstart : ∀ c j p rest, a ≠ .runWrite c j p goWrite rest) : (effect s a).log = s.log := by
  rcases log_effect inv.toThreaded h with hsame | ⟨c, j, p, rest, rfl, -⟩
  · exact hsame
  · exact absurd rfl (hstart c j p rest)

/-- A started job is not in the queue any more. -/
theorem Serving.started_of_programs (inv : Serving s) (hj : s.Programs j)
    (hfin : s.finished j = false) : (s.place j).started = true ∧ s.place j ≠ .outside := by
  obtain ⟨p, hp, rfl⟩ := hj
  obtain ⟨-, -, hidx, hout⟩ := inv.logProgram p hp
  refine ⟨?_, hout⟩
  by_contra hnot
  rw [Bool.not_eq_true] at hnot
  have hblank := inv.blank p.job hnot fun hreleased => by
    simp [inv.releasedFinished p.job hreleased] at hfin
  omega

/-- A push is a new job, waiting for the core of its mask. -/
theorem Serving.follows_push (inv : Serving s) (h : enabled s (.push j none) = true) :
    Runs service s.board [.accept j (s.job j).core] (effect s (.push j none)).board := by
  have hpush : s.call j = .push := of_decide_eq_true h
  have hout := inv.outside j (by simp [hpush, CallPc.beforePush])
  have hblank := inv.blank j (by simp [hout, Place.started]) (by simp [hout])
  have habsent : s.stage j = .absent := stage_of_outside hout
  refine runs_single.mpr (service_eq_some.mpr ⟨habsent, Board.ext (funext fun k => ?_) rfl⟩)
  by_cases hk : k = j
  · subst hk
    have hprograms : ¬ s.Programs k := by
      rintro ⟨p, hp, hjob⟩
      exact (inv.logProgram p hp).2.2.2 (hjob ▸ hout)
    have hwaiting : (effect s (.push k none)).stage k = .waiting (s.job k).core :=
      stage_of_unprogrammed (by simp [effect]) hblank.2.2.2.1 hprograms
    simp [Board.after, State.board, hwaiting]
  · have hstay := inv.stage_stays h (j := k) (by simpa [eq_comm] using hk) (by simp)
      (fun hfin => by cases hfin)
    simp [Board.after, State.board, hk, hstay]

/-- A core is started on one job at a time. -/
theorem Serving.follows_start (inv : Serving s) {p : Program} {rest : List RegWrite}
    (h : enabled s (.runWrite c j p goWrite rest) = true) :
    Runs service s.board [.start j c] (effect s (.runWrite c j p goWrite rest)).board := by
  obtain ⟨hjob, -, rfl, rfl⟩ := inv.program_of_runWrite h
  obtain ⟨hcore, hstarted, hunfinished, -, hactive⟩ := inv.running p.core p.job hjob
  have hout := Place.ne_outside_of_started hstarted
  have hnew := (inv.writingProgram _ _ _ _ (enabled_runWrite.mp h)).2.2.1 List.mem_cons_self
  have hprograms : ¬ s.Programs p.job := by
    rintro ⟨q, hq, hsame⟩
    exact hnew q hq hsame
  have hlog : (effect s (.runWrite p.core p.job p goWrite rest)).log = s.log ++ [p] :=
    log_runWrite.trans (if_pos rfl)
  have hfree : ∀ k, s.stage k ≠ .running p.core := by
    intro k hrunning
    obtain ⟨hfin, hk, hkcore⟩ := programs_of_stage hrunning
    have hkstarted := (inv.started_of_programs hk hfin).1
    rcases inv.creditHeld k hkstarted hfin with hcredit | hparked
    · rw [hkcore, hactive] at hcredit
      obtain rfl : p.job = k := Option.some.inj hcredit
      exact hprograms hk
    · have hidle := inv.parkedIdle _ hparked
      rw [hkcore] at hidle
      simp [hidle, RunPc.job] at hjob
  refine runs_single.mpr (service_eq_some.mpr ⟨⟨?_, hfree⟩, Board.ext (funext fun k => ?_) ?_⟩)
  · exact (stage_of_unprogrammed hout hunfinished hprograms).trans (by rw [hcore])
  · by_cases hk : k = p.job
    · subst hk
      have hstarted : (effect s (.runWrite p.core p.job p goWrite rest)).Programs p.job :=
        ⟨p, by simp [hlog], rfl⟩
      have hrunning := stage_of_programs (inv.placed_stays h hout) hunfinished hstarted
      rw [show (effect s _).job = s.job from rfl, hcore] at hrunning
      simp [Board.after, State.board, hrunning]
    · have hstay := inv.stage_stays h (j := k) (by simp)
        (fun b q more heq => hk (Action.runWrite.inj heq).2.1.symm) (fun hfin => by cases hfin)
      simp [Board.after, State.board, hk, hstay]
  · simp [Board.after, State.board, hlog]

/-- A step that neither pushes a job nor starts a core ends a job, or nothing is seen of it. -/
theorem Serving.follows_finish (inv : Serving s) (h : enabled s a = true)
    (hpush : ∀ i, a ≠ .push i none) (hstart : ∀ c i p rest, a ≠ .runWrite c i p goWrite rest) :
    Runs service s.board
      ((a.finishes s).map fun i => Event.finish i (s.job i).core ((effect s a).error i)).toList
      (effect s a).board := by
  have hstarts : (effect s a).board.starts = s.board.starts := by
    simp [State.board, inv.log_stays h hstart]
  cases hfin : a.finishes s with
  | none =>
      refine runs_nil.mpr (Board.ext (funext fun k => ?_) hstarts.symm)
      refine (inv.stage_stays h (hpush k) (fun c p rest => hstart c k p rest) fun hk => ?_).symm
      simp [finishes_iff.mpr hk] at hfin
  | some j =>
      have hfinishes := finishes_iff.mp hfin
      obtain ⟨hunfinished, hout⟩ := inv.unfinished_of_finishes h hfinishes
      refine runs_single.mpr (service_eq_some.mpr ⟨?_, Board.ext (funext fun k => ?_) hstarts.symm⟩)
      · by_cases hprograms : s.Programs j
        · exact Or.inr (stage_of_programs hout hunfinished hprograms)
        · exact Or.inl (stage_of_unprogrammed hout hunfinished hprograms)
      · by_cases hk : k = j
        · subst hk
          have hended := stage_of_finished (inv.placed_stays h hout) hfinishes.finished
          rw [inv.job_of_placed h hout] at hended
          simp [Board.after, State.board, hended]
        · have hstay := inv.stage_stays h (hpush k) (fun c p rest => hstart c k p rest)
            fun hother => hk (Option.some.inj ((finishes_iff.mpr hother).symm.trans hfin))
          simp [Board.after, State.board, hk, hstay]

/-- Every step is answered by what a client sees of it. -/
theorem Serving.follows (inv : Serving s) (h : enabled s a = true) :
    Runs service s.board (served s a) (effect s a).board := by
  cases a with
  | push j e =>
      cases e with
      | none => exact inv.follows_push h
      | some e => exact inv.follows_finish h (by simp) (by simp)
  | runWrite c j p w rest =>
      by_cases hgo : w = goWrite
      · subst hgo
        simpa [served] using inv.follows_start h
      · have hquiet := inv.follows_finish h (by simp) (by simp [hgo])
        simpa [served, hgo, Action.finishes] using hquiet
  | _ => exact inv.follows_finish h (by simp) (by simp)

end Simulation

/-- The driver is a service of exclusive cores. -/
noncomputable def serviceSimulation : Simulation driver jobService Serving where
  image := State.board
  answer := served
  keep := fun s a t inv hstep => by
    obtain ⟨h, rfl⟩ := driver_eq_some.mp hstep
    exact inv.preserve h
  follows := fun s a t inv hstep => by
    obtain ⟨h, rfl⟩ := driver_eq_some.mp hstep
    exact inv.follows h

section Runs
variable {n : Nat} {acts more : List Action} {s t : State}

theorem Serving.reachable (run : Runs driver (State.init n) acts s) : Serving s :=
  run_invariant Serving (Serving.initial n) (fun _ _ inv h => inv.preserve h) run

theorem Serving.board_runs (inv : Serving s) (run : Runs driver s acts t) :
    ∃ events, Runs jobService s.board events t.board := by
  obtain ⟨events, hevents, -⟩ := serviceSimulation.runs (P := fun _ _ => True)
    (fun _ _ _ => along_of_actions fun _ _ _ => trivial) run inv
  exact ⟨events, hevents⟩

theorem board_init : (State.init n).board = Board.empty := by
  have habsent : ∀ j, (State.init n).stage j = .absent := fun j => stage_of_outside rfl
  exact Board.ext (funext habsent) rfl

theorem Serving.logged_of_run (inv : Serving s) (run : Runs driver s acts t) {p : Program}
    (hp : p ∈ s.log) : p ∈ t.log := by
  have hlater : Threaded t ∧ p ∈ t.log := by
    refine invariant (fun u => Threaded u ∧ p ∈ u.log) ?_ run ⟨inv.toThreaded, hp⟩
    rintro u a v ⟨hu, hmem⟩ hstep
    obtain ⟨h, rfl⟩ := driver_eq_some.mp hstep
    exact ⟨hu.preserve h, logged_stays hu h hmem⟩
  exact hlater.2

/-- Every run of the driver is a run of the service, and so no core is ever started on a job
while it has another unfinished one. -/
theorem driver_refines_service (run : Runs driver (State.init n) acts s) :
    (∃ events, Runs jobService Board.empty events s.board) ∧
      ∀ p ∈ s.log, ∀ q ∈ s.log, p.core = q.core → s.finished p.job = false →
        s.finished q.job = false → p = q := by
  obtain ⟨events, hevents⟩ := (Serving.initial n).board_runs run
  rw [board_init] at hevents
  have inv := Serving.reachable run
  have hrunning : ∀ p ∈ s.log, s.finished p.job = false → s.stage p.job = .running p.core := by
    intro p hp hfin
    obtain ⟨-, hcore, -, hout⟩ := inv.logProgram p hp
    rw [← hcore]
    exact stage_of_programs hout hfin ⟨p, hp, rfl⟩
  refine ⟨⟨events, hevents⟩, fun p hp q hq hcore hpfin hqfin => inv.program_unique hp hq ?_⟩
  exact (Board.Sound.of_run hevents).exclusive p.job q.job p.core (hrunning p hp hpfin)
    (hcore ▸ hrunning q hq hqfin)

/-- What a job has ended with stays, and the job is not started on the hardware any more. -/
theorem ended_job_final (run : Runs driver (State.init n) acts s)
    (rest : Runs driver s more t) {j : Nat} (hfin : s.finished j = true) :
    t.finished j = true ∧ t.error j = s.error j ∧ ∀ p ∈ t.log, p.job = j → p ∈ s.log := by
  have inv := Serving.reachable run
  have later : Serving t := Serving.reachable (run.append rest)
  obtain ⟨events, hevents⟩ := inv.board_runs rest
  have hout : s.place j ≠ .outside := by
    intro hplace
    have hblank := inv.blank j (by rw [hplace]; rfl) (by simp [hplace])
    simp [hfin] at hblank
  obtain ⟨hstage, hstarts⟩ := ended_stays hevents (stage_of_finished hout hfin)
  obtain ⟨hlater, herror⟩ := finished_of_stage hstage
  refine ⟨hlater, herror, fun p hp hjob => ?_⟩
  have hstart : (j, p.core) ∈ t.board.starts := List.mem_map.mpr ⟨p, hp, by rw [hjob]⟩
  obtain ⟨q, hq, hsame⟩ := List.mem_map.mp (hstarts p.core hstart)
  obtain rfl := later.program_unique hp (inv.logged_of_run rest hq)
    (hjob.trans (congrArg Prod.fst hsame).symm)
  exact hq

end Runs

/-- Job 0 is completed by its interrupt. -/
def completedOne : List Action := startOne ++ irqSteps 0 0 0x300#32

theorem completedOne_accepted :
    ((exec driver (State.init 1) completedOne).map fun s => s.finished 0) = some true := by
  decide

theorem ended_job_final_completed : ∃ s, Runs driver (State.init 1) completedOne s ∧
    ∀ more t, Runs driver s more t → t.finished 0 = true ∧ t.error 0 = s.error 0 ∧
      ∀ p ∈ t.log, p.job = 0 → p ∈ s.log := by
  obtain ⟨s, run, test⟩ := runs_of_test completedOne_accepted
  exact ⟨s, run, fun more t rest => ended_job_final run rest test⟩

theorem driver_refines_service_started : ∃ s, Runs driver (State.init 1) startOne s ∧
    ∃ events, Runs jobService Board.empty events s.board := by
  obtain ⟨s, run, -⟩ := runs_of_test startOne_accepted
  exact ⟨s, run, (driver_refines_service run).1⟩

end Rkopnu.Driver
