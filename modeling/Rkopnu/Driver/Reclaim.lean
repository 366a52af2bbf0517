import Rkopnu.Driver.Recovery
import Rkopnu.Driver.Isolation

/-!
# What a closed file leaves behind

`rocket_postclose` waits for the workers of the cores and for nobody else, so a close that has
begun can always be ended. The jobs that it leaves on the cores can be ended by the workers
too, and freed; with them and the file's BOs gone, no domain of the file is held by anything.
-/

namespace Rkopnu.Driver

open Transition

/-- The slots of its pool that a file may have filled: all of them up to the last loop of its
close, and then those that the loop has still to come to. -/
def FilePc.keeps : FilePc → Nat → Bool
  | .opened, _ | .destroying _, _ | .scanning _, _ => true
  | .putting m, i => decide (m ≤ i)
  | .unopened, _ | .closed, _ => false

/-- How far the close of a file is from its end, with `n` cores bound. -/
def FilePc.left (n : Nat) : FilePc → Nat
  | .destroying k => 3 - k + (n + (maxIommuDomains + 3))
  | .scanning k => n - k + (maxIommuDomains + 2)
  | .putting i => maxIommuDomains - i + 1
  | .unopened | .opened | .closed => 0

/-- The core that the close looks at. -/
def FilePc.core : FilePc → Nat
  | .destroying k | .scanning k => k
  | _ => 0

/-- Who acts in the end of file `f`: its close, the release of its BOs, and the workers of the
scheduler. -/
def Action.reclaims (origins : Origins) (f : Nat) : Action → Prop
  | .boFree b => (origins b).1 = f
  | .destroyEntity g _ | .destroyed g _ | .scan g _ | .scanned g _ | .putSlot g _
  | .closed g _ => g = f
  | .freeJob _ _ | .killJob _ => True
  | a => a.workerOf ≠ none

namespace State
variable (s : State)

/-- A filled slot is in the pool, and the file's close has not come to it. -/
def SlotsKept : Prop := ∀ f i d, s.slot f i = some d →
  i < maxIommuDomains ∧ (s.file f).keeps i = true

/-- What is left of a close, and of the worker it waits for. -/
def closeLeft (f : Nat) : Nat ×ₗ Nat :=
  toLex ((s.file f).left s.cores, (s.run (s.file f).core).left)

end State

section Preserve
variable {s : State} {a : Action} {origins : Origins} {f : Nat}

theorem opened_of_fills (reported : Reported s) (h : enabled s a = true) {i : Nat}
    (hfill : a.fills s = some (f, i)) : i < maxIommuDomains ∧ s.file f = .opened ∧
      (effect s a).file f = s.file f := by
  cases a with
  | memCreate g id d =>
      obtain ⟨rfl, rfl⟩ := Prod.mk.inj (Option.some.inj hfill)
      exact ⟨domainSlot_lt id, of_decide_eq_true (Bool.and_eq_true_iff.mp h).1, rfl⟩
  | domainGet j d =>
      obtain ⟨rfl, rfl⟩ := Prod.mk.inj (Option.some.inj hfill)
      have hcall : s.call j = .domain := of_decide_eq_true (Bool.and_eq_true_iff.mp h).1
      exact ⟨domainSlot_lt _, reported.busyFile j (by rw [hcall]; rfl), rfl⟩
  | _ => cases hfill

theorem keep_slotsKept (inv : Domained s) (reported : Reported s) (keep : s.SlotsKept)
    (h : enabled s a = true) : (effect s a).SlotsKept := by
  intro f i d hd
  rcases slot_before h hd with hold | ⟨-, hfill⟩
  · obtain ⟨hi, hkeeps⟩ := keep f i d hold
    refine ⟨hi, ?_⟩
    rcases file_effect (inv.freshFiles s.files (Nat.le_refl _)) h f with hmove | ⟨-, hstay⟩
    · generalize s.file f = p at hmove hkeeps
      generalize (effect s a).file f = q at hmove ⊢
      cases hmove with
      | openFile => cases hkeeps
      | scanned => simp [FilePc.keeps]
      | @putSlot _ k =>
          have hne : i ≠ k := by
            rintro rfl
            simp [effect, State.domainPut] at hd
          simp only [FilePc.keeps, decide_eq_true_eq] at hkeeps ⊢
          omega
      | @closed _ k =>
          have hend := (of_decide_eq_true h).2
          simp only [FilePc.keeps, decide_eq_true_eq] at hkeeps
          omega
      | _ => rfl
    · rwa [hstay]
  · obtain ⟨hi, hopened, hstay⟩ := opened_of_fills reported h hfill
    exact ⟨hi, by rw [hstay, hopened]; rfl⟩

end Preserve

/-- What is known of a driver that files are closed on. -/
structure Releasing (origins : Origins) (s : State) : Prop where
  reported : Reported s
  recoverable : Recoverable s
  isolated : Isolated (s, origins)
  slotsKept : s.SlotsKept

theorem Releasing.preserve {s : State} {a : Action} {origins : Origins}
    (inv : Releasing origins s) (h : enabled s a = true) :
    Releasing (noteBo s a origins) (effect s a) where
  reported := inv.reported.preserve h
  recoverable := inv.recoverable.preserve h
  isolated := inv.isolated.preserve h
  slotsKept := keep_slotsKept inv.isolated.domained inv.reported inv.slotsKept h

theorem Releasing.of_run {n : Nat} {origins last : Origins} {acts : List Action} {s : State}
    (run : Runs (watched driver noteBo) (State.init n, origins) acts (s, last)) :
    Releasing last s := by
  refine invariant (fun x => Releasing x.2 x.1) ?_ run
    ⟨Reported.initial n, Recoverable.initial n, Isolated.initial n origins, ?_⟩
  · rintro ⟨s, origins⟩ a ⟨t, later⟩ inv hstep
    obtain ⟨hdriver, rfl⟩ := watched_eq_some.mp hstep
    obtain ⟨h, rfl⟩ := driver_eq_some.mp hdriver
    exact inv.preserve h
  · intro f i d hd
    cases hd

/-- The file is being closed, or is closed. -/
structure Leaving (origins : Origins) (f : Nat) (s : State) : Prop
    extends Releasing origins s where
  closing : s.Closing f

structure Departed (origins : Origins) (f : Nat) (s : State) : Prop
    extends Leaving origins f s where
  closed : s.file f = .closed

section Step
variable {s : State} {a : Action} {origins : Origins} {f c j : Nat}

/-- Who acts in the end of a file creates no BO and makes no call. -/
theorem noteBo_of_reclaims (ha : a.reclaims origins f) : noteBo s a origins = origins := by
  cases a with
  | memCreate => exact absurd rfl ha
  | _ => rfl

theorem Releasing.file_effect (inv : Releasing origins s) (h : enabled s a = true) :
    FilePc.Moves s a f (s.file f) ((effect s a).file f) ∨
      a.fileOf s ≠ some f ∧ (effect s a).file f = s.file f :=
  Driver.file_effect (inv.isolated.domained.freshFiles s.files (Nat.le_refl _)) h f

theorem Leaving.preserve (inv : Leaving origins f s) (ha : a.reclaims origins f)
    (h : enabled s a = true) : Leaving origins f (effect s a) where
  toReleasing := by
    have kept := inv.toReleasing.preserve h
    rwa [noteBo_of_reclaims ha] at kept
  closing := by
    rcases inv.file_effect h with hmove | ⟨-, hstay⟩
    · have hclosing := inv.closing
      unfold State.Closing at hclosing ⊢
      generalize s.file f = p at hmove hclosing
      generalize (effect s a).file f = q at hmove ⊢
      cases hmove with
      | openFile => exact absurd rfl hclosing.1
      | close => exact absurd rfl hclosing.2
      | _ => simp
    · unfold State.Closing
      rw [hstay]
      exact inv.closing

theorem Departed.step (inv : Departed origins f s) (ha : a.reclaims origins f) {t : State}
    (hstep : driver s a = some t) : Departed origins f t := by
  obtain ⟨h, rfl⟩ := driver_eq_some.mp hstep
  refine ⟨inv.preserve ha h, ?_⟩
  rcases inv.file_effect h with hmove | ⟨-, hstay⟩
  · rw [inv.closed] at hmove
    generalize (effect s a).file f = q at hmove
    cases hmove
  · rw [hstay, inv.closed]

/-- A step on a close brings it closer to its end. -/
theorem FilePc.Moves.left_lt {p q : FilePc} (hmove : FilePc.Moves s a f p q)
    (h : enabled s a = true) (hclosing : p ≠ .unopened ∧ p ≠ .opened) :
    q.left s.cores < p.left s.cores := by
  cases hmove with
  | openFile => exact absurd rfl hclosing.1
  | close => exact absurd rfl hclosing.2
  | destroyEntity =>
      have hk := (of_decide_eq_true (Bool.and_eq_true_iff.mp h).1).2
      simp only [FilePc.left]
      omega
  | destroyed | scanned | closed =>
      simp only [FilePc.left]
      omega
  | scan =>
      have hk := (of_decide_eq_true h).2.1
      simp only [FilePc.left]
      omega
  | putSlot =>
      have hi := (of_decide_eq_true h).2
      simp only [FilePc.left]
      omega

theorem reclaims_of_run (ha : a.runOf = some c) : a.reclaims origins f := by
  cases a <;> simp_all [Action.reclaims, Action.workerOf, Action.runOf]

theorem file_of_run (ha : a.runOf = some c) : (effect s a).file = s.file := by
  cases a <;> first | rfl | cases ha

/-- A close that has begun can go on, or waits for a worker that can. -/
theorem Leaving.close_enabled (inv : Leaving origins f s) (hopen : s.file f ≠ .closed) :
    ∃ a, a.reclaims origins f ∧ enabled s a = true ∧
      (a.fileOf s = some f ∨ a.runOf = some (s.file f).core ∧ s.run (s.file f).core ≠ .idle) := by
  have wait : s.run (s.file f).core ≠ .idle → ∃ a, a.reclaims origins f ∧ enabled s a = true ∧
      (a.fileOf s = some f ∨
        a.runOf = some (s.file f).core ∧ s.run (s.file f).core ≠ .idle) := by
    intro hrun
    obtain ⟨a, ha, h⟩ := inv.recoverable.run_enabled hrun
    exact ⟨a, reclaims_of_run ha, h, Or.inr ⟨ha, hrun⟩⟩
  cases hpc : s.file f with
  | unopened => exact absurd hpc inv.closing.1
  | opened => exact absurd hpc inv.closing.2
  | closed => exact absurd hpc hopen
  | destroying k =>
      by_cases hk : k < s.cores ∧ k < 3
      · by_cases hrun : s.run k = .idle
        · refine ⟨.destroyEntity f k, rfl, ?_, Or.inl rfl⟩
          simp [enabled, hpc, hk, hrun, RunPc.job]
        · rw [hpc] at wait
          exact wait hrun
      · exact ⟨.destroyed f k, rfl, decide_eq_true ⟨hpc, hk⟩, Or.inl rfl⟩
  | scanning k =>
      by_cases hk : k < s.cores
      · by_cases hrun : s.run k = .idle
        · have hfree : s.jobLockFree k = true := by
            simp [State.jobLockFree, hrun, inv.recoverable.irqOutside k, RunPc.locked]
          exact ⟨.scan f k, rfl, decide_eq_true ⟨hpc, hk, hfree⟩, Or.inl rfl⟩
        · rw [hpc] at wait
          exact wait hrun
      · exact ⟨.scanned f k, rfl, decide_eq_true ⟨hpc, hk⟩, Or.inl rfl⟩
  | putting i =>
      by_cases hi : i < maxIommuDomains
      · exact ⟨.putSlot f i, rfl, decide_eq_true ⟨hpc, hi⟩, Or.inl rfl⟩
      · exact ⟨.closed f i, rfl, decide_eq_true ⟨hpc, hi⟩, Or.inl rfl⟩

/-- A close that has begun can be ended. -/
theorem Leaving.reach_closed (inv : Leaving origins f s) :
    CanReach driver (Action.reclaims origins f) (Departed origins f) s := by
  have closed : CanReach driver (Action.reclaims origins f)
      (fun t => Leaving origins f t ∧ t.file f = .closed) s := by
    refine canReach_of_measure (Leaving origins f) (fun s => s.closeLeft f)
      (fun s inv hopen => ?_) inv
    obtain ⟨a, ha, h, hstep⟩ := inv.close_enabled hopen
    refine ⟨a, effect s a, ha, driver_eq_some.mpr ⟨h, rfl⟩, inv.preserve ha h,
      Prod.Lex.toLex_lt_toLex.mpr ?_⟩
    rw [cores_effect]
    rcases hstep with hstep | ⟨hstep, hrun⟩
    · rcases inv.file_effect h with hmove | ⟨hother, -⟩
      · exact Or.inl (hmove.left_lt h inv.closing)
      · exact absurd hstep hother
    · rw [file_of_run hstep]
      refine Or.inr ⟨rfl, ?_⟩
      rcases run_effect h (s.file f).core with hmove | ⟨hother, -⟩
      · exact hmove.left_lt hrun
      · exact absurd hstep hother
  exact closed.bind fun t ht => .here ⟨ht.1, ht.2⟩

/-- A pushed job can be ended and freed by its core's workers. -/
theorem Pushed.reach_released (inv : Pushed c j s) :
    CanReach driver (fun a => Serves c j a ∨ a = .freeJob c j)
      (fun t => t.place j = .released) s := by
  have keepPushed : ∀ s a t, Serves c j a → Pushed c j s → driver s a = some t →
      Pushed c j t := by
    intro s a t _ inv hstep
    obtain ⟨h, rfl⟩ := driver_eq_some.mp hstep
    exact inv.preserve h
  have keepFinished : ∀ s a t, Serves c j a → s.finished j = true → driver s a = some t →
      t.finished j = true := by
    intro s a t _ hfin hstep
    obtain ⟨-, rfl⟩ := driver_eq_some.mp hstep
    exact finished_stays hfin
  have rested : CanReach driver (Serves c j)
      (fun t => t.finished j = true ∧ Resting c j t) s := by
    refine (inv.reach_finished.keep (Pushed c j) keepPushed inv).bind ?_
    rintro t ⟨inv, hfin⟩
    exact inv.reach_resting.keep (fun t => t.finished j = true) keepFinished hfin
  refine (rested.allow fun a ha => Or.inl ha).bind ?_
  rintro t ⟨hfin, inv⟩
  cases hplace : t.place j with
  | outside => exact absurd hplace inv.placed
  | queued =>
      have hblank := inv.blank j (by rw [hplace]; rfl) (by simp [hplace])
      simp [hblank.2.2.2.1] at hfin
  | pending =>
      have h : enabled t (.freeJob c j) = true :=
        decide_eq_true ⟨by rw [inv.tdrIdle]; rfl, hplace, inv.core, hfin⟩
      exact .next (Or.inr rfl) (driver_eq_some.mpr ⟨h, rfl⟩)
        (.here (by simp [effect, State.schedFree]))
  | timedOut => exact absurd hplace (inv.not_timedOut inv.core)
  | released => exact .here hplace

end Step

/-- No reference of the scheduler on job `j` is left, if it is one of file `f`. -/
def JobGone (f j : Nat) (s : State) : Prop := s.caller j = f → (s.place j).held = false

/-- BO `b` is freed, if it is one of file `f`. -/
def BoGone (origins : Origins) (f b : Nat) (s : State) : Prop :=
  (origins b).1 = f → s.boDomain b = none

section Gone
variable {s : State} {a : Action} {origins : Origins} {f b j : Nat}

theorem reclaims_of_serves {c : Nat} (ha : Serves c j a ∨ a = .freeJob c j) :
    a.reclaims origins f := by
  rcases ha with (hworker | rfl) | rfl
  · cases a <;> simp_all [Action.reclaims, Action.workerOf, Action.runOf, Action.tdrOf]
  · trivial
  · trivial

theorem JobGone.step (gone : JobGone f j s) (inv : Threaded s) (ha : a.reclaims origins f)
    {t : State} (hstep : driver s a = some t) : JobGone f j t := by
  obtain ⟨h, rfl⟩ := driver_eq_some.mp hstep
  have hcaller : (effect s a).caller j = s.caller j := by
    cases a with
    | submit => exact absurd rfl ha
    | _ => rfl
  intro hj
  have held := gone (hcaller ▸ hj)
  rcases inv.place_effect h j with hmove | ⟨-, hstay⟩
  · generalize s.place j = p at hmove held
    generalize (effect s a).place j = q at hmove ⊢
    cases hmove with
    | push => exact absurd rfl ha
    | _ => cases held
  · rw [hstay, held]

theorem BoGone.step (gone : BoGone origins f b s) (ha : a.reclaims origins f) {t : State}
    (hstep : driver s a = some t) : BoGone origins f b t := by
  obtain ⟨-, rfl⟩ := driver_eq_some.mp hstep
  intro hb
  cases a with
  | memCreate => exact absurd rfl ha
  | boFree i =>
      by_cases hi : b = i
      · simp [effect, hi]
      · simpa [effect, State.domainPut, hi] using gone hb
  | _ => exact gone hb

theorem Leaving.reach_jobGone (inv : Leaving origins f s) (j : Nat) :
    CanReach driver (Action.reclaims origins f) (JobGone f j) s := by
  cases hheld : (s.place j).held with
  | false => exact .here fun _ => hheld
  | true =>
      have hplaced : s.place j ≠ .outside := by
        rintro hout
        simp [hout, Place.held] at hheld
      have pushed : Pushed (s.job j).core j s := ⟨inv.recoverable, hplaced, rfl⟩
      refine (pushed.reach_released.allow fun a ha => reclaims_of_serves ha).bind fun t ht => ?_
      exact .here fun _ => by rw [ht]; rfl

theorem reach_boGone (b : Nat) :
    CanReach driver (Action.reclaims origins f) (BoGone origins f b) s := by
  by_cases hgone : BoGone origins f b s
  · exact .here hgone
  · obtain ⟨hb, hheld⟩ := Classical.not_imp.mp hgone
    have h : enabled s (.boFree b) = true := decide_eq_true hheld
    have admitted : Action.reclaims origins f (.boFree b) := hb
    exact .next admitted (driver_eq_some.mpr ⟨h, rfl⟩) (.here fun _ => by simp [effect])

end Gone

/-- Nothing of file `f` is left: it is closed, its jobs have ended and are freed, and what still
holds a domain, or is attached to one, does so for another file. -/
structure Reclaimed (origins : Origins) (f : Nat) (s : State) : Prop where
  closed : s.file f = .closed
  ended : ∀ j, s.caller j = f → s.place j ≠ .outside → s.finished j = true
  freed : ∀ j, s.caller j = f → s.refcount j = 0
  holders : ∀ k d, s.holding k = some d → (s.origin origins k).1 ≠ f
  domains : ∀ d, s.live d = true → ∃ k, s.holding k = some d
  cores : ∀ c d, s.attached c = some d → ∃ g i, g ≠ f ∧ s.slot g i = some d

section Closed
variable {s : State} {origins : Origins} {f : Nat}

/-- The calls on a file have returned before it is closed, and the scheduler was the other
holder of a reference on a job. -/
theorem Leaving.refcount_of_gone (inv : Leaving origins f s) {j : Nat} (gone : JobGone f j s)
    (hj : s.caller j = f) : s.refcount j = 0 := by
  have hcall : (s.call j).holdsJob = false := by
    rw [← Bool.not_eq_true]
    intro hholds
    have hbusy : (s.call j).busy = true := by
      cases hpc : s.call j <;> simp_all [CallPc.holdsJob, CallPc.busy]
    exact inv.closing.2 (hj ▸ inv.reported.busyFile j hbusy)
  rw [inv.isolated.domained.counted j, hcall, gone hj]
  rfl

theorem Departed.reclaimed (inv : Departed origins f s)
    (jobs : ∀ j, JobGone f j s) (bos : ∀ b, BoGone origins f b s) : Reclaimed origins f s where
  closed := inv.closed
  ended := fun j hj hplaced => by
    have hheld := jobs j hj
    have hreleased : s.place j = .released := by
      cases hplace : s.place j <;> simp_all [Place.held]
    exact inv.recoverable.releasedFinished j hreleased
  freed := fun j hj => inv.refcount_of_gone (jobs j) hj
  holders := fun k d hd howner => by
    cases k with
    | slot g i =>
        have hkeeps := (inv.slotsKept g i d hd).2
        rw [show g = f from howner, inv.closed] at hkeeps
        cases hkeeps
    | job j => simp [inv.refcount_of_gone (jobs j) howner] at hd
    | bo b => simp [bos b howner] at hd
  domains := fun d hd => by
    have hpos := (inv.isolated.domained.pool.live d).mp hd
    exact inv.isolated.domained.pool.counts.exists_holder hpos
  cores := fun c d hd => by
    obtain ⟨g, i, -, hslot, hunscanned⟩ := inv.isolated.domained.attachedSlot c d hd
    refine ⟨g, i, ?_, hslot⟩
    rintro rfl
    simp [inv.closed, FilePc.unscanned] at hunscanned

/-- The jobs end, and the BOs are freed last. -/
theorem Departed.reach_reclaimed (inv : Departed origins f s) :
    CanReach driver (Action.reclaims origins f) (Reclaimed origins f) s := by
  have jobs := canReach_forall (P := JobGone f) (fun s a t ha inv => inv.step ha)
    (fun j s a t ha inv gone => gone.step inv.recoverable.toThreaded ha)
    (fun j s (inv : Departed origins f s) => inv.reach_jobGone j) s.jobs inv fun j hj _ => ?_
  · refine jobs.bind ?_
    rintro t ⟨inv, jobs⟩
    have bos := canReach_forall (P := BoGone origins f)
      (fun s a t ha inv hstep => ⟨inv.1.step ha hstep,
        fun j => (inv.2 j).step inv.1.recoverable.toThreaded ha hstep⟩)
      (fun b s a t ha inv gone => gone.step ha)
      (fun b s (inv : Departed origins f s ∧ ∀ j, JobGone f j s) => reach_boGone b) t.bos
      ⟨inv, jobs⟩ fun b hb _ => inv.isolated.domained.freshBos b hb
    refine bos.bind ?_
    rintro u ⟨⟨inv, jobs⟩, bos⟩
    exact .here (inv.reclaimed jobs bos)
  · have hidle := inv.recoverable.freshCalls j hj
    rw [inv.recoverable.outside j (by rw [hidle]; rfl)]
    rfl

end Closed

/-- In every run the close of a file, once begun, can be ended, its jobs ended and freed, and
its BOs freed, by the close itself and the workers of the cores: no client has to do anything.
Of the domains that the file's pool held none is left then. -/
theorem closing_file_reclaimed {n : Nat} {origins last : Origins} {acts : List Action} {s : State}
    (run : Runs (watched driver noteBo) (State.init n, origins) acts (s, last)) {f : Nat}
    (hclosing : s.Closing f) :
    CanReach driver (Action.reclaims last f) (Reclaimed last f) s := by
  have leaving : Leaving last f s := ⟨Releasing.of_run run, hclosing⟩
  exact leaving.reach_closed.bind fun t departed => departed.reach_reclaimed

/-- File 0 is closed after its submit gave up waiting, with its job on the core and a BO left. -/
def leftRunning : List Action :=
  twoClients ++ .waitExpire 0 :: returnSteps 0 (some .timedout) ++ [.close 0]

theorem leftRunning_accepted :
    ((exec (watched driver noteBo) (State.init 1, fun _ => (0, 0)) leftRunning).map fun x =>
      decide (x.1.file 0 = .destroying 0 ∧ x.1.inFlight 0 = some 0 ∧
        x.1.boDomain 0 = some 0)) = some true := by
  decide

theorem closing_file_reclaimed_leftRunning :
    ∃ s last, Runs (watched driver noteBo) (State.init 1, fun _ => (0, 0)) leftRunning (s, last) ∧
      s.inFlight 0 = some 0 ∧ s.boDomain 0 = some 0 ∧
      CanReach driver (Action.reclaims last 0) (Reclaimed last 0) s := by
  obtain ⟨⟨s, last⟩, run, test⟩ := runs_of_test leftRunning_accepted
  obtain ⟨hfile, hfly, hbo⟩ := of_decide_eq_true test
  refine ⟨s, last, run, hfly, hbo, closing_file_reclaimed run ?_⟩
  simp [State.Closing, show s.file 0 = .destroying 0 from hfile]

end Rkopnu.Driver
