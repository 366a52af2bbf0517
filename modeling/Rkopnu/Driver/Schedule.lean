import Rkopnu.Driver.Moves

/-!
# One job at a time on each core

Which job each thread of a core is about, and what is known of that job. The
scheduler's one credit keeps a core to one unfinished job, so the job recorded
in `in_flight_job` is the one the credit belongs to, unless a reset is taking
it off. Each property is one definition and is kept by every step; the
properties are proved together since they lean on each other.
-/

namespace Rkopnu.Driver

open Function (update)

/-- `rocket_job_run` has not published the job it was called for, and will not
when it is on its way out. -/
def RunPc.unpublished : RunPc → Option Nat
  | .check j | .create j | .pmGet j | .lock j | .pmPut j _ | .fail j _ | .ret j .null
  | .ret j (.err _) => some j
  | _ => none

/-- The job is before its own `rocket_job_hw_submit`. -/
def RunPc.unprogrammed : RunPc → Option Nat
  | .check j | .create j | .pmGet j | .lock j => some j
  | _ => none

/-- `rocket_job_run` has made the done fence and has not failed it. -/
def RunPc.fenced : RunPc → Option Nat
  | .pmGet j | .lock j | .writing j _ _ | .pmPut j _ | .fail j _ => some j
  | _ => none

/-- `rocket_reset` has dropped the job in flight and the workers are still stopped. -/
def TdrPc.emptied : TdrPc → Bool
  | .hwReset _ | .clear _ | .startLoop _ => true
  | _ => false

theorem RunPc.job_of_fenced {pc : RunPc} {j : Nat} (h : pc.fenced = some j) :
    pc.job = some j := by
  cases pc <;> simp_all [RunPc.fenced, RunPc.job]

theorem RunPc.unpublished_of_fenced {pc : RunPc} {j : Nat} (h : pc.fenced = some j)
    (hlock : pc.locked = false) : pc.unpublished = some j := by
  cases pc <;> simp_all [RunPc.fenced, RunPc.locked, RunPc.unpublished]

theorem RunPc.job_of_unprogrammed {pc : RunPc} {j : Nat} (h : pc.unprogrammed = some j) :
    pc.job = some j := by
  cases pc <;> simp_all [RunPc.unprogrammed, RunPc.job]

@[simp] theorem IrqPc.locked_forget (pc : IrqPc) : pc.forget.locked = pc.locked := by
  cases pc <;> rfl

theorem TdrPc.job_of_offList {pc : TdrPc} {j : Nat} (h : pc.offList = some j) :
    pc.job = some j := by
  cases pc <;> simp_all [TdrPc.offList, TdrPc.job]

theorem TdrPc.parked_of_emptied {pc : TdrPc} (h : pc.emptied = true) : pc.parked = true := by
  cases pc <;> simp_all [TdrPc.emptied, TdrPc.parked]

/-- `rkopnu_ioctl_submit` has not pushed a job, and the call has made it this far. -/
def CallPc.beforePush : CallPc → Bool
  | .idle | .vmap | .alloc | .jobInit | .domain | .push | .cleanup _ => true
  | _ => false

/-- `rkopnu_ioctl_submit` has filled the job. -/
def CallPc.filled : CallPc → Bool
  | .domain | .push => true
  | _ => false

namespace State
variable (s : State)

/-- The done fence of the job exists and is not signaled. -/
def unsignaled (j : Nat) : Prop := (s.doneFence j).map Fence.signaler = some none

/-- No call has been made under an index from `jobs` on. -/
def FreshCalls : Prop := ∀ j, s.jobs ≤ j → s.call j = .idle

/-- A call that has not pushed its job has no job in the scheduler. -/
def OutsideBeforePush : Prop := ∀ j, (s.call j).beforePush = true → s.place j = .outside

/-- The scheduler knows nothing yet of a job it has not started. -/
def UnstartedBlank : Prop := ∀ j, (s.place j).started = false → s.place j ≠ .released →
  s.nextTaskIdx j = 0 ∧ s.doneFence j = none ∧ s.callback j = false ∧
    s.finished j = false ∧ s.error j = none

/-- A pushed job is what `rkopnu_ioctl_submit` makes of its arguments. -/
def FilledJob : Prop := ∀ j, s.place j ≠ .outside ∨ (s.call j).filled = true →
  s.job j = submitJob s.cores (s.args j)

/-- A pushed job is one PC program. -/
def OneTask : Prop := ∀ j, s.place j ≠ .outside ∨ (s.call j).filled = true →
  (s.job j).taskCount = 1

/-- `reset.pending` is set from before `rocket_reset` until after the reset. -/
def PendingWhileResetting : Prop := ∀ c, s.resetPending c = (s.tdr c).resetting

/-- A stopped scheduler runs no `run_job`. -/
def ParkedIdle : Prop := ∀ c, (s.tdr c).parked = true → s.run c = .idle

/-- The job in `rocket_job_run` has the core's credit and is not finished. -/
def RunningJob : Prop := ∀ c j, (s.run c).job = some j →
  (s.job j).core = c ∧ (s.place j).started = true ∧ s.finished j = false ∧
    s.callback j = false ∧ s.active c = some j

/-- A job the scheduler waits for has the credit and an unsignaled done fence. -/
def ArmedJob : Prop := ∀ j, s.callback j = true →
  (s.place j).started = true ∧ s.finished j = false ∧ s.active (s.job j).core = some j ∧
    s.unsignaled j

/-- The job in flight is unfinished, and somebody will still finish it: the
scheduler's callback, the end of `rocket_job_run`, or the reset that has
just taken the callback off. -/
def InFlightJob : Prop := ∀ c j, s.inFlight c = some j →
  (s.job j).core = c ∧ (s.place j).started = true ∧ s.finished j = false ∧ s.unsignaled j ∧
    (s.callback j = true ∨ (s.run c).job = some j ∨ ∃ b, s.tdr c = .stopLoop b)

/-- From the job section of `rocket_reset` until the scheduler runs again no
job is in flight. -/
def EmptiedCore : Prop := ∀ c, (s.tdr c).emptied = true → s.inFlight c = none

/-- Until `rocket_job_run` publishes its job, no job is in flight on the core. -/
def UnpublishedCore : Prop := ∀ c j, (s.run c).unpublished = some j → s.inFlight c = none

/-- The done fence made by the running `rocket_job_run` is not signaled. -/
def FencedRun : Prop := ∀ c j, (s.run c).fenced = some j → s.unsignaled j

/-- While the registers are written the job is in flight with its task counted. -/
def WritingJob : Prop := ∀ c j p rest, s.run c = .writing j p rest →
  s.inFlight c = some j ∧ s.nextTaskIdx j = 1

/-- A returned fence exists, and a null result means the job carried an error. -/
def ReturnedResult : Prop := ∀ c j,
  (s.run c = .ret j .fence → s.doneFence j ≠ none) ∧
    (s.run c = .ret j .null → s.error j ≠ none)

/-- The task index is still zero when `rocket_job_run` gets to the hardware. -/
def FirstRun : Prop := ∀ c j, (s.run c).unprogrammed = some j → s.nextTaskIdx j = 0

/-- A job in flight that was not programmed met a pending reset. -/
def SkippedPending : Prop := ∀ c j, s.inFlight c = some j → s.nextTaskIdx j = 0 →
  s.resetPending c = true

/-- The IRQ thread never submits a job of one task again. -/
def IrqOutside : Prop := ∀ c, (s.irq c).locked = false

/-- The job given to `rocket_job_timedout` stays off the pending list. -/
def HandlerHolds : Prop := ∀ c j, (s.tdr c).offList = some j → s.place j = .timedOut

/-- The timeout worker's job belongs to the worker's core. -/
def HandlerCore : Prop := ∀ c j, (s.tdr c).job = some j →
  (s.job j).core = c ∧ s.place j ≠ .outside ∧ s.place j ≠ .queued

/-- `free_guilty` is about the finished job the timeout worker keeps. -/
def GuiltyHeld : Prop := ∀ c, s.freeGuilty c = true →
  ∃ j, (s.tdr c).job = some j ∧ (s.tdr c).offList = none ∧ s.place j = .timedOut ∧
    s.finished j = true

/-- A job off the pending list is in the hands of the timeout worker. -/
def TimedOutHeld : Prop := ∀ j, s.place j = .timedOut →
  (s.tdr (s.job j).core).offList = some j ∨
    ((s.tdr (s.job j).core).job = some j ∧ s.freeGuilty (s.job j).core = true)

end State

/-- What is known about the jobs and the threads of the cores, however many cores there
are. -/
structure Threaded (s : State) : Prop where
  freshCalls : s.FreshCalls
  outside : s.OutsideBeforePush
  blank : s.UnstartedBlank
  oneTask : s.OneTask
  pendingFlag : s.PendingWhileResetting
  parkedIdle : s.ParkedIdle
  running : s.RunningJob
  armed : s.ArmedJob
  inFlight : s.InFlightJob
  emptied : s.EmptiedCore
  unpublished : s.UnpublishedCore
  fenced : s.FencedRun
  writing : s.WritingJob
  returned : s.ReturnedResult
  firstRun : s.FirstRun
  skipped : s.SkippedPending
  irqOutside : s.IrqOutside
  handlerHolds : s.HandlerHolds
  handlerCore : s.HandlerCore
  guiltyHeld : s.GuiltyHeld
  timedOut : s.TimedOutHeld

/-- All that is known about the jobs and the threads of the cores. -/
structure Scheduled (s : State) : Prop extends Threaded s where
  filled : s.FilledJob

/-- A job in the scheduler is of a call that was made. -/
theorem Threaded.lt_jobs {s : State} (inv : Threaded s) {j : Nat} (hj : s.place j ≠ .outside) :
    j < s.jobs := by
  by_contra hge
  exact hj (inv.outside j (by rw [inv.freshCalls j (Nat.not_lt.mp hge)]; rfl))

theorem Threaded.initial (n : Nat) : Threaded (State.init n) := by
  constructor <;> intro <;> simp_all [State.init, RunPc.job, RunPc.unpublished, RunPc.fenced,
    RunPc.unprogrammed, TdrPc.job, TdrPc.offList, TdrPc.parked, TdrPc.resetting,
    TdrPc.emptied, CallPc.filled, IrqPc.locked]

theorem Scheduled.initial (n : Nat) : Scheduled (State.init n) where
  toThreaded := Threaded.initial n
  filled := fun j h => by simp [State.init, CallPc.filled] at h

section Preserve
variable {s : State} {a : Action}

/-- A step moves a call from one label to the next, or leaves it where it stands. -/
theorem Threaded.call_effect (inv : Threaded s) (h : enabled s a = true) (j : Nat) :
    CallPc.Moves s a j (s.call j) ((effect s a).call j) ∨
      a.callOf s ≠ some j ∧ (effect s a).call j = s.call j :=
  Driver.call_effect (inv.freshCalls s.jobs (Nat.le_refl _)) h j

/-- A call that has been made keeps its file and its arguments. -/
theorem Threaded.record_of_called (inv : Threaded s) {j : Nat} (hj : s.call j ≠ .idle) :
    (effect s a).caller j = s.caller j ∧ (effect s a).args j = s.args j := by
  have hnew : j ≠ s.jobs := by
    rintro rfl
    exact hj (inv.freshCalls _ (Nat.le_refl _))
  exact ⟨(caller_effect j).resolve_right hnew, (args_effect j).resolve_right hnew⟩

theorem place_moved {i j : Nat} {p q : Place} (hp : s.place i = p)
    (hq : (effect s a).place = update s.place i q) (ha : a.placed = some i)
    (hmove : Place.Moves a i p q) :
    Place.Moves a j (s.place j) ((effect s a).place j) ∨
      a.placed ≠ some j ∧ (effect s a).place j = s.place j :=
  moved (R := Place.Moves a) hp hq ha hmove

/-- A step moves a job from one place to the next, or leaves it where it is. -/
theorem Threaded.place_effect (inv : Threaded s) (h : enabled s a = true) (j : Nat) :
    Place.Moves a j (s.place j) ((effect s a).place j) ∨
      a.placed ≠ some j ∧ (effect s a).place j = s.place j := by
  cases a with
  | push i e =>
      have hpush : s.call i = .push := of_decide_eq_true h
      cases e with
      | none => exact place_moved (inv.outside i (by simp [hpush, CallPc.beforePush])) rfl rfl .push
      | some e => exact Or.inr ⟨(Option.some_ne_none _).symm, rfl⟩
  | pop c i e => exact place_moved (of_decide_eq_true h).2.2.2.2.1 rfl rfl .pop
  | freeJob c i => exact place_moved (of_decide_eq_true h).2.1 rfl rfl .freeJob
  | fire c i => exact place_moved (of_decide_eq_true h).2.2.1 rfl rfl .fire
  | tdrStop c i =>
      have hstop : s.tdr c = .stop i := (of_decide_eq_true h).1
      exact place_moved (inv.handlerHolds c i (by simp [hstop, TdrPc.offList])) rfl rfl .stop
  | tdrReap c b i => exact place_moved (of_decide_eq_true h).2.2.1 rfl rfl .reap
  | tdrGuilty c i => exact place_moved (of_decide_eq_true h).2.1 rfl rfl .guilty
  | tdrFreeGuilty c i =>
      obtain ⟨hret, hguilty⟩ : s.tdr c = .ret i ∧ s.freeGuilty c = true := of_decide_eq_true h
      obtain ⟨k, hjob, -, hplace, -⟩ := inv.guiltyHeld c hguilty
      obtain rfl : i = k := by simpa [hret, TdrPc.job] using hjob
      exact place_moved hplace rfl rfl .freeGuilty
  | killJob i => exact place_moved (of_decide_eq_true h).1 rfl rfl .kill
  | _ => exact Or.inr ⟨(Option.some_ne_none _).symm, rfl⟩

/-- Only a push takes a job into the scheduler. -/
theorem Threaded.outside_stays (inv : Threaded s) (h : enabled s a = true) {j : Nat}
    (hj : s.place j = .outside) (hpush : a ≠ .push j none) : (effect s a).place j = .outside := by
  rcases inv.place_effect h j with hmove | ⟨-, hstay⟩
  · rw [hj] at hmove
    generalize (effect s a).place j = q at hmove
    cases hmove
    exact absurd rfl hpush
  · rw [hstay, hj]

/-- A pushed job stays pushed. -/
theorem Threaded.placed_stays (inv : Threaded s) (h : enabled s a = true) {j : Nat}
    (hj : s.place j ≠ .outside) : (effect s a).place j ≠ .outside := by
  rcases inv.place_effect h j with hmove | ⟨-, hstay⟩
  · generalize s.place j = p at hmove
    generalize (effect s a).place j = q at hmove ⊢
    cases hmove <;> simp
  · rwa [hstay]

theorem Threaded.keep_freshCalls (inv : Threaded s) (h : enabled s a = true) :
    (effect s a).FreshCalls := by
  intro j hj
  have hjobs : s.jobs ≤ (effect s a).jobs := by
    cases a <;> first | exact Nat.le_refl _ | exact Nat.le_succ _
  have hidle := inv.freshCalls j (Nat.le_trans hjobs hj)
  rcases inv.call_effect h j with hmove | ⟨-, hstay⟩
  · rw [hidle] at hmove
    generalize (effect s a).call j = q at hmove
    cases hmove <;> exact absurd hj (Nat.not_succ_le_self _)
  · rw [hstay, hidle]

theorem Threaded.keep_outside (inv : Threaded s) (h : enabled s a = true) :
    (effect s a).OutsideBeforePush := by
  intro j hj
  have hout := inv.outside j
  have hplace : s.place j = .outside := by
    rcases inv.call_effect h j with hmove | ⟨-, hstay⟩
    · generalize s.call j = p at hmove hout
      generalize (effect s a).call j = q at hmove hj
      cases hmove <;> first | exact hout rfl | cases hj
    · exact hout (hstay ▸ hj)
  rcases inv.place_effect h j with hmove | ⟨-, hstay⟩
  · rw [hplace] at hmove
    generalize (effect s a).place j = q at hmove
    cases hmove
    simp [effect, CallPc.beforePush] at hj
  · rw [hstay, hplace]

/-- A started job is one PC program. -/
theorem Threaded.oneTask_of_started (inv : Threaded s) {j : Nat}
    (h : (s.place j).started = true) : (s.job j).taskCount = 1 :=
  inv.oneTask j (Or.inl fun hp => by simp [hp, Place.started] at h)

/-- A job of one task is never submitted to the hardware again: in flight with
its task unprogrammed it met a pending reset, and that reset is still pending. -/
theorem Threaded.resubmit_disabled (inv : Threaded s) (c j : Nat) (seen : U32)
    (mem : Int → RknpuTask) : enabled s (.irqResubmit c seen j mem) = false := by
  by_contra h
  simp only [enabled, Bool.not_eq_false, decide_eq_true_eq] at h
  obtain ⟨-, -, hj, hidx, hpending⟩ := h
  have hplace := (inv.inFlight c j hj).2.1
  have hone := inv.oneTask_of_started hplace
  have := inv.skipped c j hj (by omega)
  simp [hpending] at this

/-- The IRQ thread writes no job program. -/
theorem Threaded.irqWrite_disabled (inv : Threaded s) (c j : Nat) (p : Program)
    (w : RegWrite) (rest : List RegWrite) : enabled s (.irqWrite c j p w rest) = false := by
  by_contra h
  simp only [enabled, Bool.not_eq_false, decide_eq_true_eq] at h
  have := inv.irqOutside c
  simp [h, IrqPc.locked] at this

/-- A job that has been pushed keeps its record. -/
theorem Threaded.job_of_placed (inv : Threaded s) (h : enabled s a = true) {j : Nat}
    (hj : s.place j ≠ .outside) : (effect s a).job j = s.job j := by
  refine (job_effect j).resolve_right ?_
  rintro rfl
  have hcall : s.call j = .jobInit := of_decide_eq_true h
  exact hj (inv.outside j (by rw [hcall]; rfl))

theorem Place.ne_outside_of_started {p : Place} (h : p.started = true) : p ≠ .outside := by
  rintro rfl
  cases h

/-- A started job is freed when it is finished, and not before. -/
theorem Threaded.started_stays (inv : Threaded s) (h : enabled s a = true) {j : Nat}
    (hj : (s.place j).started = true) (hfin : s.finished j = false) :
    ((effect s a).place j).started = true := by
  rcases inv.place_effect h j with hmove | ⟨-, hstay⟩
  · generalize s.place j = p at hmove hj
    generalize (effect s a).place j = q at hmove ⊢
    cases hmove with
    | push | pop | kill => cases hj
    | fire | stop | guilty => rfl
    | freeJob => simp [(of_decide_eq_true h).2.2.2] at hfin
    | reap => simp [(of_decide_eq_true h).2.2.2.2.2] at hfin
    | @freeGuilty c =>
        obtain ⟨hret, hguilty⟩ : s.tdr c = .ret j ∧ s.freeGuilty c = true := of_decide_eq_true h
        obtain ⟨k, hjob, -, -, hdone⟩ := inv.guiltyHeld c hguilty
        obtain rfl : j = k := by simpa [hret, TdrPc.job] using hjob
        simp [hdone] at hfin
  · rw [hstay, hj]

/-- A job is started by the pop that hands it to `rocket_job_run`. -/
theorem Threaded.started_before (inv : Threaded s) (h : enabled s a = true) {j : Nat}
    (hj : ((effect s a).place j).started = true) :
    (s.place j).started = true ∨ ∃ c e, a = .pop c j e := by
  rcases inv.place_effect h j with hmove | ⟨-, hstay⟩
  · generalize s.place j = p at hmove ⊢
    generalize (effect s a).place j = q at hmove hj
    cases hmove with
    | pop => exact Or.inr ⟨_, _, rfl⟩
    | fire | stop | guilty => exact Or.inl rfl
    | _ => cases hj
  · exact Or.inl (hstay ▸ hj)

/-- While `rocket_job_run` has a job, no other thread finishes it. -/
theorem Threaded.not_finishes_of_running (inv : Threaded s) (h : enabled s a = true) {c j : Nat}
    (hj : (s.run c).job = some j) (hother : a.runOf ≠ some c) : ¬ Finishes s a j := by
  obtain ⟨hcore, hstarted, -, hcall, -⟩ := inv.running c j hj
  intro hfin
  cases hfin with
  | fail armed | irq armed => simp [hcall] at armed
  | @complete b _ r =>
      have hret : s.run b = .ret j r := (of_decide_eq_true h).1
      have hb := (inv.running b j (by rw [hret]; rfl)).1
      exact hother (congrArg some (hb.symm.trans hcore))
  | @cancel b i _ =>
      obtain ⟨htdr, -, hb, -⟩ := of_decide_eq_true h
      have hidle := inv.parkedIdle b (by rw [htdr]; rfl)
      rw [← hcore, hb, hidle] at hj
      cases hj
  | kill => simp [(of_decide_eq_true h).1, Place.started] at hstarted

theorem Threaded.keep_blank (inv : Threaded s) (h : enabled s a = true) :
    (effect s a).UnstartedBlank := by
  intro j hj hheld
  obtain ⟨hstarted, hbefore, hmoved⟩ : (s.place j).started = false ∧ s.place j ≠ .released ∧
      (a.placed = some j → a = .push j none) := by
    rcases inv.place_effect h j with hmove | ⟨hother, hstay⟩
    · generalize s.place j = p at hmove ⊢
      generalize (effect s a).place j = q at hmove hj hheld
      cases hmove with
      | push => exact ⟨rfl, by simp, fun _ => rfl⟩
      | freeJob | reap | freeGuilty | kill => exact absurd rfl hheld
      | _ => cases hj
    · rw [← hstay]
      exact ⟨hj, hheld, fun hplaced => absurd hplaced hother⟩
  obtain ⟨hidx, hfence, hcall, hfin, herror⟩ := inv.blank j hstarted hbefore
  -- no thread has a job that is not started
  have hrun : ∀ c, (s.run c).job ≠ some j := fun c hc => by
    simp [(inv.running c j hc).2.1] at hstarted
  have hfly : ∀ c, s.inFlight c ≠ some j := fun c hc => by
    simp [(inv.inFlight c j hc).2.1] at hstarted
  have hnot : ¬ Finishes s a j := by
    intro hfinishes
    cases hfinishes with
    | fail armed | irq armed => simp [hcall] at armed
    | @complete c => exact hrun c (by rw [(of_decide_eq_true h).1]; rfl)
    | cancel => simp [(of_decide_eq_true h).2.1, Place.started] at hstarted
    | kill => cases hmoved rfl
  refine ⟨?_, ?_, ?_, ?_, ?_⟩
  · rcases nextTaskIdx_effect (s := s) (a := a) j with
      hsame | ⟨-, ⟨c, mem, rfl⟩ | ⟨c, seen, mem, rfl⟩⟩
    · rw [hsame, hidx]
    · exact absurd (by rw [(of_decide_eq_true h).1]; rfl) (hrun c)
    · simp [inv.resubmit_disabled] at h
  · rcases doneFence_cases (s := s) (a := a) j with
      hsame | ⟨c, rfl⟩ | ⟨c, e, rfl⟩ | ⟨c, seen, rfl⟩
    · rw [hsame, hfence]
    · have hcreate : s.run c = .create j := of_decide_eq_true h
      exact absurd (by rw [hcreate]; rfl) (hrun c)
    · have hfail : s.run c = .fail j e := of_decide_eq_true h
      exact absurd (by rw [hfail]; rfl) (hrun c)
    · exact absurd (of_decide_eq_true h).2.2.1 (hfly c)
  · rw [Bool.eq_false_iff]
    intro harmed
    rcases callback_before harmed with ⟨c, rfl⟩ | ⟨harmed, -⟩
    · exact hrun c (by rw [(of_decide_eq_true h).1]; rfl)
    · simp [hcall] at harmed
  · rw [Bool.eq_false_iff]
    exact fun hdone => (finished_before hdone).elim (by simp [hfin]) hnot
  · rcases error_effect (s := s) (a := a) j with hsame | ⟨c, e, rfl⟩ | hfinishes
    · rw [hsame, herror]
    · cases hmoved rfl
    · exact absurd hfinishes hnot

/-- The record of a pushed call is what it was, or the call has just filled it. -/
theorem Threaded.record_effect (inv : Threaded s) (h : enabled s a = true) (k : Nat)
    (hk : (effect s a).place k ≠ .outside ∨ ((effect s a).call k).filled = true) :
    (effect s a).args k = s.args k ∧
      ((s.place k ≠ .outside ∨ (s.call k).filled = true) ∧ (effect s a).job k = s.job k ∨
        (effect s a).job k = submitJob s.cores (s.args k)) := by
  have hbefore : (s.place k ≠ .outside ∨ (s.call k).filled = true) ∨ a = .jobInit k none := by
    rcases hk with hplace | hfilled
    · refine Or.inl ?_
      rcases inv.place_effect h k with hmove | ⟨-, hstay⟩
      · generalize s.place k = p at hmove ⊢
        generalize (effect s a).place k = q at hmove
        cases hmove with
        | push =>
            have hpush : s.call k = .push := of_decide_eq_true h
            exact Or.inr (by rw [hpush]; rfl)
        | _ => exact Or.inl (by simp)
      · exact Or.inl (hstay ▸ hplace)
    · rcases inv.call_effect h k with hmove | ⟨-, hstay⟩
      · generalize s.call k = p at hmove ⊢
        generalize (effect s a).call k = q at hmove hfilled
        cases hmove with
        | jobInit => exact Or.inr rfl
        | domainGet => exact Or.inl (Or.inr rfl)
        | _ => cases hfilled
      · exact Or.inl (Or.inr (hstay ▸ hfilled))
  rcases hbefore with hbefore | rfl
  · constructor
    · refine (args_effect k).resolve_right ?_
      rintro rfl
      have hidle := inv.freshCalls s.jobs (Nat.le_refl _)
      rcases hbefore with hplace | hfilled
      · exact hplace (inv.outside _ (by rw [hidle]; rfl))
      · rw [hidle] at hfilled
        cases hfilled
    · refine Or.inl ⟨hbefore, (job_effect k).resolve_right ?_⟩
      rintro rfl
      have hcall : s.call k = .jobInit := of_decide_eq_true h
      rcases hbefore with hplace | hfilled
      · exact hplace (inv.outside k (by rw [hcall]; rfl))
      · rw [hcall] at hfilled
        cases hfilled
  · exact ⟨rfl, Or.inr (Function.update_self _ _ _)⟩

theorem Threaded.keep_oneTask (inv : Threaded s) (h : enabled s a = true) :
    (effect s a).OneTask := by
  intro k hk
  obtain ⟨-, ⟨hold, hjob⟩ | hjob⟩ := inv.record_effect h k hk
  · rw [hjob]
    exact inv.oneTask k hold
  · rw [hjob]
    rfl

theorem Scheduled.keep_filled (inv : Scheduled s) (h : enabled s a = true) :
    (effect s a).FilledJob := by
  intro k hk
  obtain ⟨hargs, ⟨hold, hjob⟩ | hjob⟩ := inv.record_effect h k hk
  · rw [hjob, hargs, cores_effect]
    exact inv.filled k hold
  · rw [hjob, hargs, cores_effect]

theorem Threaded.keep_pendingFlag (inv : Threaded s) (h : enabled s a = true) :
    (effect s a).PendingWhileResetting := by
  intro c
  have keep := inv.pendingFlag c
  rcases tdr_effect h c with hmove | ⟨hother, hstay⟩
  · generalize s.tdr c = p at hmove keep
    generalize (effect s a).tdr c = q at hmove ⊢
    cases hmove with
    | mark | clear => exact Function.update_self _ _ _
    | noReset => exact (of_decide_eq_true h).2
    | _ => exact keep
  · rw [hstay, resetPending_effect hother, keep]

theorem Threaded.keep_parkedIdle (inv : Threaded s) (h : enabled s a = true) :
    (effect s a).ParkedIdle := by
  intro c hc
  have keep := inv.parkedIdle c
  rcases tdr_effect h c with hmove | ⟨-, hstay⟩
  · generalize s.tdr c = p at hmove keep
    generalize (effect s a).tdr c = q at hmove hc
    cases hmove with
    | stop => exact (of_decide_eq_true h).2.2
    | jobSection | hwReset | clear => exact keep rfl
    | _ => cases hc
  · rw [hstay] at hc
    have hidle := keep hc
    rcases run_effect h c with hmove | ⟨-, hrun⟩
    · rw [hidle] at hmove
      generalize (effect s a).run c = q at hmove
      cases hmove
      simp [(of_decide_eq_true h).2.2.1] at hc
    · rw [hrun, hidle]

theorem Threaded.keep_running (inv : Threaded s) (h : enabled s a = true) :
    (effect s a).RunningJob := by
  intro c j hj
  have keep := inv.running c j
  rcases run_effect h c with hmove | ⟨hother, hstay⟩
  · generalize s.run c = p at hmove keep
    generalize (effect s a).run c = q at hmove hj
    cases hmove with
    | pop =>
        obtain rfl := Option.some.inj hj
        obtain ⟨-, -, -, -, hqueued, hcore, -⟩ := of_decide_eq_true h
        obtain ⟨-, -, hcall, hfin, -⟩ := inv.blank _ (by rw [hqueued]; rfl) (by simp [hqueued])
        exact ⟨hcore, by simp [effect, Place.started], hfin, hcall, Function.update_self _ _ _⟩
    | fail =>
        obtain rfl := Option.some.inj hj
        obtain ⟨hcore, hstarted, hfin, hcall, hactive⟩ := keep rfl
        simp [effect, State.signalDone, hcore, hstarted, hfin, hcall, hactive]
    | complete | arm => cases hj
    | _ => exact keep hj
  · rw [hstay] at hj
    obtain ⟨hcore, hstarted, hfin, hcall, hactive⟩ := keep hj
    have hnot := inv.not_finishes_of_running h hj hother
    have hplaced := Place.ne_outside_of_started hstarted
    refine ⟨by rw [inv.job_of_placed h hplaced, hcore], inv.started_stays h hstarted hfin,
      ?_, ?_, ?_⟩
    · rw [Bool.eq_false_iff]
      exact fun hdone => (finished_before hdone).elim (by simp [hfin]) hnot
    · rw [Bool.eq_false_iff]
      intro harmed
      rcases callback_before harmed with ⟨b, rfl⟩ | ⟨hbefore, -⟩
      · have hret : s.run b = .ret j .fence := (of_decide_eq_true h).1
        have hb := (inv.running b j (by rw [hret]; rfl)).1
        exact hother (congrArg some (hb.symm.trans hcore))
      · simp [hcall] at hbefore
    · rcases active_effect (s := s) (a := a) c with hsame | ⟨k, e, rfl⟩ | ⟨k, hk, hgiven⟩
      · rw [hsame, hactive]
      · exact absurd rfl hother
      · obtain rfl : j = k := Option.some.inj (hactive.symm.trans hk)
        rcases hgiven with hfinishes | ⟨i, b, rfl⟩
        · exact absurd hfinishes hnot
        · simp [(of_decide_eq_true h).2.2.2] at hcall

/-- A job is published by the `rocket_job_run` that holds it. -/
theorem lock_of_publishes {c j : Nat} (h : enabled s a = true) (hpub : Publishes a c j) :
    s.run c = .lock j := by
  cases hpub <;> exact (of_decide_eq_true h).1

theorem Threaded.keep_emptied (inv : Threaded s) (h : enabled s a = true) :
    (effect s a).EmptiedCore := by
  intro c hc
  have keep := inv.emptied c
  rcases tdr_effect h c with hmove | ⟨-, hstay⟩
  · generalize s.tdr c = p at hmove keep
    generalize (effect s a).tdr c = q at hmove hc
    cases hmove with
    | jobSection => exact Function.update_self _ _ _
    | hwReset | clear => exact keep rfl
    | _ => cases hc
  · rw [hstay] at hc
    cases hfly : (effect s a).inFlight c with
    | none => rfl
    | some j =>
        rcases inFlight_before hfly with hold | hpub
        · simp [keep hc] at hold
        · have hidle := inv.parkedIdle c (TdrPc.parked_of_emptied hc)
          simp [lock_of_publishes h hpub] at hidle

/-- An unsignaled done fence stays so until the job is failed or completed. -/
theorem unsignaled_stays {j : Nat} (hj : s.unsignaled j) (hfail : ∀ c e, a ≠ .runFail c j e)
    (hirq : ∀ c seen, a ≠ .irqComplete c seen j) : (effect s a).unsignaled j := by
  rcases doneFence_cases (s := s) (a := a) j with hsame | ⟨c, rfl⟩ | ⟨c, e, rfl⟩ | ⟨c, seen, rfl⟩
  · rw [State.unsignaled, hsame]
    exact hj
  · simp [State.unsignaled, effect]
  · exact absurd rfl (hfail c e)
  · exact absurd rfl (hirq c seen)

theorem Threaded.keep_armed (inv : Threaded s) (h : enabled s a = true) :
    (effect s a).ArmedJob := by
  intro j hj
  rcases callback_before hj with ⟨c, rfl⟩ | ⟨harmed, hdis⟩
  · obtain ⟨hret, hnone⟩ := of_decide_eq_true h
    obtain ⟨hcore, hstarted, hfin, -, hactive⟩ := inv.running c j (by rw [hret]; rfl)
    refine ⟨hstarted, hfin, hcore ▸ hactive, ?_⟩
    -- the scheduler found the returned fence unsignaled
    cases hfence : s.doneFence j with
    | none => exact absurd hfence ((inv.returned c j).1 hret)
    | some f =>
        have hopen : f.signaler = none := by simpa [State.immediate, hfence] using hnone
        simp [State.unsignaled, effect, hfence, hopen]
  · obtain ⟨hstarted, hfin, hactive, hopen⟩ := inv.armed j harmed
    have hnot : ¬ Finishes s a j := by
      intro hfinishes
      cases hfinishes with
      | kill => simp [(of_decide_eq_true h).1, Place.started] at hstarted
      | _ => exact hdis rfl
    refine ⟨inv.started_stays h hstarted hfin, ?_, ?_, ?_⟩
    · rw [Bool.eq_false_iff]
      exact fun hdone => (finished_before hdone).elim (by simp [hfin]) hnot
    · rw [inv.job_of_placed h (Place.ne_outside_of_started hstarted)]
      rcases active_effect (s := s) (a := a) (s.job j).core with
        hsame | ⟨k, e, rfl⟩ | ⟨k, hk, hgiven⟩
      · rw [hsame, hactive]
      · simp [(of_decide_eq_true h).2.2.2.1] at hactive
      · obtain rfl : j = k := Option.some.inj (hactive.symm.trans hk)
        rcases hgiven with hfinishes | ⟨i, b, rfl⟩
        · exact absurd hfinishes hnot
        · exact absurd rfl hdis
    · exact unsignaled_stays hopen (fun c e ha => hdis (ha ▸ rfl)) (fun c b ha => hdis (ha ▸ rfl))

/-- No job in flight was called for by a `rocket_job_run` that has not published it. -/
theorem Threaded.published_of_inFlight (inv : Threaded s) {c j k : Nat}
    (hj : s.inFlight c = some j) : (s.run c).unpublished ≠ some k := by
  intro hk
  simp [inv.unpublished c k hk] at hj

/-- A job is in one `rocket_job_run` at a time. -/
theorem Threaded.run_unique (inv : Threaded s) {b c j : Nat} (hb : (s.run b).job = some j)
    (hc : (s.run c).job = some j) : b = c :=
  (inv.running b j hb).1.symm.trans (inv.running c j hc).1

/-- A job that is and stays in flight is neither failed nor completed. -/
theorem Threaded.not_signaled_of_inFlight (inv : Threaded s) (h : enabled s a = true)
    {c j : Nat} (hold : s.inFlight c = some j) (hj : (effect s a).inFlight c = some j) :
    (∀ b e, a ≠ .runFail b j e) ∧ ∀ b seen, a ≠ .irqComplete b seen j := by
  have hcore := (inv.inFlight c j hold).1
  constructor
  · rintro b e rfl
    have hfail : s.run b = .fail j e := of_decide_eq_true h
    obtain rfl : b = c := (inv.running b j (by rw [hfail]; rfl)).1.symm.trans hcore
    exact inv.published_of_inFlight hold (by rw [hfail]; rfl)
  · rintro b seen rfl
    obtain rfl : b = c := (inv.inFlight b j (of_decide_eq_true h).2.2.1).1.symm.trans hcore
    simp [effect] at hj

theorem Threaded.not_finishes_of_inFlight (inv : Threaded s) (h : enabled s a = true)
    {c j : Nat} (hold : s.inFlight c = some j) (hj : (effect s a).inFlight c = some j) :
    ¬ Finishes s a j := by
  obtain ⟨hcore, hstarted, -, hopen, -⟩ := inv.inFlight c j hold
  obtain ⟨hfail, hirq⟩ := inv.not_signaled_of_inFlight h hold hj
  intro hfinishes
  cases hfinishes with
  | fail => exact hfail _ _ rfl
  | irq => exact hirq _ _ rfl
  | @complete b _ r =>
      obtain ⟨hret, hnow⟩ := of_decide_eq_true h
      obtain rfl : b = c := (inv.running b j (by rw [hret]; rfl)).1.symm.trans hcore
      cases r with
      | fence =>
          obtain ⟨f, hf, hsig⟩ := Option.map_eq_some_iff.mp hopen
          simp [State.immediate, hf, hsig] at hnow
      | null | err e => exact inv.published_of_inFlight hold (by rw [hret]; rfl)
  | @cancel b i _ =>
      obtain ⟨htdr, -, hb, -⟩ := of_decide_eq_true h
      obtain rfl : b = c := hb.symm.trans hcore
      simp [inv.emptied b (by rw [htdr]; rfl)] at hold
  | kill => simp [(of_decide_eq_true h).1, Place.started] at hstarted

/-- The callback is taken off by what finishes the job, or by the reset that detaches it. -/
theorem finishes_or_detaches {j : Nat} (harmed : s.callback j = true)
    (hdis : a.disarms = some j) : Finishes s a j ∨ ∃ c b, a = .tdrDetach c b j := by
  cases a with
  | tdrDetach c b k =>
      obtain rfl := Option.some.inj hdis
      exact Or.inr ⟨c, b, rfl⟩
  | runFail c k e | irqComplete c seen k | runComplete c k r | tdrCancel c b k =>
      obtain rfl := Option.some.inj hdis
      exact Or.inl (by constructor <;> assumption)
  | _ => cases hdis

theorem Threaded.keep_inFlight (inv : Threaded s) (h : enabled s a = true) :
    (effect s a).InFlightJob := by
  intro c j hj
  rcases inFlight_before hj with hold | hpub
  · obtain ⟨hcore, hstarted, hfin, hopen, hwho⟩ := inv.inFlight c j hold
    obtain ⟨hfail, hirq⟩ := inv.not_signaled_of_inFlight h hold hj
    have hnot := inv.not_finishes_of_inFlight h hold hj
    refine ⟨by rw [inv.job_of_placed h (Place.ne_outside_of_started hstarted), hcore],
      inv.started_stays h hstarted hfin, ?_, unsignaled_stays hopen hfail hirq, ?_⟩
    · rw [Bool.eq_false_iff]
      exact fun hdone => (finished_before hdone).elim (by simp [hfin]) hnot
    rcases hwho with harmed | hrun | ⟨b, hstop⟩
    · by_cases hdis : a.disarms = some j
      · rcases finishes_or_detaches harmed hdis with hfinishes | ⟨i, b, rfl⟩
        · exact absurd hfinishes hnot
        · obtain ⟨hstop, -, hi, -⟩ := of_decide_eq_true h
          obtain rfl : i = c := hi.symm.trans hcore
          exact Or.inr (Or.inr ⟨b, hstop⟩)
      · exact Or.inl (callback_stays harmed hdis)
    · rcases run_effect h c with hmove | ⟨-, hstay⟩
      · generalize s.run c = p at hmove hrun
        generalize (effect s a).run c = q at hmove ⊢
        cases hmove with
        | pop => cases hrun
        | complete =>
            obtain rfl := Option.some.inj hrun
            exact absurd .complete hnot
        | arm =>
            obtain rfl := Option.some.inj hrun
            exact Or.inl (Function.update_self _ _ _)
        | _ => exact Or.inr (Or.inl hrun)
      · exact Or.inr (Or.inl (by rw [hstay, hrun]))
    · rcases tdr_effect h c with hmove | ⟨-, hstay⟩
      · rw [hstop] at hmove
        generalize (effect s a).tdr c = q at hmove
        cases hmove
        simp [effect] at hj
      · exact Or.inr (Or.inr ⟨b, hstay.trans hstop⟩)
  · have hlock := lock_of_publishes h hpub
    obtain ⟨hcore, hstarted, hfin, -⟩ := inv.running c j (by rw [hlock]; rfl)
    have hopen := inv.fenced c j (by rw [hlock]; rfl)
    cases hpub <;>
      exact ⟨hcore, hstarted, hfin, hopen, Or.inr (Or.inl (by simp [effect, RunPc.job]))⟩

theorem Threaded.keep_unpublished (inv : Threaded s) (h : enabled s a = true) :
    (effect s a).UnpublishedCore := by
  intro c j hj
  have keep := inv.unpublished c
  rcases run_effect h c with hmove | ⟨hother, hstay⟩
  · generalize s.run c = p at hmove keep
    generalize (effect s a).run c = q at hmove hj
    cases hmove with
    | pop =>
        obtain ⟨-, hidle, hparked, hactive, -⟩ := of_decide_eq_true h
        -- a job in flight would have the credit that the popped job is given
        cases hfly : s.inFlight c with
        | none => exact hfly
        | some k =>
            obtain ⟨hcore, -, -, -, harmed | hrun | ⟨b, hstop⟩⟩ := inv.inFlight c k hfly
            · have hcredit := (inv.armed k harmed).2.2.1
              simp [hcore, hactive] at hcredit
            · simp [hidle, RunPc.job] at hrun
            · simp [hstop, TdrPc.parked] at hparked
    | check | null | create | createFail | pmGet | attachFail | pmPut => exact keep _ rfl
    | _ => cases hj
  · rw [hstay] at hj
    cases hfly : (effect s a).inFlight c with
    | none => rfl
    | some k =>
        rcases inFlight_before hfly with hold | hpub
        · simp [keep j hj] at hold
        · exact absurd (by cases hpub <;> rfl) hother

theorem Threaded.keep_fenced (inv : Threaded s) (h : enabled s a = true) :
    (effect s a).FencedRun := by
  intro c j hj
  have keep := inv.fenced c
  rcases run_effect h c with hmove | ⟨hother, hstay⟩
  · generalize s.run c = p at hmove keep
    generalize (effect s a).run c = q at hmove hj
    cases hmove with
    | create =>
        obtain rfl := Option.some.inj hj
        simp [State.unsignaled, effect]
    | pmGet | attachFail | program | write | pmPut => exact keep j hj
    | _ => cases hj
  · rw [hstay] at hj
    have hjob := RunPc.job_of_fenced hj
    refine unsignaled_stays (keep j hj) ?_ ?_
    · rintro b e rfl
      have hfail : s.run b = .fail j e := of_decide_eq_true h
      exact hother (congrArg some (inv.run_unique (by rw [hfail]; rfl) hjob))
    · rintro b seen rfl
      obtain ⟨-, hfree, hfly, -⟩ := of_decide_eq_true h
      obtain rfl : b = c := (inv.inFlight b j hfly).1.symm.trans (inv.running c j hjob).1
      have hunlocked : (s.run b).locked = false := by
        simp only [State.jobLockFree, Bool.and_eq_true, Bool.not_eq_true'] at hfree
        exact hfree.1
      exact inv.published_of_inFlight hfly (RunPc.unpublished_of_fenced hj hunlocked)

/-- The tasks of a job in `rocket_job_run` are counted there and nowhere else. -/
theorem Threaded.nextTaskIdx_of_running (inv : Threaded s) (h : enabled s a = true) {c j : Nat}
    (hj : (s.run c).job = some j) (hother : a.runOf ≠ some c) :
    (effect s a).nextTaskIdx j = s.nextTaskIdx j := by
  rcases nextTaskIdx_effect (s := s) (a := a) j with
    hsame | ⟨-, ⟨b, mem, rfl⟩ | ⟨b, seen, mem, rfl⟩⟩
  · exact hsame
  · have hlock : s.run b = .lock j := (of_decide_eq_true h).1
    exact absurd (congrArg some (inv.run_unique (by rw [hlock]; rfl) hj)) hother
  · simp [inv.resubmit_disabled] at h

theorem Threaded.keep_writing (inv : Threaded s) (h : enabled s a = true) :
    (effect s a).WritingJob := by
  intro c j p rest hj
  have keep := inv.writing c
  rcases run_effect h c with hmove | ⟨hother, hstay⟩
  · have hfirst := inv.firstRun c
    generalize s.run c = pc at hmove keep hfirst
    generalize (effect s a).run c = q at hmove hj
    cases hmove with
    | program =>
        obtain ⟨rfl, -, -⟩ := RunPc.writing.injEq .. ▸ hj
        exact ⟨Function.update_self _ _ _, by simp [effect, hfirst _ rfl]⟩
    | write =>
        obtain ⟨rfl, -, -⟩ := RunPc.writing.injEq .. ▸ hj
        exact keep _ _ _ rfl
    | _ => cases hj
  · rw [hstay] at hj
    obtain ⟨hfly, hidx⟩ := keep j p rest hj
    refine ⟨?_, by rw [inv.nextTaskIdx_of_running h (by rw [hj]; rfl) hother, hidx]⟩
    -- whoever takes the job off waits for `job_lock`
    have hlocked : s.jobLockFree c ≠ true := by simp [State.jobLockFree, hj, RunPc.locked]
    rcases inFlight_effect (s := s) (a := a) c with
      hsame | ⟨-, ⟨seen, k, rfl⟩ | ⟨k, rfl⟩⟩ | ⟨k, -, hpub⟩
    · rw [hsame, hfly]
    · exact absurd (of_decide_eq_true h).2.1 hlocked
    · exact absurd (of_decide_eq_true h).2.1 hlocked
    · exact absurd (by cases hpub <;> rfl) hother

theorem doneFence_of_unsignaled {j : Nat} (hj : s.unsignaled j) : s.doneFence j ≠ none := by
  intro hnone
  simp [State.unsignaled, hnone] at hj

theorem Threaded.keep_returned (inv : Threaded s) (h : enabled s a = true) :
    (effect s a).ReturnedResult := by
  intro c j
  have keep := inv.returned c j
  rcases run_effect h c with hmove | ⟨-, hstay⟩
  · have hfence := inv.fenced c
    have hfirst := inv.firstRun c
    have hrunning := inv.running c
    generalize s.run c = p at hmove hfence hfirst hrunning
    generalize hq : (effect s a).run c = q at hmove ⊢
    cases hmove with
    | pmGetFail | skip | lastWrite | fail =>
        refine ⟨fun hj => ?_, by simp⟩
        obtain ⟨rfl, -⟩ := RunPc.ret.injEq .. ▸ hj
        exact doneFence_stays (doneFence_of_unsignaled (hfence _ rfl))
    | @null _ k =>
        refine ⟨by simp, fun hj => ?_⟩
        obtain ⟨rfl, -⟩ := RunPc.ret.injEq .. ▸ hj
        -- a job of one task that was not programmed is not at its last task
        have hone := inv.oneTask_of_started (hrunning k rfl).2.1
        simp only [effect, Function.update_self] at hq
        split at hq
        · rename_i hnull
          exact hnull.resolve_right (by simp [hfirst k rfl, hone])
        · cases hq
    | _ => simp
  · rw [hstay]
    exact ⟨fun hj => doneFence_stays (keep.1 hj), fun hj => error_stays (keep.2 hj)⟩

theorem Threaded.keep_firstRun (inv : Threaded s) (h : enabled s a = true) :
    (effect s a).FirstRun := by
  intro c j hj
  have keep := inv.firstRun c j
  rcases run_effect h c with hmove | ⟨hother, hstay⟩
  · generalize s.run c = p at hmove keep
    generalize (effect s a).run c = q at hmove hj
    cases hmove with
    | pop =>
        obtain rfl := Option.some.inj hj
        have hqueued := (of_decide_eq_true h).2.2.2.2.1
        exact (inv.blank _ (by rw [hqueued]; rfl) (by simp [hqueued])).1
    | check | create | pmGet => exact keep hj
    | _ => cases hj
  · rw [hstay] at hj
    rw [inv.nextTaskIdx_of_running h (RunPc.job_of_unprogrammed hj) hother, keep hj]

theorem Threaded.keep_skipped (inv : Threaded s) (h : enabled s a = true) :
    (effect s a).SkippedPending := by
  intro c j hj hidx
  have hbefore : s.nextTaskIdx j = 0 := by
    rcases nextTaskIdx_effect (s := s) (a := a) j with hsame | ⟨hmore, -⟩
    · rw [← hsame, hidx]
    · simp [hidx] at hmore
  rcases inFlight_before hj with hold | hpub
  · have hpending := inv.skipped c j hold hbefore
    rcases tdr_effect h c with hmove | ⟨hother, -⟩
    · have hemptied := inv.emptied c
      generalize s.tdr c = p at hmove hemptied
      generalize (effect s a).tdr c = q at hmove
      cases hmove with
      | mark => exact Function.update_self _ _ _
      | clear => simp [hemptied rfl] at hold
      | _ => exact hpending
    · rw [resetPending_effect hother, hpending]
  · cases hpub with
    | skip => exact (of_decide_eq_true h).2.2
    | program => simp [effect] at hidx

theorem Threaded.keep_irqOutside (inv : Threaded s) (h : enabled s a = true) :
    (effect s a).IrqOutside := by
  intro c
  have keep := inv.irqOutside c
  rcases irq_effect h c with hmove | hstay
  · generalize s.irq c = p at hmove keep
    generalize (effect s a).irq c = q at hmove ⊢
    cases hmove with
    | resubmit => simp [inv.resubmit_disabled] at h
    | write => cases keep
    | forget => simpa using keep
    | _ => rfl
  · rw [hstay]
    exact keep

theorem Threaded.keep_handlerHolds (inv : Threaded s) (h : enabled s a = true) :
    (effect s a).HandlerHolds := by
  intro c j hj
  have keep := inv.handlerHolds c j
  rcases tdr_effect h c with hmove | ⟨hother, hstay⟩
  · generalize s.tdr c = p at hmove keep
    generalize (effect s a).tdr c = q at hmove hj
    cases hmove with
    | fire =>
        obtain rfl := Option.some.inj hj
        exact Function.update_self _ _ _
    | entry | mark => exact keep hj
    | _ => cases hj
  · rw [hstay] at hj
    have hcore := (inv.handlerCore c j (TdrPc.job_of_offList hj)).1
    rcases inv.place_effect h j with hmove | ⟨-, hplace⟩
    · rw [keep hj] at hmove
      generalize (effect s a).place j = q at hmove
      -- only the timeout worker of its core takes the job back
      cases hmove with
      | @stop b =>
          have hstop : s.tdr b = .stop j := (of_decide_eq_true h).1
          have hb := (inv.handlerCore b j (by rw [hstop]; rfl)).1
          exact absurd (congrArg some (hb.symm.trans hcore)) hother
      | @freeGuilty b =>
          have hret : s.tdr b = .ret j := (of_decide_eq_true h).1
          have hb := (inv.handlerCore b j (by rw [hret]; rfl)).1
          exact absurd (congrArg some (hb.symm.trans hcore)) hother
    · rw [hplace, keep hj]

/-- A job that the scheduler has started does not go back to the queue. -/
theorem Threaded.popped_stays (inv : Threaded s) (h : enabled s a = true) {j : Nat}
    (hj : s.place j ≠ .outside ∧ s.place j ≠ .queued) :
    (effect s a).place j ≠ .outside ∧ (effect s a).place j ≠ .queued := by
  rcases inv.place_effect h j with hmove | ⟨-, hstay⟩
  · generalize s.place j = p at hmove hj
    generalize (effect s a).place j = q at hmove ⊢
    cases hmove with
    | push => exact absurd rfl hj.1
    | pop | kill => exact absurd rfl hj.2
    | _ => simp
  · rwa [hstay]

theorem Threaded.keep_handlerCore (inv : Threaded s) (h : enabled s a = true) :
    (effect s a).HandlerCore := by
  intro c j hj
  have keep := inv.handlerCore c j
  have hold : (s.job j).core = c ∧ s.place j ≠ .outside ∧ s.place j ≠ .queued := by
    rcases tdr_effect h c with hmove | ⟨-, hstay⟩
    · generalize s.tdr c = p at hmove keep
      generalize (effect s a).tdr c = q at hmove hj
      cases hmove with
      | fire =>
          obtain rfl := Option.some.inj hj
          obtain ⟨-, -, hpending, hcore⟩ := of_decide_eq_true h
          exact ⟨hcore, by simp [hpending]⟩
      | ret | freeGuilty => cases hj
      | _ => exact keep hj
    · exact keep (hstay ▸ hj)
  exact ⟨by rw [inv.job_of_placed h hold.2.1, hold.1], inv.popped_stays h hold.2⟩

theorem Threaded.keep_guiltyHeld (inv : Threaded s) (h : enabled s a = true) :
    (effect s a).GuiltyHeld := by
  intro c hc
  rcases freeGuilty_before hc with ⟨hold, hkept⟩ | ⟨j, rfl⟩
  · obtain ⟨j, hjob, hoff, hplace, hfin⟩ := inv.guiltyHeld c hold
    have hcore := (inv.handlerCore c j hjob).1
    have hplaced : (effect s a).place j = .timedOut := by
      rcases inv.place_effect h j with hmove | ⟨-, hstay⟩
      · rw [hplace] at hmove
        generalize (effect s a).place j = q at hmove
        cases hmove with
        | @stop b =>
            have hstop : s.tdr b = .stop j := (of_decide_eq_true h).1
            obtain rfl : b = c := (inv.handlerCore b j (by rw [hstop]; rfl)).1.symm.trans hcore
            simp [hstop, TdrPc.offList] at hoff
        | @freeGuilty b =>
            have hret : s.tdr b = .ret j := (of_decide_eq_true h).1
            obtain rfl : b = c := (inv.handlerCore b j (by rw [hret]; rfl)).1.symm.trans hcore
            exact absurd rfl (hkept j)
      · rw [hstay, hplace]
    suffices ((effect s a).tdr c).job = some j ∧ ((effect s a).tdr c).offList = none from
      ⟨j, this.1, this.2, hplaced, finished_stays hfin⟩
    rcases tdr_effect h c with hmove | ⟨-, hstay⟩
    · generalize s.tdr c = p at hmove hjob hoff
      generalize (effect s a).tdr c = q at hmove ⊢
      cases hmove with
      | fire => cases hjob
      | entry | mark | noReset | stop => cases hoff
      | ret => simp [(of_decide_eq_true h).2] at hold
      | freeGuilty => exact absurd rfl (hkept _)
      | _ => exact ⟨hjob, rfl⟩
    · rw [hstay]
      exact ⟨hjob, hoff⟩
  · obtain ⟨hstop, -, -, hfin⟩ := of_decide_eq_true h
    refine ⟨j, ?_, ?_, Function.update_self _ _ _, hfin⟩ <;> simp [effect, hstop] <;> rfl

theorem Threaded.keep_timedOut (inv : Threaded s) (h : enabled s a = true) :
    (effect s a).TimedOutHeld := by
  intro j hj
  rcases inv.place_effect h j with hmove | ⟨hother, hstay⟩
  · rw [hj] at hmove
    generalize s.place j = p at hmove
    cases hmove with
    | @fire c =>
        have hcore : (s.job j).core = c := (of_decide_eq_true h).2.2.2
        simp [effect, hcore, TdrPc.offList]
    | @guilty c =>
        have hstop : s.tdr c = .stopLoop j := (of_decide_eq_true h).1
        have hcore := (inv.handlerCore c j (by rw [hstop]; rfl)).1
        simp [effect, hcore, hstop, TdrPc.job]
  · rw [hstay] at hj
    rw [inv.job_of_placed h (by simp [hj])]
    have keep := inv.timedOut j hj
    generalize (s.job j).core = c at keep ⊢
    rcases tdr_effect h c with hmove | ⟨hworker, htdr⟩
    · have hpending := inv.pendingFlag c
      generalize s.tdr c = p at hmove keep hpending
      generalize (effect s a).tdr c = q at hmove ⊢
      rcases keep with hoff | ⟨hjob, hguilty⟩
      · cases hmove with
        | entry | mark => exact Or.inl hoff
        | noReset => simp [(of_decide_eq_true h).2, TdrPc.resetting] at hpending
        | stop =>
            obtain rfl := Option.some.inj hoff
            exact absurd rfl hother
        | _ => cases hoff
      · cases hmove with
        | fire => cases hjob
        | ret => simp [(of_decide_eq_true h).2] at hguilty
        | freeGuilty =>
            obtain rfl := Option.some.inj hjob
            exact absurd rfl hother
        | _ => exact Or.inr ⟨hjob, hguilty⟩
    · rw [htdr]
      exact keep.imp_right fun hret => ⟨hret.1, freeGuilty_stays hret.2 hworker⟩

/-- One step keeps all of it. -/
theorem Threaded.preserve (inv : Threaded s) (h : enabled s a = true) :
    Threaded (effect s a) where
  freshCalls := inv.keep_freshCalls h
  outside := inv.keep_outside h
  blank := inv.keep_blank h
  oneTask := inv.keep_oneTask h
  pendingFlag := inv.keep_pendingFlag h
  parkedIdle := inv.keep_parkedIdle h
  running := inv.keep_running h
  armed := inv.keep_armed h
  inFlight := inv.keep_inFlight h
  emptied := inv.keep_emptied h
  unpublished := inv.keep_unpublished h
  fenced := inv.keep_fenced h
  writing := inv.keep_writing h
  returned := inv.keep_returned h
  firstRun := inv.keep_firstRun h
  skipped := inv.keep_skipped h
  irqOutside := inv.keep_irqOutside h
  handlerHolds := inv.keep_handlerHolds h
  handlerCore := inv.keep_handlerCore h
  guiltyHeld := inv.keep_guiltyHeld h
  timedOut := inv.keep_timedOut h

theorem Scheduled.preserve (inv : Scheduled s) (h : enabled s a = true) :
    Scheduled (effect s a) where
  toThreaded := inv.toThreaded.preserve h
  filled := inv.keep_filled h

/-- A started job is what its arguments make of it. -/
theorem Scheduled.filled_of_started (inv : Scheduled s) {j : Nat}
    (h : (s.place j).started = true) : s.job j = submitJob s.cores (s.args j) :=
  inv.filled j (Or.inl fun hp => by simp [hp, Place.started] at h)

end Preserve

/-- Every reachable state is scheduled. -/
theorem Scheduled.reachable {n : Nat} {acts : List Action} {s : State}
    (run : Transition.Runs driver (State.init n) acts s) : Scheduled s :=
  run_invariant Scheduled (Scheduled.initial n) (fun _ _ inv h => inv.preserve h) run

end Rkopnu.Driver
