import Rkopnu.Driver.References

/-!
# The task array while a job is queued

`rk_tasks` points into a mapping of the task BO that the submitting ioctl makes
and undoes. The job reads it from another thread, after it was taken from the
queue. The mapping outlives the job as long as the ioctl waits for it.
-/

namespace Rkopnu.Driver

open Function (update)
open Transition

/-- The job is being run and has not been through `rocket_job_hw_submit` yet. -/
def RunPc.toRead : RunPc → Option Nat
  | .check j | .create j | .pmGet j | .lock j | .writing j _ _ => some j
  | _ => none

/-- The ioctl has mapped the task BO and has not come to `out_vunmap`. -/
def CallPc.maps : CallPc → Bool
  | .alloc | .jobInit | .domain | .push | .wait | .cleanup _ | .putJob _ | .vunmap _ => true
  | _ => false

/-- The ioctl has a reference on the task BO. -/
def CallPc.hasBo : CallPc → Bool
  | .idle | .returned _ => false
  | _ => true

theorem RunPc.job_of_toRead {pc : RunPc} {j : Nat} (h : pc.toRead = some j) :
    pc.job = some j := by
  cases pc <;> simp_all [RunPc.toRead, RunPc.job]

/-- The job whose `rk_tasks` the step reads in `rocket_job_hw_submit`. -/
def Action.readsTasks : Action → Option Nat
  | .runProgram _ j _ | .runWrite _ j _ _ _ | .irqResubmit _ _ j _ | .irqWrite _ j _ _ _ =>
      some j
  | _ => none

namespace State
variable (s : State)

/-- The job can still get to `rocket_job_hw_submit`, or is in it. -/
def Unread (j : Nat) : Prop := s.place j = .queued ∨ ∃ c, (s.run c).toRead = some j

/-- Every task array that some thread may read next is mapped and its BO referenced. -/
def ReadsMapped : Prop := ∀ a j, enabled s a = true → a.readsTasks = some j →
  s.mapped j = true ∧ s.boRef j = true

/-- The mapping exists while the ioctl is between its `vmap` and its `vunmap`, and the
reference on the BO from the call's entry to its end. -/
def MapsTasks : Prop := ∀ j, s.mapped j = (s.call j).maps ∧ s.boRef j = (s.call j).hasBo

/-- The ioctl of a job that is still to be read is waiting. -/
def ReadWaits : Prop := ∀ j, s.Unread j → s.call j = .wait

end State

/-- The step is not the expiry of a bounded wait whose job is still queued or on its
way through `rocket_job_hw_submit`. -/
def WaitsOut (s : State) (a : Action) : Prop := ∀ j, a = .waitExpire j → ¬ s.Unread j

/-- The tasks of a job still to be read are mapped. -/
structure Mapped (s : State) : Prop extends Referenced s where
  mapsTasks : s.MapsTasks
  readWaits : s.ReadWaits

section Preserve
variable {s : State} {a : Action}

/-- The task BO of a job is mapped and referenced by the job's own ioctl. -/
theorem tasks_of_other {j : Nat} (hother : a.callOf s ≠ some j) :
    (effect s a).mapped j = s.mapped j ∧ (effect s a).boRef j = s.boRef j := by
  have hne : ∀ i, a.callOf s = some i → j ≠ i := by
    rintro i hi rfl
    exact hother hi
  cases a with
  | submit f args => exact ⟨rfl, Function.update_of_ne (hne _ rfl) _ _⟩
  | vmap i | vunmap i => exact ⟨Function.update_of_ne (hne _ rfl) _ _, rfl⟩
  | gemPut i => exact ⟨rfl, Function.update_of_ne (hne _ rfl) _ _⟩
  | _ => exact ⟨rfl, rfl⟩

/-- A job still to be read was so before the step, or is pushed by it. -/
theorem unread_before (inv : Threaded s) (h : enabled s a = true) {j : Nat}
    (hj : (effect s a).Unread j) : s.Unread j ∨ a = .push j none := by
  rcases hj with hplace | ⟨c, hc⟩
  · rcases inv.place_effect h j with hmove | ⟨-, hstay⟩
    · generalize s.place j = p at hmove
      generalize (effect s a).place j = q at hmove hplace
      cases hmove with
      | push => exact Or.inr rfl
      | _ => cases hplace
    · exact Or.inl (Or.inl (hstay ▸ hplace))
  · rcases run_effect h c with hmove | ⟨-, hstay⟩
    · have hread : ∀ k, (s.run c).toRead = some k → s.Unread k := fun k hk => Or.inr ⟨c, hk⟩
      generalize s.run c = p at hmove hread
      generalize (effect s a).run c = q at hmove hc
      cases hmove with
      | pop =>
          obtain rfl := Option.some.inj hc
          exact Or.inl (Or.inl (of_decide_eq_true h).2.2.2.2.1)
      | check | create | pmGet | program | write => exact Or.inl (hread j hc)
      | _ => cases hc
    · exact Or.inl (Or.inr ⟨c, hstay ▸ hc⟩)

/-- A job runs on its own core only, where one can see whether it is still to be read. -/
theorem Threaded.unread_iff (inv : Threaded s) {j : Nat} :
    s.Unread j ↔ s.place j = .queued ∨ (s.run (s.job j).core).toRead = some j := by
  constructor
  · rintro (hplace | ⟨c, hc⟩)
    · exact Or.inl hplace
    · rw [(inv.running c j (RunPc.job_of_toRead hc)).1]
      exact Or.inr hc
  · exact Or.imp_right fun hc => ⟨_, hc⟩

theorem unfinished_of_unread (inv : Threaded s) {j : Nat} (hj : s.Unread j) :
    s.finished j = false := by
  rcases hj with hplace | ⟨c, hc⟩
  · have hblank := inv.blank j
    rw [hplace] at hblank
    exact (hblank rfl (by simp)).2.2.2.1
  · exact (inv.running c j (RunPc.job_of_toRead hc)).2.2.1

theorem keep_mapsTasks (inv : Threaded s) (keep : s.MapsTasks) (h : enabled s a = true) :
    (effect s a).MapsTasks := by
  intro j
  have before := keep j
  rcases inv.call_effect h j with hmove | ⟨hother, hstay⟩
  · generalize s.call j = p at hmove before
    generalize (effect s a).call j = q at hmove ⊢
    cases hmove with
    | enter hearly =>
        exact ⟨before.1, (Function.update_self _ _ _).trans (decide_eq_true hearly)⟩
    | refuse hearly => exact ⟨before.1, (Function.update_self _ _ _).trans (by simp [hearly, CallPc.hasBo])⟩
    | vmap | vmapFail | vunmap => exact ⟨Function.update_self _ _ _, before.2⟩
    | gemPut => exact ⟨before.1, Function.update_self _ _ _⟩
    | _ => exact before
  · obtain ⟨hmapped, hbo⟩ := tasks_of_other hother
    rw [hmapped, hbo, hstay]
    exact before

theorem keep_readWaits (inv : Mapped s) (ok : WaitsOut s a) (h : enabled s a = true) :
    (effect s a).ReadWaits := by
  intro j hj
  rcases unread_before inv.toThreaded h hj with hread | rfl
  · have hwait := inv.readWaits j hread
    rcases inv.call_effect h j with hmove | ⟨-, hstay⟩
    · rw [hwait] at hmove
      generalize (effect s a).call j = q at hmove
      cases hmove with
      | waitDone =>
          have hfinished : s.finished j = true := (of_decide_eq_true h).2
          simp [unfinished_of_unread inv.toThreaded hread] at hfinished
      | waitExpire => exact absurd hread (ok j rfl)
    · rw [hstay, hwait]
  · exact Function.update_self _ _ _

theorem Mapped.preserve (inv : Mapped s) (ok : WaitsOut s a) (h : enabled s a = true) :
    Mapped (effect s a) where
  toReferenced := inv.toReferenced.preserve h
  mapsTasks := keep_mapsTasks inv.toThreaded inv.mapsTasks h
  readWaits := keep_readWaits inv ok h

/-- The tasks of a job are read under its own ioctl's mapping. -/
theorem Mapped.readsMapped (inv : Mapped s) : s.ReadsMapped := by
  have waits : ∀ c j, (s.run c).toRead = some j → s.mapped j = true ∧ s.boRef j = true := by
    intro c j hc
    have hwait := inv.readWaits j (Or.inr ⟨c, hc⟩)
    simp [inv.mapsTasks j, hwait, CallPc.maps, CallPc.hasBo]
  intro a j h ha
  cases a with
  | runProgram c i mem | runWrite c i p w rest =>
      obtain rfl := Option.some.inj ha
      simp only [enabled, decide_eq_true_eq] at h
      exact waits c i (by simp [h, RunPc.toRead])
  | irqResubmit c seen i mem => simp [inv.resubmit_disabled] at h
  | irqWrite c i p w rest => simp [inv.irqWrite_disabled] at h
  | _ => simp [Action.readsTasks] at ha

end Preserve

theorem Mapped.initial (n : Nat) : Mapped (State.init n) where
  toReferenced := Referenced.initial n
  mapsTasks := fun _ => ⟨rfl, rfl⟩
  readWaits := fun j h => by simp [State.init, State.Unread, RunPc.toRead] at h

/-- In every run in which no bounded wait expires while its job is queued or on its way
through `rocket_job_hw_submit`, a task array is read only while the mapping
made by the job's own submit exists and the task BO is referenced. -/
theorem tasks_mapped_of_waitsOut {n : Nat} {acts : List Action}
    (waits : Along driver WaitsOut (State.init n) acts) :
    Throughout driver State.ReadsMapped (State.init n) acts := by
  refine throughout_of_along Mapped ?_ (fun s inv => inv.readsMapped) waits (Mapped.initial n)
  intro s a t inv ok hstep
  obtain ⟨h, rfl⟩ := driver_eq_some.mp hstep
  exact inv.preserve ok h

/-- The bounded wait of a queued job expires, its ioctl returns, and the job is run. -/
def ranAfterReturn : List Action :=
  .openFile :: submitSteps 0 0 0 submitOne ++ .waitExpire 0 :: returnSteps 0 (some .timedout) ++
    runSteps 0 0

theorem ranAfterReturn_accepted :
    ((exec driver (State.init 1) ranAfterReturn).map fun s =>
      enabled s (.runProgram 0 0 dpuTasks) && !s.mapped 0 && !s.boRef 0) = some true := by
  decide

/-- A queued job whose submit gave up waiting reads an unmapped task array. -/
theorem queued_job_reads_unmapped_tasks :
    ¬ ∀ s, Runs driver (State.init 1) ranAfterReturn s → s.ReadsMapped := by
  intro all
  obtain ⟨s, run, test⟩ := runs_of_test ranAfterReturn_accepted
  simp only [Bool.and_eq_true, Bool.not_eq_true'] at test
  have := all s run (.runProgram 0 0 dpuTasks) 0 test.1.1 rfl
  simp [test.1.2] at this

/-- The bounded wait for a started job expires, and the ioctl returns while the core is at
work on the program. -/
def expiredSteps : List Action :=
  startOne ++ .waitExpire 0 :: returnSteps 0 (some .timedout)

theorem expiredSteps_accepted :
    ((exec driver (State.init 1) expiredSteps).map fun s =>
      decide (s.call 0 = .returned (some .timedout) ∧ s.inFlight 0 = some 0)) = some true := by
  decide

theorem startOne_read :
    ((exec driver (State.init 1) startOne).map fun s =>
      decide (s.place 0 ≠ .queued ∧ (s.run (s.job 0).core).toRead ≠ some 0)) = some true := by
  decide

theorem tasks_mapped_of_waitsOut_on_expiredSteps :
    (∃ s, Runs driver (State.init 1) expiredSteps s ∧ s.call 0 = .returned (some .timedout)) ∧
      Throughout driver State.ReadsMapped (State.init 1) expiredSteps := by
  obtain ⟨s, run, test⟩ := runs_of_test startOne_read
  obtain ⟨hqueued, hrun⟩ := of_decide_eq_true test
  have inv := (Scheduled.reachable run).toThreaded
  refine ⟨?_, tasks_mapped_of_waitsOut (Along.append ?_ run ⟨?_, fun t _ => ?_⟩)⟩
  · obtain ⟨t, accepted, hcall⟩ := runs_of_test expiredSteps_accepted
    exact ⟨t, accepted, (of_decide_eq_true hcall).1⟩
  · refine along_of_actions fun a ha t j hj => ?_
    subst hj
    simp [startOne, startSteps, submitSteps, runSteps, programSteps, writeSteps, hwProgram,
      hwSubmitWrites] at ha
  · -- the core's registers are written, the job is past its task array
    rintro j hj
    obtain rfl := Action.waitExpire.inj hj
    rw [inv.unread_iff]
    rintro (hplace | hread)
    · exact hqueued hplace
    · exact hrun hread
  · refine along_of_actions fun a ha u j hj => ?_
    subst hj
    simp [returnSteps] at ha

end Rkopnu.Driver
