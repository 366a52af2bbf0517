import Rkopnu.Driver.Schedule
import Rkopnu.Driver.Trace

/-!
# The task indices that are read

`rocket_job_hw_submit` reads the first and the last task of the range it selects.
The range is compared with the range the client declared, and neither is ever
compared with the size of the task BO: whether the reads stay inside it is decided
by the arguments of the submit alone.
-/

namespace Rkopnu

/-- The task with this index lies in a BO of this size. -/
def ReadsInBounds (boSize : Nat) (i : Int) : Prop :=
  0 ≤ i ∧ (i + 1) * sizeofRknpuTask ≤ boSize

/-- An index given as a `u32` stays positive as an `int` and inside the BO. -/
def IndexFits (boSize : Nat) (i : U32) : Prop :=
  i.toNat < 2 ^ 31 ∧ (i.toNat + 1) * sizeofRknpuTask ≤ boSize

theorem readsInBounds_toInt_iff {boSize : Nat} {i : U32} :
    ReadsInBounds boSize i.toInt ↔ IndexFits boSize i := by
  have hint := BitVec.toInt_eq_toNat_cond i
  unfold ReadsInBounds IndexFits sizeofRknpuTask
  split at hint <;> omega

/-- The first and the last index of the range fit. -/
def RknpuSubcoreTask.EndsFit (boSize : Nat) (r : RknpuSubcoreTask) : Prop :=
  IndexFits boSize r.taskStart ∧ IndexFits boSize (r.taskStart + r.taskNumber - 1#32)

/-- The slot of the core that the job of a submit goes to. -/
def RknpuSubmit.coreSlot (numCores : Nat) (args : RknpuSubmit) : RknpuSubcoreTask :=
  args.subcoreTask
    (subcoreSlot (hweight32 (args.coreMask &&& 0x7#32)) (submitCore numCores args))

/-- The ends of the slot fit if the slot is filled and inside the declared range, and
the ends of the declared range fit otherwise. -/
def RknpuSubmit.TasksFit (numCores boSize : Nat) (args : RknpuSubmit) : Prop :=
  if slotRejected args.taskStart args.taskNumber (args.coreSlot numCores)
  then RknpuSubcoreTask.EndsFit boSize ⟨args.taskStart, args.taskNumber⟩
  else (args.coreSlot numCores).EndsFit boSize

/-- Both reads of `rocket_job_hw_submit` are decided by the selected range. -/
theorem reads_submitJob_iff {numCores boSize : Nat} {args : RknpuSubmit} :
    (ReadsInBounds boSize (firstTask (submitJob numCores args) (submitCore numCores args)) ∧
      ReadsInBounds boSize (lastTask (submitJob numCores args) (submitCore numCores args))) ↔
      args.TasksFit numCores boSize := by
  unfold firstTask lastTask RknpuSubmit.TasksFit
  rw [readsInBounds_toInt_iff, readsInBounds_toInt_iff]
  have hrange : taskRange (submitJob numCores args) (submitCore numCores args) =
      if slotRejected args.taskStart args.taskNumber (args.coreSlot numCores)
      then (args.taskStart, args.taskNumber)
      else ((args.coreSlot numCores).taskStart, (args.coreSlot numCores).taskNumber) := rfl
  rw [hrange]
  split <;> rfl

end Rkopnu

namespace Rkopnu.Driver

open Function (update)
open Transition

/-- The tasks the step reads for job `j`, by their index. -/
def State.taskReads (s : State) (j : Nat) : Action → List Int
  | .runProgram c k _ | .irqResubmit c _ k _ =>
      if k = j then [firstTask (s.job k) c, lastTask (s.job k) c] else []
  | _ => []

/-- No run on `numCores` bound cores reads outside the task BO for a submit with
these arguments. -/
def SubmitInBounds (numCores boSize : Nat) (args : RknpuSubmit) : Prop :=
  ∀ acts s j a, Runs driver (State.init numCores) acts s → s.args j = args →
    enabled s a = true → ∀ i ∈ s.taskReads j a, ReadsInBounds boSize i

/-- A call that got past the early returns was not stopped by them. -/
def State.Accepted (s : State) : Prop := ∀ j,
  (s.call j).busy = true ∨ s.place j ≠ .outside → submitEarly (s.args j) = none

/-- The scheduler state with the arguments of its calls. -/
structure Checked (s : State) : Prop extends Scheduled s where
  accepted : s.Accepted

section Preserve
variable {s : State} {a : Action}

theorem keep_accepted (inv : Checked s) (h : enabled s a = true) :
    (effect s a).Accepted := by
  intro j hj
  have hbefore : ((s.call j).busy = true ∨ s.place j ≠ .outside) ∨
      ∃ f args, a = .submit f args ∧ j = s.jobs ∧ submitEarly args = none := by
    rcases hj with hbusy | hplace
    · rcases inv.call_effect h j with hmove | ⟨-, hstay⟩
      · generalize s.call j = p at hmove ⊢
        generalize (effect s a).call j = q at hmove hbusy
        cases hmove with
        | enter hearly => exact Or.inr ⟨_, _, rfl, rfl, hearly⟩
        | refuse | gemPut => cases hbusy
        | _ => exact Or.inl (Or.inl rfl)
      · exact Or.inl (Or.inl (hstay ▸ hbusy))
    · rcases inv.place_effect h j with hmove | ⟨-, hstay⟩
      · have hcall : a = .push j none → s.call j = .push := by
          rintro rfl
          exact of_decide_eq_true h
        generalize s.place j = p at hmove ⊢
        generalize (effect s a).place j = q at hmove
        cases hmove with
        | push => exact Or.inl (Or.inl (by rw [hcall rfl]; rfl))
        | _ => exact Or.inl (Or.inr (by simp))
      · exact Or.inl (Or.inr (hstay ▸ hplace))
  rcases hbefore with hold | ⟨f, args, rfl, rfl, hearly⟩
  · have hcalled : s.call j ≠ .idle := by
      intro hidle
      rcases hold with hbusy | hplace
      · rw [hidle] at hbusy
        cases hbusy
      · exact hplace (inv.outside j (by rw [hidle]; rfl))
    rw [(inv.record_of_called hcalled).2]
    exact inv.accepted j hold
  · simpa [effect] using hearly

theorem Checked.preserve (inv : Checked s) (h : enabled s a = true) : Checked (effect s a) where
  toScheduled := inv.toScheduled.preserve h
  accepted := keep_accepted inv h

end Preserve

theorem Checked.initial (n : Nat) : Checked (State.init n) where
  toScheduled := Scheduled.initial n
  accepted := fun j h => by simp [State.init, CallPc.busy] at h

theorem Checked.reachable {n : Nat} {acts : List Action} {s : State}
    (run : Runs driver (State.init n) acts s) : Checked s :=
  run_invariant Checked (Checked.initial n) (fun _ _ inv h => inv.preserve h) run

section Reads
variable {n boSize : Nat} {args : RknpuSubmit}

/-- A step that reads tasks reads the two that the arguments of an accepted call select. -/
theorem Checked.reads_from_args {s : State} {a : Action} {j : Nat} {i : Int} (inv : Checked s)
    (h : enabled s a = true) (hi : i ∈ s.taskReads j a) :
    submitEarly (s.args j) = none ∧
      (i = firstTask (submitJob s.cores (s.args j)) (submitCore s.cores (s.args j)) ∨
        i = lastTask (submitJob s.cores (s.args j)) (submitCore s.cores (s.args j))) := by
  cases a with
  | runProgram c k mem =>
      rw [enabled_runProgram] at h
      obtain ⟨rfl, hi⟩ : k = j ∧ (i = firstTask (s.job k) c ∨ i = lastTask (s.job k) c) := by
        simp only [State.taskReads] at hi
        split at hi <;> simp_all
      obtain ⟨hcore, hstarted, -⟩ := inv.running c k (by simp [h, RunPc.job])
      have hjob := inv.filled_of_started hstarted
      have hc : c = submitCore s.cores (s.args k) := by
        rw [← hcore, hjob]
        rfl
      refine ⟨inv.accepted k (Or.inr fun hout => ?_), ?_⟩
      · simp [hout, Place.started] at hstarted
      · rwa [← hjob, ← hc]
  | irqResubmit c seen k mem => simp [inv.resubmit_disabled] at h
  | _ => simp [State.taskReads] at hi

/-- For all arguments, all BO sizes and any number of cores: no run reads outside the
task BO exactly when the call returns early or the selected tasks fit. -/
theorem submitInBounds_iff (n boSize : Nat) (args : RknpuSubmit) :
    SubmitInBounds (n + 1) boSize args ↔
      args.taskNumber = 0#32 ∨ args.taskObjAddr = 0#64 ∨ args.TasksFit (n + 1) boSize := by
  have hearly : submitEarly args = none ↔ ¬ (args.taskNumber = 0#32 ∨ args.taskObjAddr = 0#64) := by
    by_cases hnumber : args.taskNumber = 0#32 <;> by_cases haddr : args.taskObjAddr = 0#64 <;>
      simp [submitEarly, hnumber, haddr]
  constructor
  · intro all
    by_cases h : args.taskNumber = 0#32 ∨ args.taskObjAddr = 0#64
    · exact h.imp_right Or.inl
    · refine Or.inr (Or.inr (reads_submitJob_iff.mp ?_))
      -- the first submit on fresh hardware reads both ends
      obtain ⟨s, run, -, hargs, hjob, hstep⟩ :=
        reaches_hwSubmit (Nat.succ_pos n) (hearly.mpr h) dpuTasks
      have reads := all _ s 0 _ run hargs hstep
      rw [← hjob]
      exact ⟨reads _ (by simp [State.taskReads]), reads _ (by simp [State.taskReads])⟩
  · rintro hfit acts s j a run rfl h i hi
    have inv := Checked.reachable run
    obtain ⟨haccepted, hread⟩ := inv.reads_from_args h hi
    rw [cores_of_run run] at hread
    have hboth := reads_submitJob_iff.mpr
      ((or_assoc.mpr hfit).resolve_left (hearly.mp haccepted))
    rcases hread with rfl | rfl
    · exact hboth.1
    · exact hboth.2

/-- One task, far behind the end of a page. -/
def submitFar : RknpuSubmit := { submitOne with taskStart := 0x1000#32 }

/-- The task of a submit is read outside a BO of one page. -/
theorem task_read_out_of_bounds : ¬ SubmitInBounds 1 4096 submitFar := by
  intro all
  obtain ⟨s, run, -, hargs, hjob, hstep⟩ :=
    reaches_hwSubmit Nat.one_pos (show submitEarly submitFar = none by decide) dpuTasks
  have read := all _ s 0 _ run hargs hstep (firstTask (s.job 0) (submitCore 1 submitFar))
    (by simp [State.taskReads])
  rw [hjob] at read
  exact absurd read.2 (by decide)

end Reads

end Rkopnu.Driver
