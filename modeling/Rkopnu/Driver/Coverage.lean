import Rkopnu.Driver.Completion
import Rkopnu.Driver.Programs

/-!
# Which declared tasks a submit has the cores run

A submit may spread its declared tasks over several cores, one subcore slot for
each core its mask names. `rkopnu_ioctl_submit` makes one job of it, and
`rocket_job_hw_submit` writes one program for that job, on one core, for the
slot of that core or for the whole declared range. The other slots are never read.
-/

namespace Rkopnu

/-- The task is in the range. -/
def RknpuSubcoreTask.Holds (r : RknpuSubcoreTask) (t : Nat) : Prop :=
  r.taskStart.toNat ≤ t ∧ t < r.taskStart.toNat + r.taskNumber.toNat

/-- The register program runs the task: `BASE_ADDRESS` is that of the program's
first task, and the `TASK_NUMBER` field of `TASK_CON` says how many follow. -/
def Program.Covers (p : Program) (t : Nat) : Prop :=
  p.first ≤ t ∧ (t : Int) < p.first + (taskConTaskNumber (p.word .taskCon)).toNat

instance (p : Program) (t : Nat) : Decidable (p.Covers t) :=
  inferInstanceAs (Decidable (_ ∧ _))

namespace RknpuSubmit
variable (args : RknpuSubmit)

/-- `core_mask` names one core, or cores 0 and 1, or all three. -/
def CoreMasked : Prop :=
  args.coreMask ∈ [0x1#32, 0x2#32, 0x4#32, 0x3#32, 0x7#32]

/-- `core_mask` names core `c`. -/
def Names (c : Nat) : Prop := args.coreMask.getLsbD c = true

instance (c : Nat) : Decidable (args.Names c) := inferInstanceAs (Decidable (_ = true))

/-- The declared range. -/
def declared : RknpuSubcoreTask := ⟨args.taskStart, args.taskNumber⟩

/-- The slot a client fills for core `c`. -/
def slot (c : Nat) : RknpuSubcoreTask :=
  args.subcoreTask (if args.coreMask = 0x7#32 then c + 2 else c)

/-- The slots of the named cores partition the declared range. -/
structure Partitioned : Prop where
  inside : ∀ c t, args.Names c → (args.slot c).Holds t → args.declared.Holds t
  once : ∀ t, args.declared.Holds t → ∃! c, args.Names c ∧ (args.slot c).Holds t

/-- The range core `c` is programmed with: its slot, or the declared range if the
slot is empty or escapes it. -/
def selected (c : Nat) : RknpuSubcoreTask :=
  if slotRejected args.taskStart args.taskNumber (args.slot c) then args.declared else args.slot c

/-- One program is all the submit needs: its task indices fit an `int`, its task
count fits `TASK_NUMBER`, and if the mask names several cores, core 0 is given
everything or nothing. -/
def OneProgramSuffices : Prop :=
  args.taskStart.toNat < 2 ^ 31 ∧ args.taskNumber.toNat < 2 ^ 12 ∧
    (args.coreMask = 0x3#32 ∨ args.coreMask = 0x7#32 →
      (args.slot 0).taskNumber = 0#32 ∨ args.slot 0 = args.declared)

end RknpuSubmit

section Selection
variable {args : RknpuSubmit}

/-- The job of a masked submit goes to a core that its mask names. -/
theorem names_submitCore (masked : args.CoreMasked) : args.Names (submitCore 3 args) := by
  simp only [RknpuSubmit.CoreMasked, List.mem_cons, List.not_mem_nil, or_false] at masked
  unfold RknpuSubmit.Names submitCore
  rcases masked with h | h | h | h | h <;> rw [h] <;> decide

/-- A named core is one of three. -/
theorem named_le (masked : args.CoreMasked) {c : Nat} (named : args.Names c) : c ≤ 2 := by
  simp only [RknpuSubmit.CoreMasked, List.mem_cons, List.not_mem_nil, or_false] at masked
  have hpow : 2 ^ c ≤ args.coreMask.toNat := Nat.ge_two_pow_of_testBit named
  have hseven : args.coreMask.toNat ≤ 7 := by
    rcases masked with h | h | h | h | h <;> rw [h] <;> decide
  by_contra hlt
  have : 2 ^ 3 ≤ 2 ^ c := Nat.pow_le_pow_right (by decide) (by omega)
  omega

/-- It is the only named core, or core 0. -/
theorem submitCore_masked (masked : args.CoreMasked) :
    ((∀ c, args.Names c → c = submitCore 3 args) ∧
        ¬ (args.coreMask = 0x3#32 ∨ args.coreMask = 0x7#32)) ∨
      ((args.coreMask = 0x3#32 ∨ args.coreMask = 0x7#32) ∧ submitCore 3 args = 0) := by
  have only : ∀ c ≤ 2, ∀ i ≤ 2, (1#32 <<< i).getLsbD c = true → c = i := by decide
  have hle : ∀ c, args.Names c → c ≤ 2 := fun c => named_le masked
  simp only [RknpuSubmit.CoreMasked, List.mem_cons, List.not_mem_nil, or_false] at masked
  unfold RknpuSubmit.Names at hle ⊢
  unfold submitCore
  rcases masked with h | h | h | h | h <;> rw [h] at hle ⊢
  · exact Or.inl ⟨fun c hc => only c (hle c hc) 0 (by decide) hc, by decide⟩
  · exact Or.inl ⟨fun c hc => only c (hle c hc) 1 (by decide) hc, by decide⟩
  · exact Or.inl ⟨fun c hc => only c (hle c hc) 2 (by decide) hc, by decide⟩
  · exact Or.inr ⟨Or.inl rfl, rfl⟩
  · exact Or.inr ⟨Or.inr rfl, rfl⟩

/-- `rocket_job_hw_submit` looks at the slot meant for its core. -/
theorem subcoreSlot_submitJob (masked : args.CoreMasked) (c : Nat) :
    (submitJob 3 args).rkSubcore (subcoreSlot (submitJob 3 args).rkUseCoreNum c) =
      args.slot c := by
  simp only [RknpuSubmit.CoreMasked, List.mem_cons, List.not_mem_nil, or_false] at masked
  have hthree : hweight32 (args.coreMask &&& 0x7#32) = 3 ↔ args.coreMask = 0x7#32 := by
    rcases masked with h | h | h | h | h <;> rw [h] <;> decide
  simp only [submitJob, subcoreSlot, RknpuSubmit.slot, hthree]

/-- The range `rocket_job_hw_submit` programs. -/
theorem taskRange_submitJob (masked : args.CoreMasked) (c : Nat) :
    taskRange (submitJob 3 args) c =
      ((args.selected c).taskStart, (args.selected c).taskNumber) := by
  unfold taskRange RknpuSubmit.selected
  rw [subcoreSlot_submitJob masked]
  by_cases h : slotRejected args.taskStart args.taskNumber (args.slot c)
  · rw [if_pos h]
    exact if_pos h
  · rw [if_neg h]
    exact if_neg h

theorem covers_hwProgram (masked : args.CoreMasked) {j c : Nat} {mem : Int → RknpuTask}
    {t : Nat} : (hwProgram (submitJob 3 args) j c mem).Covers t ↔
      (args.selected c).taskStart.toInt ≤ t ∧
        (t : Int) < (args.selected c).taskStart.toInt +
          ((args.selected c).taskNumber.toNat % 4096 : Nat) := by
  unfold Program.Covers
  rw [hwProgram_taskCon, taskConTaskNumber_toNat]
  simp only [hwProgram, firstTask, taskRange_submitJob masked]

end Selection

section Ranges
variable {d r : RknpuSubcoreTask}

/-- A nonempty range is known by its tasks. -/
theorem RknpuSubcoreTask.eq_of_holds (hpos : 0 < d.taskNumber.toNat)
    (h : ∀ t, d.Holds t ↔ r.Holds t) : r = d := by
  unfold RknpuSubcoreTask.Holds at h
  have hfirst := h d.taskStart.toNat
  have hlast := h (d.taskStart.toNat + d.taskNumber.toNat - 1)
  have hfirst' := h r.taskStart.toNat
  have hlast' := h (r.taskStart.toNat + r.taskNumber.toNat - 1)
  have hstart : r.taskStart = d.taskStart := BitVec.eq_of_toNat_eq (by omega)
  have hnumber : r.taskNumber = d.taskNumber := BitVec.eq_of_toNat_eq (by omega)
  cases r
  cases d
  simp_all

/-- A range that runs from an `int` start, as far as twelve bits count, covers
the declared tasks. -/
def RknpuSubcoreTask.Runs (r d : RknpuSubcoreTask) : Prop := ∀ t, d.Holds t →
  r.taskStart.toInt ≤ t ∧ (t : Int) < r.taskStart.toInt + (r.taskNumber.toNat % 4096 : Nat)

/-- The declared range runs itself when its start fits an `int` and its count twelve bits. -/
theorem RknpuSubcoreTask.runs_self_iff (hpos : 0 < d.taskNumber.toNat) :
    d.Runs d ↔ d.taskStart.toNat < 2 ^ 31 ∧ d.taskNumber.toNat < 2 ^ 12 := by
  have hint := BitVec.toInt_eq_toNat_cond d.taskStart
  constructor
  · intro h
    have hfirst := h d.taskStart.toNat ⟨Nat.le_refl _, by omega⟩
    have hlast := h (d.taskStart.toNat + d.taskNumber.toNat - 1) ⟨by omega, by omega⟩
    split at hint <;> omega
  · rintro ⟨hstart, hnumber⟩ t ⟨hlo, hhi⟩
    split at hint <;> omega

/-- A subrange that runs all declared tasks is the declared range. -/
theorem RknpuSubcoreTask.eq_of_runs (hpos : 0 < d.taskNumber.toNat)
    (inside : ∀ t, r.Holds t → d.Holds t) (h : r.Runs d) : r = d := by
  have hint := BitVec.toInt_eq_toNat_cond r.taskStart
  have hfirst := h d.taskStart.toNat ⟨Nat.le_refl _, by omega⟩
  have hlast := h (d.taskStart.toNat + d.taskNumber.toNat - 1) ⟨by omega, by omega⟩
  have hrpos : 0 < r.taskNumber.toNat := by omega
  have hlow := (inside r.taskStart.toNat ⟨Nat.le_refl _, by omega⟩).1
  have hhigh := (inside (r.taskStart.toNat + r.taskNumber.toNat - 1) ⟨by omega, by omega⟩).2
  have hstart : r.taskStart = d.taskStart := by
    apply BitVec.eq_of_toNat_eq
    split at hint <;> omega
  have hnumber : r.taskNumber = d.taskNumber := by
    apply BitVec.eq_of_toNat_eq
    split at hint <;> omega
  cases r
  cases d
  simp_all

/-- What `rocket_job_hw_submit` selects runs all declared tasks only if it could
as well have been the whole declared range. -/
theorem RknpuSubcoreTask.runs_selected_iff (hpos : 0 < d.taskNumber.toNat)
    (inside : ∀ t, r.Holds t → d.Holds t) :
    (if slotRejected d.taskStart d.taskNumber r then d else r).Runs d ↔
      d.taskStart.toNat < 2 ^ 31 ∧ d.taskNumber.toNat < 2 ^ 12 ∧
        (r.taskNumber = 0#32 ∨ r = d) := by
  constructor
  · intro h
    by_cases hrej : slotRejected d.taskStart d.taskNumber r
    · rw [if_pos hrej] at h
      obtain ⟨hstart, hnumber⟩ := (runs_self_iff hpos).mp h
      refine ⟨hstart, hnumber, ?_⟩
      -- a filled slot inside a range that does not wrap passes both comparisons
      by_contra hne
      obtain ⟨hzero, -⟩ := not_or.mp hne
      have hrpos : 0 < r.taskNumber.toNat := by
        by_contra hle
        exact hzero (BitVec.eq_of_toNat_eq (by simp; omega))
      have hlow := (inside r.taskStart.toNat ⟨Nat.le_refl _, by omega⟩).1
      have hhigh := (inside (r.taskStart.toNat + r.taskNumber.toNat - 1)
        ⟨by omega, by omega⟩).2
      rcases hrej with hrej | hrej | hrej
      · exact hzero hrej
      · exact absurd (BitVec.lt_def.mp hrej) (by omega)
      · have hsum := BitVec.lt_def.mp hrej
        rw [BitVec.toNat_add, BitVec.toNat_add] at hsum
        omega
    · rw [if_neg hrej] at h
      obtain rfl := eq_of_runs hpos inside h
      obtain ⟨hstart, hnumber⟩ := (runs_self_iff hpos).mp h
      exact ⟨hstart, hnumber, Or.inr rfl⟩
  · rintro ⟨hstart, hnumber, hslot⟩
    have hself := (runs_self_iff hpos).mpr ⟨hstart, hnumber⟩
    split
    · exact hself
    · rename_i hrej
      rcases hslot with hzero | rfl
      · exact absurd (Or.inl hzero) hrej
      · exact hself

end Ranges

end Rkopnu

namespace Rkopnu.Driver

open Transition

namespace State
variable (s : State)

/-- The job has been started on a core. -/
def ReachedHardware (j : Nat) : Prop := ∃ p ∈ s.log, p.job = j

/-- How many programs started for the job, on cores its mask names, run the task. -/
def coverings (j t : Nat) : Nat :=
  s.log.countP fun p => decide (p.job = j ∧ (s.args j).Names p.core ∧ p.Covers t)

/-- Every declared task is run by exactly one program. -/
def TasksCovered (j : Nat) : Prop :=
  ∀ t, (s.args j).declared.Holds t → s.coverings j t = 1

end State

section Coverings
variable {s : State} {p : Program} {t : Nat}

/-- The one program of a job decides how often a task is run. -/
theorem coverings_eq_one_iff (inv : Programmed s) (hp : p ∈ s.log)
    (named : (s.args p.job).Names p.core) : s.coverings p.job t = 1 ↔ p.Covers t := by
  have hcount : s.log.count p = 1 :=
    List.count_eq_one_of_mem (List.Nodup.of_map _ inv.logOnce) hp
  have hone : s.coverings p.job t =
      s.log.countP fun q => decide (q = p) && decide (p.Covers t) := by
    refine List.countP_congr fun q hq => ?_
    have huniq := inv.program_unique hq hp
    simp only [decide_eq_true_eq, Bool.and_eq_true]
    constructor
    · rintro ⟨hjob, -, hcov⟩
      obtain rfl := huniq hjob
      exact ⟨rfl, hcov⟩
    · rintro ⟨rfl, hcov⟩
      exact ⟨rfl, named, hcov⟩
  rw [hone]
  by_cases hcov : p.Covers t
  · rw [List.count_eq_countP] at hcount
    simpa [hcov, beq_eq_decide] using hcount
  · simp [hcov]

end Coverings

/-- For every run on three bound cores and every submit of it that returned 0 with all
its tasks counted, a core mask of the vendor's and slots that partition the declared
range: every declared task is run once by a named core exactly when one program suffices. -/
theorem tasksCovered_iff {acts : List Action} {s : State} {j : Nat}
    (run : Runs driver (State.init 3) acts s) (masked : (s.args j).CoreMasked)
    (parts : (s.args j).Partitioned) (succeeded : s.SubmitSucceeded j)
    (reached : s.ReachedHardware j) :
    s.TasksCovered j ↔ (s.args j).OneProgramSuffices := by
  have inv := Programmed.reachable run
  obtain ⟨p, hp, rfl⟩ := reached
  obtain ⟨⟨mem, hmem⟩, hcore, -, hplace⟩ := inv.logProgram p hp
  have hjob := inv.filled p.job (Or.inl hplace)
  rw [cores_of_run run] at hjob
  have hfrom : p.core = submitCore 3 (s.args p.job) := by
    rw [← hcore, hjob]
    rfl
  have hpos : 0 < (s.args p.job).declared.taskNumber.toNat := by
    by_contra hzero
    exact succeeded.2.1 (BitVec.eq_of_toNat_eq (Nat.eq_zero_of_not_pos hzero))
  have named : (s.args p.job).Names p.core := hfrom ▸ names_submitCore masked
  have hcovers : s.TasksCovered p.job ↔
      ((s.args p.job).selected p.core).Runs (s.args p.job).declared := by
    refine forall_congr' fun t => imp_congr_right fun _ => ?_
    rw [coverings_eq_one_iff inv hp named]
    rw [hmem, hjob]
    exact covers_hwProgram masked
  rw [hcovers]
  refine (RknpuSubcoreTask.runs_selected_iff hpos fun t => parts.inside p.core t named).trans ?_
  refine and_congr_right fun _ => and_congr_right fun _ => ?_
  rcases submitCore_masked masked with ⟨only, hmask⟩ | ⟨hmask, hzero⟩
  · -- the one slot of a partition is the declared range
    have hslot : (s.args p.job).slot p.core = (s.args p.job).declared := by
      refine RknpuSubcoreTask.eq_of_holds hpos fun t => ⟨fun ht => ?_, parts.inside p.core t named⟩
      obtain ⟨c, ⟨hc, hslot⟩, -⟩ := parts.once t ht
      rw [hfrom, ← only c hc]
      exact hslot
    exact ⟨fun _ h => absurd h hmask, fun _ => Or.inr hslot⟩
  · rw [hfrom, hzero]
    exact ⟨fun h _ => h, fun h => h hmask⟩

/-- Two tasks for cores 0 and 1, one each. -/
def submitPair : RknpuSubmit :=
  { RknpuSubmit.zero with
    taskStart := 0#32
    taskNumber := 2#32
    taskObjAddr := 0x1000#64
    coreMask := 0x3#32
    subcoreTask := fun i => ⟨BitVec.ofNat 32 i, 1#32⟩ }

/-- The pair is submitted, its job completed by interrupt, and its submit returns. -/
def pairSteps : List Action :=
  startSteps 3 submitPair ++ irqSteps 0 0 0x300#32 ++ .waitDone 0 :: returnSteps 0 none

theorem pairSteps_accepted :
    ((exec driver (State.init 3) pairSteps).map fun s =>
      decide (s.call 0 = .returned none ∧ s.counter 0 = 2#32 ∧ (∃ p ∈ s.log, p.job = 0) ∧
        s.coverings 0 1 = 0)) = some true := by
  decide

theorem pairSteps_args :
    (exec driver (State.init 3) pairSteps).map (fun s => s.args 0) = some submitPair := by
  rfl

theorem submitPair_masked : submitPair.CoreMasked := by
  simp [RknpuSubmit.CoreMasked, submitPair]

theorem submitPair_names {c : Nat} : submitPair.Names c ↔ c = 0 ∨ c = 1 := by
  constructor
  · intro named
    have only : ∀ c ≤ 2, (0x3#32).getLsbD c = true → c = 0 ∨ c = 1 := by decide
    exact only c (named_le submitPair_masked named) named
  · rintro (rfl | rfl) <;> rfl

theorem submitPair_declared {t : Nat} : submitPair.declared.Holds t ↔ t < 2 := by
  simp [RknpuSubcoreTask.Holds, RknpuSubmit.declared, submitPair]

theorem submitPair_slot {c t : Nat} (named : submitPair.Names c) :
    (submitPair.slot c).Holds t ↔ t = c := by
  rcases submitPair_names.mp named with rfl | rfl <;>
    simp [RknpuSubcoreTask.Holds, RknpuSubmit.slot, submitPair]
  all_goals omega

theorem submitPair_partitioned : submitPair.Partitioned where
  inside := by
    intro c t named hslot
    obtain rfl := (submitPair_slot named).mp hslot
    have := submitPair_names.mp named
    exact submitPair_declared.mpr (by omega)
  once := by
    intro t ht
    have hlt := submitPair_declared.mp ht
    have named : submitPair.Names t := submitPair_names.mpr (by omega)
    refine ⟨t, ⟨named, (submitPair_slot named).mpr rfl⟩, ?_⟩
    rintro c ⟨hc, hslot⟩
    exact ((submitPair_slot hc).mp hslot).symm

theorem pairSteps_run : ∃ s, Runs driver (State.init 3) pairSteps s ∧ s.args 0 = submitPair ∧
    s.SubmitSucceeded 0 ∧ s.ReachedHardware 0 ∧ s.coverings 0 1 = 0 := by
  obtain ⟨s, run, test⟩ := runs_of_test pairSteps_accepted
  obtain ⟨hcall, hcounter, hreached, hnone⟩ := of_decide_eq_true test
  have hargs : s.args 0 = submitPair := run.map_eq pairSteps_args
  refine ⟨s, run, hargs, ⟨hcall, ?_, ?_⟩, hreached, hnone⟩
  · rw [hargs]
    decide
  · rw [hcounter, hargs]
    rfl

/-- The submit returns 0 with both tasks counted, and no core ran the second. -/
theorem sibling_tasks_uncovered :
    ¬ ∀ s, Runs driver (State.init 3) pairSteps s → (s.args 0).CoreMasked →
      (s.args 0).Partitioned → s.SubmitSucceeded 0 → s.ReachedHardware 0 →
      s.TasksCovered 0 := by
  intro all
  obtain ⟨s, run, hargs, succeeded, reached, hnone⟩ := pairSteps_run
  have covered := all s run (hargs ▸ submitPair_masked) (hargs ▸ submitPair_partitioned)
    succeeded reached 1 (by rw [hargs]; exact submitPair_declared.mpr (by decide))
  rw [hnone] at covered
  exact absurd covered (by decide)

theorem tasksCovered_iff_on_pairSteps :
    ∃ s, Runs driver (State.init 3) pairSteps s ∧
      (s.TasksCovered 0 ↔ (s.args 0).OneProgramSuffices) := by
  obtain ⟨s, run, hargs, succeeded, reached, -⟩ := pairSteps_run
  exact ⟨s, run, tasksCovered_iff run (hargs ▸ submitPair_masked)
    (hargs ▸ submitPair_partitioned) succeeded reached⟩

end Rkopnu.Driver
