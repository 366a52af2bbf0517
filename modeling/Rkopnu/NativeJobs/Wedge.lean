import Rkopnu.Foundation.Strided
import Rkopnu.Driver.Names
import Rkopnu.NativeJobs.Step

/-!
# Native jobs are never run

A native job is accepted with its tasks, queued for one core and taken by its worker. The pass
through `rocket_job_hw_submit` that counts its first task is the last one: the thread stays
there with `job_lock`, so that neither an interrupt nor a reset gets at the core, and nothing
has been started on the hardware.
-/

namespace Rkopnu.NativeJobs

open Function (update)
open Transition Native
open Driver (Named Used)

/-! ## The indices in use -/

section NativeNames
variable {s : State} {a : Action}

theorem named_submit (inv : Named s.driver) {f c d : Nat} {args : DrmRocketJob} :
    Named (pushNative s.driver f c d args) where
  place j hj := by
    by_cases hnew : j = s.driver.jobs
    · exact hnew ▸ Nat.lt_succ_self _
    · exact Nat.lt_succ_of_lt (inv.place j (by simpa [pushNative, hnew] using hj))
  call j hj := by
    by_cases hnew : j = s.driver.jobs
    · exact hnew ▸ Nat.lt_succ_self _
    · exact Nat.lt_succ_of_lt (inv.call j (by simpa [pushNative, hnew] using hj))
  run c j hj := Nat.lt_succ_of_lt (inv.run c j hj)
  irq c j p rest hj := Nat.lt_succ_of_lt (inv.irq c j p rest hj)
  tdr c j hj := Nat.lt_succ_of_lt (inv.tdr c j hj)
  inFlight c j hj := Nat.lt_succ_of_lt (inv.inFlight c j hj)
  nextTaskIdx j hj := Nat.lt_succ_of_lt (inv.nextTaskIdx j hj)
  doneFence j hj := Nat.lt_succ_of_lt (inv.doneFence j hj)

theorem named_pop (inv : Named s.driver) {c j : Nat} {e : Option Errno}
    (hj : j < s.driver.jobs) : Named (Driver.effect s.driver (.pop c j e)) where
  place := (Function.forall_update_iff s.driver.place
    fun k q => q ≠ .outside → k < s.driver.jobs).mpr ⟨fun _ => hj, fun k _ => inv.place k⟩
  call := inv.call
  run := inv.run_update hj rfl
  irq := inv.irq
  tdr := inv.tdr
  inFlight := inv.inFlight
  nextTaskIdx := inv.nextTaskIdx
  doneFence := inv.doneFence

theorem named_killJob (inv : Named s.driver) {j : Nat} (hj : j < s.driver.jobs) :
    Named (Driver.effect s.driver (.killJob j)) where
  place := (Function.forall_update_iff s.driver.place
    fun k q => q ≠ .outside → k < s.driver.jobs).mpr ⟨fun _ => hj, fun k _ => inv.place k⟩
  call := inv.call
  run := inv.run
  irq := inv.irq
  tdr := inv.tdr
  inFlight := inv.inFlight
  nextTaskIdx := inv.nextTaskIdx
  doneFence := inv.doneFence

theorem named_runProgram (inv : Named s.driver) {c j : Nat} (hj : j < s.driver.jobs) :
    Named (programNative s.driver c j) where
  place := inv.place
  call := inv.call
  run := inv.run_update hj rfl
  irq := inv.irq
  tdr := inv.tdr
  inFlight := (Function.forall_update_iff s.driver.inFlight
    fun _ q => ∀ k, q = some k → k < s.driver.jobs).mpr
      ⟨fun _ hk => Option.some.inj hk ▸ hj, fun i _ => inv.inFlight i⟩
  nextTaskIdx := (Function.forall_update_iff s.driver.nextTaskIdx
    fun k q => q ≠ 0 → k < s.driver.jobs).mpr ⟨fun _ => hj, fun k _ => inv.nextTaskIdx k⟩
  doneFence := inv.doneFence

theorem named_irqResubmit (inv : Named s.driver) {c j : Nat} (hj : j < s.driver.jobs) :
    Named (resubmitNative s.driver c j) where
  place := inv.place
  call := inv.call
  run := inv.run
  irq := inv.irq_update hj
  tdr := inv.tdr
  inFlight := inv.inFlight
  nextTaskIdx := (Function.forall_update_iff s.driver.nextTaskIdx
    fun k q => q ≠ 0 → k < s.driver.jobs).mpr ⟨fun _ => hj, fun k _ => inv.nextTaskIdx k⟩
  doneFence := inv.doneFence

/-- Every index in use after a step was in use before, or is that of the new job. -/
theorem named_effect (inv : Named s.driver) (h : enabled s a = true) :
    Named (effect s a).driver := by
  cases a with
  | driver b => exact inv.keep (Bool.and_eq_true_iff.mp h).1
  | submit f c d env args w => exact named_submit inv
  | refuse f d env args w =>
      simp only [effect]
      split
      · exact ⟨inv.place, inv.call, inv.run, inv.irq, inv.tdr, inv.inFlight, inv.nextTaskIdx,
          inv.doneFence⟩
      · exact inv
  | pop c j e =>
      obtain ⟨-, -, -, -, hqueued, -⟩ := of_decide_eq_true (Bool.and_eq_true_iff.mp h).2
      exact named_pop inv (inv.place j (by simp [hqueued]))
  | killJob j =>
      obtain ⟨hqueued, -⟩ := of_decide_eq_true (Bool.and_eq_true_iff.mp h).2
      exact named_killJob inv (inv.place j (by simp [hqueued]))
  | destroyEntity =>
      exact ⟨inv.place, inv.call, inv.run, inv.irq, inv.tdr, inv.inFlight, inv.nextTaskIdx,
        inv.doneFence⟩
  | runProgram c j =>
      obtain ⟨hlock, -⟩ := of_decide_eq_true (Bool.and_eq_true_iff.mp h).2
      exact named_runProgram inv (inv.run c j (by rw [hlock]; rfl))
  | runFault c j p w =>
      have hwriting : s.driver.run c = .writing j p [w] :=
        of_decide_eq_true (Bool.and_eq_true_iff.mp h).2
      have hj : j < s.driver.jobs := inv.run c j (by rw [hwriting]; rfl)
      exact ⟨inv.place, inv.call, inv.run_update hj rfl, inv.irq, inv.tdr, inv.inFlight,
        inv.nextTaskIdx, inv.doneFence⟩
  | irqResubmit c seen j =>
      obtain ⟨-, -, hfly, -⟩ := of_decide_eq_true (Bool.and_eq_true_iff.mp h).2
      exact named_irqResubmit inv (inv.inFlight c j hfly)
  | irqFault c j p w =>
      have hwriting : s.driver.irq c = .writing j p [w] :=
        of_decide_eq_true (Bool.and_eq_true_iff.mp h).2
      have hj : j < s.driver.jobs := inv.irq c j p [w] hwriting
      exact ⟨inv.place, inv.call, inv.run, inv.irq_update hj, inv.tdr, inv.inFlight,
        inv.nextTaskIdx, inv.doneFence⟩

end NativeNames

/-! ## What is kept of a native job -/

section Accepted
variable {env : Env} {args : DrmRocketJob} {w : World}

/-- A call that `rocket_ioctl_submit_job` accepts has copied tasks. -/
theorem copied_of_accepted (accepted : (rocketIoctlSubmitJob env args w).1 = none) :
    args.taskCount ≠ 0#32 ∧ ∃ v, (rocketCopyTasks env args .zero v).1 = none := by
  unfold rocketIoctlSubmitJob at accepted
  have hcount : args.taskCount ≠ 0#32 := by
    rintro hzero
    simp [hzero] at accepted
  refine ⟨hcount, ?_⟩
  cases halloc : env.jobAlloc with
  | false => simp [hcount, halloc] at accepted
  | true =>
      cases hinit : env.schedInit with
      | some e => simp [hcount, halloc, hinit] at accepted
      | none =>
          simp only [hcount, halloc, hinit, if_false, Bool.true_eq_false] at accepted
          refine ⟨{ w with jobs := w.jobs.alloc true, schedJobs := w.schedJobs + 1 }, ?_⟩
          by_contra hfailed
          simp only [submitBody, Progress.andThen_failed hfailed] at accepted
          exact hfailed accepted

/-- The list has a task for each that the call announces. -/
theorem tasks_of_accepted (accepted : (rocketIoctlSubmitJob env args w).1 = none) :
    ∃ ts, (rocketCopyTasks env args .zero w).2.1.tasks = some ts ∧
      ts.length = args.taskCount.toNat ∧ ts ≠ [] := by
  obtain ⟨hcount, v, hcopy⟩ := copied_of_accepted accepted
  unfold rocketCopyTasks at hcopy ⊢
  by_cases hsize : args.taskStructSize.toNat < sizeofDrmRocketTask
  · simp [hsize] at hcopy
  cases halloc : env.taskAlloc with
  | false => simp [hsize, hcount, halloc] at hcopy
  | true =>
      cases hloop : (List.range args.taskCount.toNat).mapM (copyTask env args) with
      | error e => simp [hsize, hcount, halloc, hloop] at hcopy
      | ok ts =>
          have hlength : ts.length = args.taskCount.toNat := by
            rw [← (Strided.forall₂_of_mapM hloop).length_eq, List.length_range]
          refine ⟨ts, by simp [hsize, hcount], hlength, ?_⟩
          rintro rfl
          exact hcount (BitVec.eq_of_toNat_eq hlength.symm)

end Accepted

/-- What is known of native job `j` with the tasks `ts`. -/
structure Accepted (s : State) (j : Nat) (ts : List RocketTask) : Prop where
  known : j < s.driver.jobs
  call : s.driver.call j = .returned none
  taskCount : (s.driver.job j).taskCount = ts.length
  tasks : ts ≠ []

namespace State
variable (s : State)

/-- A native job has been submitted, with at least one task. -/
def NativeAccepted : Prop := ∀ j ts, s.tasks j = some ts → Accepted s j ts

/-- A native job runs on the core it was queued for. -/
def NativeOnCore : Prop := ∀ c j, s.native j = true →
  (s.driver.run c).job = some j ∨ s.driver.inFlight c = some j → (s.driver.job j).core = c

/-- A thread of core `c` is inside `rocket_job_hw_submit` for job `j`. -/
def Programming (c j : Nat) : Prop :=
  (∃ p rest, s.driver.run c = .writing j p rest) ∨ ∃ p rest, s.driver.irq c = .writing j p rest

/-- A thread writes the program of its own job, and does not start a native one. -/
def NativeUnstarted : Prop := ∀ c j p rest,
  s.driver.run c = .writing j p rest ∨ s.driver.irq c = .writing j p rest →
    p.job = j ∧ (s.native j = true → Driver.goWrite ∉ rest)

/-- Once a task of a native job is counted, a thread stays inside `rocket_job_hw_submit`. -/
def NativeWedged : Prop := ∀ j, s.native j = true → s.driver.nextTaskIdx j = 0 ∨
  s.driver.nextTaskIdx j = 1 ∧ s.Programming (s.driver.job j).core j

/-- No interrupt has completed a native job. -/
def NativeUnserved : Prop := ∀ j f, s.native j = true → s.driver.doneFence j = some f →
  f.signaler ≠ some .irqThread

end State

/-- What holds of native jobs in every run. -/
structure Wedging (s : State) : Prop where
  named : Named s.driver
  accepted : s.NativeAccepted
  onCore : s.NativeOnCore
  unstarted : s.NativeUnstarted
  wedged : s.NativeWedged
  unserved : s.NativeUnserved

theorem Wedging.initial (n : Nat) : Wedging (State.init n) where
  named := Named.initial n
  accepted := nofun
  onCore := nofun
  unstarted := by rintro c j p rest (h | h) <;> cases h
  wedged := nofun
  unserved := nofun

section Invariant
variable {s : State} {a : Action} {c j : Nat}

theorem tasks_effect (j : Nat) : (effect s a).tasks j = s.tasks j ∨
    j = s.driver.jobs ∧ ∃ f c d env args w, a = .submit f c d env args w := by
  cases a with
  | submit f c d env args w =>
      by_cases hj : j = s.driver.jobs
      · exact Or.inr ⟨hj, f, c, d, env, args, w, rfl⟩
      · exact Or.inl (Function.update_of_ne hj _ _)
  | _ => exact Or.inl rfl

/-- A job in use is a native one exactly when it was. -/
theorem native_effect (hj : j < s.driver.jobs) : (effect s a).native j = s.native j := by
  rcases tasks_effect (s := s) (a := a) j with hsame | ⟨rfl, -⟩
  · simp only [State.native, hsame]
  · exact absurd hj (Nat.lt_irrefl _)

/-- What a native job is and where its call stands does not change. -/
theorem Accepted.stays {ts : List RocketTask} (acc : Accepted s j ts) (named : Named s.driver)
    (h : enabled s a = true) : (effect s a).driver.job j = s.driver.job j ∧
      (effect s a).driver.call j = s.driver.call j := by
  cases a with
  | driver b =>
      obtain ⟨hb, -⟩ := Bool.and_eq_true_iff.mp h
      constructor
      · refine (Driver.job_effect j).resolve_right ?_
        rintro rfl
        have hinit : s.driver.call j = .jobInit := of_decide_eq_true hb
        simp [acc.call] at hinit
      · rcases Driver.call_effect named.fresh hb j with hmove | ⟨-, hstay⟩
        · rw [acc.call] at hmove
          generalize (Driver.effect s.driver b).call j = q at hmove
          cases hmove
        · exact hstay
  | submit f c d env args w =>
      have hnew : j ≠ s.driver.jobs := Nat.ne_of_lt acc.known
      exact ⟨Function.update_of_ne hnew _ _, Function.update_of_ne hnew _ _⟩
  | refuse f d env args w =>
      simp only [effect]
      split <;> exact ⟨rfl, rfl⟩
  | _ => exact ⟨rfl, rfl⟩

theorem jobs_effect : s.driver.jobs ≤ (effect s a).driver.jobs := by
  cases a with
  | driver b => exact Driver.le_jobs_effect
  | submit => exact Nat.le_succ _
  | refuse f d env args w =>
      simp only [effect]
      split <;> exact Nat.le_refl _
  | _ => exact Nat.le_refl _

theorem Wedging.keep_accepted (inv : Wedging s) (h : enabled s a = true) :
    (effect s a).NativeAccepted := by
  intro j ts hts
  rcases tasks_effect (s := s) (a := a) j with hsame | ⟨rfl, f, c, d, env, args, w, rfl⟩
  · have acc := inv.accepted j ts (hsame ▸ hts)
    obtain ⟨hjob, hcall⟩ := acc.stays inv.named h
    exact ⟨Nat.lt_of_lt_of_le acc.known jobs_effect, hcall ▸ acc.call, hjob ▸ acc.taskCount,
      acc.tasks⟩
  · obtain ⟨copied, hcopied, hlength, htasks⟩ :=
      tasks_of_accepted (of_decide_eq_true (Bool.and_eq_true_iff.mp h).2)
    obtain rfl : copied = ts := by
      simpa [effect, hcopied] using hts
    exact ⟨Nat.lt_succ_self _, Function.update_self _ _ _,
      by simp [effect, pushNative, nativeJob, hlength], htasks⟩

/-- A native job that is in use was one before the step. -/
theorem Wedging.native_before (inv : Wedging s) (h : enabled s a = true)
    (hj : (effect s a).native j = true) (used : Used (effect s a).driver c j) :
    s.native j = true := by
  rcases tasks_effect (s := s) (a := a) j with hsame | ⟨rfl, f, i, d, env, args, w, rfl⟩
  · simpa only [State.native, hsame] using hj
  · have hused : s.driver.jobs < s.driver.jobs := by
      cases used with
      | run hrun => exact inv.named.run c _ hrun
      | irq hirq => exact inv.named.irq c _ _ _ hirq
      | inFlight hfly => exact inv.named.inFlight c _ hfly
      | nextTaskIdx hidx => exact inv.named.nextTaskIdx _ hidx
      | doneFence hfence => exact inv.named.doneFence _ hfence
    exact absurd hused (Nat.lt_irrefl _)

theorem inFlight_before (h : enabled s a = true) (hfly : (effect s a).driver.inFlight c = some j) :
    s.driver.inFlight c = some j ∨ s.driver.run c = .lock j := by
  cases a with
  | driver b =>
      refine (Driver.inFlight_before hfly).imp_right fun hpub => ?_
      obtain ⟨hb, -⟩ := Bool.and_eq_true_iff.mp h
      cases hpub with
      | skip | program => exact (of_decide_eq_true hb).1
  | runProgram i k =>
      by_cases hi : c = i
      · subst hi
        obtain rfl : k = j := by simpa [effect, programNative] using hfly
        exact Or.inr (of_decide_eq_true (Bool.and_eq_true_iff.mp h).2).1
      · exact Or.inl (by simpa [effect, programNative, hi] using hfly)
  | refuse f d env args w =>
      simp only [effect] at hfly
      split at hfly <;> exact Or.inl hfly
  | _ => exact Or.inl hfly

theorem Wedging.keep_onCore (inv : Wedging s) (h : enabled s a = true) :
    (effect s a).NativeOnCore := by
  intro c j hj hor
  have hold : s.native j = true := by
    rcases hor with hrun | hfly
    · exact inv.native_before h hj (.run hrun)
    · exact inv.native_before h hj (.inFlight hfly)
  obtain ⟨ts, hts⟩ := Option.isSome_iff_exists.mp hold
  rw [((inv.accepted j ts hts).stays inv.named h).1]
  have keep := inv.onCore c j hold
  rcases hor with hrun | hfly
  · rcases run_effect h c with hmove | hstay
    · generalize s.driver.run c = p at hmove keep
      generalize (effect s a).driver.run c = q at hmove hrun
      cases hmove with
      | driver admitted hmove =>
          cases hmove with
          | pop =>
              obtain rfl := Option.some.inj hrun
              simp [State.admits, hold] at admitted
          | complete | arm => cases hrun
          | _ => exact keep (Or.inl hrun)
      | pop _ hcore =>
          obtain rfl := Option.some.inj hrun
          exact hcore
      | program | fault => exact keep (Or.inl hrun)
    · exact keep (Or.inl (hstay ▸ hrun))
  · rcases inFlight_before h hfly with hold | hlock
    · exact keep (Or.inr hold)
    · exact keep (Or.inl (by rw [hlock]; rfl))

theorem goWrite_not_mem (ci : Nat) : Driver.goWrite ∉ writesBeforeTasks ci := by
  simp [writesBeforeTasks, Driver.goWrite]

/-- A pass through `rocket_job_hw_submit` in `rocket_job_run` goes on, or begins for its own
job, and does not start the core for a native one. -/
theorem run_writing (h : enabled s a = true) {p : Program} {rest : List RegWrite}
    (hrun : (effect s a).driver.run c = .writing j p rest) :
    (∃ done, s.driver.run c = .writing j p (done ++ rest)) ∨
      p.job = j ∧ (s.native j = true → Driver.goWrite ∉ rest) := by
  rcases run_effect h c with hmove | hstay
  · generalize s.driver.run c = pc at hmove
    generalize (effect s a).driver.run c = q at hmove hrun
    cases hmove with
    | driver admitted hmove =>
        cases hmove with
        | program hp =>
            injection hrun with hjob hprog
            subst hjob hprog
            refine Or.inr ⟨by rw [hp]; rfl, fun hj => ?_⟩
            simp [State.admits, hj] at admitted
        | write =>
            injection hrun with hjob hprog hrest
            subst hjob hprog hrest
            exact Or.inl ⟨[_], rfl⟩
        | _ => cases hrun
    | program hp =>
        injection hrun with hjob hprog hrest
        subst hjob hprog hrest
        exact Or.inr ⟨by rw [hp]; rfl, fun _ => by rw [hp]; exact goWrite_not_mem c⟩
    | fault =>
        injection hrun with hjob hprog hrest
        subst hjob hprog hrest
        exact Or.inl ⟨[_], rfl⟩
    | pop => cases hrun
  · exact Or.inl ⟨[], hstay ▸ hrun⟩

/-- The same for the IRQ thread. -/
theorem irq_writing (h : enabled s a = true) {p : Program} {rest : List RegWrite}
    (hirq : (effect s a).driver.irq c = .writing j p rest) :
    (∃ done, s.driver.irq c = .writing j p (done ++ rest)) ∨
      p.job = j ∧ (s.native j = true → Driver.goWrite ∉ rest) := by
  rcases irq_effect h c with hmove | hstay
  · generalize s.driver.irq c = pc at hmove
    generalize (effect s a).driver.irq c = q at hmove hirq
    cases hmove with
    | driver admitted hmove =>
        cases hmove with
        | resubmit hp =>
            injection hirq with hjob hprog
            subst hjob hprog
            refine Or.inr ⟨by rw [hp]; rfl, fun hj => ?_⟩
            simp [State.admits, hj] at admitted
        | write =>
            injection hirq with hjob hprog hrest
            subst hjob hprog hrest
            exact Or.inl ⟨[_], rfl⟩
        | forget =>
            cases pc with
            | writing => exact Or.inl ⟨[], hirq⟩
            | idle | entered => cases hirq
        | _ => cases hirq
    | resubmit _ hp =>
        injection hirq with hjob hprog hrest
        subst hjob hprog hrest
        exact Or.inr ⟨by rw [hp]; rfl, fun _ => by rw [hp]; exact goWrite_not_mem c⟩
    | fault =>
        injection hirq with hjob hprog hrest
        subst hjob hprog hrest
        exact Or.inl ⟨[_], rfl⟩
  · exact Or.inl ⟨[], hstay ▸ hirq⟩

theorem Wedging.keep_unstarted (inv : Wedging s) (h : enabled s a = true) :
    (effect s a).NativeUnstarted := by
  intro c j p rest hwriting
  have hold : (effect s a).native j = true → s.native j = true := by
    intro hj
    rcases hwriting with hrun | hirq
    · exact inv.native_before (c := c) h hj (.run (by rw [hrun]; rfl))
    · exact inv.native_before h hj (.irq hirq)
  have before : (∃ done, s.driver.run c = .writing j p (done ++ rest) ∨
      s.driver.irq c = .writing j p (done ++ rest)) ∨
        p.job = j ∧ (s.native j = true → Driver.goWrite ∉ rest) := by
    rcases hwriting with hrun | hirq
    · exact (run_writing h hrun).imp_left fun ⟨done, hdone⟩ => ⟨done, Or.inl hdone⟩
    · exact (irq_writing h hirq).imp_left fun ⟨done, hdone⟩ => ⟨done, Or.inr hdone⟩
  rcases before with ⟨done, hdone⟩ | ⟨hjob, hgo⟩
  · obtain ⟨hjob, hgo⟩ := inv.unstarted c j p _ hdone
    exact ⟨hjob, fun hj hmem => hgo (hold hj) (List.mem_append_right _ hmem)⟩
  · exact ⟨hjob, fun hj => hgo (hold hj)⟩

theorem jobLockFree_of_programming (hc : s.Programming c j) : s.driver.jobLockFree c = false := by
  rcases hc with ⟨p, rest, hrun⟩ | ⟨p, rest, hirq⟩
  · simp [Driver.State.jobLockFree, hrun, Driver.RunPc.locked]
  · simp [Driver.State.jobLockFree, hirq, Driver.IrqPc.locked]

/-- A thread that has begun to program a native job does not leave `rocket_job_hw_submit`. -/
theorem programming_stays (h : enabled s a = true) (hj : s.native j = true)
    (hc : s.Programming c j) : (effect s a).Programming c j := by
  rcases hc with ⟨p, rest, hrun⟩ | ⟨p, rest, hirq⟩
  · left
    rcases run_effect h c with hmove | hstay
    · rw [hrun] at hmove
      generalize (effect s a).driver.run c = q at hmove ⊢
      cases hmove with
      | driver admitted hmove =>
          cases hmove with
          | write => exact ⟨p, _, rfl⟩
          | lastWrite => simp [State.admits, hj] at admitted
      | fault => exact ⟨p, [], rfl⟩
    · exact ⟨p, rest, hstay.trans hrun⟩
  · right
    rcases irq_effect h c with hmove | hstay
    · rw [hirq] at hmove
      generalize (effect s a).driver.irq c = q at hmove ⊢
      cases hmove with
      | driver admitted hmove =>
          cases hmove with
          | write => exact ⟨p, _, rfl⟩
          | lastWrite => simp [State.admits, hj] at admitted
          | forget => exact ⟨p, rest, rfl⟩
      | fault => exact ⟨p, [], rfl⟩
    · exact ⟨p, rest, hstay.trans hirq⟩

/-- A task of a native job is counted by a thread that takes `job_lock` and begins to program
the job. -/
theorem nextTaskIdx_effect (h : enabled s a = true) (hj : s.native j = true) :
    (effect s a).driver.nextTaskIdx j = s.driver.nextTaskIdx j ∨
      (effect s a).driver.nextTaskIdx j = s.driver.nextTaskIdx j + 1 ∧
        ∃ c, s.driver.jobLockFree c = true ∧ (effect s a).Programming c j ∧
          ((s.driver.run c).job = some j ∨ s.driver.inFlight c = some j) := by
  cases a with
  | driver b =>
      obtain ⟨-, hadmits⟩ := Bool.and_eq_true_iff.mp h
      rcases Driver.nextTaskIdx_effect (s := s.driver) (a := b) j with
        hsame | ⟨-, ⟨c, mem, rfl⟩ | ⟨c, seen, mem, rfl⟩⟩
      · exact Or.inl hsame
      · simp [State.admits, hj] at hadmits
      · simp [State.admits, hj] at hadmits
  | runProgram c k =>
      obtain ⟨hlock, hfree, -⟩ := of_decide_eq_true (Bool.and_eq_true_iff.mp h).2
      by_cases hk : j = k
      · subst hk
        exact Or.inr ⟨Function.update_self _ _ _, c, hfree,
          Or.inl ⟨_, _, Function.update_self _ _ _⟩, Or.inl (by rw [hlock]; rfl)⟩
      · exact Or.inl (Function.update_of_ne hk _ _)
  | irqResubmit c seen k =>
      obtain ⟨-, hfree, hfly, -⟩ := of_decide_eq_true (Bool.and_eq_true_iff.mp h).2
      by_cases hk : j = k
      · subst hk
        exact Or.inr ⟨Function.update_self _ _ _, c, hfree,
          Or.inr ⟨_, _, Function.update_self _ _ _⟩, Or.inr hfly⟩
      · exact Or.inl (Function.update_of_ne hk _ _)
  | refuse f d env args w =>
      left
      simp only [effect]
      split <;> rfl
  | _ => exact Or.inl rfl

theorem Wedging.keep_wedged (inv : Wedging s) (h : enabled s a = true) :
    (effect s a).NativeWedged := by
  intro j hj
  by_cases hidx : (effect s a).driver.nextTaskIdx j = 0
  · exact Or.inl hidx
  have hold : s.native j = true :=
    inv.native_before (c := 0) h hj (.nextTaskIdx hidx)
  obtain ⟨ts, hts⟩ := Option.isSome_iff_exists.mp hold
  rw [((inv.accepted j ts hts).stays inv.named h).1]
  right
  rcases nextTaskIdx_effect h hold with hsame | ⟨hcount, c, hfree, hprogramming, hnames⟩
  · obtain ⟨hone, hcore⟩ := (inv.wedged j hold).resolve_left (hsame ▸ hidx)
    exact ⟨hsame.trans hone, programming_stays h hold hcore⟩
  · have hcore := inv.onCore c j hold hnames
    rcases inv.wedged j hold with hzero | ⟨-, hcore'⟩
    · exact ⟨by rw [hcount, hzero], hcore ▸ hprogramming⟩
    · rw [hcore] at hcore'
      rw [jobLockFree_of_programming hcore'] at hfree
      cases hfree

/-- The job in flight of a core whose `job_lock` is free is native only before its first task. -/
theorem Wedging.not_completed (inv : Wedging s) (hj : s.native j = true)
    (hfree : s.driver.jobLockFree c = true) (hfly : s.driver.inFlight c = some j) :
    s.driver.nextTaskIdx j < (s.driver.job j).taskCount := by
  obtain ⟨ts, hts⟩ := Option.isSome_iff_exists.mp hj
  have acc := inv.accepted j ts hts
  rcases inv.wedged j hj with hzero | ⟨-, hcore⟩
  · rw [hzero, acc.taskCount]
    exact List.length_pos_iff.mpr acc.tasks
  · rw [inv.onCore c j hj (Or.inr hfly)] at hcore
    rw [jobLockFree_of_programming hcore] at hfree
    cases hfree

theorem Wedging.keep_unserved (inv : Wedging s) (h : enabled s a = true) :
    (effect s a).NativeUnserved := by
  intro j f hj hf
  have hold : s.native j = true :=
    inv.native_before (c := 0) h hj (.doneFence (by simp [hf]))
  have keep := inv.unserved j
  cases a with
  | driver b =>
      obtain ⟨hb, -⟩ := Bool.and_eq_true_iff.mp h
      rcases Driver.doneFence_before hf with
        hsame | ⟨c, rfl, rfl⟩ | ⟨g, hg, ⟨c, e, rfl, rfl⟩ | ⟨c, seen, rfl, -⟩⟩
      · exact keep f hold hsame
      · simp
      · have hserved := keep g hold hg
        simp only [Driver.Fence.signal]
        split
        · simp
        · exact hserved
      · obtain ⟨-, hfree, hfly, hdone⟩ := of_decide_eq_true hb
        exact absurd (inv.not_completed hold hfree hfly) hdone
  | refuse g d env args w =>
      simp only [effect] at hf
      split at hf <;> exact keep f hold hf
  | _ => exact keep f hold hf

theorem Wedging.preserve (inv : Wedging s) (h : enabled s a = true) : Wedging (effect s a) where
  named := named_effect inv.named h
  accepted := inv.keep_accepted h
  onCore := inv.keep_onCore h
  unstarted := inv.keep_unstarted h
  wedged := inv.keep_wedged h
  unserved := inv.keep_unserved h

/-- A programming that a step starts is not one of a native job. -/
theorem Wedging.vendor_of_starts (inv : Wedging s) (h : enabled s a = true) {p : Program}
    (hp : a.starts = some p) : p.job < s.driver.jobs ∧ s.native p.job = false := by
  have vendor : ∀ {c j w rest}, s.driver.run c = .writing j p (w :: rest) ∨
      s.driver.irq c = .writing j p (w :: rest) → w = Driver.goWrite →
      p.job < s.driver.jobs ∧ s.native p.job = false := by
    intro c j w rest hwriting hgo
    obtain ⟨rfl, hstart⟩ := inv.unstarted c j p _ hwriting
    refine ⟨?_, Bool.eq_false_iff.mpr fun hj => hstart hj (by simp [hgo])⟩
    rcases hwriting with hrun | hirq
    · exact inv.named.run c _ (by rw [hrun]; rfl)
    · exact inv.named.irq c _ p _ hirq
  cases a with
  | driver b =>
      obtain ⟨hb, -⟩ := Bool.and_eq_true_iff.mp h
      cases b with
      | runWrite c j q w rest =>
          obtain ⟨hgo, hq⟩ : w = Driver.goWrite ∧ q = p := by simpa [Action.starts] using hp
          exact vendor (Or.inl (hq ▸ of_decide_eq_true hb)) hgo
      | irqWrite c j q w rest =>
          obtain ⟨hgo, hq⟩ : w = Driver.goWrite ∧ q = p := by simpa [Action.starts] using hp
          exact vendor (Or.inr (hq ▸ of_decide_eq_true hb)) hgo
      | _ => cases hp
  | runFault c j q w =>
      obtain ⟨hgo, hq⟩ : w = Driver.goWrite ∧ q = p := by simpa [Action.starts] using hp
      have hwriting : s.driver.run c = .writing j q [w] :=
        of_decide_eq_true (Bool.and_eq_true_iff.mp h).2
      exact vendor (Or.inl (hq ▸ hwriting)) hgo
  | irqFault c j q w =>
      obtain ⟨hgo, hq⟩ : w = Driver.goWrite ∧ q = p := by simpa [Action.starts] using hp
      have hwriting : s.driver.irq c = .writing j q [w] :=
        of_decide_eq_true (Bool.and_eq_true_iff.mp h).2
      exact vendor (Or.inr (hq ▸ hwriting)) hgo
  | _ => cases hp

end Invariant

/-! ## What a run does for a native job -/

section Runs
variable {n : Nat} {acts more : List Action} {s t : State} {j : Nat} {ts : List RocketTask}

theorem Wedging.reachable (run : Runs system (State.init n) acts s) : Wedging s := by
  refine invariant Wedging (fun u a v inv hstep => ?_) run (Wedging.initial n)
  obtain ⟨h, rfl⟩ := system_eq_some.mp hstep
  exact inv.preserve h

/-- No programming that a run has started is one of a native job. -/
theorem vendor_of_started (run : Runs system (State.init n) acts s) :
    ∀ p ∈ acts.filterMap Action.starts, p.job < s.driver.jobs ∧ s.native p.job = false := by
  refine history (fun acts s => ∀ p ∈ acts.filterMap Action.starts,
    p.job < s.driver.jobs ∧ s.native p.job = false) (by simp) ?_ run
  intro done u a v before ih hstep p hp
  obtain ⟨h, rfl⟩ := system_eq_some.mp hstep
  have hvendor : p.job < u.driver.jobs ∧ u.native p.job = false := by
    rw [List.filterMap_append, List.mem_append] at hp
    rcases hp with hold | hnew
    · exact ih p hold
    · obtain ⟨b, hb, hstarts⟩ := List.mem_filterMap.mp hnew
      obtain rfl := List.mem_singleton.mp hb
      exact (Wedging.reachable before).vendor_of_starts h hstarts
  exact ⟨Nat.lt_of_lt_of_le hvendor.1 jobs_effect, (native_effect hvendor.1).trans hvendor.2⟩

theorem programmings_native (run : Runs system (State.init n) acts s) (hj : s.native j = true) :
    programmings j acts = [] := by
  refine List.filter_eq_nil_iff.mpr fun p hp hjob => ?_
  obtain rfl : p.job = j := of_decide_eq_true hjob
  simp [(vendor_of_started run p hp).2] at hj

/-- A native job stays one. -/
theorem native_of_run (inv : Wedging s) (run : Runs system s more t) (hj : s.native j = true) :
    Wedging t ∧ t.native j = true := by
  refine invariant (fun u => Wedging u ∧ u.native j = true) (fun u a v hu hstep => ?_) run
    ⟨inv, hj⟩
  obtain ⟨h, rfl⟩ := system_eq_some.mp hstep
  obtain ⟨ts, hts⟩ := Option.isSome_iff_exists.mp hu.2
  exact ⟨hu.1.preserve h, (native_effect (hu.1.accepted j ts hts).known).trans hu.2⟩

/-- Whatever follows, the run does not take a native job through its tasks. -/
theorem not_runsTasks (run : Runs system (State.init n) acts s) (hj : s.tasks j = some ts) :
    ¬ RunsTasks acts s j ts := by
  intro runs
  obtain ⟨more, t, hmore, hcount⟩ := runs.goesOn
  have inv := Wedging.reachable run
  have hnative : s.native j = true := Option.isSome_iff_exists.mpr ⟨ts, hj⟩
  rw [programmings_native (run.append hmore) (native_of_run inv hmore hnative).2] at hcount
  exact (inv.accepted j ts hj).tasks (List.eq_nil_of_length_eq_zero hcount.symm)

/-- The first task of a native job that is counted takes its core for good: `job_lock` is not
free any more. -/
theorem native_task_wedges_core (run : Runs system (State.init n) acts s)
    (hj : s.native j = true) (hidx : s.driver.nextTaskIdx j ≠ 0) (hmore : Runs system s more t) :
    t.driver.jobLockFree (s.driver.job j).core = false := by
  have inv := Wedging.reachable run
  obtain ⟨-, hcore⟩ := (inv.wedged j hj).resolve_left hidx
  have held : Wedging t ∧ t.native j = true ∧ t.Programming (s.driver.job j).core j := by
    refine invariant (fun u => Wedging u ∧ u.native j = true ∧
      u.Programming (s.driver.job j).core j) (fun u a v hu hstep => ?_) hmore ⟨inv, hj, hcore⟩
    obtain ⟨h, rfl⟩ := system_eq_some.mp hstep
    obtain ⟨ts, hts⟩ := Option.isSome_iff_exists.mp hu.2.1
    exact ⟨hu.1.preserve h, (native_effect (hu.1.accepted j ts hts).known).trans hu.2.1,
      programming_stays h hu.2.1 hu.2.2⟩
  exact jobLockFree_of_programming held.2.2

/-- In no run and for no native job that was accepted does `rocket_job_hw_submit` start the
hardware, and no interrupt completes the job: its task index counts the one pass that reads
through the NULL `rk_tasks`, and the run does not take the job through its tasks. -/
theorem native_tasks_never_run (run : Runs system (State.init n) acts s)
    (hj : s.tasks j = some ts) :
    programmings j acts = [] ∧ s.driver.nextTaskIdx j ≤ 1 ∧
      (∀ f, s.driver.doneFence j = some f → f.signaler ≠ some .irqThread) ∧
      ¬ RunsTasks acts s j ts := by
  have inv := Wedging.reachable run
  have hnative : s.native j = true := Option.isSome_iff_exists.mpr ⟨ts, hj⟩
  refine ⟨programmings_native run hnative, ?_, fun f => inv.unserved j f hnative,
    not_runsTasks run hj⟩
  rcases inv.wedged j hnative with hzero | ⟨hone, -⟩
  · exact hzero ▸ Nat.zero_le 1
  · exact Nat.le_of_eq hone

end Runs

/-- The program that `rocket_job_hw_submit` begins for `plainJob` on core 0. -/
def plainProgram : Program := nullProgram (nativeJob 0 2) 0 0

/-- `plainJob`, submitted on one fresh core, until `rocket_job_hw_submit` reads its first task. -/
def nativeSteps : List Action :=
  [.driver .openFile, .submit 0 0 0 plainEnv plainJob World.calm, .pop 0 0 none,
    .driver (.runCheck 0 0), .driver (.runCreate 0 0 true),
    .driver (.runPmGet 0 0 fun _ => true), .runProgram 0 0,
    .driver (.runWrite 0 0 plainProgram (plainProgram.writes[0])
      (plainProgram.writes.drop 1)),
    .driver (.runWrite 0 0 plainProgram (plainProgram.writes[1])
      (plainProgram.writes.drop 2)),
    .runFault 0 0 plainProgram (plainProgram.writes[2])]

theorem nativeSteps_accepted :
    ((exec system (State.init 1) nativeSteps).map fun s =>
      (s.tasks 0).isSome && decide (s.driver.nextTaskIdx 0 = 1)) = some true := by
  decide

theorem native_tasks_never_run_on_nativeSteps :
    ∃ s ts, Runs system (State.init 1) nativeSteps s ∧ s.tasks 0 = some ts ∧
      programmings 0 nativeSteps = [] ∧ s.driver.nextTaskIdx 0 ≤ 1 ∧
      (∀ f, s.driver.doneFence 0 = some f → f.signaler ≠ some .irqThread) ∧
      ¬ RunsTasks nativeSteps s 0 ts := by
  obtain ⟨s, run, htest⟩ := runs_of_test nativeSteps_accepted
  obtain ⟨ts, hts⟩ := Option.isSome_iff_exists.mp (Bool.and_eq_true_iff.mp htest).1
  exact ⟨s, ts, run, hts, native_tasks_never_run run hts⟩

/-- The run of `nativeSteps`, in which nothing is reset or cancelled, does not take its job of
two tasks through them. -/
theorem native_job_not_run :
    ¬ ∀ n acts s j ts, Runs system (State.init n) acts s → s.tasks j = some ts →
      (∀ a ∈ acts, a.disturbs (s.driver.job j).core j = false) → RunsTasks acts s j ts := by
  intro all
  obtain ⟨s, run, htest⟩ := runs_of_test nativeSteps_accepted
  obtain ⟨ts, hts⟩ := Option.isSome_iff_exists.mp (Bool.and_eq_true_iff.mp htest).1
  exact not_runsTasks run hts (all 1 nativeSteps s 0 ts run hts
    (by simp [nativeSteps, Action.disturbs]))

end Rkopnu.NativeJobs
