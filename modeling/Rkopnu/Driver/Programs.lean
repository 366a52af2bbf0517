import Rkopnu.Driver.Schedule
import Rkopnu.Driver.Trace

/-!
# The programs that reach the hardware

The log holds every program whose `OPERATION_ENABLE` was written. It is the program
of its job's arguments on its job's core, and no job has two: a job runs once,
and `rocket_job_hw_submit` starts the core once.
-/

namespace Rkopnu.Driver

open Function (update)
open Transition

/-- The core is started by exactly one write of the sequence. -/
theorem hwSubmitWrites_count_go (job : RocketJob) (ci : Nat) (first last : RknpuTask) :
    (hwSubmitWrites job ci first last).count goWrite = 1 := by
  simp [hwSubmitWrites, goWrite]

/-- After the write that starts the core there is no second one. -/
theorem go_notMem_of_suffix {job : RocketJob} {ci : Nat} {first last : RknpuTask}
    {rest : List RegWrite} (h : goWrite :: rest <:+ hwSubmitWrites job ci first last) :
    goWrite ∉ rest := by
  have hcount := h.sublist.count_le goWrite
  rw [hwSubmitWrites_count_go, List.count_cons_self] at hcount
  exact List.count_eq_zero.mp (by omega)

namespace State
variable (s : State)

/-- While the registers of a job are written: which program it is, and whether the core
has been started on it. -/
def WritingProgram : Prop := ∀ c j p rest, s.run c = .writing j p rest →
  (∃ mem, p = hwProgram (s.job j) j c mem) ∧ rest <:+ p.writes ∧
    (goWrite ∈ rest → ∀ q ∈ s.log, q.job ≠ j) ∧
    (goWrite ∉ rest → p ∈ s.log ∧ (s.npu c).started = some j)

/-- A logged program is that of its job on its job's core. -/
def LogProgram : Prop := ∀ q ∈ s.log, (∃ mem, q = hwProgram (s.job q.job) q.job q.core mem) ∧
  (s.job q.job).core = q.core ∧ 0 < s.nextTaskIdx q.job ∧ s.place q.job ≠ .outside

/-- No job has two programs in the log. -/
def LogOnce : Prop := (s.log.map Program.job).Nodup

/-- A programmed job in flight is the one its core was last started on, unless its
registers are still being written. -/
def InFlightStarted : Prop := ∀ c j, s.inFlight c = some j → 0 < s.nextTaskIdx j →
  (s.run c).locked = true ∨ ((s.npu c).started = some j ∧ ∃ p ∈ s.log, p.job = j ∧ p.core = c)

end State

/-- What is known about the programs written and started. -/
structure Programmed (s : State) : Prop extends Scheduled s where
  writingProgram : s.WritingProgram
  logProgram : s.LogProgram
  logOnce : s.LogOnce
  inFlightStarted : s.InFlightStarted

/-- The step changes the registers or the status of core `c`. -/
inductive Npu.Moves : Action → Nat → Npu → Npu → Prop
  | raise {c bits n} : Moves (.raise c bits) c n (n.raise bits)
  | mask {c n} : Moves (.irqHard c) c n (n.write ⟨.interruptMask, 0x0#32⟩)
  | quiesce {c seen n} : Moves (.irqThread c seen) c n
      ((n.write ⟨.operationEnable, 0x0#32⟩).write ⟨.interruptClear, 0xffffffff#32⟩)
  | write {c j p w rest n} (hw : w ≠ goWrite) : Moves (.runWrite c j p w rest) c n (n.write w)
  | start {c j p rest n} :
      Moves (.runWrite c j p goWrite rest) c n ((n.write goWrite).start j)
  | reset {c j n} : Moves (.tdrHwReset c j) c n n.reset

section Preserve
variable {s : State} {a : Action}

/-- A step changes a core by raising status bits, by writing registers, by starting it or by
resetting it. -/
theorem npu_effect (inv : Threaded s) (h : enabled s a = true) (c : Nat) :
    Npu.Moves a c (s.npu c) ((effect s a).npu c) ∨ (effect s a).npu c = s.npu c := by
  have move : ∀ {i n}, (effect s a).npu = update s.npu i n → Npu.Moves a i (s.npu i) n →
      Npu.Moves a c (s.npu c) ((effect s a).npu c) ∨ (effect s a).npu c = s.npu c := by
    intro i n hn hmove
    exact (component_moved (R := Npu.Moves a) rfl hn hmove).imp_right And.right
  cases a with
  | raise i bits => exact move rfl .raise
  | irqHard i =>
      by_cases hraw : (s.npu i).raw = 0#32
      · exact Or.inr (by simp only [effect, if_pos hraw])
      · exact move (by simp only [effect, if_neg hraw]) .mask
  | irqThread i seen => exact move rfl .quiesce
  | runWrite i j p w rest =>
      by_cases hgo : w = goWrite
      · subst hgo
        exact move rfl .start
      · exact move (by simp only [effect, State.hwWrite, if_neg hgo]) (.write hgo)
  | irqWrite i j p w rest => simp [inv.irqWrite_disabled] at h
  | tdrHwReset i j => exact move rfl .reset
  | _ => exact Or.inr rfl

/-- A core is started by the write of `OPERATION_ENABLE` in its own `rocket_job_run`. -/
theorem started_effect (inv : Threaded s) (h : enabled s a = true) (c : Nat) :
    ((effect s a).npu c).started = (s.npu c).started ∨
      ∃ j p rest, a = .runWrite c j p goWrite rest := by
  rcases npu_effect inv h c with hmove | hstay
  · generalize s.npu c = n at hmove ⊢
    generalize (effect s a).npu c = m at hmove ⊢
    cases hmove with
    | start => exact Or.inr ⟨_, _, _, rfl⟩
    | _ => exact Or.inl rfl
  · exact Or.inl (congrArg Npu.started hstay)

/-- The log grows by the program whose `OPERATION_ENABLE` is written. -/
theorem log_effect (inv : Threaded s) (h : enabled s a = true) : (effect s a).log = s.log ∨
    ∃ c j p rest, a = .runWrite c j p goWrite rest ∧ (effect s a).log = s.log ++ [p] := by
  cases a with
  | runWrite c j p w rest =>
      by_cases hgo : w = goWrite
      · subst hgo
        exact Or.inr ⟨c, j, p, rest, rfl, log_runWrite.trans (if_pos rfl)⟩
      · exact Or.inl (log_runWrite.trans (if_neg hgo))
  | irqWrite c j p w rest => simp [inv.irqWrite_disabled] at h
  | _ => exact Or.inl rfl

theorem logged_before (inv : Threaded s) (h : enabled s a = true) {q : Program}
    (hq : q ∈ (effect s a).log) : q ∈ s.log ∨ ∃ c j rest, a = .runWrite c j q goWrite rest := by
  rcases log_effect inv h with hsame | ⟨c, j, p, rest, ha, happend⟩
  · exact Or.inl (hsame ▸ hq)
  · rw [happend] at hq
    rcases List.mem_append.mp hq with hold | hnew
    · exact Or.inl hold
    · obtain rfl := List.mem_singleton.mp hnew
      exact Or.inr ⟨c, j, rest, ha⟩

theorem logged_stays (inv : Threaded s) (h : enabled s a = true) {q : Program}
    (hq : q ∈ s.log) : q ∈ (effect s a).log := by
  rcases log_effect inv h with hsame | ⟨c, j, p, rest, -, happend⟩
  · exact hsame ▸ hq
  · rw [happend]
    exact List.mem_append_left _ hq

/-- The program whose registers are being written is the program of its job. -/
theorem Programmed.program_of_runWrite (inv : Programmed s) {c j : Nat} {p : Program}
    {w : RegWrite} {rest : List RegWrite} (h : enabled s (.runWrite c j p w rest) = true) :
    (s.run c).job = some j ∧ (∃ mem, p = hwProgram (s.job j) j c mem) ∧ p.job = j ∧
      p.core = c := by
  have hwriting := enabled_runWrite.mp h
  obtain ⟨⟨mem, hmem⟩, -⟩ := inv.writingProgram c j p _ hwriting
  refine ⟨by rw [hwriting]; rfl, ⟨mem, hmem⟩, ?_, ?_⟩ <;> rw [hmem] <;> rfl

/-- Once the core was started the program is in the log. -/
theorem started_of_written (inv : Programmed s) {c j : Nat} {p : Program} {w : RegWrite}
    {rest : List RegWrite} (h : s.run c = .writing j p (w :: rest)) (hgo : goWrite ∉ rest) :
    p ∈ (effect s (.runWrite c j p w rest)).log ∧
      ((effect s (.runWrite c j p w rest)).npu c).started = some j := by
  rw [log_runWrite]
  by_cases hw : w = goWrite
  · simp [effect, State.hwWrite, Npu.start, hw]
  · have hout : goWrite ∉ w :: rest := by simp [Ne.symm hw, hgo]
    simpa [effect, State.hwWrite, Npu.write, hw] using (inv.writingProgram c j p _ h).2.2.2 hout

/-- Until the core is started no program of the job is in the log. -/
theorem unlogged_of_runWrite (inv : Programmed s) {c j : Nat} {p : Program} {w : RegWrite}
    {rest : List RegWrite} (h : s.run c = .writing j p (w :: rest)) (hgo : goWrite ∈ rest) :
    ∀ q ∈ (effect s (.runWrite c j p w rest)).log, q.job ≠ j := by
  obtain ⟨⟨mem, hmem⟩, hsuffix, hbefore, -⟩ := inv.writingProgram c j p _ h
  have hne : w ≠ goWrite := by
    rintro rfl
    rw [hmem] at hsuffix
    exact go_notMem_of_suffix hsuffix hgo
  rw [log_runWrite, if_neg hne]
  exact hbefore (List.mem_cons_of_mem w hgo)

theorem keep_writingProgram (inv : Programmed s) (h : enabled s a = true) :
    (effect s a).WritingProgram := by
  intro c j p rest hwriting
  have keep := inv.writingProgram c j p
  rcases run_effect h c with hmove | ⟨hother, hstay⟩
  · rw [hwriting] at hmove
    generalize hrun : s.run c = pc at hmove
    cases hmove with
    | @program _ _ mem _ hp =>
        refine ⟨⟨mem, hp⟩, List.suffix_refl _, fun _ q hq hjob => ?_, fun hgo => ?_⟩
        · have hpos := (inv.logProgram q hq).2.2.1
          have hzero := inv.firstRun c j (by rw [hrun]; rfl)
          rw [hjob] at hpos
          omega
        · have hcount := hwSubmitWrites_count_go (s.job j) c (mem (firstTask (s.job j) c))
            (mem (lastTask (s.job j) c))
          rw [hp] at hgo
          exact absurd (hcount.symm.trans (List.count_eq_zero.mpr hgo)) (by decide)
    | @write _ _ _ w _ more =>
        obtain ⟨hmem, hsuffix, -, -⟩ := keep _ hrun
        exact ⟨hmem, (List.suffix_cons w rest).trans hsuffix,
          fun hgo => unlogged_of_runWrite inv hrun hgo,
          fun hgo => started_of_written inv hrun hgo⟩
  · have hrun : s.run c = .writing j p rest := hstay ▸ hwriting
    have hjob : (s.run c).job = some j := by rw [hrun]; rfl
    obtain ⟨⟨mem, hmem⟩, hsuffix, hbefore, hafter⟩ := keep rest hrun
    have hplace := Place.ne_outside_of_started (inv.running c j hjob).2.1
    refine ⟨⟨mem, by rw [inv.job_of_placed h hplace, hmem]⟩, hsuffix, fun hgo q hq => ?_,
      fun hgo => ⟨logged_stays inv.toThreaded h (hafter hgo).1, ?_⟩⟩
    · rcases logged_before inv.toThreaded h hq with hold | ⟨b, k, more, rfl⟩
      · exact hbefore hgo q hold
      · obtain ⟨hk, -, hq, -⟩ := inv.program_of_runWrite h
        rintro rfl
        exact hother (congrArg some (inv.run_unique (hq ▸ hk) hjob))
    · rcases started_effect inv.toThreaded h c with hsame | ⟨k, q, more, rfl⟩
      · rw [hsame, (hafter hgo).2]
      · exact absurd rfl hother

theorem keep_logProgram (inv : Programmed s) (h : enabled s a = true) :
    (effect s a).LogProgram := by
  intro q hq
  rcases logged_before inv.toThreaded h hq with hold | ⟨c, j, rest, rfl⟩
  · obtain ⟨⟨mem, hmem⟩, hcore, hidx, hplace⟩ := inv.logProgram q hold
    rw [inv.job_of_placed h hplace]
    refine ⟨⟨mem, hmem⟩, hcore, ?_, ?_⟩
    · rcases nextTaskIdx_effect (s := s) (a := a) q.job with hsame | ⟨hnext, -⟩ <;> omega
    · rcases inv.place_effect h q.job with hmove | ⟨-, hstay⟩
      · generalize s.place q.job = old at hmove
        generalize (effect s a).place q.job = new at hmove ⊢
        cases hmove <;> simp
      · rwa [hstay]
  · obtain ⟨hjob, ⟨mem, hmem⟩, rfl, rfl⟩ := inv.program_of_runWrite h
    obtain ⟨hcore, hstarted, -⟩ := inv.running _ _ hjob
    refine ⟨⟨mem, hmem⟩, hcore, ?_, Place.ne_outside_of_started hstarted⟩
    have hnext := (inv.writing _ _ _ _ (enabled_runWrite.mp h)).2
    exact hnext ▸ Nat.one_pos

theorem keep_logOnce (inv : Programmed s) (h : enabled s a = true) : (effect s a).LogOnce := by
  have keep := inv.logOnce
  unfold State.LogOnce
  rcases log_effect inv.toThreaded h with hsame | ⟨c, j, p, rest, rfl, happend⟩
  · rwa [hsame]
  · obtain ⟨-, -, hjob, -⟩ := inv.program_of_runWrite h
    have hnew := (inv.writingProgram c j p _ (enabled_runWrite.mp h)).2.2.1 List.mem_cons_self
    rw [happend, List.map_append, List.nodup_append]
    refine ⟨keep, List.nodup_singleton _, ?_⟩
    intro i hi k hk
    obtain ⟨q, hq, rfl⟩ := List.mem_map.mp hi
    obtain rfl : k = p.job := by simpa using hk
    rw [hjob]
    exact hnew q hq

/-- The worker of a core that holds `job_lock` keeps it until the core is started. -/
theorem started_of_locked (inv : Programmed s) (h : enabled s a = true) {c j : Nat}
    (hfly : s.inFlight c = some j) (hlocked : (s.run c).locked = true) :
    ((effect s a).run c).locked = true ∨ (((effect s a).npu c).started = some j ∧
      ∃ p ∈ (effect s a).log, p.job = j ∧ p.core = c) := by
  rcases run_effect h c with hmove | ⟨-, hstay⟩
  · generalize hrun : s.run c = pc at hmove hlocked
    generalize (effect s a).run c = q at hmove ⊢
    cases hmove with
    | write => exact Or.inl rfl
    | lastWrite =>
        obtain ⟨-, -, hjob, hcore⟩ := inv.program_of_runWrite h
        obtain ⟨hlog, hstarted⟩ := started_of_written inv hrun List.not_mem_nil
        obtain rfl := Option.some.inj (hfly.symm.trans (inv.writing c _ _ _ hrun).1)
        exact Or.inr ⟨hstarted, _, hlog, hjob, hcore⟩
    | _ => cases hlocked
  · exact Or.inl (hstay ▸ hlocked)

theorem keep_inFlightStarted (inv : Programmed s) (h : enabled s a = true) :
    (effect s a).InFlightStarted := by
  intro c j hfly hidx
  rcases inFlight_before hfly with hold | hpublishes
  · rcases nextTaskIdx_effect (s := s) (a := a) j with
      hsame | ⟨-, ⟨b, mem, rfl⟩ | ⟨b, seen, mem, rfl⟩⟩
    · rcases inv.inFlightStarted c j hold (hsame ▸ hidx) with
        hlocked | ⟨hstarted, p, hp, hjob⟩
      · exact started_of_locked inv h hold hlocked
      · rcases started_effect inv.toThreaded h c with hkept | ⟨k, q, rest, rfl⟩
        · exact Or.inr ⟨hkept.trans hstarted, p, logged_stays inv.toThreaded h hp, hjob⟩
        · refine started_of_locked inv h hold ?_
          rw [enabled_runWrite.mp h]
          rfl
    · have hlock : s.run b = .lock j := (enabled_runProgram.mp h).1
      have hb := (inv.running b j (by rw [hlock]; rfl)).1
      obtain rfl : c = b := (inv.inFlight c j hold).1.symm.trans hb
      exact Or.inl (by simp [effect, RunPc.locked])
    · simp [inv.resubmit_disabled] at h
  · cases hpublishes with
    | skip =>
        have hlock : s.run c = .lock j := (of_decide_eq_true h).1
        have hzero := inv.firstRun c j (by rw [hlock]; rfl)
        exact absurd (hzero ▸ hidx : 0 < 0) (Nat.lt_irrefl 0)
    | program => exact Or.inl (by simp [effect, RunPc.locked])

theorem Programmed.preserve (inv : Programmed s) (h : enabled s a = true) :
    Programmed (effect s a) where
  toScheduled := inv.toScheduled.preserve h
  writingProgram := keep_writingProgram inv h
  logProgram := keep_logProgram inv h
  logOnce := keep_logOnce inv h
  inFlightStarted := keep_inFlightStarted inv h

end Preserve

theorem Programmed.initial (n : Nat) : Programmed (State.init n) where
  toScheduled := Scheduled.initial n
  writingProgram := fun c j p rest h => by simp [State.init] at h
  logProgram := fun q h => by simp [State.init] at h
  logOnce := List.nodup_nil
  inFlightStarted := fun c j h => by simp [State.init] at h

theorem Programmed.reachable {n : Nat} {acts : List Action} {s : State}
    (run : Runs driver (State.init n) acts s) : Programmed s :=
  run_invariant Programmed (Programmed.initial n) (fun _ _ inv h => inv.preserve h) run

/-- The one program of a job that reached the hardware. -/
theorem Programmed.program_unique {s : State} (inv : Programmed s) {p q : Program}
    (hp : p ∈ s.log) (hq : q ∈ s.log) (h : p.job = q.job) : p = q :=
  List.inj_on_of_nodup_map inv.logOnce hp hq h

end Rkopnu.Driver
