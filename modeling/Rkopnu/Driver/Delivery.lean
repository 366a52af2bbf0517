import Rkopnu.Driver.Interrupt
import Rkopnu.Driver.PowerBalance

/-!
# The registers of a running job, and who will complete it

The hard handler and its thread write three registers of a core without `job_lock`, also while
`rocket_job_hw_submit` programs the core for the next job. The other registers are left to the
program, so a job in flight runs on its own words. And when an interrupt has taken away the mask
that the job programmed, or a status bit that the core raised for it, the IRQ thread is due: it
will find the job in flight and complete it.
-/

namespace Rkopnu.Driver

open Function (update)
open Transition

/-- The value that a sequence of writes leaves in a register, if it names the register. -/
def written (ws : List RegWrite) (r : Reg) : Option U32 :=
  (ws.reverse.find? fun w => w.reg = r).map RegWrite.value

@[simp] theorem written_nil (r : Reg) : written [] r = none := rfl

@[simp] theorem written_concat (ws : List RegWrite) (w : RegWrite) (r : Reg) :
    written (ws ++ [w]) r = if w.reg = r then some w.value else written ws r := by
  simp only [written, List.reverse_append, List.reverse_singleton, List.singleton_append,
    List.find?_cons]
  split <;> simp_all

/-- A register that the interrupt path writes, too. -/
def irqWrites : Reg → Bool
  | .interruptMask | .interruptClear | .operationEnable => true
  | _ => false

/-- The core holds what the writes have put into the registers of the program alone. -/
def Npu.Carries (n : Npu) (done : List RegWrite) : Prop :=
  ∀ r v, irqWrites r = false → written done r = some v → n.regs r = v

/-- Every bit raised since the start still stands. -/
def Npu.Stands (n : Npu) : Prop := ∀ i, n.raised.getLsbD i = true → n.raw.getLsbD i = true

/-- The core holds the mask of the writes, and since its start no raised bit was lost. -/
def Npu.Attends (n : Npu) (done rest : List RegWrite) : Prop :=
  (∀ v, written done .interruptMask = some v → n.regs .interruptMask = v) ∧
    (goWrite ∉ rest → n.Stands)

section Npu
variable {n : Npu} {done rest : List RegWrite} {w : RegWrite}

/-- A write of the program, which starts the core or not. -/
theorem Npu.Carries.write (h : n.Carries done) : (n.write w).Carries (done ++ [w]) := by
  intro r v hr hv
  rw [written_concat] at hv
  by_cases hw : w.reg = r
  · rw [if_pos hw] at hv
    obtain rfl := Option.some.inj hv
    simp [Npu.write, hw]
  · rw [if_neg hw] at hv
    rw [← h r v hr hv]
    simp [Npu.write, Function.update_of_ne (Ne.symm hw)]

/-- A write of the interrupt path. -/
theorem Npu.Carries.irqWrite (h : n.Carries done) (hw : irqWrites w.reg = true) :
    (n.write w).Carries done := by
  intro r v hr hv
  have hne : r ≠ w.reg := by
    rintro rfl
    simp [hw] at hr
  rw [← h r v hr hv]
  simp [Npu.write, Function.update_of_ne hne]

/-- After its start the core gets no write that acknowledges a status bit. -/
theorem Npu.Attends.write (h : n.Attends done (w :: rest))
    (hclear : goWrite ∉ rest → w = goWrite ∨ w.reg ≠ .interruptClear) {j : Nat} :
    (if w = goWrite then (n.write w).start j else n.write w).Attends (done ++ [w]) rest := by
  have hregs : (if w = goWrite then (n.write w).start j else n.write w).regs =
      (n.write w).regs := by
    split <;> rfl
  constructor
  · intro v hv
    rw [hregs]
    rw [written_concat] at hv
    by_cases hw : w.reg = .interruptMask
    · rw [if_pos hw] at hv
      obtain rfl := Option.some.inj hv
      simp [Npu.write, hw]
    · rw [if_neg hw] at hv
      rw [← h.1 v hv]
      simp [Npu.write, Function.update_of_ne (Ne.symm hw)]
  · intro hgo i hi
    by_cases hw : w = goWrite
    · simp [hw, Npu.start] at hi
    · have hreg := (hclear hgo).resolve_left hw
      rw [if_neg hw] at hi ⊢
      have hraw : (n.write w).raw = n.raw := if_neg hreg
      rw [hraw]
      exact h.2 (by simp [Ne.symm hw, hgo]) i hi

theorem Npu.Attends.raise (h : n.Attends done rest) (bits : U32) :
    (n.raise bits).Attends done rest := by
  refine ⟨h.1, fun hgo i hi => ?_⟩
  simp only [Npu.raise, BitVec.getLsbD_or, Bool.or_eq_true] at hi ⊢
  exact hi.imp_left (h.2 hgo i)

end Npu

/-- Once the core is started no status bit is acknowledged by the program. -/
theorem clear_before_go {job : RocketJob} {ci : Nat} {first last : RknpuTask} {w : RegWrite}
    {rest : List RegWrite} (h : w :: rest <:+ hwSubmitWrites job ci first last)
    (hgo : goWrite ∉ rest) : w = goWrite ∨ w.reg ≠ .interruptClear := by
  simp only [hwSubmitWrites, List.suffix_cons_iff, List.cons.injEq, List.suffix_nil,
    reduceCtorEq, or_false] at h
  rcases h with ⟨rfl, rfl⟩ | ⟨rfl, rfl⟩ | ⟨rfl, rfl⟩ | ⟨rfl, rfl⟩ | ⟨rfl, rfl⟩ | ⟨rfl, rfl⟩ |
    ⟨rfl, rfl⟩ | ⟨rfl, rfl⟩ | ⟨rfl, rfl⟩ | ⟨rfl, rfl⟩ | ⟨rfl, rfl⟩ <;> simp [goWrite] at hgo ⊢

namespace State
variable (s : State)

/-- The IRQ thread of the core will pass through its `job_lock` section: a hard handler has
woken it, or it has quiesced the registers. -/
def IrqDue (c : Nat) : Prop := s.irqWake c ≠ none ∨ ∃ seen, s.irq c = .entered seen

/-- Job `j` is being programmed on the core, or is in flight there with all of its program
written; `rest` is what is left to write of the program. -/
def Programming (c j : Nat) (p : Program) (rest : List RegWrite) : Prop :=
  s.run c = .writing j p rest ∨ rest = [] ∧ (s.run c).locked = false ∧
    s.inFlight c = some j ∧ 0 < s.nextTaskIdx j ∧ p ∈ s.log ∧ p.job = j

/-- The registers of a core follow the program of its job, as far as it is written. -/
def Carried : Prop := ∀ c j p rest, s.Programming c j p rest →
  ∃ done, done ++ rest = p.writes ∧ (s.npu c).Carries done ∧
    (s.IrqDue c ∨ (s.npu c).Attends done rest)

end State

/-- What is known about the registers of the cores. -/
structure Delivered (s : State) : Prop extends Programmed s where
  carried : s.Carried

/-- The core whose IRQ thread leaves `rocket_job_handle_irq` in the step. -/
def Action.endsIrq : Action → Option Nat
  | .irqNone c _ | .irqSkip c _ _ | .irqComplete c _ _ => some c
  | _ => none

/-- The core whose interrupt path runs in the step: its hard handler or its thread. -/
def Action.irqOf : Action → Option Nat
  | .irqHard c | .irqThread c _ | .irqNone c _ | .irqSkip c _ _ | .irqResubmit c _ _ _
  | .irqWrite c _ _ _ _ | .irqComplete c _ _ => some c
  | _ => none

section Preserve
variable {s : State} {a : Action} {c j : Nat} {p : Program} {rest : List RegWrite}

/-- An IRQ thread that is due stays due until it has passed through its section. -/
theorem State.IrqDue.stays (inv : Threaded s) (h : enabled s a = true) (due : s.IrqDue c)
    (hend : a.endsIrq ≠ some c) : (effect s a).IrqDue c := by
  rcases due with hwake | ⟨seen, hentered⟩
  · cases a with
    | irqHard b =>
        refine Or.inl ?_
        simp only [effect]
        split
        · exact hwake
        · by_cases hc : c = b <;> simp [hc, hwake, update]
    | irqThread b seen =>
        by_cases hc : c = b
        · exact Or.inr ⟨seen, by simp [effect, hc]⟩
        · exact Or.inl (by simpa [effect, hc] using hwake)
    | runWrite b k q w more =>
        refine Or.inl ?_
        simp only [effect, State.hwWrite]
        split
        · by_cases hc : c = b
          · subst hc
            simpa using hwake
          · simpa [hc] using hwake
        · exact hwake
    | irqWrite b k q w more => simp [inv.irqWrite_disabled] at h
    | _ => exact Or.inl hwake
  · refine Or.inr ?_
    rcases irq_effect h c with hmove | hstay
    · rw [hentered] at hmove
      generalize (effect s a).irq c = q at hmove ⊢
      cases hmove with
      | none | skip | complete => exact absurd rfl hend
      | resubmit => simp [inv.resubmit_disabled] at h
      | forget => exact ⟨0#32, rfl⟩
    · exact ⟨seen, hstay.trans hentered⟩

/-- A program is begun, its next register is written, or it stands as it did before the
step, which does not reset the core and is no pass of the IRQ thread. -/
theorem Programmed.programming_before (inv : Programmed s) (h : enabled s a = true)
    (hp : (effect s a).Programming c j p rest) :
    rest = p.writes ∨ (∃ w, a = .runWrite c j p w rest) ∨
      s.Programming c j p rest ∧ a.endsIrq ≠ some c ∧
        (∀ k q w more, a ≠ .runWrite c k q w more) ∧ ∀ k, a ≠ .tdrHwReset c k := by
  rcases run_effect h c with hmove | ⟨hother, hstay⟩
  · rcases hp with hw | ⟨rfl, hunlocked, hfly, hidx, hlog, hjob⟩
    · rw [hw] at hmove
      generalize s.run c = pc at hmove
      cases hmove with
      | program => exact Or.inl rfl
      | write => exact Or.inr (Or.inl ⟨_, rfl⟩)
    · generalize hrun : s.run c = pc at hmove
      generalize (effect s a).run c = q at hmove hunlocked
      cases hmove with
      | program | write => cases hunlocked
      | @lastWrite _ k q w =>
          obtain ⟨-, -, hq, -⟩ := inv.program_of_runWrite h
          obtain rfl := Option.some.inj (hfly.symm.trans (inv.writing c _ _ _ hrun).1)
          have hqlog := (started_of_written inv hrun List.not_mem_nil).1
          obtain rfl := (inv.preserve h).program_unique hlog hqlog (hjob.trans hq.symm)
          exact Or.inr (Or.inl ⟨w, rfl⟩)
      | @skip _ k =>
          obtain rfl : k = j := by simpa [effect] using hfly
          have hzero := inv.firstRun c k (by rw [hrun]; rfl)
          have hsame : (effect s (.runSkip c k)).nextTaskIdx k = s.nextTaskIdx k := rfl
          omega
      | _ =>
          refine Or.inr (Or.inr ⟨Or.inr ⟨rfl, ?_, hfly, hidx, hlog, hjob⟩, by
            simp [Action.endsIrq], by simp, by simp⟩)
          rw [hrun]
          rfl
  · have hnotWrite : ∀ k q w more, a ≠ .runWrite c k q w more := by
      rintro k q w more rfl
      exact hother rfl
    rcases hp with hw | ⟨rfl, hunlocked, hfly, hidx, hlog, hjob⟩
    · have hrun : s.run c = .writing j p rest := hstay ▸ hw
      refine Or.inr (Or.inr ⟨Or.inl hrun, fun hend => ?_, hnotWrite, ?_⟩)
      · cases a <;> simp_all [Action.endsIrq, enabled, State.jobLockFree, RunPc.locked]
      · rintro k rfl
        have hidle := inv.parkedIdle c (by rw [(of_decide_eq_true h : s.tdr c = .hwReset k)]; rfl)
        simp [hidle] at hrun
    · have hold : s.inFlight c = some j := by
        refine (inFlight_before hfly).resolve_right fun hpub => hother ?_
        cases hpub <;> rfl
      obtain ⟨hcore, hstarted, -⟩ := inv.inFlight c j hold
      have hpos : 0 < s.nextTaskIdx j := by
        rcases nextTaskIdx_effect (s := s) (a := a) j with
          hsame | ⟨-, ⟨b, mem, rfl⟩ | ⟨b, seen, mem, rfl⟩⟩
        · omega
        · have hlock : s.run b = .lock j := (enabled_runProgram.mp h).1
          have hb := (inv.running b j (by rw [hlock]; rfl)).1
          exact absurd (congrArg some (hb.symm.trans hcore)) hother
        · simp [inv.resubmit_disabled] at h
      have hlogged : p ∈ s.log := by
        refine (logged_before inv.toThreaded h hlog).resolve_right ?_
        rintro ⟨b, k, more, rfl⟩
        obtain ⟨hk, -, hq, -⟩ := inv.program_of_runWrite h
        have hb := (inv.running b k hk).1
        rw [← hq, hjob, hcore] at hb
        exact hother (congrArg some hb.symm)
      have hone := inv.oneTask_of_started hstarted
      refine Or.inr (Or.inr ⟨Or.inr ⟨rfl, hstay ▸ hunlocked, hold, hpos, hlogged, hjob⟩,
        fun hend => ?_, hnotWrite, ?_⟩)
      · cases a with
        | irqNone b seen =>
            obtain rfl := Option.some.inj hend
            simp [(of_decide_eq_true h).2.2] at hold
        | irqSkip b seen k =>
            obtain rfl := Option.some.inj hend
            obtain ⟨-, -, hk, hlt, -⟩ := of_decide_eq_true h
            obtain rfl := Option.some.inj (hk.symm.trans hold)
            omega
        | irqComplete b seen k =>
            obtain rfl := Option.some.inj hend
            simp [effect] at hfly
        | _ => cases hend
      · rintro k rfl
        have hempty := inv.emptied c (by rw [(of_decide_eq_true h : s.tdr c = .hwReset k)]; rfl)
        simp [hempty] at hold

/-- What is programmed on a core is the program of its job. -/
theorem Programmed.program_of_programming (inv : Programmed s) (h : s.Programming c j p rest) :
    (∃ mem, p = hwProgram (s.job j) j c mem) ∧ rest <:+ p.writes := by
  rcases h with hrun | ⟨rfl, -, hfly, -, hlog, rfl⟩
  · obtain ⟨hmem, hsuffix, -⟩ := inv.writingProgram c j p rest hrun
    exact ⟨hmem, hsuffix⟩
  · obtain ⟨⟨mem, hmem⟩, hcore, -⟩ := inv.logProgram p hlog
    rw [(inv.inFlight c p.job hfly).1] at hcore
    exact ⟨⟨mem, by rw [hcore]; exact hmem⟩, List.nil_suffix⟩

theorem keep_carried (inv : Delivered s) (h : enabled s a = true) : (effect s a).Carried := by
  intro c j p rest hp
  rcases inv.programming_before h hp with rfl | ⟨w, rfl⟩ | ⟨hold, hend, hwrite, hreset⟩
  · refine ⟨[], rfl, fun r v _ hv => by simp at hv, Or.inr ⟨fun v hv => by simp at hv, ?_⟩⟩
    obtain ⟨⟨mem, hmem⟩, -⟩ := (inv.preserve h).program_of_programming hp
    have hgo : goWrite ∈ p.writes := by simp [hmem, hwProgram, hwSubmitWrites, goWrite]
    exact fun hout => absurd hgo hout
  · have hrun := enabled_runWrite.mp h
    obtain ⟨⟨mem, hmem⟩, hsuffix⟩ := inv.program_of_programming (Or.inl hrun)
    obtain ⟨done, hdone, hcarries, hmask⟩ := inv.carried c j p (w :: rest) (Or.inl hrun)
    have hnpu : (effect s (.runWrite c j p w rest)).npu c =
        if w = goWrite then ((s.npu c).write w).start j else (s.npu c).write w := by
      simp [effect, State.hwWrite]
    refine ⟨done ++ [w], by simpa using hdone, ?_, ?_⟩
    · have hnext := hcarries.write (w := w)
      rw [hnpu]
      split <;> exact hnext
    · rw [hnpu]
      refine hmask.imp (fun due => due.stays inv.toThreaded h (by simp [Action.endsIrq])) ?_
      rw [hmem] at hsuffix
      exact fun hattends => hattends.write (clear_before_go hsuffix)
  · obtain ⟨done, hdone, hcarries, hmask⟩ := inv.carried c j p rest hold
    refine ⟨done, hdone, ?_⟩
    have hdue : s.IrqDue c → (effect s a).IrqDue c := fun due => due.stays inv.toThreaded h hend
    rcases npu_effect inv.toThreaded h c with hmove | hstay
    · generalize hn : s.npu c = n at hmove hcarries hmask
      generalize hm : (effect s a).npu c = m at hmove ⊢
      cases hmove with
      | raise => exact ⟨hcarries, hmask.imp hdue fun hattends => hattends.raise _⟩
      | mask =>
          refine ⟨hcarries.irqWrite rfl, ?_⟩
          -- the handler that takes the mask off has woken the thread
          by_cases hraw : n.raw = 0#32
          · have hsame : (effect s (.irqHard c)).npu c = n := by simp [effect, hn, hraw]
            rw [← hm, hsame]
            exact hmask.imp_left hdue
          · exact Or.inl (Or.inl (by simp [effect, hn, hraw]))
      | @quiesce _ seen =>
          refine ⟨(hcarries.irqWrite rfl).irqWrite rfl, Or.inl (Or.inr ⟨seen, ?_⟩)⟩
          simp [effect]
      | write => exact absurd rfl (hwrite _ _ _ _)
      | start => exact absurd rfl (hwrite _ _ _ _)
      | reset => exact absurd rfl (hreset _)
    · rw [hstay]
      exact ⟨hcarries, hmask.imp_left hdue⟩

theorem Delivered.preserve (inv : Delivered s) (h : enabled s a = true) :
    Delivered (effect s a) where
  toProgrammed := inv.toProgrammed.preserve h
  carried := keep_carried inv h

end Preserve

theorem Delivered.initial (n : Nat) : Delivered (State.init n) where
  toProgrammed := Programmed.initial n
  carried := by
    rintro c j p rest (hrun | ⟨-, -, hfly, -⟩)
    · simp [State.init] at hrun
    · simp [State.init] at hfly

theorem Delivered.reachable {n : Nat} {acts : List Action} {s : State}
    (run : Runs driver (State.init n) acts s) : Delivered s :=
  run_invariant Delivered (Delivered.initial n) (fun _ _ inv h => inv.preserve h) run

section Results
variable {s : State} {c j : Nat}

/-- A program puts a word into every register. -/
theorem written_of_program {job : RocketJob} {mem : Int → RknpuTask} (r : Reg) :
    written (hwProgram job j c mem).writes r = some ((hwProgram job j c mem).word r) := by
  cases r <;> rfl

/-- The programmed job in flight, once its registers are written. -/
theorem Delivered.programming (inv : Delivered s) (hfly : s.inFlight c = some j)
    (hidx : 0 < s.nextTaskIdx j) (hunlocked : (s.run c).locked = false) :
    ∃ p, s.Programming c j p [] ∧ (s.npu c).started = some j := by
  rcases inv.inFlightStarted c j hfly hidx with hlocked | ⟨hstarted, p, hp, hjob, -⟩
  · simp [hunlocked] at hlocked
  · exact ⟨p, Or.inr ⟨rfl, hunlocked, hfly, hidx, hp, hjob⟩, hstarted⟩

/-- In every run, a job in flight whose registers are written is the one its core was started
on, the core is the one that the submit chose, and whatever interrupts came in between,
each register that the interrupt path does not write holds the word of the job's program. -/
theorem in_flight_job_keeps_program {n : Nat} {acts : List Action}
    (run : Runs driver (State.init n) acts s) (hfly : s.inFlight c = some j)
    (hidx : 0 < s.nextTaskIdx j) (hunlocked : (s.run c).locked = false) :
    submitCore n (s.args j) = c ∧ (s.npu c).started = some j ∧
      ∃ mem, hwProgram (submitJob n (s.args j)) j c mem ∈ s.log ∧
        ∀ r, irqWrites r = false →
          (s.npu c).regs r = (hwProgram (submitJob n (s.args j)) j c mem).word r := by
  have inv := Delivered.reachable run
  obtain ⟨p, hp, hstarted⟩ := inv.programming hfly hidx hunlocked
  obtain ⟨hcore, hplace, -⟩ := inv.inFlight c j hfly
  have hjob : s.job j = submitJob n (s.args j) := by
    rw [inv.filled j (Or.inl (Place.ne_outside_of_started hplace)), cores_of_run run]
  obtain ⟨⟨mem, hmem⟩, -⟩ := inv.program_of_programming hp
  obtain ⟨done, hdone, hcarries, -⟩ := inv.carried c j p [] hp
  rw [List.append_nil] at hdone
  rw [hjob] at hcore hmem
  have hlog : p ∈ s.log := by
    rcases hp with hrun | ⟨-, -, -, -, hlog, -⟩
    · simp [hrun, RunPc.locked] at hunlocked
    · exact hlog
  refine ⟨hcore, hstarted, mem, hmem ▸ hlog, fun r hr => hcarries r _ hr ?_⟩
  rw [hdone, hmem]
  exact written_of_program r

/-- The IRQ thread that has quiesced the registers completes the job in flight. -/
theorem completes_of_entered (inv : Delivered s) (hfly : s.inFlight c = some j)
    (hidx : 0 < s.nextTaskIdx j) (hunlocked : (s.run c).locked = false) {seen : U32}
    (hentered : s.irq c = .entered seen) :
    ∃ t, Runs driver s [.irqComplete c seen j] t ∧ t.IrqCompleted j := by
  obtain ⟨-, hstarted, -, hopen, -⟩ := inv.inFlight c j hfly
  have hone := inv.oneTask_of_started hstarted
  have hen : enabled s (.irqComplete c seen j) = true := by
    have hirq : (s.irq c).locked = false := inv.irqOutside c
    simp only [enabled, decide_eq_true_eq, State.jobLockFree, hunlocked, hirq]
    exact ⟨hentered, rfl, hfly, by omega⟩
  obtain ⟨f, hf, hsig⟩ := Option.map_eq_some_iff.mp hopen
  refine ⟨_, runs_single.mpr (driver_eq_some.mpr ⟨hen, rfl⟩), f.signal .irqThread none, ?_, ?_⟩
  · simp [effect, State.signalDone, hf]
  · simp [Fence.signal, hsig]

/-- The IRQ thread that was woken runs and completes the job in flight. -/
theorem completes_of_due (inv : Delivered s) (hfly : s.inFlight c = some j)
    (hidx : 0 < s.nextTaskIdx j) (hunlocked : (s.run c).locked = false) (due : s.IrqDue c) :
    ∃ path t, (∀ a ∈ path, a.irqOf = some c) ∧ path.length ≤ 2 ∧ Runs driver s path t ∧
      t.IrqCompleted j := by
  have hidle : (∃ seen, s.irq c = .entered seen) ∨ s.irq c = .idle := by
    cases hirq : s.irq c with
    | idle => exact Or.inr rfl
    | entered seen => exact Or.inl ⟨seen, rfl⟩
    | writing k q rest =>
        have := inv.irqOutside c
        simp [hirq, IrqPc.locked] at this
  rcases hidle with ⟨seen, hentered⟩ | hidle
  · obtain ⟨t, ht, hdone⟩ := completes_of_entered inv hfly hidx hunlocked hentered
    exact ⟨_, t, by simp [Action.irqOf], by simp, ht, hdone⟩
  · obtain ⟨seen, hwake⟩ : ∃ seen, s.irqWake c = some seen := by
      rcases due with hwake | ⟨seen, hentered⟩
      · exact Option.ne_none_iff_exists'.mp hwake
      · simp [hidle] at hentered
    have hen : enabled s (.irqThread c seen) = true := decide_eq_true ⟨hwake, hidle⟩
    have hentered : (effect s (.irqThread c seen)).irq c = .entered seen := by simp [effect]
    obtain ⟨t, ht, hdone⟩ :=
      completes_of_entered (inv.preserve hen) hfly hidx hunlocked hentered
    have hstep := driver_eq_some.mpr ⟨hen, rfl⟩
    exact ⟨_, t, by simp [Action.irqOf], by simp, runs_cons.mpr ⟨_, hstep, ht⟩, hdone⟩

/-- The second of the two DPU bits is raised for a job on fresh hardware. -/
def raisedSteps : List Action := startOne ++ [.raise 0 0x200#32]

theorem raisedSteps_accepted :
    ((exec driver (State.init 1) raisedSteps).map fun s =>
      decide (s.inFlight 0 = some 0 ∧ s.nextTaskIdx 0 = 1 ∧ (s.run 0).locked = false ∧
        (s.npu 0).raised = 0x200#32)) = some true := by
  decide

theorem in_flight_job_keeps_program_raised :
    ∃ s, Runs driver (State.init 1) raisedSteps s ∧ (s.npu 0).started = some 0 := by
  obtain ⟨s, run, test⟩ := runs_of_test raisedSteps_accepted
  obtain ⟨hfly, hidx, hunlocked, -⟩ := of_decide_eq_true test
  exact ⟨s, run, (in_flight_job_keeps_program run hfly (by omega) hunlocked).2.1⟩

end Results

end Rkopnu.Driver
