import Rkopnu.Driver.Programs

/-!
# What an interrupt completes

The hard handler wakes its thread on any raw status bit and the thread reads no
status at all: it completes whatever job is in flight. That job's program was
started and is the last one started on the core. If the core was started with no
thread of an earlier wake-up still due, a status was read since then, and it shows
bits raised since then or already standing when the core was started.
-/

namespace Rkopnu.Driver

open Function (update)
open Transition

/-- Every bit of the value was raised since the last start, or stood at it. -/
def Npu.Accounts (n : Npu) (v : U32) : Prop := ∀ i, v.getLsbD i = true →
  n.raised.getLsbD i = true ∨ n.residue.getLsbD i = true

section Status
variable {n : Npu} {v w : U32}

theorem Npu.accounts_zero (n : Npu) : n.Accounts 0#32 := fun i h => by simp at h

theorem Npu.Accounts.or (hv : n.Accounts v) (hw : n.Accounts w) : n.Accounts (v ||| w) := by
  intro i h
  rcases Bool.or_eq_true_iff.mp (by simpa using h) with h | h
  · exact hv i h
  · exact hw i h

theorem Npu.Accounts.raise (hv : n.Accounts v) (bits : U32) : (n.raise bits).Accounts v := by
  intro i h
  rcases hv i h with h | h
  · exact Or.inl (by simp [Npu.raise, h])
  · exact Or.inr h

theorem Npu.accounts_raised (n : Npu) (bits : U32) : (n.raise bits).Accounts bits := by
  intro i h
  exact Or.inl (by simp [Npu.raise, h])

theorem Npu.Accounts.write (hv : n.Accounts v) (r : RegWrite) : (n.write r).Accounts v := hv

/-- A register write raises no status bit. -/
theorem Npu.accounts_raw_write (h : n.Accounts n.raw) (r : RegWrite) :
    (n.write r).Accounts (n.write r).raw := by
  intro i hi
  refine h i ?_
  simp only [Npu.write] at hi
  split at hi
  · simp only [BitVec.getLsbD_and, Bool.and_eq_true] at hi
    exact hi.1
  · exact hi

/-- What stands when the core is started is its residue. -/
theorem Npu.accounts_raw_start (n : Npu) (j : Nat) : (n.start j).Accounts (n.start j).raw :=
  fun _ h => Or.inr h

end Status

namespace State
variable (s : State)

def RawAccounted : Prop := ∀ c, (s.npu c).Accounts (s.npu c).raw

/-- What was read for a wake-up not yet served is about the last program. -/
def WakeAccounted : Prop := ∀ c v, s.irqWake c = some v → (s.npu c).Accounts v

/-- What was read for the running thread is about the last program. -/
def SeenAccounted : Prop := ∀ c v, s.irq c = .entered v → (s.npu c).Accounts v

/-- On a core last started on job `j`, whatever wakes or woke the IRQ thread was read
since. -/
def WokenSince (j : Nat) : Prop := ∀ c, (s.npu c).started = some j →
  (∀ v, s.irqWake c = some v → v ≠ 0#32) ∧ ∀ v, s.irq c = .entered v → v ≠ 0#32

end State

/-- The step does not start a core on job `j` while an IRQ thread of the core is due or
runs. -/
def StartsServed (j : Nat) (s : State) : Action → Prop
  | .runWrite c i _ w _ => i = j → w = goWrite → s.irqWake c = none ∧ s.irq c = .idle
  | _ => True

instance (j : Nat) (s : State) (a : Action) : Decidable (StartsServed j s a) := by
  cases a with
  | runWrite c i p w rest =>
      exact inferInstanceAs
        (Decidable (i = j → w = goWrite → s.irqWake c = none ∧ s.irq c = .idle))
  | _ => exact isTrue trivial

/-- What is known about the interrupt status of the cores. -/
structure Signaled (s : State) : Prop extends Programmed s where
  raw : s.RawAccounted
  wake : s.WakeAccounted
  seen : s.SeenAccounted

section Preserve
variable {s : State} {a : Action}

theorem keep_rawAccounted (inv : Signaled s) (h : enabled s a = true) :
    (effect s a).RawAccounted := by
  intro c
  have keep := inv.raw c
  rcases npu_effect inv.toThreaded h c with hmove | hstay
  · generalize s.npu c = n at hmove keep
    generalize (effect s a).npu c = m at hmove ⊢
    cases hmove with
    | raise => exact (keep.raise _).or (Npu.accounts_raised _ _)
    | mask | write => exact Npu.accounts_raw_write keep _
    | quiesce => exact Npu.accounts_raw_write (Npu.accounts_raw_write keep _) _
    | start => exact Npu.accounts_raw_start _ _
    | reset => exact Npu.accounts_zero _
  · rw [hstay]
    exact keep

/-- What is about the last program stays so until the core is started on another one. -/
theorem accounts_effect (inv : Threaded s) (h : enabled s a = true) {c : Nat} {v : U32}
    (hv : (s.npu c).Accounts v) : ((effect s a).npu c).Accounts v ∨
      ∃ j p rest, a = .runWrite c j p goWrite rest := by
  rcases npu_effect inv h c with hmove | hstay
  · generalize s.npu c = n at hmove hv
    generalize (effect s a).npu c = m at hmove ⊢
    cases hmove with
    | raise => exact Or.inl (hv.raise _)
    | mask | write => exact Or.inl (hv.write _)
    | quiesce => exact Or.inl ((hv.write _).write _)
    | start => exact Or.inr ⟨_, _, _, rfl⟩
    | reset => exact Or.inl hv
  · exact Or.inl (hstay ▸ hv)

/-- What the hard handlers have read is what they had, with the present status or'ed in by one
of them, and is dropped when the core is started. -/
theorem wake_before (inv : Threaded s) (h : enabled s a = true) {c : Nat} {v : U32}
    (hv : (effect s a).irqWake c = some v) :
    (s.irqWake c = some v ∧ ¬ ∃ j p rest, a = .runWrite c j p goWrite rest) ∨
      (v = 0#32 ∧ ∃ j p rest, a = .runWrite c j p goWrite rest) ∨
      a = .irqHard c ∧ (s.npu c).raw ≠ 0#32 ∧
        (s.irqWake c).getD 0#32 ||| (s.npu c).raw = v := by
  cases a with
  | irqHard b =>
      simp only [effect] at hv
      split at hv
      · exact Or.inl ⟨hv, by simp⟩
      · rename_i hraw
        by_cases hc : c = b
        · subst hc
          exact Or.inr (Or.inr ⟨rfl, hraw, by simpa using hv⟩)
        · exact Or.inl ⟨by simpa [hc] using hv, by simp⟩
  | irqThread b seen =>
      by_cases hc : c = b
      · simp [effect, hc] at hv
      · exact Or.inl ⟨by simpa [effect, hc] using hv, by simp⟩
  | runWrite b j p w rest =>
      by_cases hgo : c = b ∧ w = goWrite
      · obtain ⟨rfl, rfl⟩ := hgo
        obtain ⟨u, -, rfl⟩ : ∃ u, s.irqWake c = some u ∧ 0#32 = v := by
          simpa [effect, State.hwWrite] using hv
        exact Or.inr (Or.inl ⟨rfl, _, _, _, rfl⟩)
      · refine Or.inl ⟨?_, ?_⟩
        · simp only [effect, State.hwWrite] at hv
          split at hv
          · rename_i hw
            rwa [Function.update_of_ne fun hc => hgo ⟨hc, hw⟩] at hv
          · exact hv
        · rintro ⟨i, q, more, heq⟩
          injection heq with hb _ _ hw
          exact hgo ⟨hb.symm, hw⟩
  | irqWrite b j p w rest => simp [inv.irqWrite_disabled] at h
  | _ => exact Or.inl ⟨hv, by simp⟩

theorem keep_wakeAccounted (inv : Signaled s) (h : enabled s a = true) :
    (effect s a).WakeAccounted := by
  intro c v hv
  rcases wake_before inv.toThreaded h hv with ⟨hold, hstart⟩ | ⟨rfl, -⟩ | ⟨rfl, -, rfl⟩
  · exact (accounts_effect inv.toThreaded h (inv.wake c v hold)).resolve_right hstart
  · exact Npu.accounts_zero _
  · have hwake : (s.npu c).Accounts ((s.irqWake c).getD 0#32) := by
      cases hwake : s.irqWake c with
      | none => exact Npu.accounts_zero _
      | some u => exact inv.wake c u hwake
    exact (accounts_effect inv.toThreaded h (hwake.or (inv.raw c))).resolve_right (by simp)

/-- The IRQ thread works on what the hard handlers have read, until the core is started. -/
theorem seen_before (h : enabled s a = true) {c : Nat} {v : U32}
    (hv : (effect s a).irq c = .entered v) :
    (s.irq c = .entered v ∧ ¬ ∃ j p rest, a = .runWrite c j p goWrite rest) ∨
      (v = 0#32 ∧ ∃ j p rest, a = .runWrite c j p goWrite rest) ∨ a = .irqThread c v := by
  by_cases hstart : ∃ j p rest, a = .runWrite c j p goWrite rest
  · refine Or.inr (Or.inl ⟨?_, hstart⟩)
    obtain ⟨j, p, rest, rfl⟩ := hstart
    have hforget : (s.irq c).forget = .entered v := by simpa [effect] using hv
    cases hpc : s.irq c <;> simp_all [IrqPc.forget]
  · rcases irq_effect h c with hmove | hstay
    · rw [hv] at hmove
      generalize s.irq c = p at hmove
      generalize hq : IrqPc.entered v = q at hmove
      cases hmove with
      | thread => exact Or.inr (Or.inr (by rw [IrqPc.entered.inj hq]))
      | forget => exact absurd ⟨_, _, _, rfl⟩ hstart
      | _ => cases hq
    · exact Or.inl ⟨hstay ▸ hv, hstart⟩

theorem keep_seenAccounted (inv : Signaled s) (h : enabled s a = true) :
    (effect s a).SeenAccounted := by
  intro c v hv
  rcases seen_before h hv with ⟨hold, hstart⟩ | ⟨rfl, -⟩ | rfl
  · exact (accounts_effect inv.toThreaded h (inv.seen c v hold)).resolve_right hstart
  · exact Npu.accounts_zero _
  · have hwake : s.irqWake c = some v := (of_decide_eq_true h).1
    exact (accounts_effect inv.toThreaded h (inv.wake c v hwake)).resolve_right (by simp)

/-- A hard handler reads a status that is not zero, and a served start drops nothing. -/
theorem keep_wokenSince (inv : Threaded s) (h : enabled s a = true) {j : Nat}
    (keep : s.WokenSince j) (ok : StartsServed j s a) : (effect s a).WokenSince j := by
  intro c hstarted
  by_cases hstart : ∃ i p rest, a = .runWrite c i p goWrite rest
  · obtain ⟨i, p, rest, rfl⟩ := hstart
    obtain rfl : i = j := by simpa [effect, State.hwWrite, Npu.start] using hstarted
    obtain ⟨hwake, hidle⟩ := ok rfl rfl
    constructor
    · intro v hv
      simp [effect, State.hwWrite, hwake] at hv
    · intro v hv
      simp [effect, hidle, IrqPc.forget] at hv
  · rw [(started_effect inv h c).resolve_right hstart] at hstarted
    obtain ⟨hwake, hseen⟩ := keep c hstarted
    constructor
    · intro v hv
      rcases wake_before inv h hv with ⟨hold, -⟩ | ⟨-, hgo⟩ | ⟨-, hraw, rfl⟩
      · exact hwake v hold
      · exact absurd hgo hstart
      · exact fun hzero => hraw (BitVec.or_eq_zero_iff.mp hzero).2
    · intro v hv
      rcases seen_before h hv with ⟨hold, -⟩ | ⟨-, hgo⟩ | rfl
      · exact hseen v hold
      · exact absurd hgo hstart
      · exact hwake v (of_decide_eq_true h).1

theorem Signaled.preserve (inv : Signaled s) (h : enabled s a = true) :
    Signaled (effect s a) where
  toProgrammed := inv.toProgrammed.preserve h
  raw := keep_rawAccounted inv h
  wake := keep_wakeAccounted inv h
  seen := keep_seenAccounted inv h

end Preserve

theorem Signaled.initial (n : Nat) : Signaled (State.init n) where
  toProgrammed := Programmed.initial n
  raw := fun _ => Npu.accounts_zero _
  wake := fun c v h => by simp [State.init] at h
  seen := fun c v h => by simp [State.init] at h

/-- What holds of the status in the runs that start no core on job `j` while an IRQ thread
of the core is due. -/
theorem signaled_of_startsServed {n j : Nat} {acts : List Action} {s : State}
    (run : Runs driver (State.init n) acts s)
    (served : Along driver (StartsServed j) (State.init n) acts) :
    Signaled s ∧ s.WokenSince j := by
  refine invariant_along (fun s => Signaled s ∧ s.WokenSince j)
    (fun s a t inv ok hstep => ?_) served run
    ⟨Signaled.initial n, fun c h => by simp [State.init] at h⟩
  obtain ⟨h, rfl⟩ := driver_eq_some.mp hstep
  exact ⟨inv.1.preserve h, keep_wokenSince inv.1.toThreaded h inv.2 ok⟩

/-- The IRQ thread has signaled the job's done fence. -/
def State.IrqCompleted (s : State) (j : Nat) : Prop :=
  ∃ f, s.doneFence j = some f ∧ f.signaler = some .irqThread

/-- Only the completion branch of `rocket_job_handle_irq` signals for the IRQ thread. -/
theorem irqComplete_of_completed {s : State} {a : Action} {j : Nat} (before : ¬ s.IrqCompleted j)
    (after : (effect s a).IrqCompleted j) : ∃ c seen, a = .irqComplete c seen j := by
  obtain ⟨f, hf, hsig⟩ := after
  have hother : s.doneFence j ≠ some f := fun hold => before ⟨f, hold, hsig⟩
  rcases doneFence_before hf with
    hold | ⟨c, -, rfl⟩ | ⟨g, hg, ⟨c, e, -, rfl⟩ | ⟨c, seen, rfl, -⟩⟩
  · exact absurd hold hother
  · cases hsig
  · unfold Fence.signal at hsig hother
    split at hsig
    · cases hsig
    · simp_all
  · exact ⟨c, seen, rfl⟩

/-- Since the job's program was started the hardware raised a status bit that the
program enabled, and no DMA error. -/
def State.EnabledCause (s : State) (c j : Nat) : Prop := ∃ p ∈ s.log, p.job = j ∧
  (s.npu c).raised &&& p.word .interruptMask ≠ 0#32 ∧
  (s.npu c).raised &&& dmaErrorBits = 0#32

/-- A started job whose core raises bit 30, which its program did not enable, and a DMA
read error. -/
def unmaskedSteps : List Action :=
  startOne ++ [.raise 0 0x40001000#32, .irqHard 0, .irqThread 0 0x40001000#32]

/-- The core raises bit 30 after its thread has cleared the status for job 0; job 1 is
started, and the shared line brings in the hard handler. -/
def standingSteps : List Action :=
  startOne ++ [.raise 0 0x300#32, .irqHard 0, .irqThread 0 0x300#32, .raise 0 0x40000000#32,
    .irqComplete 0 0x300#32 0] ++ submitSteps 0 1 0 submitOne ++ runSteps 0 1 ++
    programSteps 0 1 dpuTasks (hwProgram (submitJob 1 submitOne) 1 0 dpuTasks) ++
    [.irqHard 0, .irqThread 0 0x40000000#32]

theorem unmaskedSteps_accepted :
    ((exec driver (State.init 1) unmaskedSteps).map fun s =>
      enabled s (.irqComplete 0 0x40001000#32 0) &&
        decide (s.doneFence 0 = some ⟨1, none, none⟩) &&
        s.log.all fun p => decide ((s.npu 0).raised &&& p.word .interruptMask = 0#32)) =
      some true := by
  decide

theorem standingSteps_accepted :
    ((exec driver (State.init 1) standingSteps).map fun s =>
      enabled s (.irqComplete 0 0x40000000#32 1) &&
        decide (s.doneFence 1 = some ⟨2, none, none⟩ ∧ (s.npu 0).raised = 0#32)) =
      some true := by
  decide

end Rkopnu.Driver
