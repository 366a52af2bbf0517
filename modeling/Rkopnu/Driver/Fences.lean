import Rkopnu.Driver.Completion
import Rkopnu.Driver.References

/-!
# The done fences of a core

`rocket_fence_create` numbers the fences of a core, and a core works on one job at
a time, so the fences are signaled in the order of their numbers as long as
every job that leaves the core signals its own. The interrupt and the failed
attach do. A reset does not: the job it cancels leaves its fence behind.
-/

namespace Rkopnu.Driver

open Function (update)
open Transition

/-- The job whose done fence the step signals. -/
def Action.signals : Action → Option Nat
  | .runFail _ j _ | .irqComplete _ _ j => some j
  | _ => none

namespace State
variable (s : State)

/-- The done fence of the job exists and is signaled. -/
def DoneSignaled (j : Nat) : Prop := ∃ f, s.doneFence j = some f ∧ f.signaler ≠ none

/-- An unfinished started job holds the credit of its core, unless the scheduler of the
core is stopped. -/
def CreditHeld : Prop := ∀ j, (s.place j).started = true → s.finished j = false →
  s.active (s.job j).core = some j ∨ (s.tdr (s.job j).core).parked = true

/-- A `rocket_job_run` that returns no fence has made none. -/
def BareReturn : Prop := ∀ c j r, s.run c = .ret j r → r ≠ .fence → s.doneFence j = none

/-- A signaled job is finished, unless the scheduler has still to look at the fence it was
returned or has taken its callback off. -/
def SignaledSettled : Prop := ∀ j, (s.place j).started = true → s.DoneSignaled j →
  s.finished j = true ∨ s.run (s.job j).core = .ret j .fence ∨
    (s.tdr (s.job j).core).parked = true

/-- `emit_seqno` is the last number given out. -/
def SeqnoBound : Prop := ∀ j f, s.doneFence j = some f → f.seqno ≤ s.emitSeqno (s.job j).core

/-- An unsignaled done fence is of a job still to be finished, and is its core's last. -/
def OpenFence : Prop := ∀ j f, s.doneFence j = some f → f.signaler = none →
  (s.place j).started = true ∧ s.finished j = false ∧ f.seqno = s.emitSeqno (s.job j).core

/-- A core has at most one unsignaled done fence. -/
def OneOpenFence : Prop := ∀ j k, s.unsignaled j → s.unsignaled k →
  (s.job j).core = (s.job k).core → j = k

/-- The fences of every core are numbered upwards, signaled once and in order, and a job
is freed with its done fence signaled. -/
structure TimelineOrdered : Prop where
  /-- A new fence replaces none, and its number is above all the core has given out. -/
  increasing : ∀ c j, enabled s (.runCreate c j true) = true → s.doneFence j = none ∧
    ∀ k f g, s.doneFence k = some f → (s.job k).core = c →
      (effect s (.runCreate c j true)).doneFence j = some g → f.seqno < g.seqno
  /-- Only an unsignaled fence is signaled. -/
  once : ∀ a j, enabled s a = true → a.signals = some j → s.unsignaled j
  /-- A fence is signaled when the fences of its core with smaller numbers have been. -/
  gapless : ∀ a j f k g, enabled s a = true → a.signals = some j → s.doneFence j = some f →
    s.doneFence k = some g → (s.job k).core = (s.job j).core → g.seqno < f.seqno →
      g.signaler ≠ none
  /-- A job is freed after the fence made for it was signaled. -/
  freed : ∀ a j f, enabled s a = true → s.frees j < (effect s a).frees j →
    s.doneFence j = some f → f.signaler ≠ none

end State

/-- The step does not cancel a job whose done fence is unsignaled. -/
def CancelsSignaled (s : State) (a : Action) : Prop := ∀ c j k, a = .tdrCancel c j k →
  ¬ s.unsignaled k

/-- What is known about the done fences in every run. -/
structure Fenced (s : State) : Prop extends Reported s, Referenced s where
  creditHeld : s.CreditHeld
  bareReturn : s.BareReturn
  signaledSettled : s.SignaledSettled
  seqnoBound : s.SeqnoBound

section Preserve
variable {s : State} {a : Action}

/-- A job that is filled in is not in the scheduler and has no done fence. -/
theorem Scheduled.blank_of_jobInit (inv : Scheduled s) {j : Nat} (h : s.call j = .jobInit) :
    s.place j = .outside ∧ s.doneFence j = none := by
  have hout := inv.outside j (by simp [h, CallPc.beforePush])
  exact ⟨hout, (inv.blank j (by simp [hout, Place.started]) (by simp [hout])).2.1⟩

/-- The scheduler runs again when every started job of the core has finished. -/
theorem Scheduled.finished_of_restart (inv : Scheduled s) {c j k : Nat}
    (h : enabled s (.tdrRestart c j) = true) (hk : (s.place k).started = true)
    (hc : (s.job k).core = c) : s.finished k = true := by
  simp only [enabled, decide_eq_true_eq] at h
  obtain ⟨hloop, hpending⟩ := h
  cases hp : s.place k with
  | pending =>
      exact hpending k (inv.lt_jobs (by simp [hp])) hp hc
  | timedOut =>
      rcases inv.timedOut k hp with hoff | ⟨hjob, hguilty⟩
      · simp [hc, hloop, TdrPc.offList] at hoff
      · obtain ⟨i, hi, -, -, hfin⟩ := inv.guiltyHeld _ hguilty
        obtain rfl := Option.some.inj (hjob.symm.trans hi)
        exact hfin
  | outside | queued | released => simp [hp, Place.started] at hk

/-- A pushed job that is unfinished on a stopped core keeps the scheduler stopped. -/
theorem Scheduled.parked_stays (inv : Scheduled s) (h : enabled s a = true) {k : Nat}
    (hk : (s.place k).started = true) (hfin : s.finished k = false)
    (hparked : (s.tdr (s.job k).core).parked = true) :
    ((effect s a).tdr (s.job k).core).parked = true := by
  refine parked_until_restart h hparked ?_
  rintro j rfl
  simp [inv.finished_of_restart h hk rfl] at hfin

theorem keep_creditHeld (inv : Fenced s) (h : enabled s a = true) : (effect s a).CreditHeld := by
  intro k hk hfin
  obtain ⟨hold, hnot⟩ := unfinished_before hfin
  rcases inv.started_before h hk with hstarted | ⟨c, e, rfl⟩
  · rw [inv.job_of_placed h (Place.ne_outside_of_started hstarted)]
    rcases inv.creditHeld k hstarted hold with hcredit | hparked
    · rcases active_effect (s := s) (a := a) (s.job k).core with
        hsame | ⟨i, e, rfl⟩ | ⟨i, hi, hgiven⟩
      · exact Or.inl (hsame.trans hcredit)
      · simp [(of_decide_eq_true h).2.2.2.1] at hcredit
      · obtain rfl : k = i := Option.some.inj (hcredit.symm.trans hi)
        rcases hgiven with hfinishes | ⟨c, j, rfl⟩
        · exact absurd hfinishes hnot
        · obtain ⟨hstop, -, hcore, -⟩ := of_decide_eq_true h
          exact Or.inr (by simp [effect, hcore, hstop, TdrPc.parked])
    · exact Or.inr (inv.toReported.toScheduled.parked_stays h hstarted hold hparked)
  · have hcore : (s.job k).core = c := (of_decide_eq_true h).2.2.2.2.2.1
    exact Or.inl (by simp [effect, hcore])

theorem keep_bareReturn (inv : Fenced s) (h : enabled s a = true) : (effect s a).BareReturn := by
  intro c j r hj hr
  have keep := inv.bareReturn c
  rcases run_effect h c with hmove | ⟨hother, hstay⟩
  · have hfresh := inv.fenceFresh c
    generalize s.run c = p at hmove hfresh
    generalize (effect s a).run c = q at hmove hj
    cases hmove with
    | null | createFail =>
        obtain ⟨rfl, -⟩ := RunPc.ret.injEq .. ▸ hj
        exact hfresh _ rfl
    | pmGetFail | skip | lastWrite | fail =>
        obtain ⟨-, rfl⟩ := RunPc.ret.injEq .. ▸ hj
        exact absurd rfl hr
    | _ => cases hj
  · rw [hstay] at hj
    have hnone := keep j r hj hr
    cases hf : (effect s a).doneFence j with
    | none => rfl
    | some f =>
        rcases doneFence_before hf with hold | ⟨b, rfl, -⟩ | ⟨g, hg, -⟩
        · simp [hnone] at hold
        · have hcreate : s.run b = .create j := of_decide_eq_true h
          have hb := inv.run_unique (c := c) (by rw [hcreate]; rfl) (by rw [hj]; rfl)
          exact absurd (congrArg some hb) hother
        · simp [hnone] at hg

/-- A signaled done fence was signaled before the step, or is signaled by it. -/
theorem doneSignaled_before {j : Nat} (hj : (effect s a).DoneSignaled j) :
    s.DoneSignaled j ∨ a.signals = some j := by
  obtain ⟨f, hf, hsig⟩ := hj
  rcases doneFence_before hf with
    hold | ⟨c, -, rfl⟩ | ⟨g, -, ⟨c, e, rfl, -⟩ | ⟨c, seen, rfl, -⟩⟩
  · exact Or.inl ⟨f, hold, hsig⟩
  · exact absurd rfl hsig
  · exact Or.inr rfl
  · exact Or.inr rfl

/-- Who was still to finish a job when its fence is signaled sees the signal, or is on its
way. -/
theorem Fenced.settled_of_signals (inv : Fenced s) (h : enabled s a = true) {j : Nat}
    (ha : a.signals = some j) (hnot : ¬ Finishes s a j) :
    (effect s a).run (s.job j).core = .ret j .fence ∨
      ((effect s a).tdr (s.job j).core).parked = true := by
  cases a with
  | runFail c k e =>
      obtain rfl := Option.some.inj ha
      have hfail : s.run c = .fail k e := of_decide_eq_true h
      have hcore := (inv.running c k (by rw [hfail]; rfl)).1
      exact Or.inl (by simp [effect, hcore])
  | irqComplete c seen k =>
      obtain rfl := Option.some.inj ha
      obtain ⟨-, hfree, hfly, -⟩ := of_decide_eq_true h
      obtain ⟨hcore, -, -, -, harmed | hrun | ⟨b, hstop⟩⟩ := inv.inFlight c k hfly
      · exact absurd (.irq harmed) hnot
      · refine Or.inl ?_
        have hpublished := inv.published_of_inFlight (k := k) hfly
        rw [hcore]
        change s.run c = .ret k .fence
        cases hpc : s.run c with
        | ret i r => cases r <;> simp_all [RunPc.job, RunPc.unpublished]
        | _ => simp_all [RunPc.job, RunPc.unpublished, State.jobLockFree, RunPc.locked]
      · exact Or.inr (by simp [effect, State.signalDone, hcore, hstop, TdrPc.parked])
  | _ => cases ha

theorem keep_signaledSettled (inv : Fenced s) (h : enabled s a = true) :
    (effect s a).SignaledSettled := by
  intro k hk hsig
  by_cases hfin : (effect s a).finished k = true
  · exact Or.inl hfin
  refine Or.inr ?_
  obtain ⟨hold, hnot⟩ := unfinished_before (Bool.eq_false_iff.mpr hfin)
  rcases inv.started_before h hk with hstarted | ⟨c, e, rfl⟩
  · rw [inv.job_of_placed h (Place.ne_outside_of_started hstarted)]
    rcases doneSignaled_before hsig with hbefore | hsignals
    · rcases inv.signaledSettled k hstarted hbefore with hdone | hret | hparked
      · simp [hold] at hdone
      · refine Or.inl ?_
        rcases run_effect h (s.job k).core with hmove | ⟨-, hstay⟩
        · rw [hret] at hmove
          generalize (effect s a).run (s.job k).core = q at hmove
          cases hmove with
          | complete => exact absurd .complete hnot
          | arm =>
              obtain ⟨f, hf, hsignaled⟩ := hbefore
              simp [enabled, State.immediate, hf, hsignaled] at h
        · exact hstay.trans hret
      · exact Or.inr (inv.toReported.toScheduled.parked_stays h hstarted hold hparked)
    · exact inv.settled_of_signals h hsignals hnot
  · -- a popped job has no fence yet
    have hqueued : s.place k = .queued := (of_decide_eq_true h).2.2.2.2.1
    have hnone := (inv.blank k (by rw [hqueued]; rfl) (by simp [hqueued])).2.1
    obtain ⟨f, hf, -⟩ := hsig
    cases hnone.symm.trans hf

/-- A job with a done fence is not filled in again. -/
theorem Scheduled.job_of_doneFence (inv : Scheduled s) (h : enabled s a = true) {j : Nat}
    (hj : s.doneFence j ≠ none) : (effect s a).job j = s.job j := by
  refine (job_effect j).resolve_right ?_
  rintro rfl
  exact hj (inv.blank_of_jobInit (of_decide_eq_true h)).2

theorem keep_seqnoBound (inv : Fenced s) (h : enabled s a = true) :
    (effect s a).SeqnoBound := by
  intro k f hf
  have keep := inv.seqnoBound k
  have hmono : ∀ c, s.emitSeqno c ≤ (effect s a).emitSeqno c := by
    intro c
    rcases emitSeqno_effect (s := s) (a := a) c with hsame | ⟨hmore, -⟩ <;> omega
  rcases doneFence_before hf with hold | ⟨c, rfl, rfl⟩ | ⟨g, hg, hsignals⟩
  · rw [inv.toReported.toScheduled.job_of_doneFence h (by simp [hold])]
    exact Nat.le_trans (keep f hold) (hmono _)
  · have hcreate : s.run c = .create k := of_decide_eq_true h
    have hcore : (s.job k).core = c := (inv.running c k (by rw [hcreate]; rfl)).1
    simp [effect, hcore]
  · have hseqno : f.seqno = g.seqno := by
      rcases hsignals with ⟨c, e, -, rfl⟩ | ⟨c, seen, -, rfl⟩ <;> exact signal_seqno ..
    rw [inv.toReported.toScheduled.job_of_doneFence h (by simp [hg]), hseqno]
    exact Nat.le_trans (keep g hg) (hmono _)

theorem Fenced.preserve (inv : Fenced s) (h : enabled s a = true) : Fenced (effect s a) where
  toReported := inv.toReported.preserve h
  counted := (inv.toReferenced.preserve h).counted
  borrowed := (inv.toReferenced.preserve h).borrowed
  creditHeld := keep_creditHeld inv h
  bareReturn := keep_bareReturn inv h
  signaledSettled := keep_signaledSettled inv h
  seqnoBound := keep_seqnoBound inv h

theorem Fenced.initial (n : Nat) : Fenced (State.init n) where
  toReported := Reported.initial n
  counted := (Referenced.initial n).counted
  borrowed := (Referenced.initial n).borrowed
  creditHeld := fun j h => by simp [State.init, Place.started] at h
  bareReturn := fun c j r h => by simp [State.init] at h
  signaledSettled := fun j h => by simp [State.init, Place.started] at h
  seqnoBound := fun j f h => by simp [State.init] at h

theorem Fenced.reachable {n : Nat} {acts : List Action} {s : State}
    (run : Runs driver (State.init n) acts s) : Fenced s :=
  run_invariant Fenced (Fenced.initial n) (fun _ _ inv h => inv.preserve h) run

theorem open_iff_unsignaled {j : Nat} :
    s.unsignaled j ↔ ∃ f, s.doneFence j = some f ∧ f.signaler = none := by
  simp [State.unsignaled]

/-- A fence is signaled by the one thread that can still signal it. -/
theorem Scheduled.unsignaled_of_signals (inv : Scheduled s) {j : Nat} (h : enabled s a = true)
    (ha : a.signals = some j) : s.unsignaled j := by
  cases a with
  | runFail c i e =>
      obtain rfl := Option.some.inj ha
      have hfail : s.run c = .fail i e := of_decide_eq_true h
      exact inv.fenced c i (by rw [hfail]; rfl)
  | irqComplete c seen i =>
      obtain rfl := Option.some.inj ha
      exact (inv.inFlight c i (of_decide_eq_true h).2.2.1).2.2.2.1
  | _ => cases ha

/-- An unsignaled fence is one that the step does not signal, or the one it makes. -/
theorem open_before {k : Nat} {f : Fence} (hf : (effect s a).doneFence k = some f)
    (hsig : f.signaler = none) : s.doneFence k = some f ∧ a.signals ≠ some k ∨
      ∃ c, a = .runCreate c k true ∧ f.seqno = s.emitSeqno c + 1 := by
  rcases doneFence_before hf with
    hold | ⟨c, rfl, rfl⟩ | ⟨g, -, ⟨c, e, -, rfl⟩ | ⟨c, seen, -, rfl⟩⟩
  · refine Or.inl ⟨hold, fun ha => ?_⟩
    cases a with
    | runFail c i e | irqComplete c seen i =>
        obtain rfl := Option.some.inj ha
        simp only [effect, State.signalDone, Function.update_self, hold, Option.map_some,
          Option.some.injEq] at hf
        rw [← hf] at hsig
        exact signal_signaled _ _ _ hsig
    | _ => cases ha
  · exact Or.inr ⟨c, rfl, rfl⟩
  · exact absurd hsig (signal_signaled _ _ _)
  · exact absurd hsig (signal_signaled _ _ _)

/-- When a fence is made all older fences of the core are signaled: the job of an
unsignaled one would hold the credit. -/
theorem Fenced.signaled_of_create (inv : Fenced s) (opened : s.OpenFence) {c j k : Nat}
    {o : Bool} (h : enabled s (.runCreate c j o) = true) (hcore : (s.job k).core = c)
    {f : Fence} (hf : s.doneFence k = some f) : f.signaler ≠ none := by
  intro hsig
  have hcreate : s.run c = .create j := of_decide_eq_true h
  obtain ⟨hstarted, hunfinished, -⟩ := opened k f hf hsig
  obtain ⟨-, -, -, -, hactive⟩ := inv.running c j (by rw [hcreate]; rfl)
  rcases inv.creditHeld k hstarted hunfinished with hcredit | hparked
  · rw [hcore, hactive] at hcredit
    obtain rfl := Option.some.inj hcredit
    simp [inv.fenceFresh c j (by rw [hcreate]; rfl)] at hf
  · rw [hcore] at hparked
    simp [inv.parkedIdle c hparked] at hcreate

/-- A job is finished after its done fence was signaled, but for the cancelation. -/
theorem Fenced.not_finishes_of_open (inv : Fenced s) (ok : CancelsSignaled s a)
    (h : enabled s a = true) {k : Nat} {f : Fence} (hf : s.doneFence k = some f)
    (hsig : f.signaler = none) (hstarted : (s.place k).started = true)
    (hsignals : a.signals ≠ some k) : ¬ Finishes s a k := by
  intro hfinishes
  cases hfinishes with
  | fail | irq => exact hsignals rfl
  | @complete c _ r =>
      obtain ⟨hret, hnow⟩ := of_decide_eq_true h
      cases r with
      | fence => simp [State.immediate, hf, hsig] at hnow
      | null | err => simp [inv.bareReturn c k _ hret (by simp)] at hf
  | @cancel c b => exact ok c b k rfl (open_iff_unsignaled.mpr ⟨f, hf, hsig⟩)
  | kill => simp [(of_decide_eq_true h).1, Place.started] at hstarted

theorem keep_openFence (inv : Fenced s) (keep : s.OpenFence) (ok : CancelsSignaled s a)
    (h : enabled s a = true) : (effect s a).OpenFence := by
  intro k f hf hsig
  rcases open_before hf hsig with ⟨hold, hsignals⟩ | ⟨c, rfl, hseqno⟩
  · obtain ⟨hstarted, hunfinished, hlast⟩ := keep k f hold hsig
    rw [inv.toReported.toScheduled.job_of_doneFence h (by simp [hold])]
    refine ⟨inv.started_stays h hstarted hunfinished, ?_, ?_⟩
    · rw [Bool.eq_false_iff]
      exact fun hdone => (finished_before hdone).elim (by simp [hunfinished])
        (inv.not_finishes_of_open ok h hold hsig hstarted hsignals)
    · rcases emitSeqno_effect (s := s) (a := a) (s.job k).core with hsame | ⟨-, j, rfl⟩
      · rw [hsame, hlast]
      · exact absurd hsig (inv.signaled_of_create keep h rfl hold)
  · have hcreate : s.run c = .create k := of_decide_eq_true h
    obtain ⟨hcore, hstarted, hunfinished, -⟩ := inv.running c k (by rw [hcreate]; rfl)
    exact ⟨hstarted, hunfinished, by simp [effect, hcore, hseqno]⟩

theorem keep_oneOpenFence (inv : Fenced s) (opened : s.OpenFence) (keep : s.OneOpenFence)
    (h : enabled s a = true) : (effect s a).OneOpenFence := by
  intro j k hj hk hcore
  obtain ⟨f, hf, hfsig⟩ := open_iff_unsignaled.mp hj
  obtain ⟨g, hg, hgsig⟩ := open_iff_unsignaled.mp hk
  rcases open_before hf hfsig with ⟨hfold, -⟩ | ⟨c, rfl, -⟩
  · rcases open_before hg hgsig with ⟨hgold, -⟩ | ⟨c, rfl, -⟩
    · rw [inv.toReported.toScheduled.job_of_doneFence h (by simp [hfold]),
        inv.toReported.toScheduled.job_of_doneFence h (by simp [hgold])] at hcore
      exact keep j k (open_iff_unsignaled.mpr ⟨f, hfold, hfsig⟩)
        (open_iff_unsignaled.mpr ⟨g, hgold, hgsig⟩) hcore
    · have hcreate : s.run c = .create k := of_decide_eq_true h
      have hk := (inv.running c k (by rw [hcreate]; rfl)).1
      exact absurd hfsig (inv.signaled_of_create opened h (hcore.trans hk) hfold)
  · rcases open_before hg hgsig with ⟨hgold, -⟩ | ⟨b, heq, -⟩
    · have hcreate : s.run c = .create j := of_decide_eq_true h
      have hj := (inv.running c j (by rw [hcreate]; rfl)).1
      exact absurd hgsig (inv.signaled_of_create opened h (hcore.symm.trans hj) hgold)
    · injection heq

/-- Whoever can signal a fence signals its core's last. -/
theorem Fenced.timelineOrdered (inv : Fenced s) (opened : s.OpenFence)
    (one : s.OneOpenFence) : s.TimelineOrdered where
  increasing := by
    intro c j h
    have hcreate := h
    simp only [enabled, decide_eq_true_eq] at hcreate
    have hfresh := inv.fenceFresh c j (by simp [hcreate, RunPc.unfenced])
    refine ⟨hfresh, fun k f g hf hcore hg => ?_⟩
    have hbound := inv.seqnoBound k f hf
    simp only [effect, if_true, Function.update_self, Option.some.injEq] at hg
    rw [hcore] at hbound
    rw [← hg]
    exact Nat.lt_succ_of_le hbound
  once := fun a j h ha => inv.toReported.toScheduled.unsignaled_of_signals h ha
  gapless := by
    intro a j f k g h ha hf hg hcore hlt hsig
    have hj := inv.toReported.toScheduled.unsignaled_of_signals h ha
    have hk : s.unsignaled k := open_iff_unsignaled.mpr ⟨g, hg, hsig⟩
    obtain rfl := one j k hj hk hcore.symm
    obtain rfl := Option.some.inj (hf.symm.trans hg)
    exact Nat.lt_irrefl _ hlt
  freed := by
    intro a j f h hfreed hf hsig
    obtain ⟨hstarted, hunfinished, -⟩ := opened j f hf hsig
    obtain ⟨hput, hone⟩ := frees_before hfreed
    rcases putsJob_cases hput with ⟨r, rfl⟩ | hfree
    · -- the scheduler still has its reference
      have hcall : s.call j = .putJob r := of_decide_eq_true h
      have hheld := Place.held_of_started hstarted
      simp [inv.counted j, hcall, hheld, CallPc.holdsJob] at hone
    · have hheld := Place.held_of_started (inv.started_stays h hstarted hunfinished)
      simp [(inv.held_of_freesJob h hfree).2] at hheld

end Preserve

/-- In every run in which no job with an unsignaled done fence is canceled after a reset, the
done fences of each core are numbered upwards, signaled at most once and in the
order of their numbers without gaps, and no job is freed before its last done
fence was signaled. -/
theorem timeline_ordered_of_cancelsSignaled {n : Nat} {acts : List Action}
    (signaled : Along driver CancelsSignaled (State.init n) acts) :
    Throughout driver State.TimelineOrdered (State.init n) acts := by
  refine throughout_of_along (fun s => Fenced s ∧ s.OpenFence ∧ s.OneOpenFence) ?_ ?_ signaled
    ⟨Fenced.initial n, fun j f h => by simp [State.init] at h,
      fun j k h => by simp [State.init, State.unsignaled] at h⟩
  · rintro s a t ⟨inv, opened, one⟩ ok hstep
    obtain ⟨h, rfl⟩ := driver_eq_some.mp hstep
    exact ⟨inv.preserve h, keep_openFence inv opened ok h, keep_oneOpenFence inv opened one h⟩
  · rintro s ⟨inv, opened, one⟩
    exact inv.timelineOrdered opened one

/-- A job is canceled after a reset, the next job of the core is started, and its
interrupt comes. -/
def gapSteps : List Action :=
  startOne ++ resetSteps 0 0 ++ submitSteps 0 1 0 submitOne ++ runSteps 0 1 ++
    programSteps 0 1 dpuTasks (hwProgram (submitJob 1 submitOne) 1 0 dpuTasks) ++
    [.raise 0 0x300#32, .irqHard 0, .irqThread 0 0x300#32]

theorem gapSteps_accepted :
    ((exec driver (State.init 1) gapSteps).map fun s =>
      enabled s (.irqComplete 0 0x300#32 1) && decide (s.doneFence 0 = some ⟨1, none, none⟩ ∧
        s.doneFence 1 = some ⟨2, none, none⟩ ∧ (s.job 0).core = (s.job 1).core)) =
      some true := by
  decide

/-- The fence of the job after a canceled one is signaled over a gap. -/
theorem canceled_fence_leaves_gap :
    ¬ ∀ s, Runs driver (State.init 1) gapSteps s → s.TimelineOrdered := by
  intro all
  obtain ⟨s, run, test⟩ := runs_of_test gapSteps_accepted
  simp only [Bool.and_eq_true, decide_eq_true_eq] at test
  obtain ⟨h, hold, hnew, hcore⟩ := test
  exact (all s run).gapless _ 1 _ 0 _ h rfl hnew hold hcore (by decide) rfl

/-- The done fence of the canceled job is signaled, or there is none. -/
def cancelsSignaledTest (s : State) : Action → Bool
  | .tdrCancel _ _ k => (s.doneFence k).all fun f => f.signaler.isSome
  | _ => true

theorem cancelsSignaled_of_test (s : State) (a : Action) (h : cancelsSignaledTest s a = true) :
    CancelsSignaled s a := by
  rintro c j k rfl hopen
  obtain ⟨f, hf, hnone⟩ := Option.map_eq_some_iff.mp hopen
  simp [cancelsSignaledTest, hf, hnone] at h

/-- The IRQ thread completes a job that `drm_sched_stop` has taken the callback off, the
restart cancels and frees it, and the next job of the core is completed. -/
def latelySignaled : List Action :=
  startOne ++ [.fire 0 0, .tdrEntry 0 0, .tdrMark 0 0, .tdrStop 0 0, .tdrDetach 0 0 0] ++
    irqSteps 0 0 0x300#32 ++ [.tdrSection 0 0, .tdrHwReset 0 0, .tdrClear 0 0,
      .tdrCancel 0 0 0, .tdrRestart 0 0, .tdrCount 0 0, .tdrReturn 0 0] ++
    .waitDone 0 :: returnSteps 0 none ++ .freeJob 0 0 :: submitSteps 0 1 0 submitOne ++
    runSteps 0 1 ++
    programSteps 0 1 dpuTasks (hwProgram (submitJob 1 submitOne) 1 0 dpuTasks) ++
    irqSteps 0 1 0x300#32

theorem latelySignaled_accepted :
    ((exec driver (State.init 1) latelySignaled).map fun s =>
      decide (s.error 0 = some .canceled ∧ s.frees 0 = 1 ∧
        s.doneFence 0 = some ⟨1, some .irqThread, none⟩ ∧
        s.doneFence 1 = some ⟨2, some .irqThread, none⟩)) = some true := by
  decide

theorem timeline_ordered_of_cancelsSignaled_on_latelySignaled :
    (∃ s, Runs driver (State.init 1) latelySignaled s ∧ s.error 0 = some .canceled ∧
      s.frees 0 = 1) ∧
      Throughout driver State.TimelineOrdered (State.init 1) latelySignaled := by
  obtain ⟨s, run, test⟩ := runs_of_test latelySignaled_accepted
  obtain ⟨hcanceled, hfreed, -⟩ := of_decide_eq_true test
  exact ⟨⟨s, run, hcanceled, hfreed⟩,
    timeline_ordered_of_cancelsSignaled
      (along_of_check cancelsSignaled_of_test (by decide))⟩

end Rkopnu.Driver
