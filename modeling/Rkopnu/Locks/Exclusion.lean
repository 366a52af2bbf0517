import Rkopnu.Locks.Deadlock

/-!
# IOMMU groups and the power unit

An attach or a detach of an IOMMU group must not run together with a resume or a
release of the power unit or with another attach or detach, and `pm_lock` is to keep
them apart. `rocket_job_run` and `rocket_reset` take it, `rocket_job_close` detaches
under `job_lock` alone.
-/

namespace Rkopnu.Locks

open Locking Transition

/-- An attach or a detach of an IOMMU group. -/
def Act.iommu : Act → Bool
  | .attach _ _ | .detach _ _ => true
  | _ => false

/-- The power unit is resumed or released. -/
def Act.power : Act → Bool
  | .resume | .release | .putNoidle => true
  | _ => false

/-- The tests of `rocket_job_close`. -/
def Cond.isScan : Cond → Bool
  | .scanHit _ _ => true
  | _ => false

/-- The next operation is the detach of `rocket_job_close`. -/
def atClose : Code → Bool
  | .act (.detach .close _) _ => true
  | _ => false

/-- IOMMU groups are attached and detached under `pm_lock`, apart from each other and
from the resumes and releases of the power unit. -/
structure Exclusive (s : Locking.State Lock Thread Act Cond Shared) : Prop where
  underPm : ∀ t a rest, s.prog t = .act a rest → a.iommu = true → s.owner .pm = some t
  alone : ∀ t u a b p q, t ≠ u → s.prog t = .act a p → s.prog u = .act b q →
    a.iommu = true → b.iommu = false ∧ b.power = false

/-- The step is not a test of `rocket_job_close` that finds a domain of the closing file
attached to the core. -/
def ScanFindsNothing (s : Locking.State Lock Thread Act Cond Shared)
    (a : Locking.Action Thread Entry) : Prop :=
  ∀ t left f c yes no, a = .step t left → s.prog t = .test (.scanHit f c) yes no →
    s.data.holds (.scanHit f c) = false

/-- What is asked of every point of a program: `pm_lock` is held around the IOMMU groups
and the power unit, except at the detach of `rocket_job_close`, to which only its
own test leads, without `pm_lock`. -/
def Watched (held : List Lock) : Code → Prop
  | .act a rest => ((a.iommu = true ∨ a.power = true) →
      atClose (.act a rest) = true ∨ Lock.pm ∈ held) ∧ atClose rest = false
  | .test c yes no => atClose yes = c.isScan ∧ atClose no = false ∧
      (c.isScan = true → Lock.pm ∉ held)
  | .choose p q => atClose p = false ∧ atClose q = false
  | .lock _ rest | .unlock _ rest | .await _ rest => atClose rest = false
  | .done => True

/-- The program is watched, and does not begin with the detach of `rocket_job_close`. -/
structure Guards (held : List Lock) (p : Code) : Prop where
  everywhere : p.Everywhere Watched held
  enters : atClose p = false

section Checks
variable {held : List Lock} {rest ok fail p q : Code}

theorem guards_done : Guards [] .done := ⟨by simp [Prog.Everywhere, Watched], rfl⟩

theorem guards_lock (l : Lock) (h : Guards (l :: held) p) : Guards held (.lock l p) :=
  ⟨⟨h.enters, h.everywhere⟩, rfl⟩

theorem guards_unlock (l : Lock) (h : Guards held p) : Guards (l :: held) (.unlock l p) :=
  ⟨⟨h.enters, held, rfl, h.everywhere⟩, rfl⟩

theorem guards_choose (hp : Guards held p) (hq : Guards held q) : Guards held (.choose p q) :=
  ⟨⟨⟨hp.enters, hq.enters⟩, hp.everywhere, hq.everywhere⟩, rfl⟩

theorem guards_await (who : List Thread) (h : Guards held p) : Guards held (.await who p) :=
  ⟨⟨h.enters, h.everywhere⟩, rfl⟩

/-- A test outside `rocket_job_close`. -/
theorem guards_test {c : Cond} (hc : c.isScan = false) (hp : Guards held p)
    (hq : Guards held q) : Guards held (.test c p q) :=
  ⟨⟨⟨hp.enters.trans hc.symm, hq.enters, by simp [hc]⟩, hp.everywhere, hq.everywhere⟩, rfl⟩

/-- An action on the fields of the driver. -/
theorem guards_field {a : Act} (ha : a.iommu = false ∧ a.power = false) (h : Guards held p) :
    Guards held (.act a p) :=
  ⟨⟨⟨by simp [ha], h.enters⟩, h.everywhere⟩, by cases a <;> simp_all [atClose, Act.iommu]⟩

/-- An action on an IOMMU group or on the power unit, with `pm_lock` held. -/
theorem guards_underPm {a : Act} (ha : atClose (.act a p) = false) (hpm : Lock.pm ∈ held)
    (h : Guards held p) : Guards held (.act a p) :=
  ⟨⟨⟨fun _ => Or.inr hpm, h.enters⟩, h.everywhere⟩, ha⟩

theorem guards_pmGet (hok : Guards held ok) (hfail : Guards held fail) :
    Guards held (rocketDevicePmGet ok fail) := by
  have hcount := guards_field (a := .pmRef) ⟨rfl, rfl⟩ (guards_unlock .pm hok)
  refine guards_lock _ (guards_test rfl (guards_underPm rfl (by simp) ?_) hcount)
  exact guards_choose hcount (guards_unlock _ hfail)

theorem guards_pmPut (h : Guards held rest) : Guards held (rocketDevicePmPut rest) := by
  have hrest := guards_unlock .pm h
  refine guards_lock _ (guards_test rfl hrest (guards_field ⟨rfl, rfl⟩ ?_))
  exact guards_test rfl (guards_underPm rfl (by simp) hrest) hrest

theorem guards_pmPutNoidle (h : Guards held rest) :
    Guards held (rocketDevicePmPutNoidle rest) := by
  have hrest := guards_unlock .pm h
  refine guards_lock _ (guards_test rfl hrest (guards_field ⟨rfl, rfl⟩ ?_))
  exact guards_test rfl (guards_underPm rfl (by simp) hrest) hrest

theorem guards_domainGet (f i d : Nat) (hok : Guards [] ok) (hfail : Guards [] fail) :
    Guards [] (rocketIommuDomainGet f i d ok fail) := by
  have hret := guards_unlock (.domains f) hok
  refine guards_lock _ (guards_test rfl hret (guards_unlock _ (guards_choose ?_ hfail)))
  exact guards_lock _ (guards_test rfl hret (guards_field ⟨rfl, rfl⟩ hret))

theorem guards_single (l : Lock) (h : Guards [] rest) : Guards [] (.lock l <| .unlock l rest) :=
  guards_lock l (guards_unlock l h)

theorem guards_objectPut (b d : Nat) (h : Guards [] rest) :
    Guards [] (drmGemObjectPut b d rest) :=
  guards_choose (guards_single _ (guards_single _ h)) h

theorem guards_memCreate (f i d b : Nat) : Guards [] (rkopnuIoctlMemCreate f i d b) := by
  have herr : Guards [] (drmGemShmemFree b .done) := guards_single _ guards_done
  have hremove := guards_single (.mm d) herr
  refine guards_choose (guards_domainGet f i d (guards_single _ ?_) herr) guards_done
  refine guards_choose (guards_single _ (guards_choose (guards_choose ?_ hremove) herr)) herr
  exact guards_choose (guards_objectPut b d guards_done) hremove

theorem guards_push (hok : Guards [] ok) (hfail : Guards [] fail) :
    Guards [] (rocketJobPush [] ok fail) := by
  refine guards_choose (guards_lock .sched (guards_choose ?_ ?_)) hfail
  · exact guards_unlock .sched hok
  · exact guards_unlock .sched hfail

theorem guards_submit (f i d b e c : Nat) : Guards [] (rkopnuIoctlSubmit f i d b e c) := by
  have hput := guards_objectPut b e guards_done
  have hunmap := guards_single (.resv b) hput
  refine guards_choose guards_done (guards_single _ (guards_choose (guards_choose ?_ hunmap) hput))
  exact guards_domainGet f i d (guards_push (guards_await _ hunmap) hunmap) hunmap

theorem guards_run (c d : Nat) : Guards [] (rocketJobRun c d) := by
  have hsubmit : Guards [.job c] (.act (.setInFlight c true) <| .unlock (.job c) .done) :=
    guards_field ⟨rfl, rfl⟩ (guards_unlock _ guards_done)
  have hfail := guards_unlock (.job c) (guards_pmPut guards_done)
  have hattach := guards_underPm (a := .attach c d) rfl (List.mem_cons_self (a := Lock.pm))
    (guards_choose
      (guards_unlock .pm (guards_field (a := .setAttached c (some d)) ⟨rfl, rfl⟩ hsubmit))
      (guards_unlock .pm (guards_field (a := .setAttached c none) ⟨rfl, rfl⟩ hfail)))
  refine guards_choose guards_done (guards_pmGet (guards_lock _ ?_) guards_done)
  refine guards_test rfl hsubmit (guards_lock _ (guards_test rfl ?_ hattach))
  exact guards_underPm rfl (by simp) hattach

theorem guards_irq (c : Nat) : Guards [] (rocketJobHandleIrq c) := by
  have hout := guards_unlock (.job c) guards_done
  refine guards_lock _ (guards_test rfl (guards_choose hout (guards_pmPut ?_)) hout)
  exact guards_field ⟨rfl, rfl⟩ hout

theorem guards_timeout (c : Nat) : Guards [] (rocketJobTimedout c) := by
  have hclear := guards_field (a := .setInFlight c false) ⟨rfl, rfl⟩
    (guards_unlock (.job c) guards_done)
  have hdetach := guards_test (c := .attachedAny c) rfl (guards_lock .pm (guards_underPm
    (a := .detach .reset c) rfl (by simp) (guards_unlock .pm
      (guards_field (a := .setAttached c none) ⟨rfl, rfl⟩ hclear)))) hclear
  refine guards_choose guards_done (guards_await _ (guards_lock _ ?_))
  exact guards_test rfl (guards_pmPutNoidle hdetach) hdetach

theorem guards_release (bos : List (Nat × Nat)) (h : Guards [] rest) :
    Guards [] (drmGemRelease bos rest) := by
  induction bos with
  | nil => exact h
  | cons b bos ih => exact guards_objectPut b.1 b.2 ih

theorem guards_destroyEntities (cores : List Nat) (h : Guards [] rest) :
    Guards [] (destroyEntities cores rest) := by
  induction cores with
  | nil => exact h
  | cons c cores ih => exact guards_await _ ih

/-- The search of a core by a closing file is the one place where `pm_lock` is missing. -/
theorem guards_scanCores (f : Nat) (cores : List Nat) (h : Guards [] rest) :
    Guards [] (scanCores f cores rest) := by
  induction cores with
  | nil => exact h
  | cons c cores ih =>
      have hnext := guards_unlock (.job c) ih
      have hclear := guards_field (a := .setAttached c none) ⟨rfl, rfl⟩ hnext
      refine ⟨⟨rfl, ⟨rfl, hnext.enters, by simp⟩, ?_, hnext.everywhere⟩, rfl⟩
      exact ⟨⟨fun _ => Or.inl rfl, hclear.enters⟩, hclear.everywhere⟩

theorem guards_domainsClose (f : Nat) (slots : List Nat) :
    Guards [] (rocketIommuDomainsClose f slots) := by
  induction slots with
  | nil => exact guards_done
  | cons i slots ih => exact guards_field ⟨rfl, rfl⟩ ih

theorem guards_program (n : Nat) (e : Entry) : Guards [] (program n e) := by
  cases e with
  | memCreate f i d b => exact guards_memCreate f i d b
  | submit f i d b e c => exact guards_submit f i d b e c
  | boFree b d => exact guards_single _ (guards_single _ guards_done)
  | close f bos =>
      exact guards_release bos (guards_destroyEntities _ (guards_destroyEntities _
        (guards_scanCores f _ (guards_domainsClose f _))))
  | runJob c d => exact guards_run c d
  | freeJob c => exact guards_field ⟨rfl, rfl⟩ guards_done
  | irq c => exact guards_irq c
  | timeout c => exact guards_timeout c

end Checks

/-- Every thread stands at a watched point. -/
def AllWatched (s : Locking.State Lock Thread Act Cond Shared) : Prop :=
  ∃ held, Checked (fun _ => Watched) held s

section Steps
variable {n : Nat} {s t : Locking.State Lock Thread Act Cond Shared}
  {a : Locking.Action Thread Entry}

theorem AllWatched.preserve (inv : AllWatched s) (hstep : (threads n).step s a = some t) :
    AllWatched t :=
  inv.elim fun _ checked =>
    checked.preserve (fun _ e _ => (guards_program n e).everywhere) hstep

theorem AllWatched.initial : AllWatched start :=
  ⟨_, Checked.initial (fun _ => trivial) Shared.init⟩

/-- Only a test of `rocket_job_close` that finds a domain leads to its detach. -/
theorem keep_notAtClose (inv : AllWatched s) (away : ∀ u, atClose (s.prog u) = false)
    (ok : ScanFindsNothing s a) (hstep : (threads n).step s a = some t) (v : Thread) :
    atClose (t.prog v) = false := by
  obtain ⟨held, checked⟩ := inv
  have moved : ∀ u p, atClose p = false → t.prog = Function.update s.prog u p →
      atClose (t.prog v) = false := by
    intro u p hp ht
    rw [ht, Function.update_apply]
    split
    · exact hp
    · exact away v
  cases a with
  | start u e =>
      simp only [Setup.step, Option.ite_none_right_eq_some] at hstep
      obtain ⟨-, hgo⟩ := hstep
      obtain rfl := Option.some.inj hgo
      exact moved u _ (guards_program n e).enters rfl
  | step u left =>
      have hpoint := (checked.everywhere u).here
      have hsteps := Setup.steps_of_step hstep
      generalize hp : s.prog u = p at hpoint hsteps
      cases hsteps with
      | lock | unlock | await => exact moved u _ hpoint rfl
      | act => exact moved u _ hpoint.2 rfl
      | @test c yes no =>
          refine moved u _ ?_ rfl
          cases c with
          | scanHit f k =>
              have hmiss := ok u left f k yes no rfl hp
              simpa [threads, hmiss] using hpoint.2.1
          | unitIdle | attachedTo | attachedAny | inFlight | slotFilled =>
              split
              · exact hpoint.1
              · exact hpoint.2.1
      | choose =>
          refine moved u _ ?_ rfl
          split
          · exact hpoint.1
          · exact hpoint.2

/-- Away from the detach of `rocket_job_close` the groups are used under `pm_lock`. -/
theorem AllWatched.exclusive (inv : AllWatched s) (away : ∀ u, atClose (s.prog u) = false) :
    Exclusive s := by
  obtain ⟨held, checked⟩ := inv
  have owns : ∀ t a rest, s.prog t = .act a rest → a.iommu = true ∨ a.power = true →
      s.owner .pm = some t := by
    intro t a rest hp ha
    have hpoint := (checked.everywhere t).here
    have haway := away t
    rw [hp] at hpoint haway
    rcases hpoint.1 ha with hclose | hmem
    · simp [haway] at hclose
    · exact (checked.owner t .pm).mp hmem
  refine ⟨fun t a rest hp ha => owns t a rest hp (Or.inl ha), fun t u a b p q hne hp hq ha => ?_⟩
  have hmine := owns t a p hp (Or.inl ha)
  have hnot : ¬ (b.iommu = true ∨ b.power = true) := by
    intro hb
    exact hne (Option.some.inj (hmine.symm.trans (owns u b q hq hb)))
  simpa using hnot

/-- A search that finds a domain goes on to detach it without `pm_lock`. -/
theorem AllWatched.scanFindsNothing (inv : AllWatched s)
    (hstep : (threads n).step s a = some t) (exclusive : Exclusive t) :
    ScanFindsNothing s a := by
  rintro u left f c yes no rfl hp
  obtain ⟨held, checked⟩ := inv
  have hpoint := (checked.everywhere u).here
  rw [hp] at hpoint
  by_contra hhit
  simp only [Bool.not_eq_false] at hhit
  simp only [Setup.step, hp, Option.some.injEq] at hstep
  subst hstep
  have hyes : atClose yes = true := hpoint.1
  cases yes with
  | act b rest =>
      have hb : b.iommu = true := by cases b <;> simp_all [atClose, Act.iommu]
      have howner := exclusive.underPm u b rest (by simp [State.go, threads, hhit]) hb
      exact hpoint.2.2 rfl ((checked.owner u .pm).mpr howner)
  | done | lock | unlock | test | choose | await => simp [atClose] at hyes

end Steps

/-- In a run of any threads on `n` cores, IOMMU groups are attached and detached under
`pm_lock` alone in every state exactly when no `rocket_job_close` finds a domain of
its file attached to a core. -/
theorem exclusive_iff_scanFindsNothing {n : Nat} {acts : List (Locking.Action Thread Entry)}
    {s : Locking.State Lock Thread Act Cond Shared} (run : Runs (threads n).step start acts s) :
    Throughout (threads n).step Exclusive start acts ↔
      Along (threads n).step ScanFindsNothing start acts := by
  constructor
  · intro all
    exact along_of_throughout AllWatched (fun _ _ _ inv hstep => inv.preserve hstep)
      (fun _ _ _ inv _ hstep exclusive => inv.scanFindsNothing hstep exclusive) run all
      AllWatched.initial
  · intro along
    refine throughout_of_along (fun s => AllWatched s ∧ ∀ u, atClose (s.prog u) = false) ?_
      (fun s inv => inv.1.exclusive inv.2) along ⟨AllWatched.initial, fun _ => rfl⟩
    exact fun s a t inv ok hstep =>
      ⟨inv.1.preserve hstep, keep_notAtClose inv.1 inv.2 ok hstep⟩

/-- The next operation is this action. -/
def standsAt (a : Act) : Code → Bool
  | .act b _ => decide (a = b)
  | _ => false

theorem standsAt_iff {a : Act} {p : Code} : standsAt a p = true ↔ ∃ rest, p = .act a rest := by
  cases p <;> simp [standsAt, eq_comm]

/-- File `f` submits a job to core `f`, in its domain `f`, and waits for it. -/
def submitSteps (f : Nat) : List (Locking.Action Thread Entry) :=
  .start (.user f) (.submit f 0 f f f f) :: .step (.user f) false ::
    runThread (.user f) (List.replicate 16 true)

/-- The job of file 0 is started on core 0 and completed by its interrupt, and the power
unit is released. -/
def completedSteps : List (Locking.Action Thread Entry) :=
  submitSteps 0 ++ .start (.run 0) (.runJob 0 0) :: .step (.run 0) false ::
    runThread (.run 0) (List.replicate 16 true) ++
    .start (.irq 0) (.irq 0) :: runThread (.irq 0) [true, true, false] ++
    runThread (.irq 0) (List.replicate 8 true) ++
    runThread (.user 0) [true, true, true, false]

/-- File 0 is closed, and its search finds the domain on core 0; meanwhile the job of
file 1 is to start on core 1 and the power unit is about to be resumed for it. -/
def overlapSteps : List (Locking.Action Thread Entry) :=
  completedSteps ++ submitSteps 1 ++ .start (.user 0) (.close 0 []) ::
    runThread (.user 0) (List.replicate 6 true) ++
    .start (.run 1) (.runJob 1 1) :: runThread (.run 1) [false, true, true]

theorem overlapSteps_accepted :
    ((exec (threads 2).step start overlapSteps).map fun s =>
      standsAt (.detach .close 0) (s.prog (.user 0)) && standsAt .resume (s.prog (.run 1))) =
        some true := by
  decide

/-- The detach of a closing file and the resume of the power unit for another core may
run together. -/
theorem close_detach_overlaps_resume :
    ¬ ∀ s, Runs (threads 2).step start overlapSteps s → Exclusive s := by
  intro all
  obtain ⟨s, run, test⟩ := runs_of_test overlapSteps_accepted
  obtain ⟨hdetach, hresume⟩ := Bool.and_eq_true_iff.mp test
  obtain ⟨p, hp⟩ := standsAt_iff.mp hdetach
  obtain ⟨q, hq⟩ := standsAt_iff.mp hresume
  have halone := (all s run).alone _ _ _ _ p q (by simp) hp hq rfl
  simp [Act.power] at halone

theorem exclusive_iff_scanFindsNothing_on_overlapSteps :
    Throughout (threads 2).step Exclusive start overlapSteps ↔
      Along (threads 2).step ScanFindsNothing start overlapSteps := by
  obtain ⟨s, run, -⟩ := runs_of_test overlapSteps_accepted
  exact exclusive_iff_scanFindsNothing run

end Rkopnu.Locks
