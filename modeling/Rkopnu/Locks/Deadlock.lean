import Rkopnu.Locks.Programs

/-!
# No deadlock

The driver nests two pairs of locks: `pm_lock` inside `job_lock`, and `sched_lock`
inside the reservation locks of a job's BOs. A thread waits for other threads with no
lock held: a closing file and a submit for the workers of a core, its timeout worker
among them, and the timeout worker for the others. So a chain of waits goes down
the levels and then up the locks, and does not come back.
-/

namespace Rkopnu.Locks

open Locking Transition Relation

/-- The order of the locks. -/
def rank : Lock → Nat
  | .domains _ => 0
  | .mm _ => 1
  | .resv _ => 2
  | .sched => 3
  | .job _ => 4
  | .pm => 5

/-- The level of a thread: it waits for threads of lower levels only. -/
def level : Thread → Nat
  | .user _ => 2
  | .tdr _ => 1
  | .run _ | .free _ | .irq _ => 0

/-- The program keeps to the lock order, for thread `t` with these locks held. -/
abbrev Keeps (t : Thread) (held : List Lock) (p : Code) : Prop :=
  p.Everywhere (Ordered rank level t) held

section Checks
variable {t : Thread} {held : List Lock} {rest ok fail : Code}

/-- Every lock held is below `pm_lock`. -/
def BelowPm (held : List Lock) : Prop := (held.map rank).Nodup ∧ ∀ h ∈ held, rank h < rank .pm

theorem keeps_pmGet (hheld : BelowPm held) (hok : Keeps t held ok) (hfail : Keeps t held fail) :
    Keeps t held (rocketDevicePmGet ok fail) := by
  obtain ⟨hnodup, hbelow⟩ := hheld
  have hnew : ∀ h ∈ held, rank h ≠ rank .pm := fun h hh => (hbelow h hh).ne
  simp_all [rocketDevicePmGet, Keeps, Prog.Everywhere, Ordered, Ascends]

theorem keeps_pmPut (hheld : BelowPm held) (hrest : Keeps t held rest) :
    Keeps t held (rocketDevicePmPut rest) := by
  obtain ⟨hnodup, hbelow⟩ := hheld
  have hnew : ∀ h ∈ held, rank h ≠ rank .pm := fun h hh => (hbelow h hh).ne
  simp_all [rocketDevicePmPut, Keeps, Prog.Everywhere, Ordered, Ascends]

theorem keeps_pmPutNoidle (hheld : BelowPm held) (hrest : Keeps t held rest) :
    Keeps t held (rocketDevicePmPutNoidle rest) := by
  obtain ⟨hnodup, hbelow⟩ := hheld
  have hnew : ∀ h ∈ held, rank h ≠ rank .pm := fun h hh => (hbelow h hh).ne
  simp_all [rocketDevicePmPutNoidle, Keeps, Prog.Everywhere, Ordered, Ascends]

theorem belowPm_nil : BelowPm [] := by simp [BelowPm]

theorem belowPm_job (c : Nat) : BelowPm [.job c] := by simp [BelowPm, rank]

theorem keeps_domainGet (f i d : Nat) (hok : Keeps t [] ok) (hfail : Keeps t [] fail) :
    Keeps t [] (rocketIommuDomainGet f i d ok fail) := by
  simp_all [rocketIommuDomainGet, Keeps, Prog.Everywhere, Ordered, Ascends]

theorem keeps_done : Keeps t [] .done := by simp [Prog.Everywhere, Ordered, Ascends]

/-- A section that takes one lock with none held. -/
theorem keeps_single (l : Lock) (hrest : Keeps t [] rest) :
    Keeps t [] (.lock l <| .unlock l rest) := by
  simp_all [Keeps, Prog.Everywhere, Ordered, Ascends]

theorem keeps_choose {p q : Code} (hp : Keeps t [] p) (hq : Keeps t [] q) :
    Keeps t [] (.choose p q) :=
  ⟨by simp [Ordered, Ascends], hp, hq⟩

/-- A wait with no lock held for threads of lower levels. -/
theorem keeps_await {who : List Thread} (hwho : ∀ u ∈ who, level u < level t)
    (hrest : Keeps t [] rest) : Keeps t [] (.await who rest) :=
  ⟨⟨by simp, rfl, hwho⟩, hrest⟩

theorem keeps_boFree (b d : Nat) (hrest : Keeps t [] rest) :
    Keeps t [] (rocketGemBoFree b d rest) :=
  keeps_single _ (keeps_single _ hrest)

theorem keeps_objectPut (b d : Nat) (hrest : Keeps t [] rest) :
    Keeps t [] (drmGemObjectPut b d rest) :=
  keeps_choose (keeps_boFree b d hrest) hrest

theorem keeps_memCreate (f i d b : Nat) : Keeps t [] (rkopnuIoctlMemCreate f i d b) := by
  have herr : Keeps t [] (drmGemShmemFree b .done) := keeps_single _ keeps_done
  have hremove := keeps_single (.mm d) herr
  refine keeps_choose (keeps_domainGet f i d (keeps_single _ ?_) herr) keeps_done
  refine keeps_choose (keeps_single _ (keeps_choose (keeps_choose ?_ hremove) herr)) herr
  exact keeps_choose (keeps_objectPut b d keeps_done) hremove

/-- The job of a submit lists no BO, so its push takes `sched_lock` alone. -/
theorem keeps_push (hok : Keeps t [] ok) (hfail : Keeps t [] fail) :
    Keeps t [] (rocketJobPush [] ok fail) := by
  simp_all [rocketJobPush, drmGemLockReservations, drmGemUnlockReservations, Keeps,
    Prog.Everywhere, Ordered, Ascends]

theorem level_completers (c i : Nat) : ∀ u ∈ completers c, level u < level (.user i) := by
  simp [completers, level]

theorem keeps_submit (f i d b e c k : Nat) :
    Keeps (.user k) [] (rkopnuIoctlSubmit f i d b e c) := by
  have hput : Keeps (.user k) [] (drmGemObjectPut b e .done) := keeps_objectPut b e keeps_done
  have hunmap := keeps_single (.resv b) hput
  have hwait := keeps_await (level_completers c k) hunmap
  refine keeps_choose keeps_done (keeps_single _ (keeps_choose (keeps_choose ?_ hunmap) hput))
  exact keeps_domainGet f i d (keeps_push hwait hunmap) hunmap

theorem keeps_run (c d : Nat) : Keeps t [] (rocketJobRun c d) := by
  refine keeps_choose keeps_done (keeps_pmGet belowPm_nil ?_ keeps_done)
  have hput : Keeps t [] (rocketDevicePmPut .done) := keeps_pmPut belowPm_nil keeps_done
  simp [Prog.Everywhere, Ordered, Ascends, rank, hput]

theorem keeps_irq (c : Nat) : Keeps t [] (rocketJobHandleIrq c) := by
  have hput : Keeps t [.job c]
      (rocketDevicePmPut <| .act (.setInFlight c false) <| .unlock (.job c) .done) :=
    keeps_pmPut (belowPm_job c) (by simp [Keeps, Prog.Everywhere, Ordered, Ascends])
  simp [rocketJobHandleIrq, Keeps, Prog.Everywhere, Ordered, Ascends, hput]

theorem keeps_timeout (c : Nat) : Keeps (.tdr c) [] (rocketJobTimedout c) := by
  refine keeps_choose keeps_done (keeps_await (by simp [level]) ?_)
  refine ⟨by simp [Ordered, Ascends], by simp [Ordered, Ascends],
    keeps_pmPutNoidle (belowPm_job c) ?_, ?_⟩
  · simp [Prog.Everywhere, Ordered, Ascends, rank]
  · simp [Prog.Everywhere, Ordered, Ascends, rank]

theorem keeps_free : Keeps t [] rocketJobFree := by
  simp [rocketJobFree, Keeps, Prog.Everywhere, Ordered, Ascends]

theorem keeps_release (bos : List (Nat × Nat)) (hrest : Keeps t [] rest) :
    Keeps t [] (drmGemRelease bos rest) := by
  induction bos with
  | nil => exact hrest
  | cons b bos ih => exact keeps_objectPut b.1 b.2 ih

theorem keeps_destroyEntities (cores : List Nat) {k : Nat} (hrest : Keeps (.user k) [] rest) :
    Keeps (.user k) [] (destroyEntities cores rest) := by
  induction cores with
  | nil => exact hrest
  | cons c cores ih => exact keeps_await (level_completers c k) ih

/-- The search of one core holds that core's `job_lock` and takes no other. -/
theorem keeps_scanCores (f : Nat) (cores : List Nat) (hrest : Keeps t [] rest) :
    Keeps t [] (scanCores f cores rest) := by
  induction cores with
  | nil => exact hrest
  | cons c cores ih =>
      have hnext : Keeps t [] (scanCores f cores rest) := ih
      simp only [Keeps, scanCores, List.foldr_cons] at hnext ⊢
      simp [Prog.Everywhere, Ordered, Ascends, hnext]

theorem keeps_domainsClose (f : Nat) (slots : List Nat) :
    Keeps t [] (rocketIommuDomainsClose f slots) := by
  induction slots with
  | nil => exact keeps_done
  | cons i slots ih => exact ⟨by simp [Ordered, Ascends], ih⟩

theorem keeps_close (n f : Nat) (bos : List (Nat × Nat)) (k : Nat) :
    Keeps (.user k) [] (closeFile n f bos) :=
  keeps_release bos (keeps_destroyEntities _ (keeps_destroyEntities _
    (keeps_scanCores f _ (keeps_domainsClose f _))))

/-- Every thread keeps to the lock order in whatever it may enter. -/
theorem keeps_program (n : Nat) (u : Thread) (e : Entry) (h : may u e = true) :
    Keeps u [] (program n e) := by
  cases e with
  | memCreate f i d b => exact keeps_memCreate f i d b
  | submit f i d b e c => cases u <;> simp [may] at h; exact keeps_submit f i d b e c _
  | boFree b d => exact keeps_boFree b d keeps_done
  | close f bos => cases u <;> simp [may] at h; exact keeps_close n f bos _
  | runJob c d => exact keeps_run c d
  | freeJob c => exact keeps_free
  | irq c => exact keeps_irq c
  | timeout c =>
      cases u with
      | tdr k =>
          obtain rfl : k = c := by simpa [may] using h
          exact keeps_timeout k
      | _ => simp [may] at h

end Checks

/-- No lock is waited for in a circle, and locks are taken in their order. -/
structure DeadlockFree (s : Locking.State Lock Thread Act Cond Shared) : Prop where
  /-- No threads wait for each other in a cycle. -/
  acyclic : ∀ t, ¬ TransGen s.WaitsFor t t
  /-- No thread stands before a lock it holds. -/
  notHeld : ∀ t l rest, s.prog t = .lock l rest → s.owner l ≠ some t
  /-- No thread holds the `job_lock` of two cores. -/
  oneJobLock : ∀ t c k, s.owner (.job c) = some t → s.owner (.job k) = some t → c = k
  /-- `job_lock` is not taken with `pm_lock` held. -/
  jobBeforePm : ∀ t c rest, s.prog t = .lock (.job c) rest → s.owner .pm ≠ some t

/-- In every reachable state of any number of threads on `n` cores the locks and the
waits of `drm_sched_stop` and `drm_sched_entity_destroy` are free of deadlock. -/
theorem deadlock_free {n : Nat} {acts : List (Locking.Action Thread Entry)}
    {s : Locking.State Lock Thread Act Cond Shared} (run : Runs (threads n).step start acts s) :
    DeadlockFree s := by
  obtain ⟨held, inv⟩ := Checked.reachable (R := Ordered rank level)
    (fun u => by simp [Ordered, Ascends]) (keeps_program n) run
  refine ⟨inv.no_cycle, fun t l rest hp hl => ?_, fun t c k hc hk => ?_, fun t c rest hp hpm => ?_⟩
  · exact absurd (inv.rank_lt hp hl) (Nat.lt_irrefl _)
  · simpa using inv.eq_of_rank hc hk rfl
  · have := inv.rank_lt hp hpm
    simp [rank] at this

/-- The next operations of a thread, the answers to free choices given. -/
def runThread (t : Thread) (answers : List Bool) : List (Locking.Action Thread Entry) :=
  answers.map (.step t)

/-- `rocket_job_run` of core 0 waits for `pm_lock`, which core 1 has taken, in its
`job_lock` section; the IRQ thread of core 0 waits for that `job_lock` and the
timeout worker of core 0 for both in `drm_sched_stop`. -/
def contendedSteps : List (Locking.Action Thread Entry) :=
  .start (.run 0) (.runJob 0 0) :: .start (.irq 0) (.irq 0) ::
    runThread (.run 0) [false, true, true, true, true, true, true, true] ++
    .start (.run 1) (.runJob 1 1) :: runThread (.run 1) [false, true] ++
    .start (.tdr 0) (.timeout 0) :: .step (.tdr 0) false :: runThread (.run 0) [true]

theorem contendedSteps_accepted :
    ((Transition.exec (threads 2).step start contendedSteps).map fun s =>
      decide (s.owner (.job 0) = some (.run 0) ∧ s.owner .pm = some (.run 1))) = some true := by
  decide

theorem deadlock_free_on_contendedSteps :
    ∃ s, Runs (threads 2).step start contendedSteps s ∧ DeadlockFree s := by
  obtain ⟨s, run, -⟩ := runs_of_test contendedSteps_accepted
  exact ⟨s, run, deadlock_free run⟩

end Rkopnu.Locks
