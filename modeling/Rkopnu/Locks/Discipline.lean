import Rkopnu.Locks.Deadlock

/-!
# Which lock guards which field

`pm_lock` guards the count of the power unit, `job_lock` what a core has attached and in flight,
and `domains_lock` the pool of a file. No function of the driver reads or writes one of them
without its lock, but for `rocket_postclose`, which looks at the pool of its own file and
empties it without `domains_lock`.

## Implementation notes

The locks that an operation needs are a list, so that the check of a program is a computation;
what they guard is said of the single fields.
-/

namespace Rkopnu.Locks

open Function (update)
open Locking Transition
open Driver (maxIommuDomains)

/-- The fields that the threads share. -/
inductive Field
  /-- `rdev->pm_refcount`. -/
  | pmRefcount
  /-- `core->attached_domain`. -/
  | attached (c : Nat)
  /-- `core->in_flight_job`. -/
  | inFlight (c : Nat)
  /-- `rocket_priv->domains[i]`. -/
  | slot (f i : Nat)
  deriving DecidableEq, Repr

/-- The lock that guards the field. -/
def Field.lock : Field → Lock
  | .pmRefcount => .pm
  | .attached c | .inFlight c => .job c
  | .slot f _ => .domains f

/-- The field has one value in both states. -/
def Field.Same (x y : Shared) : Field → Prop
  | .pmRefcount => x.pmRefcount = y.pmRefcount
  | .attached c => x.attached c = y.attached c
  | .inFlight c => x.inFlight c = y.inFlight c
  | .slot f i => x.slot f i = y.slot f i

/-- The field that an action writes. -/
def Act.writes : Act → Option Field
  | .pmRef | .pmUnref => some .pmRefcount
  | .setAttached c _ => some (.attached c)
  | .setInFlight c _ => some (.inFlight c)
  | .setSlot f i _ => some (.slot f i)
  | _ => none

/-- The fields that a test reads. -/
def Cond.reads : Cond → List Field
  | .unitIdle => [.pmRefcount]
  | .attachedTo c _ | .attachedAny c => [.attached c]
  | .inFlight c => [.inFlight c]
  | .slotFilled f i => [.slot f i]
  | .scanHit f c => .attached c :: (List.range maxIommuDomains).map (.slot f)

/-- The fields that the next operation reads or writes. -/
def accesses : Code → List Field
  | .act a _ => a.writes.toList
  | .test c _ _ => c.reads
  | _ => []

/-- The next operation is one of `rocket_postclose` on the pool of file `f`. -/
def atPostclose (f : Nat) : Code → Bool
  | .act (.setSlot g _ none) _ => decide (g = f)
  | .test (.scanHit g _) _ _ => decide (g = f)
  | _ => false

/-- `rocket_postclose` accesses the field without its lock. -/
def Field.Unguarded (p : Code) : Field → Prop
  | .slot f _ => atPostclose f p = true
  | _ => False

/-- The locks that the next operation needs for the fields that it accesses. -/
def needs : Code → List Lock
  | .act (.setSlot _ _ none) _ => []
  | .act a _ => a.writes.toList.map Field.lock
  | .test (.scanHit _ c) _ _ => [.job c]
  | .test c _ _ => c.reads.map Field.lock
  | _ => []

/-- Every operation of the program has the locks that it needs. -/
abbrev Disciplined (t : Thread) (held : List Lock) (p : Code) : Prop :=
  p.Everywhere (Guarded needs t) held

/-- What an operation accesses without `rocket_postclose`'s licence is guarded by a lock that
it needs. -/
theorem lock_of_accesses {p : Code} {φ : Field} (h : φ ∈ accesses p) :
    φ.Unguarded p ∨ φ.lock ∈ needs p := by
  cases p with
  | act a rest =>
      cases a with
      | setSlot f i d =>
          obtain rfl : φ = .slot f i := by simpa [accesses, Act.writes] using h
          cases d with
          | none => exact Or.inl (by simp [Field.Unguarded, atPostclose])
          | some d => exact Or.inr (by simp [needs, Act.writes])
      | _ => exact Or.inr (List.mem_map_of_mem h)
  | test c yes no =>
      cases c with
      | scanHit f c =>
          rcases List.mem_cons.mp h with rfl | hslot
          · exact Or.inr (by simp [needs, Field.lock])
          · obtain ⟨i, -, rfl⟩ := List.mem_map.mp hslot
            exact Or.inl (by simp [Field.Unguarded, atPostclose])
      | _ => exact Or.inr (List.mem_map_of_mem h)
  | done | lock | unlock | choose | await => cases h

section Checks
variable {t : Thread} {held : List Lock} {rest ok fail p q : Code}

theorem disciplined_done : Disciplined t [] .done := by simp [Prog.Everywhere, Guarded, needs]

theorem disciplined_lock (l : Lock) (h : Disciplined t (l :: held) p) :
    Disciplined t held (.lock l p) := by
  simp [Prog.Everywhere, Guarded, needs, h]

theorem disciplined_unlock (l : Lock) (h : Disciplined t held p) :
    Disciplined t (l :: held) (.unlock l p) := by
  simp [Prog.Everywhere, Guarded, needs, h]

theorem disciplined_choose (hp : Disciplined t held p) (hq : Disciplined t held q) :
    Disciplined t held (.choose p q) := by
  simp [Prog.Everywhere, Guarded, needs, hp, hq]

theorem disciplined_await (who : List Thread) (h : Disciplined t held p) :
    Disciplined t held (.await who p) := by
  simp [Prog.Everywhere, Guarded, needs, h]

theorem disciplined_single (l : Lock) (h : Disciplined t [] rest) :
    Disciplined t [] (.lock l <| .unlock l rest) :=
  disciplined_lock l (disciplined_unlock l h)

theorem disciplined_pmGet (hok : Disciplined t held ok) (hfail : Disciplined t held fail) :
    Disciplined t held (rocketDevicePmGet ok fail) := by
  simp [rocketDevicePmGet, Prog.Everywhere, Guarded, needs, Act.writes, Cond.reads, Field.lock,
    hok, hfail]

theorem disciplined_pmPut (h : Disciplined t held rest) :
    Disciplined t held (rocketDevicePmPut rest) := by
  simp [rocketDevicePmPut, Prog.Everywhere, Guarded, needs, Act.writes, Cond.reads, Field.lock, h]

theorem disciplined_pmPutNoidle (h : Disciplined t held rest) :
    Disciplined t held (rocketDevicePmPutNoidle rest) := by
  simp [rocketDevicePmPutNoidle, Prog.Everywhere, Guarded, needs, Act.writes, Cond.reads,
    Field.lock, h]

theorem disciplined_domainGet (f i d : Nat) (hok : Disciplined t [] ok)
    (hfail : Disciplined t [] fail) : Disciplined t [] (rocketIommuDomainGet f i d ok fail) := by
  simp [rocketIommuDomainGet, Prog.Everywhere, Guarded, needs, Act.writes, Cond.reads, Field.lock,
    hok, hfail]

theorem disciplined_objectPut (b d : Nat) (h : Disciplined t [] rest) :
    Disciplined t [] (drmGemObjectPut b d rest) :=
  disciplined_choose (disciplined_single _ (disciplined_single _ h)) h

theorem disciplined_memCreate (f i d b : Nat) :
    Disciplined t [] (rkopnuIoctlMemCreate f i d b) := by
  have herr : Disciplined t [] (drmGemShmemFree b .done) := disciplined_single _ disciplined_done
  have hremove := disciplined_single (.mm d) herr
  have hhandle := disciplined_choose (disciplined_objectPut b d disciplined_done) hremove
  have hinsert := disciplined_single (.mm d)
    (disciplined_choose (disciplined_choose hhandle hremove) herr)
  have hpages := disciplined_single (.resv b) (disciplined_choose hinsert herr)
  exact disciplined_choose (disciplined_domainGet f i d hpages herr) disciplined_done

theorem disciplined_push (hok : Disciplined t [] ok) (hfail : Disciplined t [] fail) :
    Disciplined t [] (rocketJobPush [] ok fail) :=
  disciplined_choose (disciplined_lock .sched (disciplined_choose
    (disciplined_unlock .sched hok) (disciplined_unlock .sched hfail))) hfail

theorem disciplined_submit (f i d b e c : Nat) :
    Disciplined t [] (rkopnuIoctlSubmit f i d b e c) := by
  have hput := disciplined_objectPut (t := t) b e disciplined_done
  have hunmap := disciplined_single (.resv b) hput
  have hpush := disciplined_push (disciplined_await (completers c) hunmap) hunmap
  have hdomain := disciplined_domainGet f i d hpush hunmap
  exact disciplined_choose disciplined_done (disciplined_single (.resv b)
    (disciplined_choose (disciplined_choose hdomain hunmap) hput))

/-- The section of `rocket_job_run` that changes the core has its `job_lock`. -/
theorem disciplined_run (c d : Nat) : Disciplined t [] (rocketJobRun c d) := by
  refine disciplined_choose disciplined_done (disciplined_pmGet ?_ disciplined_done)
  have hput := disciplined_pmPut (t := t) disciplined_done
  simp [Prog.Everywhere, Guarded, needs, Act.writes, Cond.reads, Field.lock, hput]

theorem disciplined_irq (c : Nat) : Disciplined t [] (rocketJobHandleIrq c) := by
  have hput : Disciplined t [.job c]
      (rocketDevicePmPut <| .act (.setInFlight c false) <| .unlock (.job c) .done) :=
    disciplined_pmPut (by simp [Prog.Everywhere, Guarded, needs, Act.writes, Field.lock])
  simp [rocketJobHandleIrq, Prog.Everywhere, Guarded, needs, Cond.reads, Field.lock, hput]

theorem disciplined_timeout (c : Nat) : Disciplined t [] (rocketJobTimedout c) := by
  refine disciplined_choose disciplined_done (disciplined_await _ (disciplined_lock _ ?_))
  refine ⟨by simp [Guarded, needs, Cond.reads, Field.lock], disciplined_pmPutNoidle ?_, ?_⟩ <;>
    simp [Prog.Everywhere, Guarded, needs, Act.writes, Cond.reads, Field.lock]

theorem disciplined_release (bos : List (Nat × Nat)) (h : Disciplined t [] rest) :
    Disciplined t [] (drmGemRelease bos rest) := by
  induction bos with
  | nil => exact h
  | cons b bos ih => exact disciplined_objectPut b.1 b.2 ih

theorem disciplined_destroyEntities (cores : List Nat) (h : Disciplined t [] rest) :
    Disciplined t [] (destroyEntities cores rest) := by
  induction cores with
  | nil => exact h
  | cons c cores ih => exact disciplined_await _ ih

/-- The search of a core has the core's `job_lock`, and looks at the pool without its own. -/
theorem disciplined_scanCores (f : Nat) (cores : List Nat) (h : Disciplined t [] rest) :
    Disciplined t [] (scanCores f cores rest) := by
  induction cores with
  | nil => exact h
  | cons c cores ih =>
      have hnext : Disciplined t [] (scanCores f cores rest) := ih
      simp only [scanCores, List.foldr_cons] at hnext ⊢
      simp [Prog.Everywhere, Guarded, needs, Act.writes, Field.lock, hnext]

theorem disciplined_domainsClose (f : Nat) (slots : List Nat) :
    Disciplined t [] (rocketIommuDomainsClose f slots) := by
  induction slots with
  | nil => exact disciplined_done
  | cons i slots ih => exact ⟨by simp [Guarded, needs], ih⟩

theorem disciplined_program (n : Nat) (e : Entry) : Disciplined t [] (program n e) := by
  cases e with
  | memCreate f i d b => exact disciplined_memCreate f i d b
  | submit f i d b e c => exact disciplined_submit f i d b e c
  | boFree b d => exact disciplined_single _ (disciplined_single _ disciplined_done)
  | close f bos =>
      exact disciplined_release bos (disciplined_destroyEntities _ (disciplined_destroyEntities _
        (disciplined_scanCores f _ (disciplined_domainsClose f _))))
  | runJob c d => exact disciplined_run c d
  | freeJob c => exact ⟨by simp [Guarded, needs, Act.writes], disciplined_done⟩
  | irq c => exact disciplined_irq c
  | timeout c => exact disciplined_timeout c

end Checks

section Fields
variable {x : Shared} {a : Act} {φ : Field}

/-- An action changes no field but the one that it writes. -/
theorem same_of_perform (h : φ ∉ a.writes.toList) : φ.Same x (x.perform a) := by
  cases a with
  | setAttached c d =>
      cases φ with
      | attached k =>
          have hk : k ≠ c := by simpa [Act.writes] using h
          simp [Field.Same, Shared.perform, hk]
      | pmRefcount | inFlight | slot => rfl
  | setInFlight c job =>
      cases φ with
      | inFlight k =>
          have hk : k ≠ c := by simpa [Act.writes] using h
          simp [Field.Same, Shared.perform, hk]
      | pmRefcount | attached | slot => rfl
  | setSlot f i d =>
      cases φ with
      | slot g k =>
          have hk : g = f → k ≠ i := by simpa [Act.writes] using h
          by_cases hg : g = f
          · subst hg
            simp [Field.Same, Shared.perform, hk rfl]
          · simp [Field.Same, Shared.perform, hg]
      | pmRefcount | attached | inFlight => rfl
  | pmRef | pmUnref =>
      cases φ with
      | pmRefcount => simp [Act.writes] at h
      | attached | inFlight | slot => rfl
  | attach | detach | resume | release | putNoidle | jobFree => cases φ <;> rfl

end Fields

/-- No thread is in the way of another one at a shared field, but for `rocket_postclose` at the
pool of its file. -/
structure RaceFree (n : Nat) (s : Locking.State Lock Thread Act Cond Shared) : Prop where
  /-- A thread about to access a field has the field's lock. -/
  locked : ∀ t, ∀ φ ∈ accesses (s.prog t), φ.Unguarded (s.prog t) ∨ s.owner φ.lock = some t
  /-- No two threads are about to access one field. -/
  alone : ∀ t u, t ≠ u → ∀ φ ∈ accesses (s.prog t), φ ∈ accesses (s.prog u) →
    φ.Unguarded (s.prog t) ∨ φ.Unguarded (s.prog u)
  /-- While a thread has the lock of a field, no step of another thread changes the field. -/
  kept : ∀ t u left v φ, s.owner (Field.lock φ) = some t → u ≠ t →
    (threads n).step s (.step u left) = some v → φ.Unguarded (s.prog u) ∨ φ.Same s.data v.data

section Runs
variable {n : Nat} {acts : List (Locking.Action Thread Entry)}
  {s : Locking.State Lock Thread Act Cond Shared}

/-- In every reachable state of any number of threads on `n` cores the locks of the driver keep
the shared fields from races. -/
theorem fields_race_free (run : Runs (threads n).step start acts s) : RaceFree n s := by
  obtain ⟨held, inv⟩ := Checked.reachable (R := Guarded needs) (fun u => by simp [Guarded, needs])
    (fun u e _ => disciplined_program n e) run
  have locked : ∀ t, ∀ φ ∈ accesses (s.prog t),
      φ.Unguarded (s.prog t) ∨ s.owner φ.lock = some t := fun t φ hφ =>
    (lock_of_accesses hφ).imp_right inv.owner_of_needs
  refine ⟨locked, fun t u hne φ ht hu => ?_, fun t u left v φ howner hne hstep => ?_⟩
  · rcases locked t φ ht with hfree | hmine
    · exact Or.inl hfree
    · refine Or.inr ((locked u φ hu).resolve_right fun hother => ?_)
      exact hne (Option.some.inj (hmine.symm.trans hother))
  · rcases (Setup.steps_of_step hstep).data with hsame | ⟨b, rest, hp, hdata⟩
    · exact Or.inr (by rw [hsame]; cases φ <;> rfl)
    · by_cases hwrites : φ ∈ b.writes.toList
      · refine (locked u φ (by rwa [hp])).imp_right fun hmine => ?_
        exact absurd (Option.some.inj (hmine.symm.trans howner)) hne
      · exact Or.inr (hdata ▸ same_of_perform hwrites)

theorem fields_race_free_contended : ∃ s, Runs (threads 2).step start contendedSteps s ∧
    s.owner (.job 0) = some (.run 0) ∧ RaceFree 2 s := by
  obtain ⟨s, run, test⟩ := runs_of_test contendedSteps_accepted
  exact ⟨s, run, (of_decide_eq_true test).1, fields_race_free run⟩

end Runs

end Rkopnu.Locks
