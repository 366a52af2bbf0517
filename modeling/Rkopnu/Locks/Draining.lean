import Rkopnu.Locks.Deadlock
import Rkopnu.Foundation.Draining

/-!
# The threads of the driver come to rest

No wait of the driver is for ever. With nothing new submitted, opened or closed, and with the
workers and the hardware calling no entry point again, every thread inside the driver leaves it,
however the threads take turns.

## Implementation notes

A wait in `drm_sched_stop` or `drm_sched_entity_destroy`, and that of a submit for the end of its
job, is taken to last until all the threads waited for are idle. A real one may end before.
-/

namespace Rkopnu.Locks

open Locking Transition

section Drain
variable {n : Nat} {acts : List (Locking.Action Thread Entry)}
  {s : Locking.State Lock Thread Act Cond Shared}

/-- From every reachable state of any number of threads on `n` cores, the threads inside the
driver come to rest in a bounded number of steps, in every order of their steps: as long as one
of them is inside, some thread can go on, and at rest every lock is free. -/
theorem threads_drain (run : Runs (threads n).step start acts s) :
    ∃ bound, ∀ more t, Runs (threads n).drain s more t →
      more.length ≤ bound ∧ ((∀ a, (threads n).drain t a = none) ↔ t.Quiet) :=
  drains (fun v => by simp [Ordered, Ascends]) (keeps_program n) run

theorem threads_drain_contended : ∃ s bound, Runs (threads 2).step start contendedSteps s ∧
    ¬ s.Quiet ∧ ∀ more t, Runs (threads 2).drain s more t → more.length ≤ bound ∧
      ((∀ a, (threads 2).drain t a = none) ↔ t.Quiet) := by
  obtain ⟨s, run, test⟩ := runs_of_test contendedSteps_accepted
  obtain ⟨bound, hbound⟩ := threads_drain run
  refine ⟨s, bound, run, fun quiet => ?_, hbound⟩
  have hheld := (of_decide_eq_true test).1
  simp [quiet.free] at hheld

end Drain

end Rkopnu.Locks
