import Rkopnu.Foundation.Locking
import Mathlib.Algebra.Order.BigOperators.Group.Finset
import Mathlib.Data.Finset.Max

/-!
# Threads that go on by themselves

Once no program is entered any more, the threads of a system with a lock order come to rest:
whichever of them takes the next step, each runs to the end of its program, and the locks are
given back. A wait for other threads may last until all of them are idle.

## Implementation notes

Every step shortens the program of one thread, so a run is no longer than the programs. It stops
only where nobody has anything left to run, because of the threads that wait one is furthest
along the chains of waits, and the thread it waits for does not wait itself.
-/

namespace Rkopnu.Locking

open Function (update)
open Transition

section Drain
variable {L θ A C σ ε : Type*}

/-- The most steps that a thread can take from here. -/
def Prog.steps : Prog L θ A C → Nat
  | .done => 0
  | .lock _ p | .unlock _ p | .act _ p | .await _ p => p.steps + 1
  | .test _ p q | .choose p q => max p.steps q.steps + 1

theorem Prog.steps_of_done {p : Prog L θ A C} (h : p.isDone = true) : p.steps = 0 := by
  cases p with
  | done => rfl
  | lock | unlock | act | test | choose | await => cases h

/-- The step enters a program, or goes past a wait for a thread that is busy. -/
def State.holdsBack (s : State L θ A C σ) : Action θ ε → Bool
  | .start _ _ => true
  | .step t _ => match s.prog t with
      | .await who _ => who.any fun u => !(s.prog u).isDone
      | _ => false

/-- Nobody has anything left to run, and no lock is held. -/
structure State.Quiet (s : State L θ A C σ) : Prop where
  idle : ∀ t, (s.prog t).isDone = true
  free : ∀ l, s.owner l = none

/-- What the threads of a set have left to run. -/
def State.left (s : State L θ A C σ) (T : Finset θ) : Nat := ∑ t ∈ T, (s.prog t).steps

section Idle
variable {R : θ → List L → Prog L θ A C → Prop} {held : θ → List L} {s : State L θ A C σ}

theorem Checked.held_of_done (inv : Checked R held s) {u : θ} (h : (s.prog u).isDone = true) :
    held u = [] := by
  have hpoint := inv.everywhere u
  cases hp : s.prog u with
  | done =>
      rw [hp] at hpoint
      exact hpoint.1
  | lock | unlock | act | test | choose | await => simp [hp, Prog.isDone] at h

/-- Nobody waits for an idle thread. -/
theorem Checked.busy_of_waitsFor (inv : Checked R held s) {u v : θ} (h : s.WaitsFor u v) :
    (s.prog v).isDone = false := by
  unfold State.WaitsFor at h
  cases hp : s.prog u with
  | lock l rest =>
      rw [hp] at h
      have hmem : l ∈ held v := (inv.owner v l).mpr h
      rw [Bool.eq_false_iff]
      intro hdone
      simp [inv.held_of_done hdone] at hmem
  | await who rest =>
      rw [hp] at h
      exact h.2
  | done | unlock | act | test | choose => simp [hp] at h

end Idle

variable [DecidableEq θ] [DecidableEq L]

/-- The threads going on by themselves. -/
def Setup.drain (S : Setup L θ A C σ ε) : System (State L θ A C σ) (Action θ ε) := fun s a =>
  if s.holdsBack a then none else S.step s a

variable {S : Setup L θ A C σ ε} {s t : State L θ A C σ} {u : θ} {a : Action θ ε} {T : Finset θ}

theorem drain_eq_some : S.drain s a = some t ↔ s.holdsBack a = false ∧ S.step s a = some t := by
  unfold Setup.drain
  split <;> simp_all

/-- A step shortens the program of its thread and no other. -/
theorem Setup.Steps.shortens {p : Prog L θ A C} (h : S.Steps s u p t) :
    ∃ q, t.prog = update s.prog u q ∧ q.steps < p.steps := by
  cases h with
  | lock | unlock | act | await => exact ⟨_, rfl, Nat.lt_succ_self _⟩
  | test =>
      refine ⟨_, rfl, Nat.lt_succ_of_le ?_⟩
      split
      · exact Nat.le_max_left _ _
      · exact Nat.le_max_right _ _
  | choose =>
      refine ⟨_, rfl, Nat.lt_succ_of_le ?_⟩
      split
      · exact Nat.le_max_left _ _
      · exact Nat.le_max_right _ _

/-- A step of a thread of the set lessens what the set has left. -/
theorem left_lt (idle : ∀ v ∉ T, (s.prog v).isDone = true) (h : S.drain s a = some t) :
    t.left T < s.left T ∧ ∀ v ∉ T, (t.prog v).isDone = true := by
  obtain ⟨hback, hstep⟩ := drain_eq_some.mp h
  cases a with
  | start v e => cases hback
  | step u left =>
      obtain ⟨q, hprog, hless⟩ := (Setup.steps_of_step hstep).shortens
      have hu : u ∈ T := by
        by_contra hout
        rw [Prog.steps_of_done (idle u hout)] at hless
        exact Nat.not_lt_zero _ hless
      refine ⟨Finset.sum_lt_sum (fun v _ => ?_) ⟨u, hu, ?_⟩, fun v hv => ?_⟩
      · by_cases hv : v = u
        · subst hv
          simpa [hprog] using hless.le
        · simp [hprog, hv]
      · simpa [hprog] using hless
      · have hne : v ≠ u := by
          rintro rfl
          exact hv hu
        simpa [hprog, hne] using idle v hv

/-- A run takes no more steps than the threads have left. -/
theorem length_add_left_le (idle : ∀ v ∉ T, (s.prog v).isDone = true)
    {more : List (Action θ ε)} (run : Runs S.drain s more t) :
    more.length + t.left T ≤ s.left T := by
  have both : (∀ v ∉ T, (t.prog v).isDone = true) ∧ more.length + t.left T ≤ s.left T := by
    refine history (fun done x => (∀ v ∉ T, (x.prog v).isDone = true) ∧
      done.length + x.left T ≤ s.left T) ⟨idle, by simp⟩ (fun done x b y _ inv hstep => ?_) run
    obtain ⟨hless, hidle⟩ := left_lt inv.1 hstep
    have hsum := inv.2
    refine ⟨hidle, ?_⟩
    rw [List.length_append, List.length_singleton]
    omega
  exact both.2

/-- Only finitely many threads are busy. -/
theorem finitely_busy {data : σ} {acts : List (Action θ ε)}
    (run : Runs S.step (State.init data) acts s) :
    ∃ T : Finset θ, ∀ v ∉ T, (s.prog v).isDone = true := by
  refine invariant (fun x : State L θ A C σ => ∃ T : Finset θ, ∀ v ∉ T, (x.prog v).isDone = true)
    ?_ run ⟨∅, fun v _ => rfl⟩
  rintro x b y ⟨T, idle⟩ hstep
  have insert : ∀ v q, y.prog = update x.prog v q →
      ∃ T : Finset θ, ∀ w ∉ T, (y.prog w).isDone = true := by
    intro v q hprog
    refine ⟨insert v T, fun w hw => ?_⟩
    obtain ⟨hne, hout⟩ := not_or.mp (Finset.mem_insert.not.mp hw)
    simpa [hprog, hne] using idle w hout
  cases b with
  | start v e =>
      simp only [Setup.step, Option.ite_none_right_eq_some] at hstep
      obtain rfl := Option.some.inj hstep.2
      exact insert v _ rfl
  | step v left =>
      obtain ⟨q, hprog, -⟩ := (Setup.steps_of_step hstep).shortens
      exact insert v q hprog

/-- A busy thread can take a step, or waits for another one. -/
theorem drain_or_waits (hbusy : (s.prog u).isDone = false) :
    (S.drain s (.step u true)).isSome = true ∨ ∃ v, s.WaitsFor u v := by
  cases hp : s.prog u with
  | done => simp [hp, Prog.isDone] at hbusy
  | lock l rest =>
      cases hown : s.owner l with
      | none => exact Or.inl (by simp [Setup.drain, State.holdsBack, Setup.step, hp, hown])
      | some v => exact Or.inr ⟨v, by simp [State.WaitsFor, hp, hown]⟩
  | await who rest =>
      cases hany : who.any fun v => !(s.prog v).isDone with
      | false => exact Or.inl (by simp [Setup.drain, State.holdsBack, Setup.step, hp, hany])
      | true =>
          obtain ⟨v, hv, hwait⟩ := List.any_eq_true.mp hany
          exact Or.inr ⟨v, by simpa [State.WaitsFor, hp, hv] using hwait⟩
  | unlock | act | test | choose =>
      exact Or.inl (by simp [Setup.drain, State.holdsBack, Setup.step, hp])

section Ordered
variable {rank : L → Nat} {level : θ → Nat} {held : θ → List L}

/-- While a thread is busy, some thread can take a step. -/
theorem Checked.moves (inv : Checked (Ordered rank level) held s)
    (idle : ∀ v ∉ T, (s.prog v).isDone = true) (hbusy : (s.prog u).isDone = false) :
    ∃ v, (S.drain s (.step v true)).isSome = true := by
  have mem_of_busy : ∀ {v}, (s.prog v).isDone = false →
      v ∈ T.filter fun v => (s.prog v).isDone = false := by
    intro v hv
    refine Finset.mem_filter.mpr ⟨?_, hv⟩
    by_contra hout
    simp [idle v hout] at hv
  -- the busy thread that is furthest along the chains of waits
  obtain ⟨v, hv, hmax⟩ := Finset.exists_max_image _ (s.key rank level) ⟨u, mem_of_busy hbusy⟩
  rcases drain_or_waits (S := S) (Finset.mem_filter.mp hv).2 with hstep | ⟨w, hwait⟩
  · exact ⟨v, hstep⟩
  · have hw := inv.busy_of_waitsFor hwait
    rcases drain_or_waits (S := S) hw with hstep | ⟨x, hnext⟩
    · exact ⟨w, hstep⟩
    · exact absurd (hmax w (mem_of_busy hw)) (not_le.mpr (inv.key_lt hwait hnext))

/-- The threads come to a stop where all is quiet, and nowhere else. -/
theorem Checked.stuck_iff (inv : Checked (Ordered rank level) held s)
    (idle : ∀ v ∉ T, (s.prog v).isDone = true) : (∀ a, S.drain s a = none) ↔ s.Quiet := by
  constructor
  · intro stuck
    have hidle : ∀ v, (s.prog v).isDone = true := by
      intro v
      by_contra hbusy
      obtain ⟨w, hstep⟩ := inv.moves (S := S) idle (Bool.eq_false_iff.mpr hbusy)
      simp [stuck] at hstep
    refine ⟨hidle, fun l => ?_⟩
    cases hown : s.owner l with
    | none => rfl
    | some v =>
        have hmem : l ∈ held v := (inv.owner v l).mpr hown
        simp [inv.held_of_done (hidle v)] at hmem
  · rintro quiet (⟨v, e⟩ | ⟨v, left⟩)
    · rfl
    · have hdone := quiet.idle v
      cases hp : s.prog v with
      | done => simp [Setup.drain, State.holdsBack, Setup.step, hp]
      | lock | unlock | act | test | choose | await => simp [hp, Prog.isDone] at hdone

/-- From every reachable state of programs that keep to a lock order, the threads come to
rest on their own, whoever takes the steps. -/
theorem drains (idle : ∀ v, Ordered rank level v [] (.done : Prog L θ A C))
    (checks : ∀ v e, S.may v e = true → (S.program e).Everywhere (Ordered rank level v) [])
    {data : σ} {acts : List (Action θ ε)} (run : Runs S.step (State.init data) acts s) :
    ∃ bound, ∀ more t, Runs S.drain s more t →
      more.length ≤ bound ∧ ((∀ a, S.drain t a = none) ↔ t.Quiet) := by
  obtain ⟨T, hT⟩ := finitely_busy run
  refine ⟨s.left T, fun more t hmore => ⟨?_, ?_⟩⟩
  · have hlength := length_add_left_le hT hmore
    omega
  · have kept : (∀ v ∉ T, (t.prog v).isDone = true) ∧
        ∃ held, Checked (Ordered rank level) held t := by
      refine invariant (fun x => (∀ v ∉ T, (x.prog v).isDone = true) ∧
        ∃ held, Checked (Ordered rank level) held x) ?_ hmore
        ⟨hT, Checked.reachable idle checks run⟩
      rintro x a y ⟨hidle, held, inv⟩ hstep
      exact ⟨(left_lt hidle hstep).2, inv.preserve checks (drain_eq_some.mp hstep).2⟩
    obtain ⟨hidle, held, inv⟩ := kept
    exact inv.stuck_iff hidle

end Ordered

end Drain

end Rkopnu.Locking
