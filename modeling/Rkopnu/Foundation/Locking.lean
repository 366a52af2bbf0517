import Rkopnu.Foundation.Transition
import Mathlib.Data.List.Nodup
import Mathlib.Data.Prod.Lex
import Mathlib.Logic.Function.Basic
import Mathlib.Logic.Relation

/-!
# Threads that take locks

A thread runs a program of lock operations, actions on shared data, tests of shared
data, free choices and waits for other threads. A check of the program text, made at
every point of it with the locks held there, holds of every thread in every
reachable state. Two checks are given: a lock order with levels for the waits, which
rules out a cycle of waiting threads, and a lock that guards a kind of action, which
keeps two threads from being at such actions together.

## Implementation notes

When a wait for other threads ends is left open, so a run may go on past a wait at any
time. While a thread stands at a wait it counts as waiting for every thread of the
list that is busy.
-/

namespace Rkopnu.Locking

open Function (update)
open Transition Relation

/-- The code a thread has still to run. -/
inductive Prog (L θ A C : Type*)
  | done
  | lock (l : L) (rest : Prog L θ A C)
  | unlock (l : L) (rest : Prog L θ A C)
  | act (a : A) (rest : Prog L θ A C)
  | test (c : C) (yes no : Prog L θ A C)
  | choose (left right : Prog L θ A C)
  | await (who : List θ) (rest : Prog L θ A C)

/-- Shared data, who holds each lock, and what each thread has still to run. -/
structure State (L θ A C σ : Type*) where
  data : σ
  owner : L → Option θ
  prog : θ → Prog L θ A C

/-- The programs of a system, the threads that may run them, and what its actions
and tests mean. -/
structure Setup (L θ A C σ ε : Type*) where
  program : ε → Prog L θ A C
  may : θ → ε → Bool
  perform : A → σ → σ
  holds : C → σ → Bool

inductive Action (θ ε : Type*)
  /-- An idle thread enters a program. -/
  | start (t : θ) (e : ε)
  /-- A thread does its next operation; `left` answers a free choice. -/
  | step (t : θ) (left : Bool)

section Step
variable {L θ A C σ ε : Type*}

/-- Nothing is left to run. -/
def Prog.isDone : Prog L θ A C → Bool
  | .done => true
  | _ => false

/-- All threads are idle and all locks are free. -/
def State.init (data : σ) : State L θ A C σ where
  data := data
  owner := fun _ => none
  prog := fun _ => .done

variable [DecidableEq θ]

/-- The thread goes on with `p`. -/
def State.go (s : State L θ A C σ) (t : θ) (p : Prog L θ A C) : State L θ A C σ :=
  { s with prog := update s.prog t p }

variable [DecidableEq L]

/-- The threads as a transition system. -/
def Setup.step (S : Setup L θ A C σ ε) : System (State L θ A C σ) (Action θ ε)
  | s, .start t e =>
      if (s.prog t).isDone && S.may t e then some (s.go t (S.program e)) else none
  | s, .step t left => match s.prog t with
      | .done => none
      | .lock l rest => match s.owner l with
          | none => some { s.go t rest with owner := update s.owner l (some t) }
          | some _ => none
      | .unlock l rest => some { s.go t rest with owner := update s.owner l none }
      | .act a rest => some { s.go t rest with data := S.perform a s.data }
      | .test c yes no => some (s.go t (if S.holds c s.data then yes else no))
      | .choose p q => some (s.go t (if left then p else q))
      | .await _ rest => some (s.go t rest)

/-- The thread takes one step of the program it stands at, to the state. -/
inductive Setup.Steps (S : Setup L θ A C σ ε) (s : State L θ A C σ) (u : θ) :
    Prog L θ A C → State L θ A C σ → Prop
  | lock {l rest} (free : s.owner l = none) :
      S.Steps s u (.lock l rest) { s.go u rest with owner := update s.owner l (some u) }
  | unlock {l rest} :
      S.Steps s u (.unlock l rest) { s.go u rest with owner := update s.owner l none }
  | act {a rest} : S.Steps s u (.act a rest) { s.go u rest with data := S.perform a s.data }
  | test {c yes no} :
      S.Steps s u (.test c yes no) (s.go u (if S.holds c s.data then yes else no))
  | choose {p q} (left : Bool) : S.Steps s u (.choose p q) (s.go u (if left then p else q))
  | await {who rest} : S.Steps s u (.await who rest) (s.go u rest)

theorem Setup.steps_of_step {S : Setup L θ A C σ ε} {s t : State L θ A C σ} {u : θ} {left : Bool}
    (hstep : S.step s (.step u left) = some t) : S.Steps s u (s.prog u) t := by
  simp only [Setup.step] at hstep
  cases hp : s.prog u with
  | done => simp [hp] at hstep
  | lock l rest =>
      cases hown : s.owner l with
      | some v => simp [hp, hown] at hstep
      | none =>
          simp only [hp, hown, Option.some.injEq] at hstep
          exact hstep ▸ .lock hown
  | unlock l rest =>
      simp only [hp, Option.some.injEq] at hstep
      exact hstep ▸ .unlock
  | act a rest =>
      simp only [hp, Option.some.injEq] at hstep
      exact hstep ▸ .act
  | test c yes no =>
      simp only [hp, Option.some.injEq] at hstep
      exact hstep ▸ .test
  | choose p q =>
      simp only [hp, Option.some.injEq] at hstep
      exact hstep ▸ .choose left
  | await who rest =>
      simp only [hp, Option.some.injEq] at hstep
      exact hstep ▸ .await

end Step

section Checks
variable {L θ A C σ ε : Type*}

/-- `R` holds at every point of the program, with the locks held there, the last one
taken first. A lock is given back by the section that took it. -/
def Prog.Everywhere (R : List L → Prog L θ A C → Prop) : List L → Prog L θ A C → Prop
  | held, .done => held = [] ∧ R held .done
  | held, .lock l p => R held (.lock l p) ∧ p.Everywhere R (l :: held)
  | held, .unlock l p => R held (.unlock l p) ∧ ∃ rest, held = l :: rest ∧ p.Everywhere R rest
  | held, .act a p => R held (.act a p) ∧ p.Everywhere R held
  | held, .test c p q => R held (.test c p q) ∧ p.Everywhere R held ∧ q.Everywhere R held
  | held, .choose p q => R held (.choose p q) ∧ p.Everywhere R held ∧ q.Everywhere R held
  | held, .await who p => R held (.await who p) ∧ p.Everywhere R held

theorem Prog.Everywhere.here {R : List L → Prog L θ A C → Prop} {held : List L}
    {p : Prog L θ A C} (h : p.Everywhere R held) : R held p := by
  cases p with
  | done => exact h.2
  | lock | unlock | act | test | choose | await => exact h.1

/-- Every thread stands at a point of a checked program and holds the locks that the
check counts there. -/
structure Checked (R : θ → List L → Prog L θ A C → Prop) (held : θ → List L)
    (s : State L θ A C σ) : Prop where
  everywhere : ∀ t, (s.prog t).Everywhere (R t) (held t)
  nodup : ∀ t, (held t).Nodup
  owner : ∀ t l, l ∈ held t ↔ s.owner l = some t

variable {R : θ → List L → Prog L θ A C → Prop} {held : θ → List L} {s t : State L θ A C σ}

theorem Checked.initial (idle : ∀ u, R u [] .done) (data : σ) :
    Checked R (fun _ => []) (State.init data) where
  everywhere := fun u => ⟨rfl, idle u⟩
  nodup := fun _ => List.nodup_nil
  owner := fun u l => by simp [State.init]

variable [DecidableEq θ]

/-- A thread goes on without taking or giving back a lock. -/
theorem Checked.go (inv : Checked R held s) {u : θ} {p : Prog L θ A C}
    (hp : p.Everywhere (R u) (held u)) : Checked R held (s.go u p) where
  everywhere := fun v => by
    by_cases hv : v = u
    · subst hv
      simpa [State.go] using hp
    · simpa [State.go, hv] using inv.everywhere v
  nodup := inv.nodup
  owner := inv.owner

variable [DecidableEq L]

/-- A thread takes a free lock. -/
theorem Checked.take (inv : Checked R held s) {u : θ} {l : L} {p : Prog L θ A C}
    (hfree : s.owner l = none) (hp : p.Everywhere (R u) (l :: held u)) :
    Checked R (update held u (l :: held u))
      { s.go u p with owner := update s.owner l (some u) } where
  everywhere := fun v => by
    by_cases hv : v = u
    · subst hv
      simpa [State.go] using hp
    · simpa [State.go, hv] using inv.everywhere v
  nodup := fun v => by
    by_cases hv : v = u
    · subst hv
      have hnew : l ∉ held v := fun hl => by simp [(inv.owner v l).mp hl] at hfree
      simpa using ⟨hnew, inv.nodup v⟩
    · simpa [hv] using inv.nodup v
  owner := fun v m => by
    have hold := inv.owner v m
    by_cases hv : v = u
    · subst hv
      by_cases hm : m = l
      · simp [hm]
      · simpa [hm] using hold
    · by_cases hm : m = l
      · subst hm
        have hnot : m ∉ held v := fun hl => by simp [hold.mp hl] at hfree
        simp [hv, hnot, Ne.symm hv]
      · simpa [hv, hm] using hold

/-- A thread gives back the lock it took last. -/
theorem Checked.give (inv : Checked R held s) {u : θ} {l : L} {rest : List L}
    {p : Prog L θ A C} (hheld : held u = l :: rest) (hp : p.Everywhere (R u) rest) :
    Checked R (update held u rest) { s.go u p with owner := update s.owner l none } where
  everywhere := fun v => by
    by_cases hv : v = u
    · subst hv
      simpa [State.go] using hp
    · simpa [State.go, hv] using inv.everywhere v
  nodup := fun v => by
    by_cases hv : v = u
    · subst hv
      have hold := inv.nodup v
      rw [hheld, List.nodup_cons] at hold
      simpa using hold.2
    · simpa [hv] using inv.nodup v
  owner := fun v m => by
    have hold := inv.owner v m
    by_cases hv : v = u
    · subst hv
      have hnodup := inv.nodup v
      rw [hheld, List.nodup_cons] at hnodup
      rw [hheld, List.mem_cons] at hold
      by_cases hm : m = l
      · simp [hm, hnodup.1]
      · simpa [hm] using hold
    · by_cases hm : m = l
      · subst hm
        have hmine : s.owner m = some u := (inv.owner u m).mp (by simp [hheld])
        have hnot : m ∉ held v := fun hl => by
          have := hold.mp hl
          rw [hmine] at this
          exact hv (Option.some.inj this).symm
        simp [hv, hnot]
      · simpa [hv, hm] using hold

/-- A step leaves every thread at a point of a checked program. -/
theorem Checked.preserve {S : Setup L θ A C σ ε}
    (checks : ∀ u e, S.may u e = true → (S.program e).Everywhere (R u) [])
    (inv : Checked R held s) {a : Action θ ε} (hstep : S.step s a = some t) :
    ∃ more, Checked R more t := by
  cases a with
  | start u e =>
      simp only [Setup.step, Option.ite_none_right_eq_some, Bool.and_eq_true] at hstep
      obtain ⟨⟨hidle, hmay⟩, hgo⟩ := hstep
      obtain rfl := Option.some.inj hgo
      have hheld : held u = [] := by
        have hdone := inv.everywhere u
        cases hp : s.prog u <;> simp_all [Prog.isDone, Prog.Everywhere]
      exact ⟨held, inv.go (hheld ▸ checks u e hmay)⟩
  | step u left =>
      have hpoint := inv.everywhere u
      have hsteps := Setup.steps_of_step hstep
      generalize s.prog u = p at hpoint hsteps
      cases hsteps with
      | lock free => exact ⟨_, inv.take free hpoint.2⟩
      | unlock =>
          obtain ⟨-, more, hheld, hrest⟩ := hpoint
          exact ⟨_, inv.give hheld hrest⟩
      | act =>
          have hgo := inv.go hpoint.2
          exact ⟨held, hgo.everywhere, hgo.nodup, hgo.owner⟩
      | test =>
          refine ⟨held, inv.go ?_⟩
          split
          · exact hpoint.2.1
          · exact hpoint.2.2
      | choose =>
          refine ⟨held, inv.go ?_⟩
          split
          · exact hpoint.2.1
          · exact hpoint.2.2
      | await => exact ⟨held, inv.go hpoint.2⟩

/-- Every reachable state of checked programs is checked. -/
theorem Checked.reachable {S : Setup L θ A C σ ε} (idle : ∀ u, R u [] .done)
    (checks : ∀ u e, S.may u e = true → (S.program e).Everywhere (R u) [])
    {data : σ} {acts : List (Action θ ε)} (run : Runs S.step (State.init data) acts s) :
    ∃ held, Checked R held s :=
  invariant (fun s => ∃ held, Checked R held s)
    (fun _ _ _ hinv hstep => hinv.elim fun _ inv => inv.preserve checks hstep) run
    ⟨_, Checked.initial idle data⟩

end Checks

section Deadlock
variable {L θ A C σ : Type*}

/-- The thread stands before a lock that `u` holds, or waits for `u`, which is busy. -/
def State.WaitsFor (s : State L θ A C σ) (t u : θ) : Prop :=
  match s.prog t with
  | .lock l _ => s.owner l = some u
  | .await who _ => u ∈ who ∧ (s.prog u).isDone = false
  | _ => False

/-- A lock is taken above all locks held, and a thread waits with no lock held, for
threads of lower levels. -/
def Ascends (rank : L → Nat) (level : θ → Nat) (t : θ) (held : List L) :
    Prog L θ A C → Prop
  | .lock l _ => ∀ h ∈ held, rank h < rank l
  | .await who _ => held = [] ∧ ∀ u ∈ who, level u < level t
  | _ => True

/-- The thread keeps to the lock order, and holds no two locks of one rank. -/
def Ordered (rank : L → Nat) (level : θ → Nat) (t : θ) (held : List L)
    (p : Prog L θ A C) : Prop :=
  (held.map rank).Nodup ∧ Ascends rank level t held p

/-- How far a waiting thread is along any chain of waits: first the waits for threads,
down the levels, then the locks, up the order. -/
def State.key (s : State L θ A C σ) (rank : L → Nat) (level : θ → Nat) (t : θ) : ℕ ×ₗ ℤ :=
  match s.prog t with
  | .lock l _ => toLex (1, (rank l : ℤ))
  | _ => toLex (0, -(level t : ℤ))

variable {rank : L → Nat} {level : θ → Nat} {held : θ → List L} {s : State L θ A C σ}
  {t u v : θ}

/-- Along a wait for a thread that itself waits the key goes up. -/
theorem Checked.key_lt (inv : Checked (Ordered rank level) held s) (h : s.WaitsFor t u)
    (next : s.WaitsFor u v) : s.key rank level t < s.key rank level u := by
  have ht := (inv.everywhere t).here.2
  have hu := (inv.everywhere u).here.2
  unfold State.WaitsFor at h next
  unfold State.key
  cases hpt : s.prog t with
  | lock l rest =>
      rw [hpt] at h
      have hmem : l ∈ held u := (inv.owner u l).mpr h
      cases hpu : s.prog u with
      | lock m more =>
          rw [hpu] at hu
          refine Prod.Lex.toLex_lt_toLex.mpr (Or.inr ⟨rfl, ?_⟩)
          exact Int.ofNat_lt.mpr (hu l hmem)
      | await who more =>
          rw [hpu] at hu
          simp [hu.1] at hmem
      | done | unlock | act | test | choose => simp [hpu] at next
  | await who rest =>
      rw [hpt] at h ht
      cases hpu : s.prog u with
      | lock m more => exact Prod.Lex.toLex_lt_toLex.mpr (Or.inl Nat.zero_lt_one)
      | await others more =>
          refine Prod.Lex.toLex_lt_toLex.mpr (Or.inr ⟨rfl, ?_⟩)
          exact Int.neg_lt_neg (Int.ofNat_lt.mpr (ht.2 u h.1))
      | done | unlock | act | test | choose => simp [hpu] at next
  | done | unlock | act | test | choose => simp [hpt] at h

theorem Checked.key_lt_of_transGen (inv : Checked (Ordered rank level) held s)
    (h : TransGen s.WaitsFor t u) (next : s.WaitsFor u v) :
    s.key rank level t < s.key rank level u := by
  induction h generalizing v with
  | single h => exact inv.key_lt h next
  | tail _ h ih => exact (ih h).trans (inv.key_lt h next)

/-- No thread waits for itself, by however many steps. -/
theorem Checked.no_cycle (inv : Checked (Ordered rank level) held s) (t : θ) :
    ¬ TransGen s.WaitsFor t t := by
  intro h
  obtain ⟨u, hu, -⟩ := TransGen.head'_iff.mp h
  exact lt_irrefl _ (inv.key_lt_of_transGen h hu)

/-- A lock about to be taken is above every lock the thread holds. -/
theorem Checked.rank_lt (inv : Checked (Ordered rank level) held s) {l h : L}
    {rest : Prog L θ A C} (hp : s.prog t = .lock l rest) (hh : s.owner h = some t) :
    rank h < rank l := by
  have hpoint := (inv.everywhere t).here.2
  rw [hp] at hpoint
  exact hpoint h ((inv.owner t h).mpr hh)

/-- Two locks of one rank are not held by one thread. -/
theorem Checked.eq_of_rank (inv : Checked (Ordered rank level) held s) {l m : L}
    (hl : s.owner l = some t) (hm : s.owner m = some t) (h : rank l = rank m) : l = m :=
  List.inj_on_of_nodup_map (inv.everywhere t).here.1 ((inv.owner t l).mpr hl)
    ((inv.owner t m).mpr hm) h

end Deadlock

section Guards
variable {L θ A C σ ε : Type*} {needs : Prog L θ A C → List L} {held : θ → List L}
  {s t : State L θ A C σ}

/-- The locks that the next operation needs are held. -/
def Guarded (needs : Prog L θ A C → List L) (_ : θ) (held : List L) (p : Prog L θ A C) : Prop :=
  ∀ l ∈ needs p, l ∈ held

theorem Checked.owner_of_needs (inv : Checked (Guarded needs) held s) {u : θ} {l : L}
    (hl : l ∈ needs (s.prog u)) : s.owner l = some u :=
  (inv.owner u l).mp ((inv.everywhere u).here l hl)

variable [DecidableEq θ] [DecidableEq L] {S : Setup L θ A C σ ε}

/-- Only an action changes the shared data. -/
theorem Setup.Steps.data {u : θ} {p : Prog L θ A C} (h : S.Steps s u p t) :
    t.data = s.data ∨ ∃ a rest, p = .act a rest ∧ t.data = S.perform a s.data := by
  cases h with
  | @act a rest => exact Or.inr ⟨a, rest, rfl, rfl⟩
  | lock | unlock | test | choose | await => exact Or.inl rfl

end Guards

end Rkopnu.Locking
