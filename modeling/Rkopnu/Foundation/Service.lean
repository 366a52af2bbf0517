import Rkopnu.Foundation.Transition
import Mathlib.Data.List.Nodup

/-!
# Serving jobs one at a time

What a driver of exclusive devices is for, without any of its threads: a job is accepted for
one server, may be started there while the server runs no other job, and ends once, with a
result that stays. An implementation is shown to be such a service by a simulation, and then
has what is proved here of every run.

## Implementation notes

A job may end without having been started. The starts are recorded in order, so that what an
implementation reports of its devices can be compared with them.
-/

namespace Rkopnu.Service

open Function (update)
open Transition

variable {ι κ ε : Type*}

/-- How far a job has come. -/
inductive Stage (κ ε : Type*)
  | absent
  | waiting (c : κ)
  | running (c : κ)
  | ended (c : κ) (result : ε)

/-- The jobs and the starts so far. -/
@[ext]
structure Board (ι κ ε : Type*) where
  stage : ι → Stage κ ε
  starts : List (ι × κ)

inductive Event (ι κ ε : Type*)
  | accept (i : ι) (c : κ)
  | start (i : ι) (c : κ)
  | finish (i : ι) (c : κ) (result : ε)

/-- No job yet. -/
def Board.empty : Board ι κ ε := ⟨fun _ => .absent, []⟩

/-- What an event asks of the board. -/
def Board.Allows (b : Board ι κ ε) : Event ι κ ε → Prop
  | .accept i _ => b.stage i = .absent
  | .start i c => b.stage i = .waiting c ∧ ∀ k, b.stage k ≠ .running c
  | .finish i c _ => b.stage i = .waiting c ∨ b.stage i = .running c

section Events
variable [DecidableEq ι]

/-- The board after an event. -/
def Board.after (b : Board ι κ ε) : Event ι κ ε → Board ι κ ε
  | .accept i c => ⟨update b.stage i (.waiting c), b.starts⟩
  | .start i c => ⟨update b.stage i (.running c), b.starts ++ [(i, c)]⟩
  | .finish i c r => ⟨update b.stage i (.ended c r), b.starts⟩

open Classical in
/-- The service as a transition system. -/
noncomputable def service : System (Board ι κ ε) (Event ι κ ε) := fun b e =>
  if b.Allows e then some (b.after e) else none

theorem service_eq_some {b d : Board ι κ ε} {e : Event ι κ ε} :
    service b e = some d ↔ b.Allows e ∧ b.after e = d := by
  unfold service
  split <;> simp_all

end Events

/-- What holds of a board in every run. -/
structure Board.Sound (b : Board ι κ ε) : Prop where
  /-- A server runs one job at a time. -/
  exclusive : ∀ i k c, b.stage i = .running c → b.stage k = .running c → i = k
  /-- No job is started twice. -/
  once : (b.starts.map Prod.fst).Nodup
  /-- A started job runs or has ended, on the server it was accepted for. -/
  started : ∀ i c, (i, c) ∈ b.starts →
    b.stage i = .running c ∨ ∃ r, b.stage i = .ended c r
  /-- A running job was started. -/
  running : ∀ i c, b.stage i = .running c → (i, c) ∈ b.starts

theorem Board.Sound.empty : (Board.empty : Board ι κ ε).Sound where
  exclusive := fun i k c h => by simp [Board.empty] at h
  once := List.nodup_nil
  started := fun i c h => by simp [Board.empty] at h
  running := fun i c h => by simp [Board.empty] at h

section Runs
variable [DecidableEq ι] {b d : Board ι κ ε} {e : Event ι κ ε}

/-- The job an event is about. -/
def Event.job : Event ι κ ε → ι
  | .accept i _ | .start i _ | .finish i _ _ => i

theorem stage_of_ne {i : ι} (h : i ≠ e.job) : (b.after e).stage i = b.stage i := by
  cases e <;> exact Function.update_of_ne h _ _

/-- A job runs after an event if it ran before, or is started by it. -/
theorem running_after {i : ι} {c : κ} (h : (b.after e).stage i = .running c) :
    b.stage i = .running c ∨ e = .start i c := by
  by_cases hi : i = e.job
  · subst hi
    cases e with
    | start k s => exact Or.inr (by simpa [Board.after, Event.job] using h)
    | accept | finish => simp [Board.after, Event.job] at h
  · exact Or.inl (stage_of_ne hi ▸ h)

/-- What was started after an event was started before, or is started by it. -/
theorem started_after {i : ι} {c : κ} (h : (i, c) ∈ (b.after e).starts) :
    (i, c) ∈ b.starts ∨ e = .start i c := by
  cases e with
  | start k s => simpa [Board.after, eq_comm] using h
  | accept | finish => exact Or.inl h

theorem mem_starts_after {x : ι × κ} (h : x ∈ b.starts) : x ∈ (b.after e).starts := by
  cases e with
  | start => exact List.mem_append_left _ h
  | accept | finish => exact h

theorem Board.Sound.keep_exclusive (sound : b.Sound) (h : b.Allows e) {i k : ι} {c : κ}
    (hi : (b.after e).stage i = .running c) (hk : (b.after e).stage k = .running c) : i = k := by
  rcases running_after hi with hold | rfl
  · rcases running_after hk with hkold | rfl
    · exact sound.exclusive i k c hold hkold
    · exact absurd hold (h.2 i)
  · rcases running_after hk with hkold | heq
    · exact absurd hkold (h.2 k)
    · injection heq

theorem Board.Sound.keep_once (sound : b.Sound) (h : b.Allows e) :
    ((b.after e).starts.map Prod.fst).Nodup := by
  cases e with
  | start i c =>
      -- a waiting job has not been started before
      have hnew : ∀ x ∈ b.starts, x.1 ≠ i := by
        rintro ⟨k, s⟩ hx rfl
        rcases sound.started k s hx with hrun | ⟨r, hended⟩
        · cases hrun.symm.trans h.1
        · cases hended.symm.trans h.1
      simpa [Board.after, List.nodup_append, sound.once] using hnew
  | accept | finish => exact sound.once

theorem Board.Sound.keep_started (sound : b.Sound) (h : b.Allows e) {i : ι} {c : κ}
    (hi : (i, c) ∈ (b.after e).starts) :
    (b.after e).stage i = .running c ∨ ∃ r, (b.after e).stage i = .ended c r := by
  rcases started_after hi with hold | rfl
  · by_cases hjob : i = e.job
    · subst hjob
      have hbefore := sound.started _ _ hold
      cases e with
      | finish k s r =>
          change b.stage k = .running c ∨ ∃ q, b.stage k = .ended c q at hbefore
          rcases hbefore with hrun | ⟨q, hended⟩
          · have hs : c = s := by simpa [Board.Allows, hrun] using h
            exact Or.inr ⟨r, by simp [Board.after, Event.job, hs]⟩
          · simp [Board.Allows, hended] at h
      | accept | start => simp_all [Board.Allows, Event.job]
    · rw [stage_of_ne hjob]
      exact sound.started i c hold
  · exact Or.inl (by simp [Board.after])

theorem Board.Sound.preserve (sound : b.Sound) (h : b.Allows e) : (b.after e).Sound where
  exclusive := fun _ _ _ hi hk => sound.keep_exclusive h hi hk
  once := sound.keep_once h
  started := fun _ _ hi => sound.keep_started h hi
  running := fun i c hi => by
    rcases running_after hi with hold | rfl
    · exact mem_starts_after (sound.running i c hold)
    · exact List.mem_append_right _ List.mem_cons_self

theorem Board.Sound.of_run {events : List (Event ι κ ε)}
    (run : Runs service Board.empty events b) : b.Sound := by
  refine invariant Board.Sound (fun b e d sound hstep => ?_) run .empty
  obtain ⟨h, rfl⟩ := service_eq_some.mp hstep
  exact sound.preserve h

/-- The result of a job stays, and the job is not started any more. -/
theorem ended_stays {events : List (Event ι κ ε)} (run : Runs service b events d) {i : ι}
    {c : κ} {r : ε} (h : b.stage i = .ended c r) :
    d.stage i = .ended c r ∧ ∀ s, (i, s) ∈ d.starts → (i, s) ∈ b.starts := by
  refine invariant (fun d => d.stage i = .ended c r ∧ ∀ s, (i, s) ∈ d.starts → (i, s) ∈ b.starts)
    (fun d e f hd hstep => ?_) run ⟨h, fun s hs => hs⟩
  obtain ⟨hallow, rfl⟩ := service_eq_some.mp hstep
  have hne : i ≠ e.job := by
    rintro rfl
    cases e <;> simp_all [Board.Allows, Event.job]
  refine ⟨(stage_of_ne hne).trans hd.1, fun s hs => hd.2 s ?_⟩
  cases e with
  | start k t =>
      rcases List.mem_append.mp hs with hold | hnew
      · exact hold
      · exact absurd (congrArg Prod.fst (List.mem_singleton.mp hnew)) hne
  | accept | finish => exact hs

end Runs

end Rkopnu.Service
