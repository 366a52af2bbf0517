import Rkopnu.Foundation.Transition
import Mathlib.Order.WellFounded

/-!
# What a system can still reach

A goal is within reach of a state if some run leads there. The actions of the run can be
restricted, which says who has to act for the goal to be reached, and who need not.

## Implementation notes

The rule for measures asks for one admitted step out of every state that is not at the goal,
and leaves it to the caller which step that is. Stages with measures of their own are put
together by `CanReach.bind`.
-/

namespace Rkopnu.Transition

variable {σ α : Type*} {step : System σ α} {ok : α → Prop} {goal mid : σ → Prop} {s t : σ}

/-- Some run of admitted actions leads from the state to the goal. -/
def CanReach (step : System σ α) (ok : α → Prop) (goal : σ → Prop) (s : σ) : Prop :=
  ∃ acts t, (∀ a ∈ acts, ok a) ∧ Runs step s acts t ∧ goal t

theorem CanReach.here (h : goal s) : CanReach step ok goal s :=
  ⟨[], s, by simp, runs_nil.mpr rfl, h⟩

theorem CanReach.next {a : α} (admitted : ok a) (hstep : step s a = some t)
    (h : CanReach step ok goal t) : CanReach step ok goal s := by
  obtain ⟨acts, u, hok, hrun, hgoal⟩ := h
  refine ⟨a :: acts, u, fun b hb => ?_, runs_cons.mpr ⟨t, hstep, hrun⟩, hgoal⟩
  rcases List.mem_cons.mp hb with rfl | hb
  · exact admitted
  · exact hok b hb

/-- One stage after the other. -/
theorem CanReach.bind (h : CanReach step ok mid s)
    (k : ∀ t, mid t → CanReach step ok goal t) : CanReach step ok goal s := by
  obtain ⟨front, t, hfront, hrun, hmid⟩ := h
  obtain ⟨back, u, hback, hmore, hgoal⟩ := k t hmid
  refine ⟨front ++ back, u, fun a ha => ?_, hrun.append hmore, hgoal⟩
  exact (List.mem_append.mp ha).elim (hfront a) (hback a)

/-- With more actions admitted the goal stays within reach. -/
theorem CanReach.allow {more : α → Prop} (h : CanReach step ok goal s)
    (allowed : ∀ a, ok a → more a) : CanReach step more goal s := by
  obtain ⟨acts, t, hok, hrun, hgoal⟩ := h
  exact ⟨acts, t, fun a ha => allowed a (hok a ha), hrun, hgoal⟩

/-- What every admitted step keeps holds at the goal as well. -/
theorem CanReach.keep (h : CanReach step ok goal s) (Inv : σ → Prop)
    (keep : ∀ s a t, ok a → Inv s → step s a = some t → Inv t) (start : Inv s) :
    CanReach step ok (fun t => Inv t ∧ goal t) s := by
  obtain ⟨acts, t, hok, hrun, hgoal⟩ := h
  refine ⟨acts, t, hok, hrun, ?_, hgoal⟩
  exact invariant_along (P := fun _ a => ok a) Inv
    (fun s a t hInv ha hstep => keep s a t ha hInv hstep) (along_of_actions fun a ha _ => hok a ha)
    hrun start

/-- Goals that stay reached are within reach together if each of them is, and all but finitely
many of them are reached already. -/
theorem canReach_forall {Inv : σ → Prop} {P : ℕ → σ → Prop}
    (keepInv : ∀ s a t, ok a → Inv s → step s a = some t → Inv t)
    (keep : ∀ i s a t, ok a → Inv s → P i s → step s a = some t → P i t)
    (reach : ∀ i s, Inv s → CanReach step ok (P i) s) (n : ℕ) (start : Inv s)
    (rest : ∀ i, n ≤ i → P i s) : CanReach step ok (fun t => Inv t ∧ ∀ i, P i t) s := by
  induction n generalizing s with
  | zero => exact .here ⟨start, fun i => rest i (Nat.zero_le i)⟩
  | succ n ih =>
      have next := (reach n s start).keep (fun t => Inv t ∧ ∀ i, n + 1 ≤ i → P i t)
        (fun s a t ha h hstep => ⟨keepInv s a t ha h.1 hstep,
          fun i hi => keep i s a t ha h.1 (h.2 i hi) hstep⟩) ⟨start, rest⟩
      refine next.bind ?_
      rintro t ⟨⟨hInv, hrest⟩, hgoal⟩
      refine ih hInv fun i hi => ?_
      rcases Nat.eq_or_lt_of_le hi with rfl | hlt
      · exact hgoal
      · exact hrest i hlt

/-- The progress rule: where the goal is not reached, some admitted step keeps the invariant
and lowers the measure. -/
theorem canReach_of_measure {β : Type*} [LT β] [WellFoundedLT β] (Inv : σ → Prop)
    (measure : σ → β)
    (progress : ∀ s, Inv s → ¬ goal s →
      ∃ a t, ok a ∧ step s a = some t ∧ Inv t ∧ measure t < measure s)
    (start : Inv s) : CanReach step ok (fun t => Inv t ∧ goal t) s := by
  induction hm : measure s using WellFoundedLT.induction generalizing s with
  | ind m ih =>
      by_cases hgoal : goal s
      · exact .here ⟨start, hgoal⟩
      · obtain ⟨a, t, hok, hstep, hInv, hless⟩ := progress s start hgoal
        exact .next hok hstep (ih (measure t) (hm ▸ hless) hInv rfl)

end Rkopnu.Transition
