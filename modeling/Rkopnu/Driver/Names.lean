import Rkopnu.Driver.Moves

/-!
# The indices in use

What names a job is a thread of a core, the core, or what the driver keeps of the job. Only
`rkopnu_ioctl_submit` brings an index into use, and it takes the next one.
-/

namespace Rkopnu.Driver

open Function (update)

/-- Only the indices of jobs that were submitted are in use. -/
structure Named (s : State) : Prop where
  place : ∀ j, s.place j ≠ .outside → j < s.jobs
  call : ∀ j, s.call j ≠ .idle → j < s.jobs
  run : ∀ c j, (s.run c).job = some j → j < s.jobs
  irq : ∀ c j p rest, s.irq c = .writing j p rest → j < s.jobs
  tdr : ∀ c j, (s.tdr c).job = some j → j < s.jobs
  inFlight : ∀ c j, s.inFlight c = some j → j < s.jobs
  nextTaskIdx : ∀ j, s.nextTaskIdx j ≠ 0 → j < s.jobs
  doneFence : ∀ j, s.doneFence j ≠ none → j < s.jobs

/-- A thread of core `c`, the core itself or what `rocket_job_run` has recorded names job `j`. -/
inductive Used (s : State) (c j : Nat) : Prop
  | run (h : (s.run c).job = some j)
  | irq {p rest} (h : s.irq c = .writing j p rest)
  | inFlight (h : s.inFlight c = some j)
  | nextTaskIdx (h : s.nextTaskIdx j ≠ 0)
  | doneFence (h : s.doneFence j ≠ none)

theorem Named.initial (n : Nat) : Named (State.init n) := by
  constructor <;> simp [State.init, RunPc.job, TdrPc.job]

section Names
variable {s : State} {a : Action} {j : Nat}

theorem Named.fresh (inv : Named s) : s.call s.jobs = .idle :=
  not_not.mp fun hcall => Nat.lt_irrefl _ (inv.call _ hcall)

theorem Named.of_placed (inv : Named s) (h : enabled s a = true)
    (hplaced : a.placed = some j) : j < s.jobs := by
  cases a with
  | push i e =>
      cases e with
      | none =>
          obtain rfl := Option.some.inj hplaced
          exact inv.call i (by simp [show s.call i = .push from of_decide_eq_true h])
      | some e => cases hplaced
  | pop c i e =>
      obtain rfl := Option.some.inj hplaced
      exact inv.place i (by simp [(of_decide_eq_true h).2.2.2.2.1])
  | freeJob c i =>
      obtain rfl := Option.some.inj hplaced
      exact inv.place i (by simp [(of_decide_eq_true h).2.1])
  | fire c i | tdrReap c b i =>
      obtain rfl := Option.some.inj hplaced
      exact inv.place i (by simp [(of_decide_eq_true h).2.2.1])
  | tdrGuilty c i =>
      obtain rfl := Option.some.inj hplaced
      exact inv.place i (by simp [(of_decide_eq_true h).2.1])
  | killJob i =>
      obtain rfl := Option.some.inj hplaced
      exact inv.place i (by simp [(of_decide_eq_true h).1])
  | tdrStop c i | tdrFreeGuilty c i =>
      obtain rfl := Option.some.inj hplaced
      exact inv.tdr c i (by rw [(of_decide_eq_true h).1]; rfl)
  | _ => cases hplaced

theorem le_jobs_effect : s.jobs ≤ (effect s a).jobs := by
  cases a with
  | submit f args => exact Nat.le_succ _
  | _ => exact Nat.le_refl _

theorem Named.keep_call (inv : Named s) (h : enabled s a = true)
    (hj : (effect s a).call j ≠ .idle) : j < (effect s a).jobs := by
  rcases call_effect inv.fresh h j with hmove | ⟨-, hstay⟩
  · by_cases hold : s.call j = .idle
    · rw [hold] at hmove
      generalize (effect s a).call j = q at hmove
      cases hmove with
      | enter | refuse => exact Nat.lt_succ_self _
    · exact Nat.lt_of_lt_of_le (inv.call j hold) le_jobs_effect
  · exact Nat.lt_of_lt_of_le (inv.call j (hstay ▸ hj)) le_jobs_effect

theorem Named.keep_run (inv : Named s) (h : enabled s a = true) {c : Nat}
    (hj : ((effect s a).run c).job = some j) : j < s.jobs := by
  have keep := inv.run c j
  rcases run_effect h c with hmove | ⟨-, hstay⟩
  · generalize s.run c = p at hmove keep
    generalize (effect s a).run c = q at hmove hj
    cases hmove with
    | pop => exact inv.of_placed h hj
    | complete | arm => cases hj
    | _ => exact keep hj
  · exact keep (hstay ▸ hj)

theorem Named.keep_irq (inv : Named s) (h : enabled s a = true) {c : Nat} {p : Program}
    {rest : List RegWrite} (hj : (effect s a).irq c = .writing j p rest) :
    j < s.jobs := by
  have keep := inv.irq c j p
  rcases irq_effect h c with hmove | hstay
  · generalize s.irq c = pc at hmove keep
    generalize (effect s a).irq c = q at hmove hj
    cases hmove with
    | resubmit =>
        injection hj with hij
        exact hij ▸ inv.inFlight _ _ (of_decide_eq_true h).2.2.1
    | write =>
        injection hj with hij hp hrest
        subst hij hp
        exact keep _ rfl
    | forget => cases pc <;> first | exact keep _ hj | cases hj
    | _ => cases hj
  · exact keep rest (hstay ▸ hj)

theorem Named.keep_tdr (inv : Named s) (h : enabled s a = true) {c : Nat}
    (hj : ((effect s a).tdr c).job = some j) : j < s.jobs := by
  have keep := inv.tdr c j
  rcases tdr_effect h c with hmove | ⟨-, hstay⟩
  · generalize s.tdr c = p at hmove keep
    generalize (effect s a).tdr c = q at hmove hj
    cases hmove with
    | fire => exact inv.of_placed h hj
    | ret | freeGuilty => cases hj
    | _ => exact keep hj
  · exact keep (hstay ▸ hj)

theorem Named.keep_inFlight (inv : Named s) (h : enabled s a = true) {c : Nat}
    (hj : (effect s a).inFlight c = some j) : j < s.jobs := by
  rcases inFlight_before hj with hold | hpub
  · exact inv.inFlight c j hold
  · cases hpub with
    | skip | program => exact inv.run c j (by rw [(of_decide_eq_true h).1]; rfl)

theorem Named.keep_nextTaskIdx (inv : Named s) (h : enabled s a = true)
    (hj : (effect s a).nextTaskIdx j ≠ 0) : j < s.jobs := by
  rcases nextTaskIdx_effect (s := s) (a := a) j with
    hsame | ⟨-, ⟨c, mem, rfl⟩ | ⟨c, seen, mem, rfl⟩⟩
  · exact inv.nextTaskIdx j (hsame ▸ hj)
  · exact inv.run c j (by rw [(of_decide_eq_true h).1]; rfl)
  · exact inv.inFlight c j (of_decide_eq_true h).2.2.1

theorem Named.keep_doneFence (inv : Named s) (h : enabled s a = true)
    (hj : (effect s a).doneFence j ≠ none) : j < s.jobs := by
  obtain ⟨f, hf⟩ := Option.ne_none_iff_exists'.mp hj
  rcases doneFence_before hf with hold | ⟨c, rfl, -⟩ | ⟨g, hg, -⟩
  · exact inv.doneFence j (by simp [hold])
  · exact inv.run c j (by rw [show s.run c = .create j from of_decide_eq_true h]; rfl)
  · exact inv.doneFence j (by simp [hg])

/-- A step of the driver names no index that was not in use, but for its own new call. -/
theorem Named.keep (inv : Named s) (h : enabled s a = true) :
    Named (effect s a) where
  place j hj := by
    rcases place_cases (s := s) (a := a) j with hsame | hplaced
    · exact Nat.lt_of_lt_of_le (inv.place j (hsame ▸ hj)) le_jobs_effect
    · exact Nat.lt_of_lt_of_le (inv.of_placed h hplaced) le_jobs_effect
  call j hj := inv.keep_call h hj
  run c j hj := Nat.lt_of_lt_of_le (inv.keep_run h hj) le_jobs_effect
  irq c j p rest hj := Nat.lt_of_lt_of_le (inv.keep_irq h hj) le_jobs_effect
  tdr c j hj := Nat.lt_of_lt_of_le (inv.keep_tdr h hj) le_jobs_effect
  inFlight c j hj := Nat.lt_of_lt_of_le (inv.keep_inFlight h hj) le_jobs_effect
  nextTaskIdx j hj := Nat.lt_of_lt_of_le (inv.keep_nextTaskIdx h hj) le_jobs_effect
  doneFence j hj := Nat.lt_of_lt_of_le (inv.keep_doneFence h hj) le_jobs_effect

/-- The worker of a core is given a job that is in use. -/
theorem Named.run_update (inv : Named s) {c : Nat} {q : RunPc} (hj : j < s.jobs)
    (hq : q.job = some j) (i k : Nat) (hk : (update s.run c q i).job = some k) : k < s.jobs := by
  by_cases hi : i = c
  · subst hi
    rw [Function.update_self, hq] at hk
    exact Option.some.inj hk ▸ hj
  · exact inv.run i k (by simpa [hi] using hk)

/-- The IRQ thread of a core is given a job that is in use. -/
theorem Named.irq_update (inv : Named s) {c : Nat} {p : Program} {rest : List RegWrite}
    (hj : j < s.jobs) (i k : Nat) (p' : Program) (rest' : List RegWrite)
    (hk : update s.irq c (.writing j p rest) i = .writing k p' rest') : k < s.jobs := by
  by_cases hi : i = c
  · subst hi
    rw [Function.update_self] at hk
    exact (IrqPc.writing.inj hk).1 ▸ hj
  · exact inv.irq i k p' rest' (by simpa [hi] using hk)

end Names

end Rkopnu.Driver
