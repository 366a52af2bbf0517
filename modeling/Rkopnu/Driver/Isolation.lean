import Rkopnu.Driver.Close

/-!
# What a job of one client can reach

A core's accesses go through the domain its IOMMU group is attached to, and a domain maps the
BOs that got it. A domain is handed out by one slot of one file's pool as long as anybody holds
it, so the BOs in reach of a running job were all created by the job's own file, under the
`iommu_domain_id` the job was submitted with.
-/

namespace Rkopnu.Driver

open Function (update)
open Transition

/-- The file and the pool slot through which a BO got its domain; the driver does not keep
the slot. -/
abbrev Origins := Nat → Nat × Nat

/-- A BO is created through the file and the id of its `MEM_CREATE`. -/
def noteBo (s : State) (a : Action) (origins : Origins) : Origins :=
  match a with
  | .memCreate f id _ => update origins s.bos (f, domainSlot id)
  | _ => origins

namespace State
variable (s : State)

/-- The file and the pool slot through which a holder got its domain. -/
def origin (origins : Origins) : Holder → Nat × Nat
  | .slot f i => (f, i)
  | .job j => (s.caller j, domainSlot (s.args j).iommuDomainId)
  | .bo b => origins b

/-- The holders of a domain got it through one slot of one file. -/
def OneOrigin (origins : Origins) : Prop := ∀ h k d, s.holding h = some d →
  s.holding k = some d → s.origin origins h = s.origin origins k

/-- While a job is in flight its core is attached to the job's domain, or to none. -/
def FlyingAttached : Prop := ∀ c j, s.inFlight c = some j →
  s.attached c = s.domain j ∨ s.attached c = none

end State

section Preserve
variable {s : State} {a : Action} {origins : Origins}

/-- A holder keeps its origin. -/
theorem origin_stays (inv : Domained s) {h : Holder} {d : Nat} (hd : s.holding h = some d) :
    (effect s a).origin (noteBo s a origins) h = s.origin origins h := by
  cases h with
  | slot f i => rfl
  | job j =>
      have hdomain : s.domain j ≠ none := by
        intro hnone
        simp [hnone] at hd
      obtain ⟨hcaller, hargs⟩ := inv.record_of_called (a := a) (inv.call_of_domain hdomain)
      simp only [State.origin, hcaller, hargs]
  | bo b =>
      have hne : b ≠ s.bos := by
        rintro rfl
        simp [inv.freshBos s.bos (Nat.le_refl _)] at hd
      cases a with
      | memCreate f id e => exact Function.update_of_ne hne _ _
      | _ => rfl

/-- The domain is in the slot that the step asks for one, or nobody holds it. -/
def Answers (s : State) (a : Action) (d : Nat) (o : Nat × Nat) : Prop :=
  a.fills s = some o ∧ (s.slot o.1 o.2 = some d ∨ s.live d = false)

theorem answers_of_domainAnswer {f i d : Nat} (hfill : a.fills s = some (f, i))
    (hans : s.domainAnswer f i d = true) : Answers s a d (f, i) := by
  simp only [State.domainAnswer, Bool.or_eq_true, Bool.and_eq_true, decide_eq_true_eq,
    Bool.not_eq_true'] at hans
  exact ⟨hfill, hans.imp_right And.right⟩

/-- A held job was held before the step if it had its domain. -/
theorem referenced_before (inv : Domained s) (h : enabled s a = true) {j : Nat}
    (hdomain : s.domain j ≠ none) (hj : 0 < (effect s a).refcount j) : 0 < s.refcount j := by
  rcases refcount_cases (s := s) (a := a) j with ⟨hsame, -⟩ | ⟨ok, rfl⟩ | rfl | ⟨-, hless⟩
  · omega
  · have halloc : s.call j = .alloc := of_decide_eq_true h
    exact absurd (inv.noDomainYet j (by rw [halloc]; rfl)) hdomain
  · have hpush : s.call j = .push := of_decide_eq_true h
    have hcount := inv.counted j
    simp only [hpush, CallPc.holdsJob, Bool.toNat_true] at hcount
    omega
  · omega

/-- A holder of a domain held it before the step, or gets it through the slot it belongs to. -/
theorem holding_before (origins : Origins) (inv : Domained s) (h : enabled s a = true)
    {k : Holder} {d : Nat} (hd : (effect s a).holding k = some d) : s.holding k = some d ∨
      Answers s a d ((effect s a).origin (noteBo s a origins) k) := by
  cases k with
  | slot f i =>
      exact (slot_before h hd).imp_right fun ⟨hdead, hfill⟩ => ⟨hfill, Or.inr hdead⟩
  | job j =>
      rw [State.holding_job] at hd ⊢
      split at hd
      · rename_i href
        rcases domain_effect (s := s) (a := a) j with hsame | ⟨e, rfl, he⟩
        · rw [hsame] at hd
          have hbefore := referenced_before inv h (by simp [hd]) href
          exact Or.inl (by rw [if_pos hbefore, hd])
        · obtain rfl := Option.some.inj (he.symm.trans hd)
          exact Or.inr (answers_of_domainAnswer rfl (Bool.and_eq_true_iff.mp h).2)
      · cases hd
  | bo b =>
      cases a with
      | memCreate f id e =>
          by_cases hb : b = s.bos
          · subst hb
            obtain rfl : e = d := by simpa [effect] using hd
            simp only [State.origin, noteBo, Function.update_self]
            exact Or.inr (answers_of_domainAnswer rfl (Bool.and_eq_true_iff.mp h).2)
          · exact Or.inl (by simpa [effect, hb] using hd)
      | boFree c =>
          by_cases hb : b = c
          · subst hb
            simp [effect] at hd
          · exact Or.inl (by simpa [effect, State.domainPut, hb] using hd)
      | _ => exact Or.inl hd

/-- Who held a domain before the step got it through the slot that hands it out now. -/
theorem origin_of_answers (inv : Domained s) (keep : s.OneOrigin origins) {k : Holder} {d : Nat}
    {o : Nat × Nat} (hans : Answers s a d o) (hk : s.holding k = some d) :
    s.origin origins k = o := by
  obtain ⟨-, hslot | hdead⟩ := hans
  · exact keep k (.slot o.1 o.2) d hk hslot
  · have hlive := (inv.pool.live d).mpr (inv.pool.counts.pos hk)
    simp [hdead] at hlive

theorem keep_oneOrigin (inv : Domained s) (keep : s.OneOrigin origins)
    (h : enabled s a = true) : (effect s a).OneOrigin (noteBo s a origins) := by
  intro k m d hk hm
  rcases holding_before origins inv h hk with hkold | hkans
  · rw [origin_stays inv hkold]
    rcases holding_before origins inv h hm with hmold | hmans
    · rw [origin_stays inv hmold]
      exact keep k m d hkold hmold
    · exact origin_of_answers inv keep hmans hkold
  · rcases holding_before origins inv h hm with hmold | hmans
    · rw [origin_stays inv hmold]
      exact (origin_of_answers inv keep hkans hmold).symm
    · exact Option.some.inj (hkans.1.symm.trans hmans.1)

theorem keep_flyingAttached (inv : Domained s) (keep : s.FlyingAttached)
    (h : enabled s a = true) : (effect s a).FlyingAttached := by
  intro c j hfly
  rcases inFlight_before hfly with hold | hpublishes
  · obtain ⟨-, hstarted, -⟩ := inv.inFlight c j hold
    have hdomain : (effect s a).domain j = s.domain j := by
      rcases domain_effect (s := s) (a := a) j with hsame | ⟨d, rfl, -⟩
      · exact hsame
      · have hcall := of_decide_eq_true (Bool.and_eq_true_iff.mp h).1
        have hout := inv.outside j (by rw [hcall]; rfl)
        simp [hout, Place.started] at hstarted
    rcases attached_effect (s := s) (a := a) c with hsame | ⟨hnone, -⟩ | ⟨k, hpublishes, -⟩
    · rw [hsame, hdomain]
      exact keep c j hold
    · exact Or.inr hnone
    · -- a core with a job in flight does not publish another
      have hempty := inv.unpublished c k (by rw [lock_of_publishes h hpublishes]; rfl)
      cases hold.symm.trans hempty
  · left
    cases hpublishes <;> simp [effect]

end Preserve

/-- The BOs and the jobs of the clients are kept apart. -/
structure Isolated (x : State × Origins) : Prop where
  domained : Domained x.1
  flyingAttached : x.1.FlyingAttached
  oneOrigin : x.1.OneOrigin x.2

theorem Isolated.initial (n : Nat) (origins : Origins) : Isolated (State.init n, origins) where
  domained := Domained.initial n
  flyingAttached := fun c j h => by simp [State.init] at h
  oneOrigin := fun h k d hd => by cases h <;> simp [State.init] at hd

theorem Isolated.preserve {s : State} {origins : Origins} {a : Action}
    (inv : Isolated (s, origins)) (h : enabled s a = true) :
    Isolated (effect s a, noteBo s a origins) where
  domained := inv.domained.preserve h
  flyingAttached := keep_flyingAttached inv.domained inv.flyingAttached h
  oneOrigin := keep_oneOrigin inv.domained inv.oneOrigin h

theorem Isolated.of_run {x y : State × Origins} {acts : List Action} (start : Isolated x)
    (run : Runs (watched driver noteBo) x acts y) : Isolated y := by
  refine invariant Isolated ?_ run start
  rintro ⟨s, origins⟩ a ⟨t, later⟩ inv hstep
  obtain ⟨hdriver, rfl⟩ := watched_eq_some.mp hstep
  obtain ⟨h, rfl⟩ := driver_eq_some.mp hdriver
  exact inv.preserve h

/-- A BO of file 0 in the domain that its job then runs in, and a BO of file 1 beside it. -/
def twoClients : List Action :=
  [.openFile, .openFile, .memCreate 0 0#32 0, .memCreate 1 0#32 1] ++
    submitSteps 0 0 0 submitOne ++ runSteps 0 0 ++
    programSteps 0 0 dpuTasks (hwProgram (submitJob 1 submitOne) 0 0 dpuTasks)

theorem twoClients_accepted :
    ((exec (watched driver noteBo) (State.init 1, fun _ => (0, 0)) twoClients).map fun x =>
      decide (x.1.inFlight 0 = some 0 ∧ x.1.attached 0 = some 0 ∧ x.1.boDomain 0 = some 0 ∧
        x.1.boDomain 1 = some 1 ∧ x.1.caller 0 = 0)) = some true := by
  decide

end Rkopnu.Driver
