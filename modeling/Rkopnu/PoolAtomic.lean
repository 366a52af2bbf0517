import Rkopnu.Pool
import Rkopnu.Foundation.Sharing

/-!
# The domain pool is atomic

`rocket_iommu_domain_get` lets its lock go between the two looks at a slot. Whatever the
threads of a file do in between, its calls, the puts and the close are those of a table that
gives each caller the domain of its slot in one piece: a get takes effect at the look that
finds the domain or installs it.
-/

namespace Rkopnu.Pool

open Function (update)
open Transition Holding Sharing

namespace State
variable (s : State)

/-- The domain that the call is bound to return, or has returned. -/
def taken (t : Nat) : Option Nat := (s.pc t).result.or (s.answer t)

/-- What the call holds, from the look that decides it to the end of its BO or job. -/
def holds (t : Nat) : Option Nat := (s.pc t).result.or ((s.bo t).or (s.job t))

/-- The pool as the calls see it. -/
def table : Table Nat Nat Nat where
  entry := s.slot
  given := fun t => (s.taken t).map fun d => (s.slotOf t, d)
  held := s.holds

end State

/-- What a step is to the calls. -/
def served (s : State) : Action → List (Event Nat Nat Nat)
  | .found t d | .install t d | .lost t _ d => [.acquire t (s.slotOf t) d]
  | .boFree t | .jobCleanup t => [.release t]
  | .putSlot i => if s.slot i = none then [] else [.clear i]
  | _ => []

/-- A call is answered once, and its domain is stored in one place. -/
structure Atomic (s : State) : Prop extends Pooled s where
  gotAnswered : ∀ t d, s.pc t = .got d → s.answer t = some d
  unanswered : ∀ t d, s.answer t = some d → s.pc t = .got d ∨ s.pc t = .stored
  oneUse : ∀ t, s.bo t = none ∨ s.job t = none

theorem Atomic.initial : Atomic State.init :=
  { Pooled.initial with
    gotAnswered := fun t d h => by simp [State.init] at h
    unanswered := fun t d h => by simp [State.init] at h
    oneUse := fun _ => Or.inl rfl }

section Preserve
variable {s : State} {a : Action}

theorem keep_gotAnswered (inv : Atomic s) (h : enabled s a = true) :
    ∀ t d, (effect s a).pc t = .got d → (effect s a).answer t = some d := by
  intro u d hu
  rcases inv.pc_effect h u with hmove | hstay
  · rw [hu] at hmove
    generalize s.pc u = p at hmove
    cases hmove with
    | found | install | putLoser => exact Function.update_self _ _ _
  · have hold := inv.gotAnswered u d (hstay.symm.trans hu)
    rcases answer_cases (s := s) (a := a) u with hsame | ⟨e, hanswers, he⟩
    · exact hsame.trans hold
    · have hgot := pc_of_answers (s := s) hanswers
      rw [hu] at hgot
      rw [he, GetPc.got.inj hgot]

theorem keep_unanswered (inv : Atomic s) (h : enabled s a = true) :
    ∀ t d, (effect s a).answer t = some d →
      (effect s a).pc t = .got d ∨ (effect s a).pc t = .stored := by
  intro u d hu
  rcases answer_cases (s := s) (a := a) u with hsame | ⟨e, hanswers, he⟩
  · have hold := inv.unanswered u d (hsame.symm.trans hu)
    rcases inv.pc_effect h u with hmove | hstay
    · generalize s.pc u = p at hmove hold
      generalize (effect s a).pc u = q at hmove ⊢
      cases hmove with
      | store => exact Or.inr rfl
      | _ => simp at hold
    · rwa [hstay]
  · obtain rfl := Option.some.inj (he.symm.trans hu)
    exact Or.inl (pc_of_answers hanswers)

theorem keep_oneUse (inv : Atomic s) (h : enabled s a = true) (u : Nat) :
    (effect s a).bo u = none ∨ (effect s a).job u = none := by
  have keep := inv.oneUse u
  cases a with
  | store t d =>
      by_cases hu : u = t
      · subst hu
        obtain ⟨hbo, hjob⟩ := inv.unstored u (by simp [show s.pc u = .got d from
          of_decide_eq_true h])
        by_cases hkind : s.kind u = .memCreate
        · exact Or.inr (by simp [effect, hkind, hjob])
        · exact Or.inl (by simp [effect, hkind, hbo])
      · by_cases hkind : s.kind t = .memCreate <;> simpa [effect, hkind, hu] using keep
  | boFree t => exact keep.imp_left fun hbo => by simp [effect, Function.update_apply, hbo]
  | jobCleanup t => exact keep.imp_right fun hjob => by simp [effect, Function.update_apply, hjob]
  | create t ok => cases ok <;> exact keep
  | _ => exact keep

theorem Atomic.preserve (inv : Atomic s) (h : enabled s a = true) : Atomic (effect s a) :=
  { inv.toPooled.preserve h with
    gotAnswered := keep_gotAnswered inv h
    unanswered := keep_unanswered inv h
    oneUse := keep_oneUse inv h }

end Preserve

theorem Atomic.reachable {acts : List Action} {s : State} (run : Runs pool State.init acts s) :
    Atomic s := by
  refine invariant Atomic (fun s a t inv hstep => ?_) run Atomic.initial
  obtain ⟨h, rfl⟩ := pool_eq_some.mp hstep
  exact inv.preserve h

section Tables
variable {s t : State} {u d : Nat}

/-- What a call was given is its slot and what it has taken. -/
theorem given_eq (hid : t.id u = s.id u) (htaken : t.taken u = s.taken u) :
    t.table.given u = s.table.given u := by
  simp [State.table, State.slotOf, hid, htaken]

/-- What every call has taken and holds is what it was. -/
theorem table_stays (hslot : t.slot = s.slot) (hid : ∀ v, s.taken v ≠ none → t.id v = s.id v)
    (htaken : ∀ v, t.taken v = s.taken v) (hholds : ∀ v, t.holds v = s.holds v) :
    t.table = s.table := by
  refine Table.ext hslot (funext fun v => ?_) (funext hholds)
  by_cases hv : s.taken v = none
  · simp [State.table, htaken v, hv]
  · exact given_eq (hid v hv) (htaken v)

/-- A look decides the result of a call, and leaves the others where they are. -/
theorem table_acquire {q : GetPc} (hq : q.result = some d) (hpc : t.pc = update s.pc u q)
    (hslot : t.slot = update s.slot (s.slotOf u) (some d)) (hid : t.id = s.id)
    (hanswer : ∀ v, v ≠ u → t.answer v = s.answer v) (hbo : t.bo = s.bo) (hjob : t.job = s.job) :
    s.table.after (.acquire u (s.slotOf u) d) = t.table := by
  refine Table.ext hslot.symm (funext fun v => ?_) (funext fun v => ?_)
  · by_cases hv : v = u
    · subst hv
      simp [Table.after, State.table, State.taken, State.slotOf, hpc, hq, hid]
    · simp [Table.after, State.table, State.taken, State.slotOf, hpc, hid, hanswer, hv]
  · by_cases hv : v = u
    · subst hv
      simp [Table.after, State.table, State.holds, hpc, hq]
    · simp [Table.after, State.table, State.holds, hpc, hbo, hjob, hv]

end Tables

section Follow
variable {s : State} {a : Action} {t d : Nat}

/-- Before its look a call has taken nothing. -/
theorem Atomic.untaken (inv : Atomic s) (hresult : (s.pc t).result = none)
    (hstored : s.pc t ≠ .stored) : s.taken t = none := by
  cases hanswer : s.answer t with
  | none => simp [State.taken, hresult, hanswer]
  | some d =>
      rcases inv.unanswered t d hanswer with hgot | hdone
      · simp [hgot, GetPc.result] at hresult
      · exact absurd hdone hstored

/-- A domain that a call has created is new to all others. -/
theorem Atomic.new_of_install (inv : Atomic s) (h : enabled s (.install t d) = true) :
    s.table.New d := by
  have hpc : s.pc t = .recheck d := (of_decide_eq_true h).1
  have hopen : s.closing = none := by
    by_contra hclosing
    have hquiet := inv.closingQuiet hclosing t
    rw [hpc] at hquiet
    cases hquiet
  intro u i hu
  obtain ⟨e, htaken, he⟩ := Option.map_eq_some_iff.mp hu
  obtain ⟨-, rfl⟩ := Prod.mk.inj he
  rcases Option.or_eq_some_iff.mp htaken with hresult | ⟨-, hanswer⟩
  · cases inv.eq_candidate (h := .result u) (t := t) hresult (by rw [hpc]; rfl)
  · exact inv.not_slot_of_install h _ (inv.answered hopen u e hanswer)

theorem Atomic.follows_acquire (inv : Atomic s) (hallow : s.slot (s.slotOf t) = some d ∨
      s.slot (s.slotOf t) = none ∧ s.table.New d) (hresult : (s.pc t).result = none)
    (hstored : s.pc t ≠ .stored) (hafter : s.table.after (.acquire t (s.slotOf t) d) =
      (effect s a).table) :
    Runs sharing s.table [.acquire t (s.slotOf t) d] (effect s a).table := by
  refine runs_single.mpr (sharing_eq_some.mpr ⟨⟨?_, hallow⟩, hafter⟩)
  simp [State.table, inv.untaken hresult hstored]

/-- What is released was stored by a call that has its answer. -/
theorem Atomic.follows_release (inv : Atomic s) (hheld : s.bo t ≠ none ∨ s.job t ≠ none)
    (hslot : (effect s a).slot = s.slot) (hid : (effect s a).id = s.id)
    (hpc : (effect s a).pc = s.pc) (hanswer : (effect s a).answer = s.answer)
    (hbo : (effect s a).bo = update s.bo t none) (hjob : (effect s a).job = update s.job t none) :
    Runs sharing s.table [.release t] (effect s a).table := by
  have hstored : s.pc t = .stored := by
    by_contra hnot
    obtain ⟨hbo, hjob⟩ := inv.unstored t hnot
    exact hheld.elim (· hbo) (· hjob)
  refine runs_single.mpr (sharing_eq_some.mpr ⟨?_, Table.ext hslot.symm ?_ (funext fun v => ?_)⟩)
  · rcases inv.oneUse t with hnone | hnone
    · simpa [Table.Allows, State.table, State.holds, hstored, GetPc.result, hnone] using hheld
    · simpa [Table.Allows, State.table, State.holds, hstored, GetPc.result, hnone] using hheld
  · exact funext fun v => (given_eq (by rw [hid]) (by simp [State.taken, hpc, hanswer])).symm
  · by_cases hv : v = t
    · subst hv
      simp [Table.after, State.table, State.holds, hpc, hstored, hbo, hjob, GetPc.result]
    · simp [Table.after, State.table, State.holds, hpc, hbo, hjob, hv]

/-- A step of a call that decides nothing. -/
theorem Atomic.follows_move {q : GetPc} (hpc : (effect s a).pc = update s.pc t q)
    (hslot : (effect s a).slot = s.slot) (hid : ∀ v, s.taken v ≠ none → (effect s a).id v = s.id v)
    (htaken : q.result.or ((effect s a).answer t) = s.taken t)
    (hanswer : ∀ v, v ≠ t → (effect s a).answer v = s.answer v)
    (hholds : q.result.or (((effect s a).bo t).or ((effect s a).job t)) = s.holds t)
    (hbo : ∀ v, v ≠ t → (effect s a).bo v = s.bo v)
    (hjob : ∀ v, v ≠ t → (effect s a).job v = s.job v) :
    Runs sharing s.table [] (effect s a).table := by
  refine runs_nil.mpr (table_stays hslot hid (fun v => ?_) (fun v => ?_)).symm
  · by_cases hv : v = t
    · subst hv
      rw [← htaken, State.taken, hpc, Function.update_self]
    · rw [State.taken, hpc, Function.update_of_ne hv, hanswer v hv, State.taken]
  · by_cases hv : v = t
    · subst hv
      rw [← hholds, State.holds, hpc, Function.update_self]
    · rw [State.holds, hpc, Function.update_of_ne hv, hbo v hv, hjob v hv, State.holds]

/-- The domain that a call stores is the one it was given. -/
theorem Atomic.follows_store (inv : Atomic s) (h : enabled s (.store t d) = true) :
    Runs sharing s.table [] (effect s (.store t d)).table := by
  have hpc : s.pc t = .got d := of_decide_eq_true h
  have hanswer := inv.gotAnswered t d hpc
  obtain ⟨hbo, hjob⟩ := inv.unstored t (by simp [hpc])
  refine Atomic.follows_move (t := t) (q := .stored) rfl rfl (fun _ _ => rfl) ?_
    (fun _ _ => rfl) ?_ (fun v hv => ?_) fun v hv => ?_
  · simp [effect, State.taken, hpc, hanswer, GetPc.result]
  · by_cases hkind : s.kind t = .memCreate <;>
      simp [effect, State.holds, hpc, hkind, hbo, hjob, GetPc.result]
  · by_cases hkind : s.kind t = .memCreate <;> simp [effect, hkind, hv]
  · by_cases hkind : s.kind t = .memCreate <;> simp [effect, hkind, hv]

/-- Close clears the slots that are filled. -/
theorem Atomic.follows_putSlot {i : Nat} :
    Runs sharing s.table (served s (.putSlot i)) (effect s (.putSlot i)).table := by
  by_cases hslot : s.slot i = none
  · rw [served, if_pos hslot]
    have hslots : (effect s (.putSlot i)).slot = s.slot :=
      Function.update_eq_self_iff.mpr hslot.symm
    exact runs_nil.mpr (table_stays hslots (fun _ _ => rfl) (fun _ => rfl) fun _ => rfl).symm
  · rw [served, if_neg hslot]
    exact runs_single.mpr (sharing_eq_some.mpr ⟨hslot, rfl⟩)

/-- Every step is answered by what the calls see of it. -/
theorem Atomic.follows (inv : Atomic s) (h : enabled s a = true) :
    Runs sharing s.table (served s a) (effect s a).table := by
  cases a with
  | enter kind id =>
      have hidle := inv.idle
      have htaken : s.taken s.calls = none := inv.untaken (by rw [hidle]; rfl) (by simp [hidle])
      obtain ⟨hbo, hjob⟩ := inv.unstored s.calls (by simp [hidle])
      refine Atomic.follows_move (t := s.calls) (q := .lookup) rfl rfl (fun v hv => ?_) ?_
        (fun _ _ => rfl) ?_ (fun _ _ => rfl) fun _ _ => rfl
      · refine Function.update_of_ne ?_ _ _
        rintro rfl
        exact hv htaken
      · simp [effect, State.taken, hidle, GetPc.result]
      · simp [effect, State.holds, hidle, GetPc.result]
  | found t d =>
      obtain ⟨hpc, hslot⟩ := of_decide_eq_true h
      exact inv.follows_acquire (Or.inl hslot) (by rw [hpc]; rfl) (by simp [hpc])
        (table_acquire (q := .got d) rfl rfl (Function.update_eq_self_iff.mpr hslot.symm).symm rfl
          (fun v hv => Function.update_of_ne hv _ _) rfl rfl)
  | missing t =>
      have hpc : s.pc t = .lookup := (of_decide_eq_true h).1
      refine Atomic.follows_move (t := t) (q := .create) rfl rfl (fun _ _ => rfl) ?_
        (fun _ _ => rfl) ?_ (fun _ _ => rfl) fun _ _ => rfl
      · simp [effect, State.go, State.taken, hpc, GetPc.result]
      · simp [effect, State.go, State.holds, hpc, GetPc.result]
  | create t ok =>
      have hpc : s.pc t = .create := of_decide_eq_true h
      cases ok with
      | true =>
          refine Atomic.follows_move (t := t) (q := .recheck s.created) rfl rfl (fun _ _ => rfl) ?_
            (fun _ _ => rfl) ?_ (fun _ _ => rfl) fun _ _ => rfl
          · simp [effect, State.taken, hpc, GetPc.result]
          · simp [effect, State.holds, hpc, GetPc.result]
      | false =>
          refine Atomic.follows_move (t := t) (q := .failed) rfl rfl (fun _ _ => rfl) ?_
            (fun _ _ => rfl) ?_ (fun _ _ => rfl) fun _ _ => rfl
          · simp [effect, State.go, State.taken, hpc, GetPc.result]
          · simp [effect, State.go, State.holds, hpc, GetPc.result]
  | install t d =>
      obtain ⟨hpc, hslot⟩ := of_decide_eq_true h
      exact inv.follows_acquire (Or.inr ⟨hslot, inv.new_of_install h⟩) (by rw [hpc]; rfl)
        (by simp [hpc]) (table_acquire (q := .got d) rfl rfl rfl rfl
          (fun v hv => Function.update_of_ne hv _ _) rfl rfl)
  | lost t d w =>
      obtain ⟨hpc, hslot⟩ := of_decide_eq_true h
      exact inv.follows_acquire (Or.inl hslot) (by rw [hpc]; rfl) (by simp [hpc])
        (table_acquire (q := .putLoser d w) rfl rfl
          (Function.update_eq_self_iff.mpr hslot.symm).symm rfl (fun _ _ => rfl) rfl rfl)
  | putLoser t d w =>
      have hpc : s.pc t = .putLoser d w := of_decide_eq_true h
      obtain ⟨hbo, hjob⟩ := inv.unstored t (by simp [hpc])
      refine Atomic.follows_move (t := t) (q := .got w) rfl rfl (fun _ _ => rfl) ?_
        (fun v hv => Function.update_of_ne hv _ _) ?_ (fun _ _ => rfl) fun _ _ => rfl
      · simp [effect, State.taken, hpc, GetPc.result]
      · simp [State.holds, hpc, GetPc.result]
  | store t d => exact inv.follows_store h
  | boFree t =>
      have hbo : s.bo t ≠ none := of_decide_eq_true h
      have hjob := (inv.oneUse t).resolve_left hbo
      exact inv.follows_release (Or.inl hbo) rfl rfl rfl rfl rfl
        (Function.update_eq_self_iff.mpr hjob.symm).symm
  | jobCleanup t =>
      have hjob : s.job t ≠ none := of_decide_eq_true h
      have hbo := (inv.oneUse t).resolve_right hjob
      exact inv.follows_release (Or.inr hjob) rfl rfl rfl rfl
        (Function.update_eq_self_iff.mpr hbo.symm).symm rfl
  | close => exact runs_nil.mpr rfl
  | putSlot i => exact Atomic.follows_putSlot

end Follow

/-- The pool of a file is a table of shared domains. -/
noncomputable def tableSimulation :
    Simulation pool (sharing : System (Table Nat Nat Nat) _) Atomic where
  image := State.table
  answer := served
  keep := fun s a t inv hstep => by
    obtain ⟨h, rfl⟩ := pool_eq_some.mp hstep
    exact inv.preserve h
  follows := fun s a t inv hstep => by
    obtain ⟨h, rfl⟩ := pool_eq_some.mp hstep
    exact inv.follows h

section Runs
variable {acts more : List Action} {s t : State}

theorem Atomic.table_runs (inv : Atomic s) (run : Runs pool s acts t) :
    ∃ events, Runs sharing s.table events t.table := by
  obtain ⟨events, hevents, -⟩ := tableSimulation.runs (P := fun _ _ => True)
    (fun _ _ _ => along_of_actions fun _ _ _ => trivial) run inv
  exact ⟨events, hevents⟩

theorem table_init : State.init.table = Table.empty :=
  Table.ext rfl rfl rfl

/-- The table of a pool is sound. -/
theorem table_sound (run : Runs pool State.init acts s) : s.table.Sound := by
  obtain ⟨events, hevents⟩ := Atomic.initial.table_runs run
  rw [table_init] at hevents
  exact Table.Sound.of_run hevents

theorem Atomic.given_of_answer (inv : Atomic s) {u d : Nat} (hu : s.answer u = some d) :
    s.table.given u = some (s.slotOf u, d) := by
  rcases inv.unanswered u d hu with hpc | hpc
  · simp [State.table, State.taken, hpc, hu, GetPc.result]
  · simp [State.table, State.taken, hpc, hu, GetPc.result]

/-- A domain that no call keeps for itself has its holders in the table. -/
theorem Atomic.alive_iff (inv : Atomic s) {d : Nat} (hd : d < s.created)
    (hcandidate : ∀ u, (s.pc u).candidate ≠ some d) : s.destroyed d = 0 ↔ s.table.Alive d := by
  have hlive : s.destroyed d = 0 ↔ ∃ h, s.holding h = some d := by
    rw [inv.destroyedOnce d hd]
    have hzero := inv.kref_eq_zero (d := d)
    by_cases hk : s.kref d = 0
    · simpa [hk] using hzero.mp hk
    · simpa [hk] using hzero.not.mp hk
  rw [hlive]
  constructor
  · rintro ⟨h, hh⟩
    cases h with
    | slot i => exact Or.inl ⟨i, hh⟩
    | candidate u => exact absurd hh (hcandidate u)
    | result u =>
        have hresult : (s.pc u).result = some d := hh
        exact Or.inr ⟨u, by simp [State.table, State.holds, hresult]⟩
    | bo u =>
        have hstored : s.pc u = .stored := by
          by_contra hnot
          simp [State.holding, (inv.unstored u hnot).1] at hh
        have hbo : s.bo u = some d := hh
        exact Or.inr ⟨u, by simp [State.table, State.holds, hstored, GetPc.result, hbo]⟩
    | job u =>
        have hstored : s.pc u = .stored := by
          by_contra hnot
          simp [State.holding, (inv.unstored u hnot).2] at hh
        have hjob : s.job u = some d := hh
        have hbo : s.bo u = none := (inv.oneUse u).resolve_right (by simp [hjob])
        exact Or.inr ⟨u, by simp [State.table, State.holds, hstored, GetPc.result, hbo, hjob]⟩
  · rintro (⟨i, hi⟩ | ⟨u, hu⟩)
    · exact ⟨.slot i, hi⟩
    · rcases Option.or_eq_some_iff.mp hu with hresult | ⟨-, hrest⟩
      · exact ⟨.result u, hresult⟩
      · rcases Option.or_eq_some_iff.mp hrest with hbo | ⟨-, hjob⟩
        · exact ⟨.bo u, hbo⟩
        · exact ⟨.job u, hjob⟩

/-- `rocket_iommu_domain_get` is atomic: whatever the threads of a file do between its two
looks, they see a table of shared domains, in which a call has its domain when it is answered
and has none before it is made. No domain is handed out for two ids, and a domain that no call
keeps for itself lives as long as it is in the table. -/
theorem pool_atomic (run : Runs pool State.init acts s) (later : Runs pool s more t) :
    (∃ events, Runs sharing s.table events t.table) ∧
      (∀ u d, s.answer u = some d → s.table.given u = some (s.slotOf u, d)) ∧
        (∀ u, s.calls ≤ u → s.table.given u = none) ∧
          (∀ u v d, s.answer u = some d → s.answer v = some d → s.slotOf u = s.slotOf v) ∧
            ∀ d < s.created, (∀ u, (s.pc u).candidate ≠ some d) →
              (s.destroyed d = 0 ↔ s.table.Alive d) := by
  have inv := Atomic.reachable run
  refine ⟨inv.table_runs later, fun u d => inv.given_of_answer, fun u hu => ?_,
    fun u v d hu hv => ?_, fun d => inv.alive_iff⟩
  · obtain ⟨hidle, hanswer⟩ := inv.freshCalls u hu
    simp [State.table, State.taken, hidle, hanswer, GetPc.result]
  · exact (table_sound run).placed u v _ _ d (inv.given_of_answer hu) (inv.given_of_answer hv)

/-- In the middle of the race the loser is bound to the winner's domain. -/
theorem raceSteps_split : ((exec pool State.init (raceSteps.take 8)).map fun s =>
    decide (s.answer 1 = some 1 ∧ s.taken 0 = some 1) &&
      (exec pool s (raceSteps.drop 8)).isSome) = some true := by
  decide

theorem pool_atomic_raceSteps : ∃ s t, Runs pool State.init (raceSteps.take 8) s ∧
    Runs pool s (raceSteps.drop 8) t ∧ (∃ events, Runs sharing s.table events t.table) ∧
      s.table.given 1 = some (s.slotOf 1, 1) := by
  obtain ⟨s, first, htest⟩ := runs_of_test raceSteps_split
  obtain ⟨hdecided, hsome⟩ := Bool.and_eq_true_iff.mp htest
  obtain ⟨t, later⟩ := Option.isSome_iff_exists.mp hsome
  obtain ⟨hevents, hgiven, -⟩ := pool_atomic first later
  exact ⟨s, t, first, later, hevents, hgiven 1 1 (of_decide_eq_true hdecided).1⟩

end Runs

end Rkopnu.Pool
