import Rkopnu.Driver.Step
import Rkopnu.Foundation.Holding

/-!
# The domain pool of a file

`rocket_iommu_domain_get` looks a slot up, creates a domain outside the lock when it
finds none, looks again, and puts its own domain if another thread was faster.
Every domain is destroyed by whoever drops the last reference on it.

## Implementation notes

A domain is named by the number of domains created before it, so no name is used
twice. A call is one `RKNPU_MEM_CREATE` or `RKNPU_SUBMIT` and stands for the BO or the
job it makes, which outlives it. `answer` and `installs` record what the gets have
returned and how often a slot was filled; no code reads them.
-/

namespace Rkopnu.Pool

open Function (update)
open Transition Holding
open Driver (domainSlot maxIommuDomains)

/-- What a call makes of the domain it gets. -/
inductive Kind
  /-- `rkopnu_ioctl_mem_create`: `bo->domain`. -/
  | memCreate
  /-- `rkopnu_ioctl_submit`: `rjob->domain`. -/
  | submit
  deriving DecidableEq, Repr

/-- Where a call stands in `rocket_iommu_domain_get`. -/
inductive GetPc
  | idle
  /-- Before the first look at the slot. -/
  | lookup
  /-- The slot was empty; before `rocket_iommu_domain_create`. -/
  | create
  /-- The domain `d` is created; before the second look at the slot. -/
  | recheck (d : Nat)
  /-- Another thread has installed `w`; before the put of `d`. -/
  | putLoser (d w : Nat)
  /-- Returned `d`; before it is stored in the BO or the job. -/
  | got (d : Nat)
  /-- Returned an error. -/
  | failed
  /-- The domain was stored. -/
  | stored
  deriving DecidableEq, Repr

/-- The domain the call has created and not installed. -/
def GetPc.candidate : GetPc → Option Nat
  | .recheck d | .putLoser d _ => some d
  | _ => none

/-- The reference the call has taken for its caller. -/
def GetPc.result : GetPc → Option Nat
  | .putLoser _ w => some w
  | .got d => some d
  | _ => none

/-- The call is in `rocket_iommu_domain_get` or has its result in hand. -/
def GetPc.running : GetPc → Bool
  | .idle | .failed | .stored => false
  | _ => true

/-- Whoever holds a counted reference on a domain. -/
inductive Holder
  /-- `rocket_priv->domains[i]`. -/
  | slot (i : Nat)
  | candidate (t : Nat)
  | result (t : Nat)
  | bo (t : Nat)
  | job (t : Nat)
  deriving DecidableEq

structure State where
  /-- `domain->kref`. -/
  kref : Nat → Nat
  /-- How often `rocket_iommu_domain_destroy` ran for the domain. -/
  destroyed : Nat → Nat
  /-- How many domains have been created. -/
  created : Nat
  /-- `rocket_priv->domains`. -/
  slot : Nat → Option Nat
  /-- How many calls there have been. -/
  calls : Nat
  kind : Nat → Kind
  /-- `args->iommu_domain_id`. -/
  id : Nat → U32
  pc : Nat → GetPc
  /-- `bo->domain` of the BO that a call has made. -/
  bo : Nat → Option Nat
  /-- `job->domain` of the job that a call has made. -/
  job : Nat → Option Nat
  /-- What `rocket_iommu_domain_get` returned to the call. -/
  answer : Nat → Option Nat
  /-- How often the slot was filled. -/
  installs : Nat → Nat
  /-- The slot that `rocket_iommu_domains_close` comes to next. -/
  closing : Option Nat

/-- `rocket_open`: the pool is empty. -/
def State.init : State where
  kref := fun _ => 0
  destroyed := fun _ => 0
  created := 0
  slot := fun _ => none
  calls := 0
  kind := fun _ => .memCreate
  id := fun _ => 0#32
  pc := fun _ => .idle
  bo := fun _ => none
  job := fun _ => none
  answer := fun _ => none
  installs := fun _ => 0
  closing := none

inductive Action
  /-- A call that names `id` enters `rocket_iommu_domain_get`. -/
  | enter (kind : Kind) (id : U32)
  /-- The first look finds `d`. -/
  | found (t d : Nat)
  /-- The first look finds nothing. -/
  | missing (t : Nat)
  /-- `rocket_iommu_domain_create`. -/
  | create (t : Nat) (ok : Bool)
  /-- The second look finds nothing, and the candidate is installed. -/
  | install (t d : Nat)
  /-- The second look finds `w`. -/
  | lost (t d w : Nat)
  /-- `rocket_iommu_domain_put` of the candidate. -/
  | putLoser (t d w : Nat)
  /-- The caller stores the domain. -/
  | store (t d : Nat)
  /-- `rocket_gem_bo_free`, or the error path of `rkopnu_ioctl_mem_create`. -/
  | boFree (t : Nat)
  /-- `rocket_job_cleanup`. -/
  | jobCleanup (t : Nat)
  /-- `rocket_iommu_domains_close`. -/
  | close
  /-- It comes to slot `i`. -/
  | putSlot (i : Nat)

namespace State
variable (s : State)

/-- The slot of the domain id that the call names. -/
def slotOf (t : Nat) : Nat := domainSlot (s.id t)

/-- `kref_get`. -/
def get (d : Nat) : State := { s with kref := update s.kref d (s.kref d + 1) }

/-- `rocket_iommu_domain_put`; a null pointer is allowed. -/
def put (d : Option Nat) : State :=
  { s with
    kref := match d with
      | none => s.kref
      | some d => update s.kref d (s.kref d - 1)
    destroyed := match d with
      | none => s.destroyed
      | some d => if s.kref d = 1 then update s.destroyed d (s.destroyed d + 1)
          else s.destroyed }

/-- The call goes on. -/
def go (t : Nat) (pc : GetPc) : State := { s with pc := update s.pc t pc }

/-- `rocket_iommu_domain_get` returns `d` to the call. -/
def give (t d : Nat) : State :=
  { s with pc := update s.pc t (.got d), answer := update s.answer t (some d) }

@[simp] theorem kref_put (d : Option Nat) (e : Nat) :
    (s.put d).kref e = if d = some e then s.kref e - 1 else s.kref e := by
  cases d with
  | none => simp [put]
  | some d =>
      by_cases hd : d = e
      · simp [put, hd]
      · simp [put, hd, Ne.symm hd]

@[simp] theorem destroyed_put (d : Option Nat) (e : Nat) : (s.put d).destroyed e =
    if d = some e ∧ s.kref e = 1 then s.destroyed e + 1 else s.destroyed e := by
  cases d with
  | none => simp [put]
  | some d =>
      by_cases hd : d = e
      · subst hd
        by_cases hone : s.kref d = 1 <;> simp [put, hone]
      · by_cases hone : s.kref d = 1 <;> simp [put, hd, hone, Ne.symm hd]

/-- What each holder refers to. -/
def holding : Holder → Option Nat
  | .slot i => s.slot i
  | .candidate t => (s.pc t).candidate
  | .result t => (s.pc t).result
  | .bo t => s.bo t
  | .job t => s.job t

end State

/-- The thread stands at the action. -/
def enabled (s : State) : Action → Bool
  | .enter _ _ => decide (s.closing = none)
  | .found t d => decide (s.pc t = .lookup ∧ s.slot (s.slotOf t) = some d)
  | .missing t => decide (s.pc t = .lookup ∧ s.slot (s.slotOf t) = none)
  | .create t _ => decide (s.pc t = .create)
  | .install t d => decide (s.pc t = .recheck d ∧ s.slot (s.slotOf t) = none)
  | .lost t d w => decide (s.pc t = .recheck d ∧ s.slot (s.slotOf t) = some w)
  | .putLoser t d w => decide (s.pc t = .putLoser d w)
  | .store t d => decide (s.pc t = .got d)
  | .boFree t => decide (s.bo t ≠ none)
  | .jobCleanup t => decide (s.job t ≠ none)
  | .close => decide (s.closing = none ∧ ∀ t < s.calls, (s.pc t).running = false)
  | .putSlot i => decide (s.closing = some i ∧ i < maxIommuDomains)

/-- What the piece of code does. -/
def effect (s : State) : Action → State
  | .enter kind id => { s with
      calls := s.calls + 1
      kind := update s.kind s.calls kind
      id := update s.id s.calls id
      pc := update s.pc s.calls .lookup }
  | .found t d => (s.get d).give t d
  | .missing t => s.go t .create
  | .create t ok =>
      if ok then { s with
        kref := update s.kref s.created 1
        created := s.created + 1
        pc := update s.pc t (.recheck s.created) }
      else s.go t .failed
  -- the reference of the creation becomes the pool's, the caller gets its own
  | .install t d => { (s.get d).give t d with
      slot := update s.slot (s.slotOf t) (some d)
      installs := update s.installs (s.slotOf t) (s.installs (s.slotOf t) + 1) }
  | .lost t d w => (s.get w).go t (.putLoser d w)
  | .putLoser t d w => (s.put (some d)).give t w
  | .store t d => { s with
      pc := update s.pc t .stored
      bo := if s.kind t = .memCreate then update s.bo t (some d) else s.bo
      job := if s.kind t = .memCreate then s.job else update s.job t (some d) }
  | .boFree t => { s.put (s.bo t) with bo := update s.bo t none }
  | .jobCleanup t => { s.put (s.job t) with job := update s.job t none }
  | .close => { s with closing := some 0 }
  | .putSlot i => { s.put (s.slot i) with
      slot := update s.slot i none
      closing := some (i + 1) }

/-- The pool as a transition system. -/
def pool : System State Action := fun s a => if enabled s a then some (effect s a) else none

theorem pool_eq_some {s t : State} {a : Action} :
    pool s a = some t ↔ enabled s a = true ∧ effect s a = t := by
  unfold pool
  split <;> simp_all

/-! ## Where a step leads a call, a slot and a domain -/

/-- The step takes call `t` from one point of `rocket_iommu_domain_get` to another. -/
inductive GetPc.Moves (s : State) : Action → Nat → GetPc → GetPc → Prop
  | enter {kind id} (opened : s.closing = none) : Moves s (.enter kind id) s.calls .idle .lookup
  | found {t d} (there : s.slot (s.slotOf t) = some d) : Moves s (.found t d) t .lookup (.got d)
  | missing {t} : Moves s (.missing t) t .lookup .create
  | create {t} : Moves s (.create t true) t .create (.recheck s.created)
  | createFail {t} : Moves s (.create t false) t .create .failed
  | install {t d} (empty : s.slot (s.slotOf t) = none) :
      Moves s (.install t d) t (.recheck d) (.got d)
  | lost {t d w} (taken : s.slot (s.slotOf t) = some w) :
      Moves s (.lost t d w) t (.recheck d) (.putLoser d w)
  | putLoser {t d w} : Moves s (.putLoser t d w) t (.putLoser d w) (.got w)
  | store {t d} : Moves s (.store t d) t (.got d) .stored

/-- The domain on which the step takes a reference. -/
def Action.gets : Action → Option Nat
  | .found _ d | .install _ d | .lost _ _ d => some d
  | _ => none

/-- The step puts what a holder refers to. -/
inductive Puts (s : State) : Action → Holder → Prop
  | candidate {t d w} : Puts s (.putLoser t d w) (.candidate t)
  | bo {t} : Puts s (.boFree t) (.bo t)
  | job {t} : Puts s (.jobCleanup t) (.job t)
  | slot {i} : Puts s (.putSlot i) (.slot i)

/-- The step returns `d` from `rocket_iommu_domain_get` to call `t`. -/
inductive Answers : Action → Nat → Nat → Prop
  | found {t d} : Answers (.found t d) t d
  | install {t d} : Answers (.install t d) t d
  | putLoser {t e d} : Answers (.putLoser t e d) t d

section Moves
variable {s : State} {a : Action}

theorem pc_moved {t u : Nat} {p q : GetPc} (hp : s.pc t = p)
    (hq : (effect s a).pc = update s.pc t q) (hmove : GetPc.Moves s a t p q) :
    GetPc.Moves s a u (s.pc u) ((effect s a).pc u) ∨ (effect s a).pc u = s.pc u :=
  (component_moved (R := GetPc.Moves s a) hp hq hmove).imp_right And.right

/-- A step takes a call from one point to the next, or leaves it where it stands. -/
theorem pc_effect (fresh : s.pc s.calls = .idle) (h : enabled s a = true) (u : Nat) :
    GetPc.Moves s a u (s.pc u) ((effect s a).pc u) ∨ (effect s a).pc u = s.pc u := by
  cases a with
  | enter kind id => exact pc_moved fresh rfl (.enter (of_decide_eq_true h))
  | found t d =>
      obtain ⟨hpc, hslot⟩ := of_decide_eq_true h
      exact pc_moved hpc rfl (.found hslot)
  | missing t => exact pc_moved (of_decide_eq_true h).1 rfl .missing
  | create t ok =>
      cases ok with
      | true => exact pc_moved (of_decide_eq_true h) rfl .create
      | false => exact pc_moved (of_decide_eq_true h) rfl .createFail
  | install t d =>
      obtain ⟨hpc, hslot⟩ := of_decide_eq_true h
      exact pc_moved hpc rfl (.install hslot)
  | lost t d w =>
      obtain ⟨hpc, hslot⟩ := of_decide_eq_true h
      exact pc_moved hpc rfl (.lost hslot)
  | putLoser t d w => exact pc_moved (of_decide_eq_true h) rfl .putLoser
  | store t d => exact pc_moved (of_decide_eq_true h) rfl .store
  | _ => exact Or.inr rfl

/-- A slot is filled by the call that installs its candidate there, and emptied by close. -/
theorem slot_cases (i : Nat) : (effect s a).slot i = s.slot i ∨
    (∃ t d, a = .install t d ∧ i = s.slotOf t ∧ (effect s a).slot i = some d) ∨
      a = .putSlot i ∧ (effect s a).slot i = none := by
  cases a with
  | install t d =>
      by_cases hi : i = s.slotOf t
      · exact Or.inr (Or.inl ⟨t, d, rfl, hi, by rw [hi]; exact Function.update_self _ _ _⟩)
      · exact Or.inl (Function.update_of_ne hi _ _)
  | putSlot k =>
      by_cases hi : i = k
      · exact Or.inr (Or.inr ⟨by rw [hi], by rw [hi]; exact Function.update_self _ _ _⟩)
      · exact Or.inl (Function.update_of_ne hi _ _)
  | create t ok => cases ok <;> exact Or.inl rfl
  | _ => exact Or.inl rfl

theorem installs_cases (i : Nat) : (effect s a).installs i = s.installs i ∨
    ∃ t d, a = .install t d ∧ i = s.slotOf t ∧
      (effect s a).installs i = s.installs i + 1 := by
  cases a with
  | install t d =>
      by_cases hi : i = s.slotOf t
      · exact Or.inr ⟨t, d, rfl, hi, by rw [hi]; exact Function.update_self _ _ _⟩
      · exact Or.inl (Function.update_of_ne hi _ _)
  | create t ok => cases ok <;> exact Or.inl rfl
  | _ => exact Or.inl rfl

theorem answer_cases (t : Nat) : (effect s a).answer t = s.answer t ∨
    ∃ d, Answers a t d ∧ (effect s a).answer t = some d := by
  have given : ∀ {u d}, Answers a u d → (effect s a).answer = update s.answer u (some d) →
      (effect s a).answer t = s.answer t ∨
        ∃ d, Answers a t d ∧ (effect s a).answer t = some d := by
    intro u d hanswers hanswer
    by_cases ht : t = u
    · subst ht
      exact Or.inr ⟨d, hanswers, by rw [hanswer, Function.update_self]⟩
    · exact Or.inl (by rw [hanswer, Function.update_of_ne ht])
  cases a with
  | found u d => exact given .found rfl
  | install u d => exact given .install rfl
  | putLoser u e d => exact given .putLoser rfl
  | create u ok => cases ok <;> exact Or.inl rfl
  | _ => exact Or.inl rfl

theorem pc_of_answers {t d : Nat} (ha : Answers a t d) : (effect s a).pc t = .got d := by
  cases ha with
  | found | install | putLoser => exact Function.update_self _ _ _

/-- A step that leaves the pool open found it open. -/
theorem opened_before (hopen : (effect s a).closing = none) : s.closing = none := by
  cases a with
  | close | putSlot i => cases hopen
  | create t ok => cases ok <;> exact hopen
  | _ => exact hopen

/-- Until close a filled slot does not change. -/
theorem slot_stays (h : enabled s a = true) (opened : (effect s a).closing = none) {i d : Nat}
    (hi : s.slot i = some d) : (effect s a).slot i = some d := by
  rcases slot_cases (s := s) (a := a) i with hsame | ⟨t, e, rfl, hslot, -⟩ | ⟨rfl, -⟩
  · rw [hsame, hi]
  · rw [hslot, (of_decide_eq_true h).2] at hi
    cases hi
  · cases opened

/-- A call keeps the id that it came with. -/
theorem slotOf_effect {t : Nat} (ht : t ≠ s.calls) : (effect s a).slotOf t = s.slotOf t := by
  cases a with
  | enter kind id =>
      change domainSlot (update s.id s.calls id t) = _
      rw [Function.update_of_ne ht]
      rfl
  | create u ok => cases ok <;> rfl
  | _ => rfl

/-- What was stored stays until it is put. -/
theorem stored_cases (t : Nat) : (effect s a).pc t = .stored ∨
    ((effect s a).bo t = s.bo t ∨ (effect s a).bo t = none) ∧
      ((effect s a).job t = s.job t ∨ (effect s a).job t = none) := by
  cases a with
  | store u d =>
      by_cases ht : t = u
      · exact Or.inl (by rw [ht]; exact Function.update_self _ _ _)
      · refine Or.inr ⟨Or.inl ?_, Or.inl ?_⟩
        · simp only [effect]
          split
          · exact Function.update_of_ne ht _ _
          · rfl
        · simp only [effect]
          split
          · rfl
          · exact Function.update_of_ne ht _ _
  | boFree u =>
      refine Or.inr ⟨?_, Or.inl rfl⟩
      by_cases ht : t = u
      · exact Or.inr (by rw [ht]; exact Function.update_self _ _ _)
      · exact Or.inl (Function.update_of_ne ht _ _)
  | jobCleanup u =>
      refine Or.inr ⟨Or.inl rfl, ?_⟩
      by_cases ht : t = u
      · exact Or.inr (by rw [ht]; exact Function.update_self _ _ _)
      · exact Or.inl (Function.update_of_ne ht _ _)
  | create u ok => cases ok <;> exact Or.inr ⟨Or.inl rfl, Or.inl rfl⟩
  | _ => exact Or.inr ⟨Or.inl rfl, Or.inl rfl⟩

/-- A step leaves the counts of domains as they are, makes a domain, or takes or puts one
reference. -/
theorem refs_cases (h : enabled s a = true) : (effect s a).created = s.created ∧
      ((effect s a).kref = s.kref ∧ (effect s a).destroyed = s.destroyed ∨
        (∃ d, a.gets = some d ∧ (effect s a).kref = update s.kref d (s.kref d + 1) ∧
          (effect s a).destroyed = s.destroyed) ∨
        ∃ k, Puts s a k ∧ (effect s a).kref = (s.put (s.holding k)).kref ∧
          (effect s a).destroyed = (s.put (s.holding k)).destroyed) ∨
    (∃ t, a = .create t true) ∧ (effect s a).created = s.created + 1 ∧
      (effect s a).kref = update s.kref s.created 1 ∧ (effect s a).destroyed = s.destroyed := by
  cases a with
  | found t d | install t d | lost t e d =>
      exact Or.inl ⟨rfl, Or.inr (Or.inl ⟨d, rfl, rfl, rfl⟩)⟩
  | boFree t => exact Or.inl ⟨rfl, Or.inr (Or.inr ⟨_, .bo, rfl, rfl⟩)⟩
  | jobCleanup t => exact Or.inl ⟨rfl, Or.inr (Or.inr ⟨_, .job, rfl, rfl⟩)⟩
  | putSlot i => exact Or.inl ⟨rfl, Or.inr (Or.inr ⟨_, .slot, rfl, rfl⟩)⟩
  | create t ok =>
      cases ok with
      | true => exact Or.inr ⟨⟨t, rfl⟩, rfl, rfl, rfl⟩
      | false => exact Or.inl ⟨rfl, Or.inl ⟨rfl, rfl⟩⟩
  | putLoser t d w =>
      have hcandidate : s.holding (.candidate t) = some d := by
        simp [State.holding, of_decide_eq_true h, GetPc.candidate]
      exact Or.inl ⟨rfl, Or.inr (Or.inr ⟨_, .candidate, by rw [hcandidate]; rfl,
        by rw [hcandidate]; rfl⟩)⟩
  | _ => exact Or.inl ⟨rfl, Or.inl ⟨rfl, rfl⟩⟩

/-- A reference is taken on what is in a slot, or by the call that installs its candidate. -/
theorem held_of_gets (h : enabled s a = true) {d : Nat} (hd : a.gets = some d) :
    (∃ i, s.slot i = some d) ∨ ∃ t, a = .install t d ∧ s.pc t = .recheck d := by
  cases a with
  | found t e | lost t b e =>
      obtain rfl := Option.some.inj hd
      exact Or.inl ⟨_, (of_decide_eq_true h).2⟩
  | install t e =>
      obtain rfl := Option.some.inj hd
      exact Or.inr ⟨t, rfl, (of_decide_eq_true h).1⟩
  | _ => cases hd

/-- A candidate was one before the step, or is created by it. -/
theorem candidate_before (fresh : s.pc s.calls = .idle) (h : enabled s a = true) {u d : Nat}
    (hu : ((effect s a).pc u).candidate = some d) :
    (s.pc u).candidate = some d ∨ a = .create u true ∧ d = s.created := by
  rcases pc_effect fresh h u with hmove | hstay
  · generalize s.pc u = p at hmove ⊢
    generalize (effect s a).pc u = q at hmove hu
    cases hmove with
    | create => exact Or.inr ⟨rfl, (Option.some.inj hu).symm⟩
    | lost => exact Or.inl hu
    | _ => cases hu
  · exact Or.inl (hstay ▸ hu)

end Moves

section Holding
variable {s t : State}

/-- A call goes to another point. -/
theorem holding_of_pc {u : Nat} {q : GetPc} (hpc : t.pc = update s.pc u q)
    (hslot : t.slot = s.slot) (hbo : t.bo = s.bo) (hjob : t.job = s.job) :
    t.holding =
      update (update s.holding (.result u) q.result) (.candidate u) q.candidate := by
  funext k
  cases k with
  | candidate v | result v =>
      by_cases hv : v = u
      · subst hv
        simp [State.holding, hpc]
      · simp [State.holding, hpc, hv]
  | slot i => simp [State.holding, hslot]
  | bo v => simp [State.holding, hbo]
  | job v => simp [State.holding, hjob]

theorem holding_of_slot {i : Nat} {v : Option Nat} (hslot : t.slot = update s.slot i v)
    (hpc : t.pc = s.pc) (hbo : t.bo = s.bo) (hjob : t.job = s.job) :
    t.holding = update s.holding (.slot i) v := by
  refine Function.eq_update_iff.mpr ⟨by simp [State.holding, hslot], fun k hk => ?_⟩
  cases k with
  | slot l =>
      have hl : l ≠ i := fun heq => hk (by rw [heq])
      simp [State.holding, hslot, hl]
  | _ => simp [State.holding, hpc, hbo, hjob]

theorem holding_of_bo {u : Nat} {v : Option Nat} (hbo : t.bo = update s.bo u v)
    (hpc : t.pc = s.pc) (hslot : t.slot = s.slot) (hjob : t.job = s.job) :
    t.holding = update s.holding (.bo u) v := by
  refine Function.eq_update_iff.mpr ⟨by simp [State.holding, hbo], fun k hk => ?_⟩
  cases k with
  | bo l =>
      have hl : l ≠ u := fun heq => hk (by rw [heq])
      simp [State.holding, hbo, hl]
  | _ => simp [State.holding, hpc, hslot, hjob]

theorem holding_of_job {u : Nat} {v : Option Nat} (hjob : t.job = update s.job u v)
    (hpc : t.pc = s.pc) (hslot : t.slot = s.slot) (hbo : t.bo = s.bo) :
    t.holding = update s.holding (.job u) v := by
  refine Function.eq_update_iff.mpr ⟨by simp [State.holding, hjob], fun k hk => ?_⟩
  cases k with
  | job l =>
      have hl : l ≠ u := fun heq => hk (by rw [heq])
      simp [State.holding, hjob, hl]
  | _ => simp [State.holding, hpc, hslot, hbo]

/-- The call has the candidate that it had. -/
theorem holding_of_result {u : Nat} {q : GetPc} (hpc : t.pc = update s.pc u q)
    (hslot : t.slot = s.slot) (hbo : t.bo = s.bo) (hjob : t.job = s.job)
    (hcandidate : (s.pc u).candidate = q.candidate) :
    t.holding = update s.holding (.result u) q.result := by
  rw [holding_of_pc hpc hslot hbo hjob, ← hcandidate]
  exact Function.update_eq_self_iff.mpr (by simp [State.holding])

/-- The call has the result that it had. -/
theorem holding_of_candidate {u : Nat} {q : GetPc} (hpc : t.pc = update s.pc u q)
    (hslot : t.slot = s.slot) (hbo : t.bo = s.bo) (hjob : t.job = s.job)
    (hresult : (s.pc u).result = q.result) :
    t.holding = update s.holding (.candidate u) q.candidate := by
  have hsame : update s.holding (.result u) q.result = s.holding :=
    Function.update_eq_self_iff.mpr hresult.symm
  rw [holding_of_pc hpc hslot hbo hjob, hsame]

/-- The call has what it had. -/
theorem holding_of_same {u : Nat} {q : GetPc} (hpc : t.pc = update s.pc u q)
    (hslot : t.slot = s.slot) (hbo : t.bo = s.bo) (hjob : t.job = s.job)
    (hcandidate : (s.pc u).candidate = q.candidate) (hresult : (s.pc u).result = q.result) :
    t.holding = s.holding := by
  rw [holding_of_result hpc hslot hbo hjob hcandidate]
  exact Function.update_eq_self_iff.mpr hresult.symm

end Holding

/-- What is known about the references and the slots of a pool. -/
structure Pooled (s : State) : Prop where
  counts : Counts s.holding s.kref
  freshDomains : ∀ d, s.created ≤ d → s.kref d = 0 ∧ s.destroyed d = 0
  /-- A domain is destroyed when its last reference goes, and not again. -/
  destroyedOnce : ∀ d < s.created, s.destroyed d = if s.kref d = 0 then 1 else 0
  freshCalls : ∀ t, s.calls ≤ t → s.pc t = .idle ∧ s.answer t = none
  unstored : ∀ t, s.pc t ≠ .stored → s.bo t = none ∧ s.job t = none
  /-- Nobody but the call refers to the domain it has created. -/
  candidateAlone : ∀ t d, (s.pc t).candidate = some d → s.kref d = 1
  slotUnique : ∀ i k d, s.slot i = some d → s.slot k = some d → i = k
  closingQuiet : s.closing ≠ none → ∀ t, (s.pc t).running = false
  /-- Until close, what was returned is what is in the slot. -/
  answered : s.closing = none → ∀ t d, s.answer t = some d → s.slot (s.slotOf t) = some d
  raced : ∀ t d w, s.pc t = .putLoser d w → s.slot (s.slotOf t) = some w
  agree : ∀ t u d e, s.answer t = some d → s.answer u = some e → s.slotOf t = s.slotOf u → d = e
  installed : s.closing = none → ∀ i, s.installs i = if s.slot i = none then 0 else 1
  installedOnce : ∀ i, s.installs i ≤ 1

theorem Pooled.initial : Pooled State.init where
  counts := by
    have hnone : State.init.holding = fun _ => none := by
      funext h
      cases h <;> rfl
    rw [hnone]
    exact counts_empty
  freshDomains := fun _ _ => ⟨rfl, rfl⟩
  destroyedOnce := fun d hd => absurd hd (Nat.not_lt_zero d)
  freshCalls := fun _ _ => ⟨rfl, rfl⟩
  unstored := fun _ _ => ⟨rfl, rfl⟩
  candidateAlone := fun t d h => by simp [State.init, GetPc.candidate] at h
  slotUnique := fun i k d h => by simp [State.init] at h
  closingQuiet := fun h => absurd rfl h
  answered := fun _ t d h => by simp [State.init] at h
  raced := fun t d w h => by simp [State.init] at h
  agree := fun t u d e h => by simp [State.init] at h
  installed := fun _ _ => rfl
  installedOnce := fun _ => Nat.zero_le 1

section Preserve
variable {s : State} {a : Action}

theorem Pooled.idle (inv : Pooled s) : s.pc s.calls = .idle :=
  (inv.freshCalls _ (Nat.le_refl _)).1

theorem Pooled.pc_effect (inv : Pooled s) (h : enabled s a = true) (u : Nat) :
    GetPc.Moves s a u (s.pc u) ((effect s a).pc u) ∨ (effect s a).pc u = s.pc u :=
  Pool.pc_effect inv.idle h u

/-- The held reference of one holder is put. -/
theorem counts_put {t : State} (counts : Counts s.holding s.kref) {h : Holder} {d : Option Nat}
    (hd : s.holding h = d) (hkref : t.kref = (s.put d).kref)
    (hhold : t.holding = update s.holding h none) : Counts t.holding t.kref := by
  cases d with
  | none =>
      have hsame : t.holding = s.holding := by rw [hhold, ← hd, Function.update_eq_self]
      rw [hsame, hkref]
      exact counts
  | some d =>
      rw [hhold, hkref]
      exact counts.drop hd

/-- The call gets a reference on `d` for its caller. -/
theorem counts_result {t : State} (counts : Counts s.holding s.kref) {u d : Nat}
    (hu : (s.pc u).result = none) (hkref : t.kref = (s.get d).kref)
    (hhold : t.holding = update s.holding (.result u) (some d)) : Counts t.holding t.kref := by
  rw [hhold, hkref]
  exact counts.take (i := .result u) hu d

theorem counts_install (counts : Counts s.holding s.kref) {t d : Nat}
    (hpc : s.pc t = .recheck d) (hslot : s.slot (s.slotOf t) = none) :
    Counts (effect s (.install t d)).holding (effect s (.install t d)).kref := by
  have hcandidate : s.holding (.candidate t) = some d := by
    simp [State.holding, hpc, GetPc.candidate]
  have hgiven : ((s.get d).give t d).holding =
      update (update s.holding (.result t) (some d)) (.candidate t) none :=
    holding_of_pc (q := .got d) rfl rfl rfl rfl
  have hhold : (effect s (.install t d)).holding =
      update ((s.get d).give t d).holding (.slot (s.slotOf t)) (some d) :=
    holding_of_slot rfl rfl rfl rfl
  have htake := counts.take (show s.holding (.result t) = none by
    simp [State.holding, hpc, GetPc.result]) d
  rw [hhold, hgiven]
  exact htake.move (by simp [hcandidate]) (by simpa [State.holding] using hslot)

theorem counts_store (counts : Counts s.holding s.kref) {t d : Nat} (hpc : s.pc t = .got d)
    (hbo : s.bo t = none) (hjob : s.job t = none) :
    Counts (effect s (.store t d)).holding (effect s (.store t d)).kref := by
  have hresult : s.holding (.result t) = some d := by simp [State.holding, hpc, GetPc.result]
  have hleft : (s.go t .stored).holding = update s.holding (.result t) none :=
    holding_of_result (q := .stored) rfl rfl rfl rfl (by rw [hpc]; rfl)
  cases hkind : s.kind t with
  | memCreate =>
      have hhold := holding_of_bo (s := s.go t .stored) (t := effect s (.store t d))
        (u := t) (v := some d) (by simp [effect, hkind, State.go]) rfl rfl
        (by simp [effect, hkind, State.go])
      rw [hhold, hleft]
      exact counts.move hresult hbo
  | submit =>
      have hhold := holding_of_job (s := s.go t .stored) (t := effect s (.store t d))
        (u := t) (v := some d) (by simp [effect, hkind, State.go]) rfl rfl
        (by simp [effect, hkind, State.go])
      rw [hhold, hleft]
      exact counts.move hresult hjob

theorem keep_counts (inv : Pooled s) (h : enabled s a = true) :
    Counts (effect s a).holding (effect s a).kref := by
  have counts := inv.counts
  cases a with
  | enter kind id =>
      have hsame : (effect s (.enter kind id)).holding = s.holding :=
        holding_of_same (q := .lookup) rfl rfl rfl rfl (by rw [inv.idle]; rfl)
          (by rw [inv.idle]; rfl)
      rw [hsame]
      exact counts
  | found t d =>
      have hpc : s.pc t = .lookup := (of_decide_eq_true h).1
      exact counts_result counts (by rw [hpc]; rfl) rfl
        (holding_of_result (q := .got d) rfl rfl rfl rfl (by rw [hpc]; rfl))
  | missing t =>
      have hpc : s.pc t = .lookup := (of_decide_eq_true h).1
      have hsame : (effect s (.missing t)).holding = s.holding :=
        holding_of_same (q := .create) rfl rfl rfl rfl (by rw [hpc]; rfl) (by rw [hpc]; rfl)
      rw [hsame]
      exact counts
  | create t ok =>
      have hpc : s.pc t = .create := of_decide_eq_true h
      cases ok with
      | false =>
          have hsame : (effect s (.create t false)).holding = s.holding :=
            holding_of_same (q := .failed) rfl rfl rfl rfl (by rw [hpc]; rfl) (by rw [hpc]; rfl)
          rw [hsame]
          exact counts
      | true =>
          have hhold : (effect s (.create t true)).holding =
              update s.holding (.candidate t) (some s.created) :=
            holding_of_candidate (q := .recheck s.created) rfl rfl rfl rfl (by rw [hpc]; rfl)
          have htake := counts.take (show s.holding (.candidate t) = none by
            simp [State.holding, hpc, GetPc.candidate]) s.created
          rw [(inv.freshDomains s.created (Nat.le_refl _)).1] at htake
          rw [hhold]
          exact htake
  | install t d =>
      obtain ⟨hpc, hslot⟩ := of_decide_eq_true h
      exact counts_install counts hpc hslot
  | lost t d w =>
      have hpc : s.pc t = .recheck d := (of_decide_eq_true h).1
      exact counts_result counts (by rw [hpc]; rfl) rfl
        (holding_of_result (q := .putLoser d w) rfl rfl rfl rfl (by rw [hpc]; rfl))
  | putLoser t d w =>
      have hpc : s.pc t = .putLoser d w := of_decide_eq_true h
      exact counts_put counts (h := .candidate t) (d := some d)
        (by simp [State.holding, hpc, GetPc.candidate]) rfl
        (holding_of_candidate (q := .got w) rfl rfl rfl rfl (by rw [hpc]; rfl))
  | store t d =>
      have hpc : s.pc t = .got d := of_decide_eq_true h
      obtain ⟨hbo, hjob⟩ := inv.unstored t (by simp [hpc])
      exact counts_store counts hpc hbo hjob
  | boFree t => exact counts_put counts (h := .bo t) rfl rfl (holding_of_bo rfl rfl rfl rfl)
  | jobCleanup t =>
      exact counts_put counts (h := .job t) rfl rfl (holding_of_job rfl rfl rfl rfl)
  | close => exact counts
  | putSlot i =>
      exact counts_put counts (h := .slot i) rfl rfl (holding_of_slot rfl rfl rfl rfl)

/-- Whatever is held has been created. -/
theorem Pooled.lt_created (inv : Pooled s) {h : Holder} {d : Nat} (hd : s.holding h = some d) :
    d < s.created := by
  by_contra hge
  have hpos := inv.counts.pos hd
  have hfresh := (inv.freshDomains d (by omega)).1
  omega

/-- No other holder refers to a candidate. -/
theorem Pooled.eq_candidate (inv : Pooled s) {t : Nat} {h : Holder} {d : Nat}
    (hd : s.holding h = some d) (hc : (s.pc t).candidate = some d) : h = .candidate t :=
  inv.counts.unique (inv.candidateAlone t d hc) hd hc

/-- A reference is taken on a domain that somebody holds. -/
theorem Pooled.held_of_gets (h : enabled s a = true) {d : Nat} (hd : a.gets = some d) :
    ∃ k, s.holding k = some d := by
  rcases Pool.held_of_gets h hd with ⟨i, hi⟩ | ⟨t, -, ht⟩
  · exact ⟨.slot i, hi⟩
  · exact ⟨.candidate t, by simp [State.holding, ht, GetPc.candidate]⟩

theorem keep_freshDomains (inv : Pooled s) (h : enabled s a = true) :
    ∀ d, (effect s a).created ≤ d → (effect s a).kref d = 0 ∧ (effect s a).destroyed d = 0 := by
  intro d hd
  have notHeld : s.created ≤ d → ∀ k, s.holding k ≠ some d := fun hle k hk =>
    absurd (inv.lt_created hk) (Nat.not_lt.mpr hle)
  rcases refs_cases h with
    ⟨hcreated, ⟨hkref, hdestroyed⟩ | ⟨e, hgets, hkref, hdestroyed⟩ | ⟨k, -, hkref, hdestroyed⟩⟩ |
      ⟨-, hcreated, hkref, hdestroyed⟩
  · rw [hkref, hdestroyed]
    exact inv.freshDomains d (hcreated ▸ hd)
  · obtain ⟨k, hk⟩ := Pooled.held_of_gets h hgets
    have hne : d ≠ e := by
      rintro rfl
      exact notHeld (hcreated ▸ hd) k hk
    rw [hkref, hdestroyed, Function.update_of_ne hne]
    exact inv.freshDomains d (hcreated ▸ hd)
  · have hne := notHeld (hcreated ▸ hd) k
    rw [hkref, hdestroyed, State.kref_put, State.destroyed_put, if_neg hne,
      if_neg fun hput => hne hput.1]
    exact inv.freshDomains d (hcreated ▸ hd)
  · have hne : d ≠ s.created := by omega
    rw [hkref, hdestroyed, Function.update_of_ne hne]
    exact inv.freshDomains d (by omega)

theorem keep_destroyedOnce (inv : Pooled s) (h : enabled s a = true) :
    ∀ d < (effect s a).created,
      (effect s a).destroyed d = if (effect s a).kref d = 0 then 1 else 0 := by
  intro d hd
  have keep := inv.destroyedOnce d
  rcases refs_cases h with
    ⟨hcreated, ⟨hkref, hdestroyed⟩ | ⟨e, hgets, hkref, hdestroyed⟩ | ⟨k, -, hkref, hdestroyed⟩⟩ |
      ⟨-, hcreated, hkref, hdestroyed⟩
  · rw [hkref, hdestroyed]
    exact keep (hcreated ▸ hd)
  · have hold := keep (hcreated ▸ hd)
    obtain ⟨k, hk⟩ := Pooled.held_of_gets h hgets
    have hpos := inv.counts.pos hk
    rw [hkref, hdestroyed, hold, Function.update_apply]
    by_cases hde : d = e
    · subst hde
      rw [if_pos rfl, if_neg hpos.ne', if_neg (Nat.succ_ne_zero _)]
    · rw [if_neg hde]
  · have hold := keep (hcreated ▸ hd)
    rw [hkref, hdestroyed, State.kref_put, State.destroyed_put]
    by_cases hk : s.holding k = some d
    · have hpos := inv.counts.pos hk
      rw [if_neg hpos.ne'] at hold
      by_cases hone : s.kref d = 1
      · simp [hk, hone, hold]
      · have hmore : s.kref d - 1 ≠ 0 := by omega
        simp [hk, hone, hold, hmore]
    · rw [if_neg hk, if_neg fun hput => hk hput.1, hold]
  · rw [hkref, hdestroyed, Function.update_apply]
    by_cases hnew : d = s.created
    · rw [if_pos hnew, (inv.freshDomains d (Nat.le_of_eq hnew.symm)).2, if_neg one_ne_zero]
    · rw [if_neg hnew]
      exact keep (by omega)

theorem keep_candidateAlone (inv : Pooled s) (h : enabled s a = true) :
    ∀ t d, ((effect s a).pc t).candidate = some d → (effect s a).kref d = 1 := by
  intro u d hu
  rcases candidate_before inv.idle h hu with hold | ⟨rfl, rfl⟩
  · have hone := inv.candidateAlone u d hold
    rcases refs_cases h with
      ⟨-, ⟨hkref, -⟩ | ⟨e, hgets, hkref, -⟩ | ⟨k, hputs, hkref, -⟩⟩ | ⟨-, -, hkref, -⟩
    · rw [hkref, hone]
    · have hne : d ≠ e := by
        rintro rfl
        rcases held_of_gets h hgets with ⟨i, hi⟩ | ⟨t, rfl, ht⟩
        · cases inv.eq_candidate (h := .slot i) hi hold
        · have hcandidate : s.holding (.candidate t) = some d := by
            simp [State.holding, ht, GetPc.candidate]
          obtain rfl : t = u := Holder.candidate.inj (inv.eq_candidate hcandidate hold)
          simp [effect, State.give, GetPc.candidate] at hu
      rw [hkref, Function.update_of_ne hne, hone]
    · have hne : s.holding k ≠ some d := by
        intro hk
        obtain rfl := inv.eq_candidate hk hold
        cases hputs with
        | candidate => simp [effect, State.give, GetPc.candidate] at hu
      rw [hkref, State.kref_put, if_neg hne, hone]
    · have hlt := inv.lt_created (h := .candidate u) hold
      rw [hkref, Function.update_of_ne hlt.ne, hone]
  · exact Function.update_self _ _ _

theorem keep_unstored (inv : Pooled s) (h : enabled s a = true) :
    ∀ t, (effect s a).pc t ≠ .stored → (effect s a).bo t = none ∧ (effect s a).job t = none := by
  intro u hu
  have hold : s.pc u ≠ .stored := by
    rcases inv.pc_effect h u with hmove | hstay
    · intro hstored
      rw [hstored] at hmove
      generalize (effect s a).pc u = q at hmove
      cases hmove
    · exact hstay ▸ hu
  obtain ⟨hbo, hjob⟩ := inv.unstored u hold
  obtain ⟨hbo', hjob'⟩ := (stored_cases (s := s) (a := a) u).resolve_left hu
  exact ⟨hbo'.elim (fun hsame => hsame.trans hbo) id,
    hjob'.elim (fun hsame => hsame.trans hjob) id⟩

/-- What fills a slot was a candidate and in no slot. -/
theorem Pooled.not_slot_of_install (inv : Pooled s) {t d : Nat}
    (h : enabled s (.install t d) = true) (i : Nat) : s.slot i ≠ some d := by
  intro hi
  have hpc : s.pc t = .recheck d := (of_decide_eq_true h).1
  cases inv.eq_candidate (h := .slot i) (t := t) hi (by rw [hpc]; rfl)

/-- A candidate is in no slot until it is installed in one. -/
theorem keep_slotUnique (inv : Pooled s) (h : enabled s a = true) :
    ∀ i k d, (effect s a).slot i = some d → (effect s a).slot k = some d → i = k := by
  intro i k d hi hk
  rcases slot_cases (s := s) (a := a) i with hsame | ⟨t, e, rfl, hslot, hnew⟩ | ⟨-, hnone⟩
  · rcases slot_cases (s := s) (a := a) k with hsame' | ⟨t, e, rfl, -, hnew⟩ | ⟨-, hnone⟩
    · exact inv.slotUnique i k d (hsame ▸ hi) (hsame' ▸ hk)
    · obtain rfl : e = d := Option.some.inj (hnew.symm.trans hk)
      exact absurd (hsame ▸ hi) (inv.not_slot_of_install h i)
    · simp [hnone] at hk
  · obtain rfl : e = d := Option.some.inj (hnew.symm.trans hi)
    rcases slot_cases (s := s) (a := .install t e) k with
      hsame' | ⟨t', e', heq, hslot', -⟩ | ⟨heq, -⟩
    · exact absurd (hsame' ▸ hk) (inv.not_slot_of_install h k)
    · obtain ⟨rfl, -⟩ := Action.install.inj heq
      rw [hslot, hslot']
    · cases heq
  · simp [hnone] at hi

theorem keep_closingQuiet (inv : Pooled s) (h : enabled s a = true) :
    (effect s a).closing ≠ none → ∀ t, ((effect s a).pc t).running = false := by
  intro hclosing u
  have quiet : s.closing ≠ none → ((effect s a).pc u).running = false := by
    intro hold
    have keep := inv.closingQuiet hold u
    rcases inv.pc_effect h u with hmove | hstay
    · generalize s.pc u = p at hmove keep
      generalize (effect s a).pc u = q at hmove ⊢
      cases hmove with
      | enter opened => exact absurd opened hold
      | _ => cases keep
    · rw [hstay, keep]
  cases a with
  | close =>
      by_cases hu : u < s.calls
      · exact (of_decide_eq_true h).2 u hu
      · change (s.pc u).running = false
        rw [(inv.freshCalls u (Nat.not_lt.mp hu)).1]
        rfl
  | putSlot i => exact quiet (by simp [(of_decide_eq_true h).1])
  | create t ok => exact quiet (by cases ok <;> exact hclosing)
  | _ => exact quiet hclosing

/-- A call that has not been made is where it was. -/
theorem Pooled.idle_effect (inv : Pooled s) (h : enabled s a = true) {u : Nat}
    (hu : (effect s a).calls ≤ u) : s.calls ≤ u ∧ (effect s a).pc u = s.pc u := by
  have hcalls : s.calls ≤ u := by
    cases a with
    | enter kind id => exact Nat.le_of_succ_le hu
    | create t ok => cases ok <;> exact hu
    | _ => exact hu
  refine ⟨hcalls, ?_⟩
  rcases inv.pc_effect h u with hmove | hstay
  · rw [(inv.freshCalls u hcalls).1] at hmove
    generalize (effect s a).pc u = q at hmove
    cases hmove
    exact absurd hu (Nat.not_succ_le_self _)
  · exact hstay

theorem keep_freshCalls (inv : Pooled s) (h : enabled s a = true) :
    ∀ t, (effect s a).calls ≤ t → (effect s a).pc t = .idle ∧ (effect s a).answer t = none := by
  intro u hu
  obtain ⟨hcalls, hstay⟩ := inv.idle_effect h hu
  obtain ⟨hidle, hanswer⟩ := inv.freshCalls u hcalls
  refine ⟨hstay.trans hidle, ?_⟩
  rcases answer_cases (s := s) (a := a) u with hsame | ⟨d, hanswers, -⟩
  · exact hsame.trans hanswer
  · have hgot := pc_of_answers (s := s) hanswers
    rw [hstay, hidle] at hgot
    cases hgot

/-- A call that stands behind the first look is not the next one. -/
theorem Pooled.ne_calls (inv : Pooled s) {u : Nat} (hu : s.pc u ≠ .idle) : u ≠ s.calls := by
  rintro rfl
  exact hu inv.idle

theorem keep_raced (inv : Pooled s) (h : enabled s a = true) :
    ∀ t d w, (effect s a).pc t = .putLoser d w →
      (effect s a).slot ((effect s a).slotOf t) = some w := by
  intro u d w hu
  have hopen : (effect s a).closing = none := by
    by_contra hclosing
    have hquiet := keep_closingQuiet inv h hclosing u
    rw [hu] at hquiet
    cases hquiet
  have keep := inv.raced u d w
  have hne := inv.ne_calls (u := u)
  rcases inv.pc_effect h u with hmove | hstay
  · rw [hu] at hmove
    generalize s.pc u = p at hmove hne
    cases hmove with
    | lost taken =>
        rw [slotOf_effect (hne (by simp))]
        exact slot_stays h hopen taken
  · have hold := hstay.symm.trans hu
    rw [slotOf_effect (hne (by simp [hold]))]
    exact slot_stays h hopen (keep hold)

theorem keep_answered (inv : Pooled s) (h : enabled s a = true) :
    (effect s a).closing = none → ∀ t d, (effect s a).answer t = some d →
      (effect s a).slot ((effect s a).slotOf t) = some d := by
  intro hopen u d hu
  rcases answer_cases (s := s) (a := a) u with hsame | ⟨e, hanswers, he⟩
  · have hanswer := hsame.symm.trans hu
    have hne : u ≠ s.calls := by
      rintro rfl
      simp [(inv.freshCalls _ (Nat.le_refl _)).2] at hanswer
    rw [slotOf_effect hne]
    exact slot_stays h hopen (inv.answered (opened_before hopen) u d hanswer)
  · obtain rfl : e = d := Option.some.inj (he.symm.trans hu)
    cases hanswers with
    | found =>
        obtain ⟨hpc, hslot⟩ := of_decide_eq_true h
        exact slot_stays h hopen hslot
    | install => exact Function.update_self _ _ _
    | putLoser => exact inv.raced u _ e (of_decide_eq_true h)

/-- A new answer is what is in the slot, and so was every answer before. -/
theorem keep_agree (inv : Pooled s) (h : enabled s a = true) :
    ∀ t u d e, (effect s a).answer t = some d → (effect s a).answer u = some e →
      (effect s a).slotOf t = (effect s a).slotOf u → d = e := by
  intro t u d e ht hu hslot
  by_cases hopen : (effect s a).closing = none
  · have ht' := keep_answered inv h hopen t d ht
    have hu' := keep_answered inv h hopen u e hu
    rw [hslot] at ht'
    exact Option.some.inj (ht'.symm.trans hu')
  · have hquiet := keep_closingQuiet inv h hopen
    have old : ∀ {v f}, (effect s a).answer v = some f → s.answer v = some f ∧ v ≠ s.calls := by
      intro v f hv
      rcases answer_cases (s := s) (a := a) v with hsame | ⟨g, hanswers, -⟩
      · have hold := hsame.symm.trans hv
        refine ⟨hold, ?_⟩
        rintro rfl
        simp [(inv.freshCalls _ (Nat.le_refl _)).2] at hold
      · have hrun := hquiet v
        rw [pc_of_answers hanswers] at hrun
        cases hrun
    rw [slotOf_effect (old ht).2, slotOf_effect (old hu).2] at hslot
    exact inv.agree t u d e (old ht).1 (old hu).1 hslot

theorem keep_installed (inv : Pooled s) (h : enabled s a = true) :
    (effect s a).closing = none → ∀ i, (effect s a).installs i =
      if (effect s a).slot i = none then 0 else 1 := by
  intro hopen i
  have keep := inv.installed (opened_before hopen) i
  rcases slot_cases (s := s) (a := a) i with hslot | ⟨t, d, rfl, rfl, hslot⟩ | ⟨rfl, -⟩
  · rcases installs_cases (s := s) (a := a) i with hsame | ⟨t, d, rfl, rfl, hinstalls⟩
    · rw [hsame, hslot, keep]
    · -- the slot that is filled was empty
      have hnew : (effect s (.install t d)).slot (s.slotOf t) = some d :=
        Function.update_self _ _ _
      rw [hslot, (of_decide_eq_true h).2] at hnew
      cases hnew
  · rw [(of_decide_eq_true h).2, if_pos rfl] at keep
    have hinstalls : (effect s (.install t d)).installs (s.slotOf t) =
        s.installs (s.slotOf t) + 1 := Function.update_self _ _ _
    rw [hinstalls, hslot, keep, if_neg (Option.some_ne_none d)]
  · cases hopen

theorem keep_installedOnce (inv : Pooled s) (h : enabled s a = true) (i : Nat) :
    (effect s a).installs i ≤ 1 := by
  rcases installs_cases (s := s) (a := a) i with hsame | ⟨t, d, rfl, rfl, hinstalls⟩
  · exact hsame ▸ inv.installedOnce i
  · obtain ⟨hpc, hslot⟩ := of_decide_eq_true h
    have hopen : s.closing = none := by
      by_contra hclosing
      have hquiet := inv.closingQuiet hclosing t
      rw [hpc] at hquiet
      cases hquiet
    rw [hinstalls, inv.installed hopen, hslot, if_pos rfl]

theorem Pooled.preserve (inv : Pooled s) (h : enabled s a = true) : Pooled (effect s a) where
  counts := keep_counts inv h
  freshDomains := keep_freshDomains inv h
  destroyedOnce := keep_destroyedOnce inv h
  freshCalls := keep_freshCalls inv h
  unstored := keep_unstored inv h
  candidateAlone := keep_candidateAlone inv h
  slotUnique := keep_slotUnique inv h
  closingQuiet := keep_closingQuiet inv h
  answered := keep_answered inv h
  raced := keep_raced inv h
  agree := keep_agree inv h
  installed := keep_installed inv h
  installedOnce := keep_installedOnce inv h

end Preserve

/-- Every reachable state of a pool has its references accounted for. -/
theorem Pooled.reachable {acts : List Action} {s : State} (run : Runs pool State.init acts s) :
    Pooled s := by
  refine invariant Pooled (fun s a t inv hstep => ?_) run Pooled.initial
  obtain ⟨h, rfl⟩ := pool_eq_some.mp hstep
  exact inv.preserve h

/-- A slot that is filled stays as it is until close. -/
theorem slot_stays_of_run {s t : State} {acts : List Action} (run : Runs pool s acts t)
    {i d : Nat} (hi : s.slot i = some d) (hopen : t.closing = none) : t.slot i = some d := by
  refine invariant (fun u => u.closing = none → u.slot i = some d) ?_ run
    (fun _ => hi) hopen
  intro u a v hu hstep hv
  obtain ⟨h, rfl⟩ := pool_eq_some.mp hstep
  exact slot_stays h hv (hu (opened_before hv))

section Counting
variable {s : State} {d : Nat}

/-- The holders of a domain, kind by kind. -/
theorem holders_eq : holders s.holding d = Holder.slot '' {i | s.slot i = some d} ∪
    (Holder.bo '' {t | s.bo t = some d} ∪ (Holder.job '' {t | s.job t = some d} ∪
      (Holder.candidate '' {t | (s.pc t).candidate = some d} ∪
        Holder.result '' {t | (s.pc t).result = some d}))) := by
  ext h
  cases h <;> simp [holders, State.holding]

/-- A `kref` counts the pool slot, the BOs, the jobs and the references in hand. -/
theorem Pooled.kref_eq (inv : Pooled s) (d : Nat) :
    s.kref d = {i | s.slot i = some d}.ncard + {t | s.bo t = some d}.ncard +
      {t | s.job t = some d}.ncard +
        ({t | (s.pc t).candidate = some d}.ncard + {t | (s.pc t).result = some d}.ncard) := by
  have hfin := inv.counts.finite_holders d
  rw [inv.counts.count_eq d]
  rw [holders_eq] at hfin ⊢
  simp only [Set.finite_union] at hfin
  obtain ⟨hslot, hbo, hjob, hcandidate, hresult⟩ := hfin
  rw [Set.ncard_union_eq _ hslot (hbo.union (hjob.union (hcandidate.union hresult))),
    Set.ncard_union_eq _ hbo (hjob.union (hcandidate.union hresult)),
    Set.ncard_union_eq _ hjob (hcandidate.union hresult),
    Set.ncard_union_eq _ hcandidate hresult,
    Set.ncard_image_of_injective _ fun _ _ => Holder.slot.inj,
    Set.ncard_image_of_injective _ fun _ _ => Holder.bo.inj,
    Set.ncard_image_of_injective _ fun _ _ => Holder.job.inj,
    Set.ncard_image_of_injective _ fun _ _ => Holder.candidate.inj,
    Set.ncard_image_of_injective _ fun _ _ => Holder.result.inj]
  · omega
  all_goals
    rw [Set.disjoint_left]
    rintro _ ⟨k, -, rfl⟩
    simp

/-- A domain without a holder has a count of zero, and only such a domain. -/
theorem Pooled.kref_eq_zero (inv : Pooled s) : s.kref d = 0 ↔ ∀ h, s.holding h ≠ some d := by
  constructor
  · exact inv.counts.free
  · intro hnone
    rw [inv.counts.count_eq d, Set.ncard_eq_zero (inv.counts.finite_holders d)]
    exact Set.eq_empty_iff_forall_notMem.mpr hnone

end Counting

/-- The contract of the domain pool of a file. -/
structure PoolSound (s : State) : Prop where
  /-- At most one domain is ever installed in a slot. -/
  installedOnce : ∀ i, s.installs i ≤ 1
  /-- Until close an installed slot never changes. -/
  slotStays : ∀ more t, Runs pool s more t → t.closing = none →
    ∀ i d, s.slot i = some d → t.slot i = some d
  /-- Two gets whose ids have one slot return one domain, whichever ioctl they serve. -/
  agree : ∀ t u d e, s.answer t = some d → s.answer u = some e →
    domainSlot (s.id t) = domainSlot (s.id u) → d = e
  /-- A `kref` is one for the pool slot, plus the BOs, the jobs and the references in hand. -/
  counted : ∀ d, s.kref d = {i | s.slot i = some d}.ncard + {t | s.bo t = some d}.ncard +
    {t | s.job t = some d}.ncard +
      ({t | (s.pc t).candidate = some d}.ncard + {t | (s.pc t).result = some d}.ncard)
  slotOnce : ∀ i k d, s.slot i = some d → s.slot k = some d → i = k
  /-- A created domain is destroyed at most once, and is exactly when nothing refers to it. -/
  destroyed : ∀ d < s.created, s.destroyed d ≤ 1 ∧
    (s.destroyed d = 1 ↔ (∀ i, s.slot i ≠ some d) ∧ (∀ t, s.bo t ≠ some d) ∧
      (∀ t, s.job t ≠ some d) ∧
        ∀ t, (s.pc t).candidate ≠ some d ∧ (s.pc t).result ≠ some d)

/-- In every reachable state of a file's pool, whatever the calls and their interleaving,
the contract holds. -/
theorem pool_sound {acts : List Action} {s : State} (run : Runs pool State.init acts s) :
    PoolSound s := by
  have inv := Pooled.reachable run
  refine ⟨inv.installedOnce, fun more t hmore hopen i d hi => slot_stays_of_run hmore hi hopen,
    inv.agree, inv.kref_eq, inv.slotUnique, fun d hd => ?_⟩
  have honce := inv.destroyedOnce d hd
  have hzero := inv.kref_eq_zero (d := d)
  refine ⟨by rw [honce]; split <;> omega, ?_⟩
  rw [show s.destroyed d = 1 ↔ s.kref d = 0 by rw [honce]; split <;> simp_all, hzero]
  constructor
  · intro hnone
    exact ⟨fun i => hnone (.slot i), fun t => hnone (.bo t), fun t => hnone (.job t),
      fun t => ⟨hnone (.candidate t), hnone (.result t)⟩⟩
  · rintro ⟨hslot, hbo, hjob, hcall⟩ h
    cases h with
    | slot i => exact hslot i
    | bo t => exact hbo t
    | job t => exact hjob t
    | candidate t => exact (hcall t).1
    | result t => exact (hcall t).2

/-- A create and a submit race for one id; the loser's domain is destroyed, and both are
given the winner's. -/
def raceSteps : List Action :=
  [.enter .memCreate 3#32, .enter .submit 3#32, .missing 0, .missing 1, .create 0 true,
    .create 1 true, .install 1 1, .lost 0 0 1, .putLoser 0 0 1, .store 0 1, .store 1 1]

theorem raceSteps_accepted :
    ((exec pool State.init raceSteps).map fun s =>
      decide (s.destroyed 0 = 1 ∧ s.kref 1 = 3 ∧ s.bo 0 = s.job 1)) = some true := by
  decide

theorem pool_sound_on_raceSteps : ∃ s, Runs pool State.init raceSteps s ∧ PoolSound s := by
  obtain ⟨s, run, -⟩ := runs_of_test raceSteps_accepted
  exact ⟨s, run, pool_sound run⟩

end Rkopnu.Pool
