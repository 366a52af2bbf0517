import Rkopnu.Foundation.Holding
import Rkopnu.Driver.PowerBalance

/-!
# Domains and the cores they are attached to

A domain is referenced by the pool slots of its file, by the jobs that run in it
and by the BOs mapped in it. `attached_domain` is not a reference: it stays sound
because a closing file searches every core for its domains before it drops its
pool slots, and because a core only ever attaches the domain of a job whose file
has not come that far.
-/

namespace Rkopnu.Driver

open Function (update)
open Transition Holding

/-- Whoever holds a counted reference on a domain. -/
inductive Holder
  /-- `rocket_priv->domains[i]` of file `f`. -/
  | slot (f i : Nat)
  | job (j : Nat)
  | bo (b : Nat)
  deriving DecidableEq

/-- `rocket_postclose` has not begun to put the pool slots. -/
def FilePc.pooled : FilePc → Bool
  | .opened | .destroying _ | .scanning _ => true
  | _ => false

/-- `rocket_job_close` has still to search core `c`. -/
def FilePc.unscanned : FilePc → Nat → Bool
  | .opened, _ | .destroying _, _ => true
  | .scanning k, c => decide (k ≤ c)
  | _, _ => false

/-- `rkopnu_ioctl_submit` has not got the job's domain yet. -/
def CallPc.beforeDomain : CallPc → Bool
  | .idle | .vmap | .alloc | .jobInit | .domain => true
  | _ => false

theorem FilePc.searchable_of_entity {pc : FilePc} {c : Nat} (h : pc.entityGone c = false) :
    pc.pooled = true ∧ pc.unscanned c = true := by
  cases pc <;> simp_all [FilePc.entityGone, FilePc.pooled, FilePc.unscanned]

namespace State
variable (s : State)

/-- What each holder refers to. -/
def holding : Holder → Option Nat
  | .slot f i => s.slot f i
  | .job j => if 0 < s.refcount j then s.domain j else none
  | .bo b => s.boDomain b

@[simp] theorem holding_slot (f i : Nat) : s.holding (.slot f i) = s.slot f i := rfl

@[simp] theorem holding_job (j : Nat) :
    s.holding (.job j) = if 0 < s.refcount j then s.domain j else none := rfl

@[simp] theorem holding_bo (b : Nat) : s.holding (.bo b) = s.boDomain b := rfl

/-- Every `kref` counts its holders, and a domain lives while it is held. -/
structure Pool : Prop where
  counts : Counts s.holding s.kref
  live : ∀ d, s.live d = true ↔ 0 < s.kref d

/-- A job has no domain before the ioctl gets it one. -/
def NoDomainYet : Prop := ∀ j, (s.call j).beforeDomain = true → s.domain j = none

/-- A pushed job has a domain. -/
def JobDomain : Prop := ∀ j, s.place j ≠ .outside ∨ s.call j = .push → s.domain j ≠ none

/-- Files are opened in order. -/
def FreshFiles : Prop := ∀ f, s.files ≤ f → s.file f = .unopened

/-- BOs are created in order. -/
def FreshBos : Prop := ∀ b, s.bos ≤ b → s.boDomain b = none

/-- A submit call is made on a file that was opened. -/
def CallFile : Prop := ∀ j, s.call j ≠ .idle → s.file (s.caller j) ≠ .unopened

/-- A running job's entity is not destroyed. -/
def RunFile : Prop := ∀ c j, (s.run c).job = some j →
  (s.file (s.caller j)).entityGone c = false

/-- The pool slot a job got its domain from still holds it. -/
def JobSlot : Prop := ∀ j d, s.domain j = some d → (s.file (s.caller j)).pooled = true →
  s.slot (s.caller j) (domainSlot (s.args j).iommuDomainId) = some d

/-- `attached_domain` is what the core's IOMMU group is attached to. -/
def AttachedGroup : Prop := ∀ c, s.attached c = s.group c

/-- Only bound cores are attached. -/
def AttachedCore : Prop := ∀ c, s.cores ≤ c → s.attached c = none

/-- An attached domain is in the pool of a file that has still to search the core. -/
def AttachedSlot : Prop := ∀ c d, s.attached c = some d →
  ∃ f i, i < maxIommuDomains ∧ s.slot f i = some d ∧ (s.file f).unscanned c = true

/-- The registers are written in the job's own domain. -/
def WritingAttached : Prop := ∀ c j p rest, s.run c = .writing j p rest →
  s.attached c = s.domain j

end State

theorem domainSlot_lt (id : U32) : domainSlot id < maxIommuDomains := by
  unfold domainSlot maxIommuDomains
  split <;> omega

section Pool
variable {s t : State}

theorem pool_of_same (pool : s.Pool) (hkref : t.kref = s.kref) (hlive : t.live = s.live)
    (hhold : t.holding = s.holding) : t.Pool := by
  refine ⟨?_, ?_⟩
  · rw [hkref, hhold]
    exact pool.counts
  · rw [hkref, hlive]
    exact pool.live

/-- Domains live while they are held, one of them having its count changed. -/
theorem live_update {live alive : Nat → Bool} {kref : Nat → Nat} {d n : Nat}
    (keep : ∀ b, live b = true ↔ 0 < kref b) (hd : alive d = true ↔ 0 < n)
    (hother : ∀ b ≠ d, alive b = live b) (b : Nat) :
    alive b = true ↔ 0 < update kref d n b := by
  by_cases hb : b = d
  · rw [hb, Function.update_self, hd]
  · rw [Function.update_of_ne hb, hother b hb, keep b]

/-- The held reference of one holder is put. -/
theorem pool_domainPut (pool : s.Pool) {h : Holder} {d : Option Nat} (hd : s.holding h = d)
    (hkref : t.kref = (s.domainPut d).kref) (hlive : t.live = (s.domainPut d).live)
    (hhold : t.holding = update s.holding h none) : t.Pool := by
  cases d with
  | none =>
      have hsame : t.holding = s.holding := by rw [hhold, ← hd, Function.update_eq_self]
      refine ⟨?_, ?_⟩
      · rw [hsame, hkref]
        exact pool.counts
      · rw [hkref, hlive]
        exact pool.live
  | some d =>
      refine ⟨?_, ?_⟩
      · rw [hhold, hkref]
        exact pool.counts.drop hd
      · rw [hkref, hlive]
        simp only [State.domainPut]
        by_cases hlast : s.kref d = 1
        · rw [if_pos hlast]
          exact live_update pool.live (by simp [hlast]) fun b hb => Function.update_of_ne hb _ _
        · have hpos := pool.counts.pos hd
          rw [if_neg hlast]
          refine live_update pool.live ?_ fun _ _ => rfl
          rw [pool.live d]
          omega

/-- A holder without a domain gets the one in a pool slot. -/
theorem pool_domainGet (pool : s.Pool) {h : Holder} {f i d : Nat}
    (hans : s.domainAnswer f i d = true) (hfree : s.holding h = none) (hne : h ≠ .slot f i)
    (hkref : t.kref = (s.domainGet f i d).kref) (hlive : t.live = (s.domainGet f i d).live)
    (hhold : t.holding = update (update s.holding (.slot f i) (some d)) h (some d)) :
    t.Pool := by
  simp only [State.domainAnswer, Bool.or_eq_true, Bool.and_eq_true, decide_eq_true_eq] at hans
  by_cases hslot : s.slot f i = none
  · have hdead : s.kref d = 0 := by
      have hl : s.live d = false := by simpa [hslot] using hans
      have := pool.live d
      rw [hl] at this
      simpa using this
    have hfirst := pool.counts.take (show s.holding (.slot f i) = none from hslot) d
    have hfree' : update s.holding (.slot f i) (some d) h = none := by simpa [hne] using hfree
    have hsecond := hfirst.take hfree' d
    refine ⟨?_, ?_⟩
    · rw [hhold, hkref]
      simpa [State.domainGet, hslot, hdead] using hsecond
    · rw [hkref, hlive]
      simp only [State.domainGet, hslot, if_true]
      exact live_update pool.live (by simp) fun b hb => Function.update_of_ne hb _ _
  · have hsome : s.slot f i = some d := by simpa [hslot] using hans
    have hsame : update s.holding (.slot f i) (some d) = s.holding := by
      rw [← hsome]
      exact Function.update_eq_self _ _
    have htake := pool.counts.take hfree d
    have hpos := pool.counts.pos (show s.holding (.slot f i) = some d from hsome)
    refine ⟨?_, ?_⟩
    · rw [hhold, hkref, hsame]
      simpa [State.domainGet, hslot] using htake
    · rw [hkref, hlive]
      simp only [State.domainGet, hslot, if_false]
      exact live_update pool.live (by simp [(pool.live d).mpr hpos]) fun _ _ => rfl

/-- `rocket_job_put`, with or without the clean-up. -/
theorem pool_jobPut (pool : s.Pool) {j : Nat} (hkref : t.kref = (s.jobPut j).kref)
    (hlive : t.live = (s.jobPut j).live) (href : t.refcount = (s.jobPut j).refcount)
    (hdom : t.domain = s.domain) (hslot : t.slot = s.slot) (hbo : t.boDomain = s.boDomain) :
    t.Pool := by
  by_cases hlast : s.refcount j = 1
  · have hheld : s.holding (.job j) = s.domain j := by simp [hlast]
    refine pool_domainPut pool hheld ?_ ?_ ?_
    · rw [hkref]
      simp [State.jobPut, hlast]
    · rw [hlive]
      simp [State.jobPut, hlast]
    · funext h
      cases h with
      | job i =>
          by_cases hi : i = j
          · simp [href, State.jobPut, hi, hlast]
          · simp [href, hdom, State.jobPut, hi]
      | slot f i => simp [hslot]
      | bo b => simp [hbo]
  · have hhold : t.holding = s.holding := by
      funext h
      cases h with
      | job i =>
          by_cases hi : i = j
          · have hheld : 0 < s.refcount j - 1 ↔ 0 < s.refcount j := by omega
            simp [href, hdom, State.jobPut, hi, hheld]
          · simp [href, hdom, State.jobPut, hi]
      | slot f i => simp [hslot]
      | bo b => simp [hbo]
    refine ⟨?_, ?_⟩
    · rw [hhold, hkref]
      simpa [State.jobPut, hlast, State.domainPut] using pool.counts
    · rw [hkref, hlive]
      simpa [State.jobPut, hlast, State.domainPut] using pool.live

end Pool

/-- All that is known about domains. -/
structure Domained (s : State) : Prop extends Powered s where
  pool : s.Pool
  noDomainYet : s.NoDomainYet
  jobDomain : s.JobDomain
  freshFiles : s.FreshFiles
  freshBos : s.FreshBos
  callFile : s.CallFile
  runFile : s.RunFile
  jobSlot : s.JobSlot
  attachedGroup : s.AttachedGroup
  attachedCore : s.AttachedCore
  attachedSlot : s.AttachedSlot
  writingAttached : s.WritingAttached

theorem Domained.initial (n : Nat) : Domained (State.init n) where
  toPowered := Powered.initial n
  pool := by
    have hnone : (State.init n).holding = fun _ => none := by
      funext h
      cases h <;> simp [State.init]
    refine ⟨?_, fun d => by simp [State.init]⟩
    rw [hnone]
    exact counts_empty
  noDomainYet := fun _ _ => rfl
  jobDomain := fun j h => by simp [State.init] at h
  freshFiles := fun _ _ => rfl
  freshBos := fun _ _ => rfl
  callFile := fun j h => absurd rfl h
  runFile := fun c j h => by simp [State.init, RunPc.job] at h
  jobSlot := fun j d h => by simp [State.init] at h
  attachedGroup := fun _ => rfl
  attachedCore := fun _ _ => rfl
  attachedSlot := fun c d h => by simp [State.init] at h
  writingAttached := fun c j p rest h => by simp [State.init] at h

section Preserve
variable {s : State} {a : Action}

theorem Domained.file_effect (inv : Domained s) (h : enabled s a = true) (f : Nat) :
    FilePc.Moves s a f (s.file f) ((effect s a).file f) ∨
      a.fileOf s ≠ some f ∧ (effect s a).file f = s.file f :=
  Driver.file_effect (inv.freshFiles s.files (Nat.le_refl _)) h f

theorem keep_noDomainYet (inv : Domained s) (h : enabled s a = true) :
    (effect s a).NoDomainYet := by
  intro j hj
  have keep := inv.noDomainYet j
  have hnone : s.domain j = none := by
    rcases inv.call_effect h j with hmove | ⟨-, hstay⟩
    · generalize s.call j = p at hmove keep
      generalize (effect s a).call j = q at hmove hj
      cases hmove <;> first | exact keep rfl | cases hj
    · exact keep (hstay ▸ hj)
  rcases domain_effect (s := s) (a := a) j with hsame | ⟨d, rfl, -⟩
  · rw [hsame, hnone]
  · simp [effect, CallPc.beforeDomain] at hj

theorem domain_stays {j : Nat} (hj : s.domain j ≠ none) : (effect s a).domain j ≠ none := by
  rcases domain_effect (s := s) (a := a) j with hsame | ⟨d, -, hd⟩
  · rwa [hsame]
  · simp [hd]

theorem keep_jobDomain (inv : Threaded s) (keep : s.JobDomain) (h : enabled s a = true) :
    (effect s a).JobDomain := by
  intro j hj
  have keep := keep j
  rcases hj with hplace | hpush
  · refine domain_stays (keep ?_)
    rcases inv.place_effect h j with hmove | ⟨-, hstay⟩
    · generalize s.place j = p at hmove ⊢
      generalize (effect s a).place j = q at hmove
      cases hmove with
      | push => exact Or.inr (of_decide_eq_true h)
      | _ => exact Or.inl (by simp)
    · exact Or.inl (hstay ▸ hplace)
  · rcases inv.call_effect h j with hmove | ⟨-, hstay⟩
    · rw [hpush] at hmove
      generalize s.call j = p at hmove
      cases hmove
      simp [effect]
    · exact domain_stays (keep (Or.inr (hstay ▸ hpush)))

theorem keep_freshFiles (inv : Domained s) (h : enabled s a = true) :
    (effect s a).FreshFiles := by
  intro f hf
  have hfiles : s.files ≤ (effect s a).files := by
    cases a <;> first | exact Nat.le_refl _ | exact Nat.le_succ _
  have hnew := inv.freshFiles f (Nat.le_trans hfiles hf)
  rcases inv.file_effect h f with hmove | ⟨-, hstay⟩
  · rw [hnew] at hmove
    generalize (effect s a).file f = q at hmove
    cases hmove
    exact absurd hf (Nat.not_succ_le_self _)
  · rw [hstay, hnew]

theorem keep_freshBos (inv : Domained s) (_h : enabled s a = true) :
    (effect s a).FreshBos := by
  have keep := inv.freshBos
  cases a with
  | memCreate f id d =>
      intro k (hk : s.bos + 1 ≤ k)
      exact (Function.update_of_ne (by omega) _ _).trans (keep k (by omega))
  | boFree b =>
      intro k (hk : s.bos ≤ k)
      by_cases hb : k = b
      · exact hb ▸ Function.update_self _ _ _
      · exact (Function.update_of_ne hb _ _).trans (keep k hk)
  | _ => exact keep

theorem opened_stays (inv : Domained s) (h : enabled s a = true) {f : Nat}
    (hf : s.file f ≠ .unopened) : (effect s a).file f ≠ .unopened := by
  rcases inv.file_effect h f with hmove | ⟨-, hstay⟩
  · generalize s.file f = p at hmove
    generalize (effect s a).file f = q at hmove ⊢
    cases hmove <;> simp
  · rwa [hstay]

theorem keep_callFile (inv : Domained s) (h : enabled s a = true) :
    (effect s a).CallFile := by
  intro j hj
  by_cases hidle : s.call j = .idle
  · rcases inv.call_effect h j with hmove | ⟨-, hstay⟩
    · rw [hidle] at hmove
      generalize (effect s a).call j = q at hmove
      cases hmove with
      | @enter f | @refuse f =>
          have hfile : s.file f = .opened := of_decide_eq_true h
          simp [effect, hfile]
    · exact absurd (hstay.trans hidle) hj
  · rw [(inv.record_of_called hidle).1]
    exact opened_stays inv h (inv.callFile j hidle)

/-- A call that has a domain is not a new one. -/
theorem Domained.call_of_domain (inv : Domained s) {j : Nat} (hj : s.domain j ≠ none) :
    s.call j ≠ .idle := by
  intro hidle
  exact hj (inv.noDomainYet j (by rw [hidle]; rfl))

theorem keep_runFile (inv : Domained s) (h : enabled s a = true) :
    (effect s a).RunFile := by
  intro c j hj
  -- the job has been pushed, and its entity is there before the step
  obtain ⟨hgone, hplace⟩ : (s.file (s.caller j)).entityGone c = false ∧
      s.place j ≠ .outside := by
    have keep := inv.runFile c
    have hrun := inv.running c
    rcases run_effect h c with hmove | ⟨-, hstay⟩
    · generalize s.run c = p at hmove keep hrun
      generalize (effect s a).run c = q at hmove hj
      cases hmove with
      | pop =>
          obtain rfl := Option.some.inj hj
          obtain ⟨-, -, -, -, hqueued, -, hgone⟩ := of_decide_eq_true h
          exact ⟨hgone, by simp [hqueued]⟩
      | complete | arm => cases hj
      | _ => exact ⟨keep _ hj, Place.ne_outside_of_started (hrun _ hj).2.1⟩
    · rw [hstay] at hj
      exact ⟨keep _ hj, Place.ne_outside_of_started (hrun _ hj).2.1⟩
  have hcall : s.call j ≠ .idle := fun hidle =>
    hplace (inv.outside j (by rw [hidle]; rfl))
  rw [(inv.record_of_called hcall).1]
  generalize hf : s.caller j = f at hgone ⊢
  rcases inv.file_effect h f with hmove | ⟨-, hstay⟩
  · generalize s.file f = p at hmove hgone
    generalize (effect s a).file f = q at hmove ⊢
    cases hmove with
    | close => simp [FilePc.entityGone]
    | @destroyEntity f k =>
        -- the entity destroyed here has no job running
        obtain ⟨-, hnone⟩ := Bool.and_eq_true_iff.mp h
        have hck : c ≠ k := by
          rintro rfl
          exact of_decide_eq_true (Option.all_eq_true _ _ |>.mp hnone j hj) hf
        simp only [FilePc.entityGone, decide_eq_false_iff_not] at hgone ⊢
        omega
    | @destroyed f k =>
        have hrun : (s.run c).job = some j := hj
        have hc : c < s.cores := by
          refine Finset.mem_range.mp (mem_cores_of_running inv.onCores fun hidle => ?_)
          rw [hidle] at hrun
          cases hrun
        -- every core a job is pinned to has an entity of its own
        have hpinned : c ≤ 2 := by
          obtain ⟨hcore, hstarted, -⟩ := inv.running c j hrun
          rw [← hcore, inv.filled_of_started hstarted]
          exact submitCore_le s.cores (s.args j)
        have hlast := (of_decide_eq_true h).2
        simp only [FilePc.entityGone, decide_eq_false_iff_not] at hgone
        omega
    | _ => cases hgone
  · rw [hstay, hgone]

theorem keep_jobSlot (inv : Domained s) (h : enabled s a = true) : (effect s a).JobSlot := by
  intro j d hd hf
  rcases domain_effect (s := s) (a := a) j with hsame | ⟨e, rfl, he⟩
  · rw [hsame] at hd
    have hcall := inv.call_of_domain (j := j) (by simp [hd])
    obtain ⟨hcaller, hargs⟩ := inv.record_of_called (a := a) hcall
    rw [hcaller] at hf
    rw [hcaller, hargs]
    have hopened := inv.callFile j hcall
    have hslot := inv.jobSlot j d hd
    generalize s.caller j = f at hf hopened hslot ⊢
    have hpooled : (s.file f).pooled = true := by
      rcases inv.file_effect h f with hmove | ⟨-, hstay⟩
      · generalize s.file f = p at hmove hopened ⊢
        generalize (effect s a).file f = q at hmove hf
        cases hmove <;> first | rfl | exact absurd rfl hopened | cases hf
      · rwa [← hstay]
    refine slot_stays h (hslot hpooled) ?_
    rintro rfl
    simp [effect, FilePc.pooled] at hf
  · obtain rfl : d = e := Option.some.inj (hd.symm.trans he)
    simp [effect, State.domainGet]

/-- The IOMMU is told of every change of `attached_domain`. -/
theorem attached_update (keep : s.AttachedGroup) (c k : Nat) (d : Option Nat) :
    update s.attached c d k = (if s.attached c = d then s.group else update s.group c d) k := by
  by_cases hk : k = c
  · subst hk
    split
    · rename_i hsame
      rw [Function.update_self, ← hsame, keep k]
    · rw [Function.update_self, Function.update_self]
  · rw [Function.update_of_ne hk, keep k]
    split
    · rfl
    · rw [Function.update_of_ne hk]

theorem keep_attachedGroup (keep : s.AttachedGroup) : (effect s a).AttachedGroup := by
  cases a with
  | runAttachFail c j | runSkip c j | runProgram c j | tdrSection c j =>
      exact fun k => attached_update keep c k _
  | scan f c =>
      intro k
      by_cases hhit : s.scanHit f c = true
      · by_cases hk : k = c
        · simp [effect, hhit, hk]
        · simpa [effect, hhit, hk] using keep k
      · simpa [effect, hhit] using keep k
  | _ => exact keep

theorem keep_attachedCore (inv : Domained s) (h : enabled s a = true) :
    (effect s a).AttachedCore := by
  intro c hc
  rw [cores_effect] at hc
  rcases attached_effect (s := s) (a := a) c with hsame | ⟨hnone, -⟩ | ⟨j, hpub, -⟩
  · rw [hsame, inv.attachedCore c hc]
  · exact hnone
  · have hidle := inv.onCores c hc
    simp [lock_of_publishes h hpub] at hidle

theorem keep_writingAttached (inv : Domained s) (h : enabled s a = true) :
    (effect s a).WritingAttached := by
  intro c j p rest hj
  have keep := inv.writingAttached c j p
  rcases run_effect h c with hmove | ⟨hother, hstay⟩
  · generalize s.run c = pc at hmove keep
    generalize (effect s a).run c = q at hmove hj
    cases hmove with
    | program =>
        injection hj with hj
        subst hj
        exact Function.update_self _ _ _
    | write =>
        injection hj with hj hp hrest
        subst hj hp hrest
        exact keep _ rfl
    | _ => cases hj
  · rw [hstay] at hj
    have hlocked : s.jobLockFree c ≠ true := by simp [State.jobLockFree, hj, RunPc.locked]
    have hattached : (effect s a).attached c = s.attached c := by
      rcases attached_effect (s := s) (a := a) c with
        hsame | ⟨-, ⟨k, e, rfl⟩ | ⟨k, rfl⟩ | ⟨f, rfl⟩⟩ | ⟨k, hpub, -⟩
      · exact hsame
      · exact absurd rfl hother
      · exact absurd (of_decide_eq_true h).2.1 hlocked
      · exact absurd (of_decide_eq_true h).2.2 hlocked
      · exact absurd (by cases hpub <;> rfl) hother
    have hdomain : (effect s a).domain j = s.domain j := by
      refine (domain_effect j).resolve_right ?_
      rintro ⟨d, rfl, -⟩
      have hcall : s.call j = .domain := of_decide_eq_true (Bool.and_eq_true_iff.mp h).1
      have hstarted := (inv.running c j (by rw [hj]; rfl)).2.1
      simp [inv.outside j (by rw [hcall]; rfl), Place.started] at hstarted
    rw [hattached, hdomain, keep rest hj]

theorem keep_attachedSlot (inv : Domained s) (h : enabled s a = true) :
    (effect s a).AttachedSlot := by
  intro c d hd
  rcases attached_effect (s := s) (a := a) c with hsame | ⟨hnone, -⟩ | ⟨j, hpub, hdom⟩
  · have hold : s.attached c = some d := hsame ▸ hd
    obtain ⟨f, i, hi, hslot, hscan⟩ := inv.attachedSlot c d hold
    have hput : a ≠ .putSlot f i := by
      rintro rfl
      simp [(of_decide_eq_true h).1, FilePc.unscanned] at hscan
    refine ⟨f, i, hi, slot_stays h hslot hput, ?_⟩
    rcases inv.file_effect h f with hmove | ⟨-, hstay⟩
    · generalize s.file f = p at hmove hscan
      generalize (effect s a).file f = q at hmove ⊢
      cases hmove with
      | close | destroyEntity => rfl
      | destroyed => simp [FilePc.unscanned]
      | @scan f k =>
          simp only [FilePc.unscanned, decide_eq_true_eq] at hscan ⊢
          refine Nat.lt_of_le_of_ne hscan ?_
          rintro rfl
          -- the scan of this core would have found the domain
          have hhit : s.scanHit f k = true :=
            List.any_eq_true.mpr ⟨i, List.mem_range.mpr hi, by simp [hslot, hold]⟩
          simp [effect, hhit] at hd
      | @scanned f k =>
          have hlast := (of_decide_eq_true h).2
          simp only [FilePc.unscanned, decide_eq_true_eq] at hscan
          simp [inv.attachedCore c (by omega)] at hold
      | _ => cases hscan
    · rw [hstay, hscan]
  · simp [hnone] at hd
  · -- the job's file is not scanned yet, and its pool slot holds the job's domain
    have hgone := inv.runFile c j (by rw [lock_of_publishes h hpub]; rfl)
    obtain ⟨hpooled, hunscanned⟩ := FilePc.searchable_of_entity hgone
    have hslot := inv.jobSlot j d (hdom.symm.trans hd) hpooled
    exact ⟨s.caller j, domainSlot (s.args j).iommuDomainId, domainSlot_lt _,
      by cases hpub <;> exact hslot, by cases hpub <;> exact hunscanned⟩

theorem keep_pool (inv : Domained s) (h : enabled s a = true) : (effect s a).Pool := by
  have pool := inv.pool
  cases a with
  | memCreate f id d =>
      simp only [enabled, Bool.and_eq_true, decide_eq_true_eq] at h
      have hfree : s.holding (.bo s.bos) = none := inv.freshBos s.bos (Nat.le_refl _)
      refine pool_domainGet pool h.2 hfree (by simp) rfl rfl ?_
      funext k
      cases k <;>
        simp [effect, State.domainGet, update_slot_apply, Function.update_apply]
  | boFree b =>
      refine pool_domainPut pool (State.holding_bo s b) rfl rfl ?_
      funext k
      cases k <;> simp [effect, State.domainPut, Function.update_apply]
  | putSlot f i =>
      refine pool_domainPut pool (State.holding_slot s f i) rfl rfl ?_
      funext k
      cases k <;>
        simp [effect, State.domainPut, update_slot_apply, Function.update_apply]
  | alloc j ok =>
      have hcall : s.call j = .alloc := of_decide_eq_true h
      have hdom := inv.noDomainYet j (by rw [hcall]; rfl)
      refine pool_of_same pool rfl rfl ?_
      funext k
      cases k with
      | job i =>
          by_cases hi : i = j
          · simp [effect, hi, hdom]
          · simp [effect, hi]
      | slot | bo => rfl
  | push j e =>
      have hcall : s.call j = .push := of_decide_eq_true h
      have hpos : 0 < s.refcount j := by
        rw [inv.counted j, hcall]
        exact Nat.add_pos_left Nat.one_pos _
      refine pool_of_same pool rfl rfl ?_
      funext k
      cases k with
      | job i =>
          by_cases hi : i = j
          · cases e <;> simp [effect, hi, hpos]
          · cases e <;> simp [effect, hi]
      | slot | bo => rfl
  | domainGet j d =>
      obtain ⟨hcall, hanswer⟩ := Bool.and_eq_true_iff.mp h
      have hcall : s.call j = .domain := of_decide_eq_true hcall
      have hdom := inv.noDomainYet j (by rw [hcall]; rfl)
      have hpos : 0 < s.refcount j := by
        rw [inv.counted j, hcall]
        exact Nat.add_pos_left Nat.one_pos _
      have hfree : s.holding (.job j) = none := by simp [hdom]
      refine pool_domainGet pool hanswer hfree (by simp) rfl rfl ?_
      funext k
      cases k with
      | job i =>
          by_cases hi : i = j
          · simp [effect, State.domainGet, hi, hpos]
          · simp [effect, State.domainGet, hi]
      | slot g k =>
          simp [effect, State.domainGet, update_slot_apply, Function.update_apply]
      | bo b => simp [effect, State.domainGet]
  | putJob j r => exact pool_jobPut pool rfl rfl rfl rfl rfl rfl
  | freeJob c j | tdrReap c b j | tdrFreeGuilty c j | killJob j =>
      exact pool_jobPut pool rfl rfl rfl rfl rfl rfl
  | _ => exact pool_of_same pool rfl rfl rfl

theorem Domained.preserve (inv : Domained s) (h : enabled s a = true) :
    Domained (effect s a) where
  toPowered := inv.toPowered.preserve h
  pool := keep_pool inv h
  noDomainYet := keep_noDomainYet inv h
  jobDomain := keep_jobDomain inv.toThreaded inv.jobDomain h
  freshFiles := keep_freshFiles inv h
  freshBos := keep_freshBos inv h
  callFile := keep_callFile inv h
  runFile := keep_runFile inv h
  jobSlot := keep_jobSlot inv h
  attachedGroup := keep_attachedGroup inv.attachedGroup
  attachedCore := keep_attachedCore inv h
  attachedSlot := keep_attachedSlot inv h
  writingAttached := keep_writingAttached inv h

end Preserve

/-- Every reachable state has its domains accounted for. -/
theorem Domained.reachable {n : Nat} {acts : List Action} {s : State}
    (run : Runs driver (State.init n) acts s) : Domained s :=
  run_invariant Domained (Domained.initial n) (fun _ _ inv h => inv.preserve h) run

/-- The core and the job of a register write of `rocket_job_hw_submit`. -/
def Action.programmed : Action → Option (Nat × Nat)
  | .runWrite c j _ _ _ | .irqWrite c j _ _ _ => some (c, j)
  | _ => none

section Soundness
variable {s : State}

/-- An attached domain is alive: its file's pool still holds it. -/
theorem Domained.live_of_attached (inv : Domained s) {c d : Nat} (h : s.attached c = some d) :
    s.live d = true := by
  obtain ⟨f, i, -, hslot, -⟩ := inv.attachedSlot c d h
  have hheld : s.holding (.slot f i) = some d := hslot
  exact (inv.pool.live d).mpr (inv.pool.counts.pos hheld)

theorem Domained.attached_of_programmed (inv : Domained s) {a : Action} {c j : Nat}
    (h : enabled s a = true) (ha : a.programmed = some (c, j)) :
    s.attached c = s.domain j ∧ s.domain j ≠ none := by
  cases a with
  | runWrite b i p w rest =>
      obtain ⟨rfl, rfl⟩ := Prod.mk.inj (Option.some.inj ha)
      simp only [enabled, decide_eq_true_eq] at h
      have hstarted := (inv.running b i (by simp [h, RunPc.job])).2.1
      refine ⟨inv.writingAttached b i p _ h, inv.jobDomain i (Or.inl ?_)⟩
      intro hout
      simp [hout, Place.started] at hstarted
  | irqWrite b i p w rest => simp [inv.irqWrite_disabled] at h
  | _ => simp [Action.programmed] at ha

end Soundness

/-- In every reachable state of at most three bound cores, and for every core whose
`job_lock` is free, `attached_domain` is what the core's IOMMU group is attached
to, and a domain it points to has not been freed; and the registers of a job are
only written while the core is attached to the job's own domain. -/
theorem attached_domain_sound {n : Nat} (_hn : n ≤ 3) {acts : List Action} {s : State}
    (run : Runs driver (State.init n) acts s) :
    (∀ c, s.jobLockFree c = true → (∀ d, s.attached c = some d ↔ s.group c = some d) ∧
      ∀ d, s.attached c = some d → s.live d = true) ∧
      ∀ a c j, enabled s a = true → a.programmed = some (c, j) →
        ∃ d, s.domain j = some d ∧ s.attached c = some d := by
  have inv := Domained.reachable run
  refine ⟨fun c _ => ⟨fun d => by rw [inv.attachedGroup c], fun d hd => inv.live_of_attached hd⟩,
    fun a c j h ha => ?_⟩
  obtain ⟨hattached, hdom⟩ := inv.attached_of_programmed h ha
  obtain ⟨d, hd⟩ := Option.ne_none_iff_exists'.mp hdom
  exact ⟨d, hd, hattached.trans hd⟩

theorem attached_domain_sound_started : ∃ s, Runs driver (State.init 1) startOne s ∧
    (∀ c, s.jobLockFree c = true → (∀ d, s.attached c = some d ↔ s.group c = some d) ∧
      ∀ d, s.attached c = some d → s.live d = true) ∧
      ∀ a c j, enabled s a = true → a.programmed = some (c, j) →
        ∃ d, s.domain j = some d ∧ s.attached c = some d := by
  obtain ⟨s, run, -⟩ := runs_of_test startOne_accepted
  exact ⟨s, run, attached_domain_sound (by decide) run⟩

end Rkopnu.Driver
