import Rkopnu.Gem
import Rkopnu.Foundation.Progress

/-!
# The life of a BO

A BO lives as long as a file has a handle to it, an ioctl that has taken a reference runs, or
the DRM core keeps it for a mapping, an export or a lookup. A call gives back what it has taken,
so that with the last file closed the DRM core alone can let every BO go.
-/

namespace Rkopnu.Gem

open Function (update)
open Transition Holding

/-- The DRM core drops a handle of a closed file, or a reference of its own. -/
def Action.letsGo : Action → Prop
  | .release _ _ | .corePut _ => True
  | _ => False

/-- Calls run on open files, and handles are those of files. -/
structure Accounted (s : State) : Prop where
  counted : s.Counted
  known : ∀ f, s.opened f = true → f < s.files
  running : ∀ j, (s.call j).running = true → s.opened (s.caller j) = true
  handles : ∀ f i v, s.hold (.handle f i) = some v → f < s.files

section Preserve
variable {s : State} {a : Action}

theorem Accounted.initial : Accounted State.init where
  counted := counted_init
  known := fun f h => by simp [State.init] at h
  running := fun j h => by simp [State.init, CallPc.running] at h
  handles := fun f i v h => by simp [State.init] at h

theorem deleteHandle_rest (s : State) (f i : Nat) :
    (s.deleteHandle f i).files = s.files ∧ (s.deleteHandle f i).opened = s.opened ∧
      (s.deleteHandle f i).caller = s.caller := by
  unfold State.deleteHandle
  split <;> exact ⟨rfl, rfl, rfl⟩

/-- Only the open and the close of a file change which files are open. -/
theorem opened_cases : (∃ f, a = .closeFile f) ∨ a = .openFile ∨
    (effect s a).files = s.files ∧ (effect s a).opened = s.opened := by
  cases a with
  | openFile => exact Or.inr (Or.inl rfl)
  | closeFile f => exact Or.inl ⟨f, rfl⟩
  | release f i | memDestroy f i =>
      obtain ⟨hfiles, hopened, -⟩ := deleteHandle_rest s f i
      exact Or.inr (Or.inr ⟨hfiles, hopened⟩)
  | submit f v n =>
      right
      right
      simp only [effect]
      split
      · exact ⟨rfl, rfl⟩
      · split <;> exact ⟨rfl, rfl⟩
  | corePut | importHandle =>
      right
      right
      simp only [effect]
      split <;> exact ⟨rfl, rfl⟩
  | _ => exact Or.inr (Or.inr ⟨rfl, rfl⟩)

theorem keep_known (inv : Accounted s) (f : Nat) (hf : (effect s a).opened f = true) :
    f < (effect s a).files := by
  rcases opened_cases (s := s) (a := a) with ⟨g, rfl⟩ | rfl | ⟨hfiles, hopened⟩
  · by_cases hg : f = g
    · simp [effect, hg] at hf
    · exact inv.known f (by simpa [effect, hg] using hf)
  · by_cases hg : f = s.files
    · exact hg ▸ Nat.lt_succ_self _
    · exact Nat.lt_succ_of_lt (inv.known f (by simpa [effect, hg] using hf))
  · rw [hfiles]
    exact inv.known f (hopened ▸ hf)

/-- A call keeps the file that has made it. -/
theorem caller_of_ne {j : Nat} (hj : j ≠ s.calls) : (effect s a).caller j = s.caller j := by
  cases a with
  | createAlloc f v | memSync f v => exact Function.update_of_ne hj _ _
  | submit f v n =>
      simp only [effect]
      split
      · exact Function.update_of_ne hj _ _
      · split <;> exact Function.update_of_ne hj _ _
  | release f i | memDestroy f i => exact congrFun (deleteHandle_rest s f i).2.2 j
  | corePut | importHandle =>
      simp only [effect]
      split <;> rfl
  | _ => rfl

/-- A file is closed when its calls have returned. -/
theorem keep_opened (inv : Accounted s) (h : enabled s a = true) {j : Nat}
    (hj : (s.call j).running = true) : (effect s a).opened (s.caller j) = true := by
  have hopen := inv.running j hj
  rcases opened_cases (s := s) (a := a) with ⟨f, rfl⟩ | rfl | ⟨-, hopened⟩
  · have hlt : j < s.calls := by
      by_contra hge
      simp [inv.counted.fresh j (Nat.not_lt.mp hge), CallPc.running] at hj
    have hne : s.caller j ≠ f := by
      intro hf
      simp [(of_decide_eq_true h).2 j hlt hf] at hj
    simpa [effect, hne] using hopen
  · have hne : s.caller j ≠ s.files := (inv.known _ hopen).ne
    simpa [effect, hne] using hopen
  · rw [hopened, hopen]

theorem keep_running (inv : Accounted s) (h : enabled s a = true) (j : Nat)
    (hj : ((effect s a).call j).running = true) :
    (effect s a).opened ((effect s a).caller j) = true := by
  have stays : (s.call j).running = true →
      (effect s a).opened ((effect s a).caller j) = true := by
    intro hold
    have hne : j ≠ s.calls := by
      rintro rfl
      simp [inv.counted.idle, CallPc.running] at hold
    rw [caller_of_ne hne]
    exact keep_opened inv h hold
  rcases call_effect inv.counted.idle h j with hmove | hstay
  · generalize s.call j = p at hmove stays
    generalize (effect s a).call j = q at hmove hj
    cases hmove with
    | createAlloc => simpa [effect, State.enter, State.take] using (of_decide_eq_true h).1
    | @memSync f v =>
        have hf : s.opened f = true := h
        simpa [effect, State.enter] using hf
    | @submit f v n =>
        have hf : s.opened f = true := h
        simp only [effect]
        split
        · simpa [State.enter] using hf
        · split <;> simpa [State.enter, State.take] using hf
    | createHandle => exact stays rfl
    | createFail | createReturn | syncReturn | submitReturn | refuse => cases hj
  · exact stays (hstay ▸ hj)

/-- A handle was there before, or is made on a file that is open. -/
theorem handle_before (inv : Accounted s) (h : enabled s a = true) {f i : Nat} {v : U64}
    (hv : (effect s a).hold (.handle f i) = some v) :
    s.hold (.handle f i) = some v ∨ s.opened f = true := by
  have dropped : ∀ k w, (s.drop k w).hold (.handle f i) = some v →
      s.hold (.handle f i) = some v := by
    intro k w hd
    by_cases hk : Holder.handle f i = k
    · simp [State.drop, ← hk] at hd
    · simpa [State.drop, hk] using hd
  have deleted : ∀ {g k}, (s.deleteHandle g k).hold (.handle f i) = some v →
      s.hold (.handle f i) = some v := by
    intro g k hd
    unfold State.deleteHandle at hd
    split at hd
    · exact hd
    · exact dropped _ _ hd
  cases a with
  | release g k | memDestroy g k => exact Or.inl (deleted hv)
  | createFail j w e => exact Or.inl (dropped (.create j) w hv)
  | createReturn j w => exact Or.inl (dropped (.create j) w hv)
  | submitReturn j w r => exact Or.inl (dropped (.submit j) w hv)
  | createAlloc g w => exact Or.inl (by simpa [effect, State.enter, State.take] using hv)
  | coreGet k w => exact Or.inl (by simpa [effect, State.take] using hv)
  | createHandle j w k =>
      have hcall := (of_decide_eq_true h).1
      by_cases hk : f = s.caller j
      · exact Or.inr (hk ▸ inv.running j (by rw [hcall]; rfl))
      · exact Or.inl (by simpa [effect, State.go, State.take, hk] using hv)
  | corePut k =>
      simp only [effect] at hv
      split at hv
      · exact Or.inl hv
      · exact Or.inl (dropped _ _ hv)
  | importHandle g k l =>
      simp only [effect] at hv
      split at hv
      · exact Or.inl hv
      · by_cases hg : f = g
        · exact Or.inr (hg ▸ (of_decide_eq_true h).1)
        · exact Or.inl (by simpa [State.take, hg] using hv)
  | submit g w n =>
      simp only [effect] at hv
      split at hv
      · exact Or.inl hv
      · split at hv
        · exact Or.inl hv
        · exact Or.inl (by simpa [State.enter, State.take] using hv)
  | _ => exact Or.inl hv

theorem keep_handles (inv : Accounted s) (h : enabled s a = true) (f i : Nat) (v : U64)
    (hv : (effect s a).hold (.handle f i) = some v) : f < (effect s a).files := by
  have hold : f < s.files := by
    rcases handle_before inv h hv with hbefore | hopen
    · exact inv.handles f i v hbefore
    · exact inv.known f hopen
  rcases opened_cases (s := s) (a := a) with ⟨g, rfl⟩ | rfl | ⟨hfiles, -⟩
  · exact hold
  · exact Nat.lt_succ_of_lt hold
  · rwa [hfiles]

theorem Accounted.preserve (inv : Accounted s) (h : enabled s a = true) :
    Accounted (effect s a) where
  counted := inv.counted.preserve h
  known := keep_known inv
  running := keep_running inv h
  handles := keep_handles inv h

theorem Accounted.of_run {acts : List Action} (run : Runs gem State.init acts s) :
    Accounted s := by
  refine invariant Accounted (fun s a t inv hstep => ?_) run Accounted.initial
  obtain ⟨h, rfl⟩ := gem_eq_some.mp hstep
  exact inv.preserve h

end Preserve

/-- All files are closed. -/
structure Abandoned (s : State) : Prop extends Accounted s where
  closed : ∀ f, s.opened f = false

/-- How many references there are. -/
noncomputable def State.heldBy (s : State) : Nat := {i | s.hold i ≠ none}.ncard

section Reach
variable {s t : State} {a : Action}

theorem Abandoned.step (inv : Abandoned s) (ha : a.letsGo) (hstep : gem s a = some t) :
    Abandoned t := by
  obtain ⟨h, rfl⟩ := gem_eq_some.mp hstep
  refine ⟨inv.toAccounted.preserve h, fun f => ?_⟩
  rcases opened_cases (s := s) (a := a) with ⟨g, rfl⟩ | rfl | ⟨-, hopened⟩
  · exact absurd ha id
  · exact absurd ha id
  · rw [hopened, inv.closed f]

/-- A dropped reference is one reference less. -/
theorem heldBy_drop (inv : Accounted s) {i : Holder} {v : U64} (hi : s.hold i = some v) :
    (s.drop i v).heldBy < s.heldBy := by
  have hsub : {k | (s.drop i v).hold k ≠ none} ⊆ {k | s.hold k ≠ none} \ {i} := by
    intro k hk
    by_cases hki : k = i
    · simp [State.drop, hki] at hk
    · exact ⟨by simpa [State.drop, hki] using hk, hki⟩
  have hmem : i ∈ {k | s.hold k ≠ none} := by simp [hi]
  have hfin := inv.counted.counts.finite
  calc (s.drop i v).heldBy
      ≤ ({k | s.hold k ≠ none} \ {i}).ncard := Set.ncard_le_ncard hsub hfin.sdiff
    _ < s.heldBy := Set.ncard_sdiff_singleton_lt_of_mem hmem hfin

/-- With all files closed, whoever holds a reference can drop it. -/
theorem Abandoned.letsGo_enabled (inv : Abandoned s) {v : U64} (hv : s.refs v ≠ 0) :
    ∃ a, a.letsGo ∧ enabled s a = true ∧ (effect s a).heldBy < s.heldBy := by
  have returned : ∀ j, (s.call j).running = false := by
    intro j
    rw [Bool.eq_false_iff]
    intro hrun
    have hopen := inv.running j hrun
    simp [inv.closed] at hopen
  obtain ⟨i, hi⟩ := inv.counted.counts.exists_holder (Nat.pos_of_ne_zero hv)
  cases i with
  | handle f k =>
      refine ⟨.release f k, trivial, decide_eq_true ⟨inv.handles f k v hi, inv.closed f⟩, ?_⟩
      simp only [effect, State.deleteHandle, hi]
      exact heldBy_drop inv.toAccounted hi
  | core k =>
      refine ⟨.corePut k, trivial, by simp [enabled, hi], ?_⟩
      simp only [effect, hi]
      exact heldBy_drop inv.toAccounted hi
  | create j =>
      have hcall := returned j
      rw [inv.counted.createRef j] at hi
      cases hpc : s.call j <;> simp_all [CallPc.createRef, CallPc.running]
  | submit j =>
      have hcall := returned j
      rw [inv.counted.submitRef j] at hi
      cases hpc : s.call j <;> simp_all [CallPc.submitRef, CallPc.running]

theorem Abandoned.reach_freed (inv : Abandoned s) :
    CanReach gem Action.letsGo (fun t => ∀ v, t.refs v = 0) s := by
  have reached : CanReach gem Action.letsGo
      (fun t => Abandoned t ∧ ∀ v, t.refs v = 0) s := by
    refine canReach_of_measure Abandoned State.heldBy (fun s inv hrefs => ?_) inv
    obtain ⟨v, hv⟩ := not_forall.mp hrefs
    obtain ⟨a, ha, h, hless⟩ := inv.letsGo_enabled hv
    have hstep := gem_eq_some.mpr ⟨h, rfl⟩
    exact ⟨a, effect s a, ha, hstep, inv.step ha hstep, hless⟩
  exact reached.bind fun t ht => .here ht.2

/-- A BO has a reference exactly as long as there is somebody to drop it. -/
theorem Accounted.lives_iff (inv : Accounted s) (v : U64) : 0 < s.refs v ↔
    (∃ f i, s.hold (.handle f i) = some v) ∨ (∃ k, s.hold (.core k) = some v) ∨
      ∃ j, s.opened (s.caller j) = true ∧
        ((s.call j).createRef = some v ∨ (s.call j).submitRef = some v) := by
  have opened : ∀ j, (s.call j).createRef = some v ∨ (s.call j).submitRef = some v →
      s.opened (s.caller j) = true := by
    intro j hj
    apply inv.running j
    cases hpc : s.call j <;> simp_all [CallPc.createRef, CallPc.submitRef, CallPc.running]
  constructor
  · intro hpos
    obtain ⟨i, hi⟩ := inv.counted.counts.exists_holder hpos
    cases i with
    | handle f k => exact Or.inl ⟨f, k, hi⟩
    | core k => exact Or.inr (Or.inl ⟨k, hi⟩)
    | create j =>
        have href : (s.call j).createRef = some v ∨ (s.call j).submitRef = some v :=
          Or.inl ((inv.counted.createRef j).symm.trans hi)
        exact Or.inr (Or.inr ⟨j, opened j href, href⟩)
    | submit j =>
        have href : (s.call j).createRef = some v ∨ (s.call j).submitRef = some v :=
          Or.inr ((inv.counted.submitRef j).symm.trans hi)
        exact Or.inr (Or.inr ⟨j, opened j href, href⟩)
  · rintro (⟨f, i, hi⟩ | ⟨k, hk⟩ | ⟨j, -, hj | hj⟩)
    · exact inv.counted.counts.pos hi
    · exact inv.counted.counts.pos hk
    · exact inv.counted.counts.pos ((inv.counted.createRef j).trans hj)
    · exact inv.counted.counts.pos ((inv.counted.submitRef j).trans hj)

end Reach

section Runs
variable {acts : List Action} {s : State}

/-- A client maps its BO and exits. -/
def exitedSteps : List Action := createSteps 0x1000#64 ++ [.coreGet 0 0x1000#64, .closeFile 0]

theorem exitedSteps_accepted :
    ((exec gem State.init exitedSteps).map fun s =>
      decide (s.refs 0x1000#64 = 2 ∧ s.files = 1 ∧ s.opened 0 = false)) = some true := by
  decide

end Runs

end Rkopnu.Gem
