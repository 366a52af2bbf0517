import Rkopnu.Memory.Placement

/-!
# The domains of a closed file

`rocket_iommu_domains_close` takes the allocator and the lock of every domain of the
file down and counts on the file's BOs being gone, since the DRM core has dropped the
file's handles. A BO that something else refers to, an exported dma-buf say, is not
gone: its node is still in the allocator, and its free takes the lock later.
-/

namespace Rkopnu.Memory

open Function (update)
open Transition
open Driver (maxIommuDomains)

/-- The domain whose `mm_lock` the step takes. -/
def Action.locksMm : Action → Option Nat
  | .insert _ d _ | .insertFail _ d _ | .removeNode _ d _ | .freeNode _ d => some d
  | _ => none

/-- A domain that is taken down has an empty allocator, and nobody takes the lock of
a domain that was taken down. -/
def TeardownSound (s : State) (a : Action) : Prop :=
  (∀ i d, a = .takedown i d → ∀ b, s.domain b = some d → s.node b = none) ∧
    ∀ d, a.locksMm = some d → s.torn d = false

/-- Something refers to the BO, or its free has not come past `drm_mm_remove_node`. -/
def State.Outlives (s : State) (b : Nat) : Prop :=
  s.handle b = true ∨ 0 < s.others b ∨ s.pc b = .freeUnmap ∨ s.pc b = .freeNode

/-- The step does not take down a domain one of whose BOs is still there. -/
def TakesDownFree (s : State) (a : Action) : Prop := ∀ i d, a = .takedown i d →
  ∀ b, s.domain b = some d → ¬ s.Outlives b

/-- Who refers to a BO, and what is left to be done once the file is being closed. -/
structure Kept (s : State) : Prop extends Listed s where
  /-- A BO that was handed out and not freed has a reference. -/
  referenced : ∀ b, s.pc b = .live → s.handle b = true ∨ 0 < s.others b
  /-- Only a BO with a handle or about to be returned has references. -/
  alive : ∀ b, s.handle b = true ∨ 0 < s.others b → s.pc b = .reply ∨ s.pc b = .live
  /-- No `MEM_CREATE` runs on a file that is being closed. -/
  settled : s.file ≠ .opened → ∀ b, (s.pc b).creating = false
  /-- Domains are taken down when the file is closed. -/
  tornClosing : ∀ d, s.torn d = true → s.file ≠ .opened

/-- The BO for which the step makes or drops a handle or another reference. -/
def Action.refOf : Action → Option Nat
  | .handleCreate b _ | .get b | .put b | .importHandle b | .deleteHandle b => some b
  | _ => none

section Preserve
variable {ap : Aperture} {s : State} {a : Action}

theorem refs_of_other {b : Nat} (hother : a.refOf ≠ some b) :
    (effect s a).handle b = s.handle b ∧ (effect s a).others b = s.others b := by
  have hne : ∀ i, a.refOf = some i → b ≠ i := by
    rintro i hi rfl
    exact hother hi
  cases a with
  | handleCreate i | importHandle i | deleteHandle i =>
      exact ⟨Function.update_of_ne (hne _ rfl) _ _, rfl⟩
  | get i | put i => exact ⟨rfl, Function.update_of_ne (hne _ rfl) _ _⟩
  | _ => exact ⟨rfl, rfl⟩

theorem keep_referenced (inv : Kept s) (h : enabled ap s a = true) : ∀ b,
    (effect s a).pc b = .live → (effect s a).handle b = true ∨ 0 < (effect s a).others b := by
  intro b hlive
  by_cases hrefs : a.refOf = some b
  · cases a with
    | handleCreate i e =>
        obtain rfl := Option.some.inj hrefs
        cases e <;> simp [effect] at hlive
    | get i =>
        obtain rfl := Option.some.inj hrefs
        exact Or.inr (by simp [effect])
    | importHandle i =>
        obtain rfl := Option.some.inj hrefs
        exact Or.inl (Function.update_self _ _ _)
    | put i =>
        obtain rfl := Option.some.inj hrefs
        have hpos : 0 < s.others i := of_decide_eq_true h
        by_cases hlast : s.pc i = .live ∧ s.handle i = false ∧ s.others i = 1
        · simp [effect, hlast] at hlive
        · simp only [effect, if_neg hlast] at hlive
          cases hhandle : s.handle i with
          | true => exact Or.inl hhandle
          | false =>
              have hone : s.others i ≠ 1 := fun hone => hlast ⟨hlive, hhandle, hone⟩
              refine Or.inr ?_
              simp only [effect, Function.update_self]
              omega
    | deleteHandle i =>
        obtain rfl := Option.some.inj hrefs
        by_cases hlast : s.pc i = .live ∧ s.others i = 0
        · simp [effect, hlast] at hlive
        · simp only [effect, if_neg hlast] at hlive
          exact Or.inr (Nat.pos_of_ne_zero fun hzero => hlast ⟨hlive, hzero⟩)
    | _ => cases hrefs
  · obtain ⟨hhandle, hothers⟩ := refs_of_other (s := s) hrefs
    rw [hhandle, hothers]
    rcases inv.bo_effect h b with hmove | same
    · generalize s.pc b = p at hmove
      generalize hq : (effect s a).pc b = q at hmove hlive
      cases hmove with
      | reply =>
          by_contra hnone
          simp [effect, hnone] at hq
      | _ => cases hlive
    · exact inv.referenced b (same.pc ▸ hlive)

theorem keep_alive (inv : Kept s) (h : enabled ap s a = true) : ∀ b,
    (effect s a).handle b = true ∨ 0 < (effect s a).others b →
      (effect s a).pc b = .reply ∨ (effect s a).pc b = .live := by
  intro b href
  have alive := inv.alive b
  by_cases hrefs : a.refOf = some b
  · cases a with
    | handleCreate i e =>
        obtain rfl := Option.some.inj hrefs
        cases e with
        | none => exact Or.inl (Function.update_self _ _ _)
        | some e =>
            have hpc : s.pc i = .handle := of_decide_eq_true h
            have hpos : 0 < s.others i := by simpa [effect] using href
            simpa [hpc] using alive (Or.inr hpos)
    | get i =>
        obtain rfl := Option.some.inj hrefs
        exact of_decide_eq_true h
    | importHandle i =>
        obtain rfl := Option.some.inj hrefs
        exact (of_decide_eq_true h).2.2.2
    | put i =>
        obtain rfl := Option.some.inj hrefs
        have hlast : ¬ (s.pc i = .live ∧ s.handle i = false ∧ s.others i = 1) := by
          rintro ⟨-, hhandle, hone⟩
          simp [effect, hhandle, hone] at href
        simp only [effect, if_neg hlast]
        exact alive (Or.inr (of_decide_eq_true h))
    | deleteHandle i =>
        obtain rfl := Option.some.inj hrefs
        have hlast : ¬ (s.pc i = .live ∧ s.others i = 0) := by
          rintro ⟨-, hzero⟩
          simp [effect, hzero] at href
        simp only [effect, if_neg hlast]
        exact alive (Or.inl (of_decide_eq_true h).1)
    | _ => cases hrefs
  · obtain ⟨hhandle, hothers⟩ := refs_of_other (s := s) hrefs
    rw [hhandle, hothers] at href
    rcases inv.bo_effect h b with hmove | same
    · have hpc := alive href
      generalize s.pc b = p at hmove hpc
      generalize hq : (effect s a).pc b = q at hmove ⊢
      cases hmove with
      | reply => exact Or.inr rfl
      | replyDead => simp [effect, href] at hq
      | put | deleteHandle => exact absurd rfl hrefs
      | _ => simp at hpc
    · rw [same.pc]
      exact alive href

theorem keep_settled (inv : Kept s) (h : enabled ap s a = true) :
    (effect s a).file ≠ .opened → ∀ b, ((effect s a).pc b).creating = false := by
  intro hfile b
  cases a with
  | memCreate size id => exact absurd (of_decide_eq_true h) hfile
  | release =>
      -- the file is released after its calls have returned
      by_cases hb : b < s.bos
      · exact (of_decide_eq_true h).2 b hb
      · simp [effect, inv.fresh b (Nat.le_of_not_lt hb), Pc.creating]
  | postclose | takedown | skip | closed =>
      exact inv.settled (by simp [(of_decide_eq_true h).1]) b
  | _ =>
      have hold := inv.settled hfile b
      rcases inv.bo_effect h b with hmove | same
      · generalize s.pc b = p at hmove hold
        generalize (effect s _).pc b = q at hmove ⊢
        cases hmove <;> first | rfl | cases hold
      · rw [same.pc, hold]

theorem keep_tornClosing (inv : Kept s) (h : enabled ap s a = true) :
    ∀ d, (effect s a).torn d = true → (effect s a).file ≠ .opened := by
  intro d hd
  cases a with
  | release | postclose | takedown | skip | closed => simp [effect]
  | _ => exact inv.tornClosing d hd

theorem Kept.preserve (inv : Kept s) (h : enabled ap s a = true) : Kept (effect s a) where
  toListed := inv.toListed.preserve h
  referenced := keep_referenced inv h
  alive := keep_alive inv h
  settled := keep_settled inv h
  tornClosing := keep_tornClosing inv h

theorem Kept.initial : Kept State.init where
  toListed := Listed.initial
  referenced := fun b h => by simp [State.init] at h
  alive := fun b h => by simp [State.init] at h
  settled := fun h => absurd rfl h
  tornClosing := fun d h => by simp [State.init] at h

end Preserve

/-- No BO of a domain that was taken down has a node. -/
def State.TornEmpty (s : State) : Prop := ∀ d, s.torn d = true → ∀ b, s.domain b = some d →
  (s.pc b).inMm = false

section Teardown
variable {ap : Aperture} {s : State} {a : Action}

/-- On a file that is being closed, a BO with a node is one that outlives it. -/
theorem Kept.outlives_iff (inv : Kept s) (hfile : s.file ≠ .opened) (b : Nat) :
    s.Outlives b ↔ (s.pc b).inMm = true := by
  have hset := inv.settled hfile b
  have href := inv.referenced b
  have halive := inv.alive b
  unfold State.Outlives
  cases hpc : s.pc b <;> simp_all [Pc.inMm, Pc.creating]

theorem Kept.closing_of_takedown {i d : Nat} (h : enabled ap s (.takedown i d) = true) :
    s.file ≠ .opened := by
  simp only [enabled, decide_eq_true_eq] at h
  simp [h.1]

theorem torn_before {e : Nat} (he : (effect s a).torn e = true) :
    s.torn e = true ∨ ∃ i, a = .takedown i e := by
  cases a with
  | takedown i d =>
      by_cases hed : e = d
      · exact Or.inr ⟨i, by rw [hed]⟩
      · exact Or.inl (by simpa [effect, hed] using he)
  | _ => exact Or.inl he

theorem keep_tornEmpty (inv : Kept s) (empty : s.TornEmpty) (ok : TakesDownFree s a)
    (h : enabled ap s a = true) : (effect s a).TornEmpty := by
  intro e he b hb
  rcases torn_before he with hbefore | ⟨i, rfl⟩
  · have hclosing := inv.tornClosing e hbefore
    have hempty := empty e hbefore b
    have hsettled := inv.settled hclosing b
    rcases inv.bo_effect h b with hmove | same
    · generalize s.pc b = p at hmove hempty hsettled
      generalize (effect s a).pc b = q at hmove ⊢
      cases hmove with
      | memCreate => exact absurd (of_decide_eq_true h) hclosing
      | put | deleteHandle | freeUnmap => exact hempty hb
      | freeNode | freePut => rfl
      | _ => cases hsettled
    · rw [same.pc]
      exact hempty (same.domain ▸ hb)
  · have hnot := mt (inv.outlives_iff (Kept.closing_of_takedown h) b).mpr (ok i e rfl b hb)
    simpa [effect] using hnot

/-- A step is sound when it takes down no domain with a BO still there, in a state in
which no domain was taken down with one. -/
theorem Kept.teardownSound (inv : Kept s) (empty : s.TornEmpty) (ok : TakesDownFree s a)
    (h : enabled ap s a = true) : TeardownSound s a := by
  refine ⟨?_, fun d hd => ?_⟩
  · rintro i d rfl b hb
    have hnot := mt (inv.outlives_iff (Kept.closing_of_takedown h) b).mpr (ok i d rfl b hb)
    simpa [inv.node b] using hnot
  · by_contra htorn
    simp only [Bool.not_eq_false] at htorn
    have hset := inv.settled (inv.tornClosing d htorn)
    cases a with
    | insert b e start | insertFail b e r | removeNode b e r =>
        have hb := hset b
        simp only [enabled, decide_eq_true_eq] at h
        simp [h.1, Pc.creating] at hb
    | freeNode b e =>
        obtain rfl := Option.some.inj hd
        simp only [enabled, decide_eq_true_eq] at h
        have hb := empty e htorn b h.2
        simp [h.1, Pc.inMm] at hb
    | _ => simp [Action.locksMm] at hd

/-- Taking down an empty allocator leaves no BO behind. -/
theorem Kept.takesDownFree (inv : Kept s) (sound : TeardownSound s a)
    (h : enabled ap s a = true) : TakesDownFree s a := by
  rintro i d rfl b hb
  have hnode := sound.1 i d rfl b hb
  rw [inv.outlives_iff (Kept.closing_of_takedown h) b]
  intro hin
  simp [inv.node b, hin] at hnode

end Teardown

/-- In a run, every takedown finds an empty allocator and nobody takes the lock of a
domain afterwards exactly when no takedown meets a domain one of whose BOs is
still referred to or on its way through `rocket_gem_bo_free`. -/
theorem teardown_sound_iff_takesDownFree {ap : Aperture} {acts : List Action} {s : State}
    (run : Runs (memory ap) State.init acts s) :
    Along (memory ap) TeardownSound State.init acts ↔
      Along (memory ap) TakesDownFree State.init acts := by
  constructor
  · refine fun sound => along_of_along Kept ?_ ?_ run sound Kept.initial
    · intro u a v inv _ hstep
      obtain ⟨h, rfl⟩ := memory_eq_some.mp hstep
      exact inv.preserve h
    · intro u a v inv sound hstep
      exact inv.takesDownFree sound (memory_eq_some.mp hstep).1
  · refine fun free => along_of_along (fun u => Kept u ∧ u.TornEmpty) ?_ ?_ run free
      ⟨Kept.initial, fun d hd => by simp [State.init] at hd⟩
    · rintro u a v ⟨inv, empty⟩ ok hstep
      obtain ⟨h, rfl⟩ := memory_eq_some.mp hstep
      exact ⟨inv.preserve h, keep_tornEmpty inv empty ok h⟩
    · rintro u a v ⟨inv, empty⟩ ok hstep
      exact inv.teardownSound empty ok (memory_eq_some.mp hstep).1

/-- A BO is exported as a dma-buf and the file is closed. -/
def exportSteps : List Action :=
  createSteps 0 0 4096#64 ++ [.get 0, .release, .deleteHandle 0, .postclose]

/-- Its domain is taken down, and then the dma-buf goes. -/
def exportedBo : List Action :=
  exportSteps ++ .takedown 0 0 :: [.put 0, .freeUnmap 0 0, .freeNode 0 0]

theorem exportedBo_accepted :
    (exec (memory npuAperture) State.init exportedBo).isSome = true := by
  decide

theorem exportSteps_accepted :
    ((exec (memory npuAperture) State.init exportSteps).map fun s =>
      decide (s.domain 0 = some 0 ∧ s.node 0 ≠ none)) = some true := by
  decide

/-- The domain of an exported BO is taken down with the BO's node in its allocator. -/
theorem exported_bo_in_torn_domain :
    ¬ ∀ s, Runs (memory npuAperture) State.init exportedBo s →
      Along (memory npuAperture) TeardownSound State.init exportedBo := by
  intro all
  obtain ⟨s, run⟩ := Option.isSome_iff_exists.mp exportedBo_accepted
  obtain ⟨u, front, test⟩ := runs_of_test exportSteps_accepted
  obtain ⟨hdom, hnode⟩ := of_decide_eq_true test
  exact hnode ((Along.of_split (all s run) front).1 0 0 rfl 0 hdom)

theorem teardown_sound_iff_takesDownFree_on_exportedBo :
    Along (memory npuAperture) TeardownSound State.init exportedBo ↔
      Along (memory npuAperture) TakesDownFree State.init exportedBo := by
  obtain ⟨s, run⟩ := Option.isSome_iff_exists.mp exportedBo_accepted
  exact teardown_sound_iff_takesDownFree run

end Rkopnu.Memory
