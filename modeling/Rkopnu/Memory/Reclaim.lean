import Rkopnu.Memory.Unwind
import Rkopnu.Foundation.Progress

/-!
# The address space of a closed file

When the DRM core has begun to release a file, the BOs of the file can all be freed before
`rocket_postclose` is called: it drops their handles, and whoever else has a reference lets go
of it. Their frees leave every page table and every allocator of the file empty, so that the
domains that the close then takes down have nothing in them.
-/

namespace Rkopnu.Memory

open Function (update)
open Transition
open Driver (maxIommuDomains)

/-- Nothing is left of the BO, or it was never made. -/
def Pc.gone : Pc → Bool
  | .idle | .failed _ | .freed => true
  | _ => false

/-- What drops a reference on a BO, and the free of a BO. -/
def Action.frees : Action → Prop
  | .deleteHandle _ | .put _ | .freeUnmap _ _ | .freeNode _ _ | .freePut _ => True
  | _ => False

/-- What `rocket_postclose` does with the domains. -/
def Action.closes : Action → Prop
  | .postclose | .takedown _ _ | .skip _ | .closed _ => True
  | _ => False

/-- How far the end of the close is. -/
def FilePc.left : FilePc → Nat
  | .opened | .closed => 0
  | .releasing => maxIommuDomains + 2
  | .closing i => maxIommuDomains - i + 1

namespace State
variable (s : State)

/-- How many steps the references on a BO and its free still take. -/
def toGo (b : Nat) : Nat :=
  match s.pc b with
  | .live => (s.handle b).toNat + s.others b + 4
  | .freeUnmap => 3
  | .freeNode => 2
  | .freePut => 1
  | _ => 0

/-- No BO is left, and the address spaces are empty. -/
structure Vacant : Prop where
  gone : ∀ b, (s.pc b).gone = true
  tables : ∀ d x, s.table d x = none
  nodes : ∀ b, s.node b = none
  domains : ∀ b, s.domain b = none

end State

/-- What is known of the BOs in a run of maps that fit an `int`. -/
structure Spaced (ap : Aperture) (s : State) : Prop where
  placed : Placed ap s
  tabled : Tabled ap s
  freed : ∀ b, s.pc b = .freed → s.domain b = none

section Preserve
variable {ap : Aperture} {s : State} {a : Action} {b : Nat}

theorem Spaced.initial : Spaced ap State.init where
  placed := Placed.initial
  tabled := Tabled.initial
  freed := fun b h => by simp [State.init] at h

theorem keep_freed (inv : Spaced ap s) (h : enabled ap s a = true) (b : Nat)
    (hb : (effect s a).pc b = .freed) : (effect s a).domain b = none := by
  rcases inv.tabled.bo_effect h b with hmove | same
  · rw [hb] at hmove
    generalize s.pc b = p at hmove
    cases hmove with
    | freePut => exact Function.update_self _ _ _
  · rw [same.domain]
    exact inv.freed b (same.pc.symm.trans hb)

theorem Spaced.preserve (inv : Spaced ap s) (small : MapsSmall s a) (h : enabled ap s a = true) :
    Spaced ap (effect s a) where
  placed := inv.placed.preserve small h
  tabled := inv.tabled.preserve h
  freed := keep_freed inv h

theorem Spaced.of_run {acts : List Action} (run : Runs (memory ap) State.init acts s)
    (small : Along (memory ap) MapsSmall State.init acts) : Spaced ap s := by
  refine invariant_along (Spaced ap) (fun s a t inv ok hstep => ?_) small run Spaced.initial
  obtain ⟨h, rfl⟩ := memory_eq_some.mp hstep
  exact inv.preserve ok h

/-- With the BOs their entries, their nodes and their domains are gone. -/
theorem Spaced.vacant (inv : Spaced ap s) (gone : ∀ b, (s.pc b).gone = true) : s.Vacant where
  gone := gone
  tables := fun d x => by
    by_contra hentry
    obtain ⟨⟨b, i⟩, hbi⟩ := Option.ne_none_iff_exists'.mp hentry
    have hmapped := ((inv.placed.table d x b i).mp hbi).1
    have hb := gone b
    cases hpc : s.pc b <;> simp_all [Pc.mapped, Pc.gone]
  nodes := fun b => by
    have hb := gone b
    rw [inv.placed.node b]
    cases hpc : s.pc b <;> simp_all [Pc.inMm, Pc.gone]
  domains := fun b => by
    have hb := gone b
    cases hpc : s.pc b with
    | freed => exact inv.freed b hpc
    | idle | failed => exact inv.tabled.undomained b (by rw [hpc]; rfl)
    | _ => simp [hpc, Pc.gone] at hb

theorem small_of_frees (ha : a.frees ∨ a.closes) : MapsSmall s a := by
  rintro b d rfl
  exact absurd ha (not_or.mpr ⟨id, id⟩)

/-- A BO that is gone does not come back without a `MEM_CREATE`. -/
theorem Spaced.gone_stays (inv : Spaced ap s) (ha : a.frees ∨ a.closes)
    (h : enabled ap s a = true) (hb : (s.pc b).gone = true) :
    ((effect s a).pc b).gone = true := by
  rcases inv.tabled.bo_effect h b with hmove | same
  · generalize s.pc b = p at hmove hb
    generalize (effect s a).pc b = q at hmove
    cases hmove with
    | memCreate => exact absurd ha (not_or.mpr ⟨id, id⟩)
    | _ => cases hb
  · rw [same.pc, hb]

end Preserve

/-- The file is being released. -/
structure Releasing (ap : Aperture) (s : State) : Prop extends Spaced ap s where
  releasing : s.file = .releasing

/-- Its BOs are gone. -/
structure Emptied (ap : Aperture) (s : State) : Prop extends Spaced ap s where
  closing : s.file ≠ .opened
  gone : ∀ b, (s.pc b).gone = true

section Reach
variable {ap : Aperture} {s t : State} {a : Action} {b : Nat}

theorem Releasing.step (inv : Releasing ap s) (ha : a.frees) (hstep : memory ap s a = some t) :
    Releasing ap t := by
  obtain ⟨h, rfl⟩ := memory_eq_some.mp hstep
  refine ⟨inv.toSpaced.preserve (small_of_frees (Or.inl ha)) h, ?_⟩
  have hfile := inv.releasing
  cases a <;> first | exact hfile | exact absurd ha id

/-- The steps of a BO's end, in the order they come in. -/
theorem Releasing.frees_enabled (inv : Releasing ap s) (hb : ¬ (s.pc b).gone = true) :
    ∃ a, a.frees ∧ enabled ap s a = true ∧ (effect s a).toGo b < s.toGo b := by
  have hsettled := inv.tabled.settled (by simp [inv.releasing]) b
  have held : (s.pc b).inMm = true → ∃ d, s.domain b = some d := fun hin =>
    Option.ne_none_iff_exists'.mp (inv.tabled.bound b (Or.inr (Or.inr hin)))
  cases hpc : s.pc b with
  | live =>
      cases hhandle : s.handle b with
      | true =>
          refine ⟨.deleteHandle b, trivial, decide_eq_true ⟨hhandle, Or.inr inv.releasing⟩, ?_⟩
          by_cases hlast : s.others b = 0 <;>
            simp [State.toGo, effect, hpc, hhandle, hlast]
      | false =>
          have hpos : 0 < s.others b :=
            (inv.tabled.referenced b hpc).resolve_left (by simp [hhandle])
          refine ⟨.put b, trivial, decide_eq_true hpos, ?_⟩
          by_cases hlast : s.others b = 1
          · simp [State.toGo, effect, hpc, hhandle, hlast]
          · simp only [State.toGo, effect, hpc, hhandle, hlast, and_false, if_false,
              Function.update_self]
            omega
  | freeUnmap =>
      obtain ⟨d, hd⟩ := held (by rw [hpc]; rfl)
      exact ⟨.freeUnmap b d, trivial, decide_eq_true ⟨hpc, hd⟩, by
        simp [State.toGo, effect, hpc]⟩
  | freeNode =>
      obtain ⟨d, hd⟩ := held (by rw [hpc]; rfl)
      exact ⟨.freeNode b d, trivial, decide_eq_true ⟨hpc, hd⟩, by
        simp [State.toGo, effect, hpc]⟩
  | freePut =>
      exact ⟨.freePut b, trivial, decide_eq_true hpc, by simp [State.toGo, effect, hpc]⟩
  | idle | failed | freed => simp [hpc, Pc.gone] at hb
  | _ => simp [hpc, Pc.creating] at hsettled

theorem Releasing.reach_gone (inv : Releasing ap s) (b : Nat) :
    CanReach (memory ap) Action.frees (fun t => (t.pc b).gone = true) s := by
  have reached : CanReach (memory ap) Action.frees
      (fun t => Releasing ap t ∧ (t.pc b).gone = true) s := by
    refine canReach_of_measure (Releasing ap) (fun s => s.toGo b) (fun s inv hb => ?_) inv
    obtain ⟨a, ha, h, hless⟩ := inv.frees_enabled hb
    have hstep := memory_eq_some.mpr ⟨h, rfl⟩
    exact ⟨a, effect s a, ha, hstep, inv.step ha hstep, hless⟩
  exact reached.bind fun t ht => .here ht.2

/-- All BOs of a file that is being released can be freed. -/
theorem Releasing.reach_emptied (inv : Releasing ap s) :
    CanReach (memory ap) Action.frees (fun t => Releasing ap t ∧ ∀ b, (t.pc b).gone = true) s := by
  refine canReach_forall (P := fun b t => (t.pc b).gone = true)
    (fun s a t ha inv hstep => inv.step ha hstep) (fun b s a t ha inv hb hstep => ?_)
    (fun b s inv => inv.reach_gone b) s.bos inv fun b hb => ?_
  · obtain ⟨h, rfl⟩ := memory_eq_some.mp hstep
    exact inv.gone_stays (Or.inl ha) h hb
  · rw [inv.tabled.fresh b hb]
    rfl

theorem Emptied.step (inv : Emptied ap s) (ha : a.closes) (hstep : memory ap s a = some t) :
    Emptied ap t := by
  obtain ⟨h, rfl⟩ := memory_eq_some.mp hstep
  refine ⟨inv.toSpaced.preserve (small_of_frees (Or.inr ha)) h, ?_,
    fun b => inv.gone_stays (Or.inr ha) h (inv.gone b)⟩
  cases a <;> first | exact absurd ha id | simp [effect]

/-- The steps of `rocket_postclose` on a file with no BOs. -/
theorem Emptied.closes_enabled (inv : Emptied ap s) (hopen : s.file ≠ .closed) :
    ∃ a, a.closes ∧ enabled ap s a = true ∧ (effect s a).file.left < s.file.left := by
  cases hfile : s.file with
  | opened => exact absurd hfile inv.closing
  | closed => exact absurd hfile hopen
  | releasing =>
      have hhandles : ∀ b < s.bos, s.handle b = false := by
        intro b _
        rw [Bool.eq_false_iff]
        intro hhandle
        have hgone := inv.gone b
        rcases inv.tabled.alive b (Or.inl hhandle) with hpc | hpc <;>
          simp [hpc, Pc.gone] at hgone
      exact ⟨.postclose, trivial, decide_eq_true ⟨hfile, hhandles⟩, by
        simp [effect, FilePc.left]⟩
  | closing i =>
      by_cases hi : i < maxIommuDomains
      · have hless : maxIommuDomains - (i + 1) + 1 < maxIommuDomains - i + 1 := by omega
        cases hslot : s.slot i with
        | none => exact ⟨.skip i, trivial, decide_eq_true ⟨hfile, hi, hslot⟩, hless⟩
        | some d => exact ⟨.takedown i d, trivial, decide_eq_true ⟨hfile, hi, hslot⟩, hless⟩
      · exact ⟨.closed i, trivial, decide_eq_true ⟨hfile, hi⟩, by simp [effect, FilePc.left]⟩

theorem Emptied.reach_closed (inv : Emptied ap s) :
    CanReach (memory ap) Action.closes (fun t => t.Vacant ∧ t.file = .closed) s := by
  have reached : CanReach (memory ap) Action.closes
      (fun t => Emptied ap t ∧ t.file = .closed) s := by
    refine canReach_of_measure (Emptied ap) (fun s => s.file.left) (fun s inv hopen => ?_) inv
    obtain ⟨a, ha, h, hless⟩ := inv.closes_enabled hopen
    have hstep := memory_eq_some.mpr ⟨h, rfl⟩
    exact ⟨a, effect s a, ha, hstep, inv.step ha hstep, hless⟩
  exact reached.bind fun t ht => .here ⟨ht.1.vacant ht.1.gone, ht.2⟩

end Reach

/-- A file with an exported BO is released. -/
def releasedSteps : List Action :=
  createSteps 0 0 4096#64 ++ [.get 0, .release]

theorem releasedSteps_accepted :
    ((exec (memory npuAperture) State.init releasedSteps).map fun s =>
      decide (s.file = .releasing ∧ s.node 0 ≠ none)) = some true := by
  decide

/-- A file's address space can always be reclaimed before its close: in every run whose maps come
to less than 2^31 bytes, once the release of the file has begun, the release of handles and
other references and the frees of BOs lead to a state with no BO, every page table and every
allocator empty, from which the take-down of the domains alone ends the close. -/
theorem address_space_reclaimed {ap : Aperture} {acts : List Action} {s : State}
    (run : Runs (memory ap) State.init acts s)
    (small : Along (memory ap) MapsSmall State.init acts) (releasing : s.file = .releasing) :
    CanReach (memory ap) Action.frees (fun t => t.Vacant ∧
      CanReach (memory ap) Action.closes (fun u => u.Vacant ∧ u.file = .closed) t) s := by
  have inv : Releasing ap s := ⟨Spaced.of_run run small, releasing⟩
  refine inv.reach_emptied.bind fun t ht => .here ⟨ht.1.vacant ht.2, ?_⟩
  exact Emptied.reach_closed ⟨ht.1.toSpaced, by simp [ht.1.releasing], ht.2⟩

theorem address_space_reclaimed_on_releasedSteps :
    ∃ s, Runs (memory npuAperture) State.init releasedSteps s ∧ ¬ s.Vacant ∧
      CanReach (memory npuAperture) Action.frees (fun t => t.Vacant ∧
        CanReach (memory npuAperture) Action.closes
          (fun u => u.Vacant ∧ u.file = .closed) t) s := by
  obtain ⟨s, run, test⟩ := runs_of_test releasedSteps_accepted
  obtain ⟨hfile, hnode⟩ := of_decide_eq_true test
  refine ⟨s, run, fun vacant => hnode (vacant.nodes 0), address_space_reclaimed run
    (along_of_check mapsSmall_of_test (by decide)) hfile⟩

end Rkopnu.Memory
