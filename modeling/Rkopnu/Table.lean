import Rkopnu.Foundation.Transition
import Mathlib.Data.Finset.Card
import Mathlib.Data.Finset.Range
import Mathlib.Logic.Function.Basic

/-!
# The table of cores

`rocket_probe` appends a core at `num_cores` and `rocket_remove` only lowers
`num_cores`, so the table is right exactly as long as the cores are removed in the
reverse order of their probes.

## Implementation notes

The calls are whole and succeed: the driver core serialises them per device, and
binds and unbinds each device alternately. `num_cores` never falls below the number
of bound devices, so the `rdev` a bound device keeps is always the current one.
`slot` is the entry that the last `rocket_probe` of a device filled; no code reads it.
-/

namespace Rkopnu.Table

open Function (update)
open Transition

/-- The fields of `struct rocket_core` that the table is searched by. -/
structure Core where
  dev : Option Nat
  index : Nat
  deriving DecidableEq, Repr

structure State where
  /-- The available core devices of the device tree. -/
  available : Finset Nat
  /-- The devices bound to the driver. -/
  bound : Finset Nat
  /-- `rdev` is not NULL. -/
  registered : Bool
  /-- How many entries `rdev->cores` has. -/
  entries : Nat
  /-- `rdev->num_cores`. -/
  numCores : Nat
  /-- `rdev->cores`. -/
  cores : Nat → Core
  slot : Nat → Option Nat

/-- The module is loaded, no device is bound. -/
def State.init (available : Finset Nat) : State where
  available := available
  bound := ∅
  registered := false
  entries := 0
  numCores := 0
  cores := fun _ => ⟨none, 0⟩
  slot := fun _ => none

/-- `rocket_device_init`, unless the DRM device is there. -/
def State.deviceInit (s : State) : State :=
  if s.registered then s
  else { s with
    registered := true
    entries := s.available.card
    numCores := 0
    cores := fun _ => ⟨none, 0⟩ }

/-- `rocket_probe` on a table that exists. -/
def State.append (s : State) (d : Nat) : State :=
  { s with
    bound := insert d s.bound
    cores := update s.cores s.numCores ⟨some d, s.numCores⟩
    slot := update s.slot d (some s.numCores)
    numCores := s.numCores + 1 }

/-- `find_core_for_dev`; `none` is -1. -/
def State.findCoreForDev (s : State) (d : Nat) : Option Nat :=
  (List.range s.numCores).find? fun core => decide (some d = (s.cores core).dev)

inductive Action
  /-- A successful `rocket_probe` of the device. -/
  | probe (d : Nat)
  /-- `rocket_remove` of the device. -/
  | remove (d : Nat)
  deriving DecidableEq, Repr

/-- The driver core may make the call. -/
def enabled (s : State) : Action → Bool
  | .probe d => decide (d ∈ s.available ∧ d ∉ s.bound)
  | .remove d => decide (d ∈ s.bound)

/-- What the call does. -/
def effect (s : State) : Action → State
  | .probe d => s.deviceInit.append d
  | .remove d =>
      match s.findCoreForDev d with
      | none => { s with bound := s.bound.erase d }
      | some _ => { s with
          bound := s.bound.erase d
          numCores := s.numCores - 1
          registered := decide (s.numCores - 1 ≠ 0) }

/-- Binding and unbinding as a transition system. -/
def binding : System State Action := fun s a =>
  if enabled s a then some (effect s a) else none

theorem binding_eq_some {s t : State} {a : Action} :
    binding s a = some t ↔ enabled s a = true ∧ effect s a = t := by
  unfold binding
  split <;> simp_all

/-- The table describes the bound devices. -/
structure TableSound (s : State) : Prop where
  count : s.numCores = s.bound.card
  room : s.numCores ≤ s.entries
  /-- Every bound device is found, at the one entry that is its own. -/
  found : ∀ d ∈ s.bound, ∃ i < s.numCores, s.findCoreForDev d = some i ∧
    (s.cores i).dev = some d ∧ (s.cores i).index = i ∧
      ∀ k < s.numCores, (s.cores k).dev = some d → k = i
  /-- The entry that `rocket_remove` would finalise is the one `rocket_probe` filled. -/
  own : ∀ d ∈ s.bound, s.findCoreForDev d = s.slot d
  /-- The entry that the next `rocket_probe` fills is nobody's. -/
  kept : ∀ d ∈ s.bound, s.slot d ≠ some s.numCores
  /-- The DRM device is there while a core is bound, and not longer. -/
  device : s.registered = true ↔ s.bound.Nonempty

/-- The removed device is at the end of the table. -/
def RemovesLast (s : State) (a : Action) : Prop := ∀ d, a = .remove d →
  (s.cores (s.numCores - 1)).dev = some d

/-- What holds of the table in every run. -/
structure Sized (s : State) : Prop where
  available : s.bound ⊆ s.available
  entries : s.registered = true → s.entries = s.available.card
  unused : s.registered = false → s.numCores = 0

section Basic
variable {s : State} {a : Action} {d : Nat}

/-- The search returns the first entry of the device. -/
theorem findCoreForDev_eq_some {i : Nat} : s.findCoreForDev d = some i ↔
    (s.cores i).dev = some d ∧ i < s.numCores ∧ ∀ k < i, (s.cores k).dev ≠ some d := by
  simp only [State.findCoreForDev, List.find?_range_eq_some, decide_eq_true_eq, List.mem_range,
    Bool.not_eq_true', decide_eq_false_iff_not, ne_eq]
  simp only [eq_comm]

theorem Sized.deviceInit (inv : Sized s) : Sized s.deviceInit := by
  unfold State.deviceInit
  split
  · exact inv
  · exact ⟨inv.available, fun _ => rfl, fun _ => rfl⟩

@[simp] theorem deviceInit_registered : s.deviceInit.registered = true := by
  unfold State.deviceInit
  split
  · assumption
  · rfl

@[simp] theorem deviceInit_bound : s.deviceInit.bound = s.bound := by
  unfold State.deviceInit
  split <;> rfl

@[simp] theorem deviceInit_slot : s.deviceInit.slot = s.slot := by
  unfold State.deviceInit
  split <;> rfl

@[simp] theorem deviceInit_available : s.deviceInit.available = s.available := by
  unfold State.deviceInit
  split <;> rfl

theorem Sized.preserve (inv : Sized s) (h : enabled s a = true) : Sized (effect s a) := by
  cases a with
  | probe d =>
      simp only [enabled, decide_eq_true_eq] at h
      refine ⟨Finset.insert_subset ?_ inv.deviceInit.available, inv.deviceInit.entries, ?_⟩
      · simpa [effect, State.append] using h.1
      · simp [effect, State.append]
  | remove d =>
      have hsub := (Finset.erase_subset d s.bound).trans inv.available
      simp only [effect]
      cases hfind : s.findCoreForDev d with
      | none => exact ⟨hsub, inv.entries, inv.unused⟩
      | some i =>
          have hlt := (findCoreForDev_eq_some.mp hfind).2.1
          have hreg : s.registered = true := by
            cases hr : s.registered with
            | true => rfl
            | false =>
                have hzero := inv.unused hr
                omega
          refine ⟨hsub, fun _ => inv.entries hreg, fun hlast => ?_⟩
          simpa using hlast

theorem Sized.initial (devs : Finset Nat) : Sized (State.init devs) where
  available := Finset.empty_subset devs
  entries := fun h => by simp [State.init] at h
  unused := fun _ => rfl

/-- Every entry below `num_cores` is of a bound device: there are as many of the one as of
the other, and no two devices share an entry. -/
theorem TableSound.occupied (sound : TableSound s) {k : Nat} (hk : k < s.numCores) :
    ∃ d ∈ s.bound, (s.cores k).dev = some d := by
  have hentry : ∀ d ∈ s.bound, (s.findCoreForDev d).getD 0 < s.numCores ∧
      (s.cores ((s.findCoreForDev d).getD 0)).dev = some d := by
    intro d hd
    obtain ⟨i, hi, hfind, hdev, -⟩ := sound.found d hd
    simp [hfind, hi, hdev]
  have hinj : Set.InjOn (fun d => (s.findCoreForDev d).getD 0) s.bound := by
    intro d hd e he heq
    have hd' := (hentry d hd).2
    rw [show (s.findCoreForDev d).getD 0 = (s.findCoreForDev e).getD 0 from heq,
      (hentry e he).2] at hd'
    exact (Option.some.inj hd').symm
  have himage : s.bound.image (fun d => (s.findCoreForDev d).getD 0) =
      Finset.range s.numCores := by
    refine Finset.eq_of_subset_of_card_le ?_ ?_
    · intro i hi
      obtain ⟨d, hd, rfl⟩ := Finset.mem_image.mp hi
      exact Finset.mem_range.mpr (hentry d hd).1
    · rw [Finset.card_image_of_injOn hinj, Finset.card_range, sound.count]
  obtain ⟨d, hd, rfl⟩ := Finset.mem_image.mp (himage ▸ Finset.mem_range.mpr hk)
  exact ⟨d, hd, (hentry d hd).2⟩

/-- An entry is found by its device as long as it stays below `num_cores` and no entry
before it changes. -/
theorem findCoreForDev_congr {t : State} {i : Nat} (hfind : s.findCoreForDev d = some i)
    (hi : i < t.numCores) (hcores : ∀ k ≤ i, t.cores k = s.cores k) :
    t.findCoreForDev d = some i := by
  obtain ⟨hdev, -, hbefore⟩ := findCoreForDev_eq_some.mp hfind
  refine findCoreForDev_eq_some.mpr ⟨?_, hi, fun k hk => ?_⟩
  · rw [hcores i (Nat.le_refl i)]
    exact hdev
  · rw [hcores k hk.le]
    exact hbefore k hk

/-- Setting up the DRM device clears only a table without entries. -/
theorem Sized.deviceInit_same (inv : Sized s) : s.deviceInit.numCores = s.numCores ∧
    ∀ k < s.numCores, s.deviceInit.cores k = s.cores k := by
  unfold State.deviceInit
  split
  · exact ⟨rfl, fun _ _ => rfl⟩
  · have hzero := inv.unused (by simpa using ‹¬ s.registered = true›)
    exact ⟨hzero.symm, fun k hk => by omega⟩

/-- The table `t` is `s` with the new device `d` after the last entry. -/
structure Appended (s t : State) (d : Nat) : Prop where
  new : d ∉ s.bound
  numCores : t.numCores = s.numCores + 1
  bound : t.bound = insert d s.bound
  slot : t.slot = update s.slot d (some s.numCores)
  registered : t.registered = true
  last : t.cores s.numCores = ⟨some d, s.numCores⟩
  cores : ∀ k < s.numCores, t.cores k = s.cores k

theorem Sized.appended (inv : Sized s) (h : enabled s (.probe d) = true) :
    Appended s (effect s (.probe d)) d := by
  obtain ⟨hnum, hsame⟩ := inv.deviceInit_same
  refine ⟨(of_decide_eq_true h).2, ?_, ?_, ?_, ?_, ?_, fun k hk => ?_⟩
  · simp [effect, State.append, hnum]
  · simp [effect, State.append]
  · simp [effect, State.append, hnum]
  · simp [effect, State.append]
  · simp [effect, State.append, hnum]
  · simpa [effect, State.append, hnum, Nat.ne_of_lt hk] using hsame k hk

section Appended
variable {t : State} {e : Nat}

/-- The new device had no entry. -/
theorem Appended.fresh (app : Appended s t d) (sound : TableSound s) {k : Nat}
    (hk : k < s.numCores) : (t.cores k).dev ≠ some d := by
  intro hdev
  rw [app.cores k hk] at hdev
  obtain ⟨e, he, hdev'⟩ := sound.occupied hk
  obtain rfl := Option.some.inj (hdev.symm.trans hdev')
  exact app.new he

theorem Appended.find_new (app : Appended s t d) (sound : TableSound s) :
    t.findCoreForDev d = some s.numCores := by
  refine findCoreForDev_eq_some.mpr ⟨by rw [app.last], ?_, fun k hk => app.fresh sound hk⟩
  exact app.numCores ▸ Nat.lt_succ_self _

theorem Appended.find_old (app : Appended s t d) (sound : TableSound s) (he : e ∈ s.bound) :
    t.findCoreForDev e = s.findCoreForDev e := by
  obtain ⟨i, hi, hfind, -⟩ := sound.found e he
  rw [hfind]
  exact findCoreForDev_congr hfind (app.numCores ▸ Nat.lt_succ_of_lt hi) fun k hk =>
    app.cores k (Nat.lt_of_le_of_lt hk hi)

/-- A bound device is the new one or was there before. -/
theorem Appended.cases (app : Appended s t d) (he : e ∈ t.bound) :
    e = d ∨ e ≠ d ∧ e ∈ s.bound := by
  rw [app.bound] at he
  rcases Finset.mem_insert.mp he with hed | he
  · exact Or.inl hed
  · exact Or.inr ⟨fun hed => app.new (hed ▸ he), he⟩

theorem Appended.found (app : Appended s t d) (sound : TableSound s) (he : e ∈ t.bound) :
    ∃ i < t.numCores, t.findCoreForDev e = some i ∧ (t.cores i).dev = some e ∧
      (t.cores i).index = i ∧ ∀ k < t.numCores, (t.cores k).dev = some e → k = i := by
  have hnum := app.numCores
  rcases app.cases he with rfl | ⟨hne, he⟩
  · refine ⟨s.numCores, by omega, app.find_new sound, by rw [app.last], by rw [app.last],
      fun k hk hdev => ?_⟩
    by_contra hlast
    exact app.fresh sound (by omega) hdev
  · obtain ⟨i, hi, hfind, hdev, hindex, honly⟩ := sound.found e he
    refine ⟨i, by omega, (app.find_old sound he).trans hfind, by rw [app.cores i hi, hdev],
      by rw [app.cores i hi, hindex], fun k hk hdevk => ?_⟩
    by_cases hkn : k = s.numCores
    · rw [hkn, app.last] at hdevk
      exact absurd (Option.some.inj hdevk).symm hne
    · have hk' : k < s.numCores := by omega
      exact honly k hk' (by rw [← app.cores k hk', hdevk])

end Appended

/-- Appending a device disturbs no entry. -/
theorem TableSound.probe (sound : TableSound s) (inv : Sized s)
    (h : enabled s (.probe d) = true) : TableSound (effect s (.probe d)) := by
  have app := inv.appended h
  have hnext := inv.preserve h
  generalize effect s (.probe d) = t at app hnext
  have hcard : t.numCores = t.bound.card := by
    rw [app.numCores, app.bound, Finset.card_insert_of_notMem app.new, sound.count]
  refine ⟨hcard, ?_, fun e he => app.found sound he, fun e he => ?_, fun e he => ?_, ?_⟩
  · rw [hcard, hnext.entries app.registered]
    exact Finset.card_le_card hnext.available
  · rw [app.slot]
    rcases app.cases he with rfl | ⟨hne, he⟩
    · rw [app.find_new sound, Function.update_self]
    · rw [app.find_old sound he, sound.own e he, Function.update_of_ne hne]
  · rw [app.slot, app.numCores]
    rcases app.cases he with rfl | ⟨hne, he⟩
    · simp
    · obtain ⟨i, hi, hfind, -⟩ := sound.found e he
      rw [Function.update_of_ne hne, ← sound.own e he, hfind]
      simp only [ne_eq, Option.some.injEq]
      omega
  · simp [app.registered, app.bound]

/-- Removing the last entry disturbs no other. -/
theorem TableSound.remove (sound : TableSound s) (last : RemovesLast s (.remove d))
    (h : enabled s (.remove d) = true) : TableSound (effect s (.remove d)) := by
  simp only [enabled, decide_eq_true_eq] at h
  obtain ⟨i, hi, hfind, -, -, honly⟩ := sound.found d h
  have hend : s.numCores - 1 = i := honly _ (by omega) (last d rfl)
  have hother : ∀ e ∈ s.bound.erase d, ∃ j < s.numCores - 1, s.findCoreForDev e = some j := by
    intro e he
    obtain ⟨hne, he⟩ := Finset.mem_erase.mp he
    obtain ⟨j, hj, hfinde, hdev, -⟩ := sound.found e he
    have hji : j ≠ s.numCores - 1 := by
      rintro rfl
      exact hne (Option.some.inj (hdev.symm.trans (last d rfl)))
    exact ⟨j, by omega, hfinde⟩
  have hcard : s.numCores - 1 = (s.bound.erase d).card := by
    rw [Finset.card_erase_of_mem h, sound.count]
  simp only [effect, hfind]
  constructor
  · exact hcard
  · exact (Nat.sub_le _ _).trans sound.room
  · intro e he
    obtain ⟨j, hj, hfinde⟩ := hother e he
    obtain ⟨k, hk, hfindk, hdev, hindex, honlye⟩ := sound.found e (Finset.mem_of_mem_erase he)
    obtain rfl := Option.some.inj (hfinde.symm.trans hfindk)
    exact ⟨j, hj, findCoreForDev_congr hfinde hj fun _ _ => rfl, hdev, hindex,
      fun l hl hdevl => honlye l (by simp only at hl; omega) hdevl⟩
  · intro e he
    obtain ⟨j, hj, hfinde⟩ := hother e he
    rw [← sound.own e (Finset.mem_of_mem_erase he), hfinde]
    exact findCoreForDev_congr hfinde hj fun _ _ => rfl
  · intro e he
    obtain ⟨j, hj, hfinde⟩ := hother e he
    rw [← sound.own e (Finset.mem_of_mem_erase he), hfinde]
    simp only [ne_eq, Option.some.injEq]
    omega
  · rw [← Finset.card_pos, ← hcard, decide_eq_true_eq, Nat.pos_iff_ne_zero]

/-- If another device were at the end, `num_cores` would fall below its entry. -/
theorem TableSound.removesLast (sound : TableSound s) (h : enabled s a = true)
    (after : TableSound (effect s a)) : RemovesLast s a := by
  rintro d rfl
  simp only [enabled, decide_eq_true_eq] at h
  obtain ⟨i, hi, hfind, -⟩ := sound.found d h
  obtain ⟨e, he, hdev⟩ := sound.occupied (show s.numCores - 1 < s.numCores by omega)
  by_cases hed : e = d
  · rw [hdev, hed]
  · simp only [effect, hfind] at after
    obtain ⟨j, hj, -, hdevj, -⟩ := after.found e (Finset.mem_erase.mpr ⟨hed, he⟩)
    obtain ⟨k, -, -, -, -, honly⟩ := sound.found e he
    have hjk := honly j (by simp only at hj; omega) hdevj
    have hlast := honly _ (by omega) hdev
    simp only at hj
    omega

end Basic

theorem TableSound.initial (devs : Finset Nat) : TableSound (State.init devs) where
  count := rfl
  room := Nat.le_refl 0
  found := fun d hd => absurd hd (Finset.notMem_empty d)
  own := fun d hd => absurd hd (Finset.notMem_empty d)
  kept := fun d hd => absurd hd (Finset.notMem_empty d)
  device := by simp [State.init]

/-- In every run of successful probes and removals the table describes the bound devices
after each call, each removal finalises the removed device's own entry, no probe
overwrites the entry of a bound device and the DRM device lives exactly while a
core is bound, if and only if each removal is of the device at the end of the
table, the one probed last of those still bound. -/
theorem table_sound_iff_removesLast {devs : Finset Nat} {acts : List Action} {t : State}
    (run : Runs binding (State.init devs) acts t) :
    Throughout binding TableSound (State.init devs) acts ↔
      Along binding RemovesLast (State.init devs) acts := by
  constructor
  · intro all
    refine along_of_throughout (fun _ => True) (fun _ _ _ _ _ => trivial) ?_ run all trivial
    intro s a t _ sound hstep after
    obtain ⟨h, rfl⟩ := binding_eq_some.mp hstep
    exact sound.removesLast h after
  · intro along
    refine throughout_of_along (fun s => Sized s ∧ TableSound s) ?_ (fun s inv => inv.2) along
      ⟨Sized.initial devs, TableSound.initial devs⟩
    rintro s a t ⟨inv, sound⟩ ok hstep
    obtain ⟨h, rfl⟩ := binding_eq_some.mp hstep
    refine ⟨inv.preserve h, ?_⟩
    cases a with
    | probe d => exact sound.probe inv h
    | remove d => exact sound.remove ok h

/-- Two cores are bound and the first is removed. -/
def firstRemovedSteps : List Action := [.probe 0, .probe 1, .remove 0]

theorem firstRemovedSteps_accepted :
    ((exec binding (State.init {0, 1}) firstRemovedSteps).map fun s =>
      decide (1 ∈ s.bound ∧ s.findCoreForDev 1 = none)) = some true := by
  decide

/-- The core that is still bound is no longer found. -/
theorem bound_core_lost :
    ¬ ∀ s, Runs binding (State.init {0, 1}) firstRemovedSteps s → TableSound s := by
  intro all
  obtain ⟨s, run, test⟩ := runs_of_test firstRemovedSteps_accepted
  obtain ⟨hbound, hfind⟩ := of_decide_eq_true test
  obtain ⟨i, -, hfound, -⟩ := (all s run).found 1 hbound
  simp [hfind] at hfound

theorem table_sound_iff_removesLast_on_firstRemovedSteps :
    ∃ t, Runs binding (State.init {0, 1}) firstRemovedSteps t ∧
      (Throughout binding TableSound (State.init {0, 1}) firstRemovedSteps ↔
        Along binding RemovesLast (State.init {0, 1}) firstRemovedSteps) := by
  obtain ⟨t, run, -⟩ := runs_of_test firstRemovedSteps_accepted
  exact ⟨t, run, table_sound_iff_removesLast run⟩

end Rkopnu.Table
