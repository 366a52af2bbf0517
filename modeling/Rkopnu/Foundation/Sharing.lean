import Rkopnu.Foundation.Transition

/-!
# Objects shared through a table

What a cache of shared objects is for, without any of its locks: whoever asks for the object of
a place is given the one that is there, or a new one that is there from then on; the object
lives as long as it is at its place or in somebody's hands. An implementation whose look-ups
take many steps is shown to be such a table by a simulation.

## Implementation notes

A user asks once. What it was given is recorded with the place, beside what it holds.
-/

namespace Rkopnu.Sharing

open Function (update)
open Transition

variable {ι υ α : Type*}

@[ext]
structure Table (ι υ α : Type*) where
  /-- The object at each place. -/
  entry : ι → Option α
  /-- What each user was given, and where. -/
  given : υ → Option (ι × α)
  /-- What each user holds. -/
  held : υ → Option α

inductive Event (ι υ α : Type*)
  | acquire (u : υ) (i : ι) (a : α)
  | release (u : υ)
  | clear (i : ι)

/-- No place has an object. -/
def Table.empty : Table ι υ α := ⟨fun _ => none, fun _ => none, fun _ => none⟩

namespace Table
variable (b : Table ι υ α)

/-- The object was never given to anybody. -/
def New (a : α) : Prop := ∀ u i, b.given u ≠ some (i, a)

/-- The object is at a place, or in somebody's hands. -/
def Alive (a : α) : Prop := (∃ i, b.entry i = some a) ∨ ∃ u, b.held u = some a

/-- What an event asks of the table. -/
def Allows : Event ι υ α → Prop
  | .acquire u i a => b.given u = none ∧ (b.entry i = some a ∨ b.entry i = none ∧ b.New a)
  | .release u => b.held u ≠ none
  | .clear i => b.entry i ≠ none

/-- What holds of a table in every run. -/
structure Sound : Prop where
  /-- Nobody is given an object for one place that anybody is given for another. -/
  placed : ∀ u v i k a, b.given u = some (i, a) → b.given v = some (k, a) → i = k
  entries : ∀ i a, b.entry i = some a → ∃ u, b.given u = some (i, a)
  hands : ∀ u a, b.held u = some a → ∃ i, b.given u = some (i, a)

variable {b}

/-- An object that is given now was given for this place only, if it was given before. -/
theorem Sound.place_of_acquire (sound : b.Sound) {u v : υ} {i k : ι} {a : α}
    (h : b.Allows (.acquire u i a)) (hv : b.given v = some (k, a)) : i = k := by
  obtain ⟨-, hentry | ⟨-, hnew⟩⟩ := h
  · obtain ⟨w, hw⟩ := sound.entries i a hentry
    exact sound.placed w v i k a hw hv
  · exact absurd hv (hnew v k)

theorem Sound.empty : (Table.empty : Table ι υ α).Sound where
  placed := fun _ _ _ _ _ h => by cases h
  entries := fun _ _ h => by cases h
  hands := fun _ _ h => by cases h

end Table

section Events
variable [DecidableEq ι] [DecidableEq υ]

/-- The table after an event. -/
def Table.after (b : Table ι υ α) : Event ι υ α → Table ι υ α
  | .acquire u i a =>
      ⟨update b.entry i (some a), update b.given u (some (i, a)), update b.held u (some a)⟩
  | .release u => { b with held := update b.held u none }
  | .clear i => { b with entry := update b.entry i none }

open Classical in
/-- The table as a transition system. -/
noncomputable def sharing : System (Table ι υ α) (Event ι υ α) := fun b e =>
  if b.Allows e then some (b.after e) else none

theorem sharing_eq_some {b d : Table ι υ α} {e : Event ι υ α} :
    sharing b e = some d ↔ b.Allows e ∧ b.after e = d := by
  unfold sharing
  split <;> simp_all

variable {b d : Table ι υ α} {e : Event ι υ α}

/-- What was given after an event was given before, or is given by it. -/
theorem given_after {u : υ} {i : ι} {a : α} (h : (b.after e).given u = some (i, a)) :
    b.given u = some (i, a) ∨ e = .acquire u i a := by
  cases e with
  | acquire v k c =>
      by_cases hu : u = v
      · subst hu
        obtain ⟨rfl, rfl⟩ : k = i ∧ c = a := by simpa [Table.after] using h
        exact Or.inr rfl
      · exact Or.inl (by simpa [Table.after, hu] using h)
  | release | clear => exact Or.inl h

theorem given_stays (h : b.Allows e) {u : υ} {x : ι × α} (hu : b.given u = some x) :
    (b.after e).given u = some x := by
  cases e with
  | acquire v k c =>
      have hne : u ≠ v := by
        rintro rfl
        cases hu.symm.trans h.1
      simpa [Table.after, hne] using hu
  | release | clear => exact hu

theorem Table.Sound.preserve (sound : b.Sound) (h : b.Allows e) : (b.after e).Sound where
  placed := fun u v i k a hu hv => by
    rcases given_after hu with hold | heq
    · rcases given_after hv with hold' | heq'
      · exact sound.placed u v i k a hold hold'
      · exact (sound.place_of_acquire (heq' ▸ h) hold).symm
    · rcases given_after hv with hold' | heq'
      · exact sound.place_of_acquire (heq ▸ h) hold'
      · exact (Event.acquire.inj (heq.symm.trans heq')).2.1
  entries := fun i a hi => by
    cases e with
    | acquire v k c =>
        by_cases hik : i = k
        · subst hik
          obtain rfl : c = a := by simpa [Table.after] using hi
          exact ⟨v, by simp [Table.after]⟩
        · obtain ⟨u, hu⟩ := sound.entries i a (by simpa [Table.after, hik] using hi)
          exact ⟨u, given_stays h hu⟩
    | release v => exact sound.entries i a hi
    | clear k =>
        by_cases hik : i = k
        · subst hik
          simp [Table.after] at hi
        · exact sound.entries i a (by simpa [Table.after, hik] using hi)
  hands := fun u a hu => by
    cases e with
    | acquire v k c =>
        by_cases huv : u = v
        · subst huv
          obtain rfl : c = a := by simpa [Table.after] using hu
          exact ⟨k, by simp [Table.after]⟩
        · obtain ⟨i, hi⟩ := sound.hands u a (by simpa [Table.after, huv] using hu)
          exact ⟨i, given_stays h hi⟩
    | release v =>
        by_cases huv : u = v
        · subst huv
          simp [Table.after] at hu
        · exact sound.hands u a (by simpa [Table.after, huv] using hu)
    | clear k => exact sound.hands u a hu

theorem Table.Sound.of_run {events : List (Event ι υ α)}
    (run : Runs sharing Table.empty events b) : b.Sound := by
  refine invariant Table.Sound (fun b e d sound hstep => ?_) run Table.Sound.empty
  obtain ⟨h, rfl⟩ := sharing_eq_some.mp hstep
  exact sound.preserve h

end Events

end Rkopnu.Sharing
