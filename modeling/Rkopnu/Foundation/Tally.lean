import Mathlib.Data.Finset.Card
import Mathlib.Data.Finset.Range

/-!
# Counting the members of a finite index set with a property

A reference count is compared with the number of indices that hold a
reference. One step of a program moves the property at one index, so the
count moves by one.
-/

namespace Rkopnu.Tally

variable {ι : Type*}

/-- How many members of `S` have the property. -/
def tally (S : Finset ι) (p : ι → Prop) [DecidablePred p] : Nat := (S.filter p).card

theorem tally_congr {S : Finset ι} {p q : ι → Prop} [DecidablePred p] [DecidablePred q]
    (h : ∀ i ∈ S, p i ↔ q i) : tally S p = tally S q := by
  unfold tally
  exact congrArg Finset.card (Finset.filter_congr h)

/-- The property appears at exactly one index. -/
theorem tally_gain [DecidableEq ι] {S : Finset ι} {p q : ι → Prop} [DecidablePred p]
    [DecidablePred q] {a : ι} (ha : a ∈ S) (hp : ¬ p a) (hq : q a)
    (h : ∀ i ∈ S, i ≠ a → (p i ↔ q i)) : tally S q = tally S p + 1 := by
  have hins : S.filter q = insert a (S.filter p) := by
    ext i
    by_cases hi : i = a
    · subst hi
      simp [ha, hq]
    · by_cases hS : i ∈ S
      · simp [hi, hS, h i hS hi]
      · simp [hi, hS]
  have hnot : a ∉ S.filter p := by simp [hp]
  unfold tally
  rw [hins, Finset.card_insert_of_notMem hnot]

/-- The property disappears at exactly one index. -/
theorem tally_loss [DecidableEq ι] {S : Finset ι} {p q : ι → Prop} [DecidablePred p]
    [DecidablePred q] {a : ι} (ha : a ∈ S) (hp : p a) (hq : ¬ q a)
    (h : ∀ i ∈ S, i ≠ a → (p i ↔ q i)) : tally S p = tally S q + 1 :=
  tally_gain ha hq hp fun i hi hne => (h i hi hne).symm

end Rkopnu.Tally
