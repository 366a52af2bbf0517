import Mathlib.Data.Set.Card

/-!
# Reference counts and their holders

A holder refers to at most one object at a time. A family of counts is right
when each object's count is the number of holders that refer to it. Taking and
dropping a reference keep it right, and an object with a holder has a positive
count.
-/

namespace Rkopnu.Holding

open Function (update)

variable {ι α : Type*}

/-- The holders of one object. -/
def holders (hold : ι → Option α) (a : α) : Set ι := {i | hold i = some a}

/-- Each count is the number of holders, and only finitely many hold anything. -/
structure Counts (hold : ι → Option α) (count : α → Nat) : Prop where
  finite : {i | hold i ≠ none}.Finite
  count_eq : ∀ a, count a = (holders hold a).ncard

section Basic
variable {hold : ι → Option α} {count : α → Nat}

theorem Counts.finite_holders (h : Counts hold count) (a : α) : (holders hold a).Finite :=
  h.finite.subset fun i hi => by
    have : hold i = some a := hi
    simp [this]

/-- Nobody holds anything. -/
theorem counts_empty : Counts (fun _ : ι => (none : Option α)) fun _ => 0 where
  finite := by simp
  count_eq := fun a => by simp [holders]

theorem Counts.pos (h : Counts hold count) {i : ι} {a : α} (hi : hold i = some a) :
    0 < count a := by
  rw [h.count_eq a]
  exact (Set.ncard_pos (h.finite_holders a)).mpr ⟨i, hi⟩

/-- A counted object has a holder. -/
theorem Counts.exists_holder (h : Counts hold count) {a : α} (ha : 0 < count a) :
    ∃ i, hold i = some a := by
  rw [h.count_eq a] at ha
  exact (Set.ncard_pos (h.finite_holders a)).mp ha

/-- An object with count zero has no holder. -/
theorem Counts.free (h : Counts hold count) {a : α} (ha : count a = 0) (i : ι) :
    hold i ≠ some a := by
  intro hi
  have := h.pos hi
  omega

/-- An object counted once has one holder. -/
theorem Counts.unique (h : Counts hold count) {i k : ι} {a : α} (ha : count a = 1)
    (hi : hold i = some a) (hk : hold k = some a) : i = k := by
  rw [h.count_eq a] at ha
  exact (Set.ncard_le_one_iff (h.finite_holders a)).mp ha.le hi hk

end Basic

section Moves
variable [DecidableEq ι] [DecidableEq α] {hold : ι → Option α} {count : α → Nat}

theorem holders_take {i : ι} (hi : hold i = none) (a b : α) :
    holders (update hold i (some a)) b =
      if b = a then insert i (holders hold a) else holders hold b := by
  ext k
  by_cases hk : k = i
  · subst hk
    by_cases hb : b = a
    · simp [holders, hb]
    · simp [holders, hb, hi, Ne.symm hb]
  · by_cases hb : b = a
    · simp [holders, hb, hk]
    · simp [holders, hb, hk]

/-- A holder that held nothing takes a reference. -/
theorem Counts.take (h : Counts hold count) {i : ι} (hi : hold i = none) (a : α) :
    Counts (update hold i (some a)) (update count a (count a + 1)) where
  finite := by
    refine (h.finite.insert i).subset fun k hk => ?_
    by_cases hki : k = i
    · exact Or.inl hki
    · exact Or.inr (by simpa [hki] using hk)
  count_eq := fun b => by
    rw [holders_take hi]
    by_cases hb : b = a
    · have hnot : i ∉ holders hold a := by simp [holders, hi]
      simp [hb, h.count_eq a, Set.ncard_insert_of_notMem hnot (h.finite_holders a)]
    · simp [hb, h.count_eq b]

/-- A holder drops the reference it holds. -/
theorem Counts.drop (h : Counts hold count) {i : ι} {a : α} (hi : hold i = some a) :
    Counts (update hold i none) (update count a (count a - 1)) where
  finite := by
    refine h.finite.subset fun k hk => ?_
    by_cases hki : k = i
    · exact absurd (by simp [hki]) hk
    · simpa [hki] using hk
  count_eq := fun b => by
    have hretake : holders hold b =
        if b = a then insert i (holders (update hold i none) a)
        else holders (update hold i none) b := by
      rw [← holders_take (by simp) a b, Function.update_idem, ← hi, Function.update_eq_self]
    by_cases hb : b = a
    · subst hb
      have hnot : i ∉ holders (update hold i none) b := by simp [holders]
      have hfin : (holders (update hold i none) b).Finite :=
        (h.finite_holders b).subset (by rw [hretake, if_pos rfl]; exact Set.subset_insert _ _)
      have hcount := h.count_eq b
      rw [hretake, if_pos rfl, Set.ncard_insert_of_notMem hnot hfin] at hcount
      simp [hcount]
    · simp [hb, h.count_eq b, hretake]

/-- A holder hands its reference to one that held nothing. -/
theorem Counts.move (h : Counts hold count) {i k : ι} {a : α} (hi : hold i = some a)
    (hk : hold k = none) : Counts (update (update hold i none) k (some a)) count := by
  have hne : k ≠ i := by
    rintro rfl
    simp [hk] at hi
  have hpos := h.pos hi
  have hmoved := (h.drop hi).take (show update hold i none k = none by simpa [hne] using hk) a
  have hsame : update (update count a (count a - 1)) a
      (update count a (count a - 1) a + 1) = count := by
    funext b
    by_cases hb : b = a
    · subst hb
      simp only [Function.update_self]
      omega
    · simp [hb]
  rwa [hsame] at hmoved

end Moves

end Rkopnu.Holding
