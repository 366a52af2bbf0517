import Mathlib.Logic.Function.Basic

/-!
# Ranges in pages

A range of bytes whose start is a multiple of the page size is backed by whole
pages, so it takes its size rounded up. Two such ranges that do not meet do not
meet after the rounding either, since the start of the higher one is a page
boundary, and a range that ends below a page boundary still does.

A page table sends page numbers to pages. Mapping fills a stretch of it, and
unmapping empties page after page until it comes to a page that is not mapped.
-/

namespace Rkopnu.Paging

open Function (update)

/-- The least multiple of `p` from `n` on. -/
def roundUp (p n : Nat) : Nat := (n + p - 1) / p * p

section Rounding
variable {p a b m n : Nat}

theorem dvd_roundUp (p n : Nat) : p ∣ roundUp p n := Nat.dvd_mul_left p _

theorem le_roundUp (hp : 0 < p) (n : Nat) : n ≤ roundUp p n := by
  unfold roundUp
  have hdiv := Nat.div_add_mod (n + p - 1) p
  have hmod := Nat.mod_lt (n + p - 1) hp
  rw [Nat.mul_comm] at hdiv
  omega

theorem roundUp_lt (hp : 0 < p) (n : Nat) : roundUp p n < n + p := by
  unfold roundUp
  have hle := Nat.div_mul_le_self (n + p - 1) p
  omega

/-- A multiple of the page size bounds the rounded size when it bounds the size. -/
theorem roundUp_le (hp : 0 < p) (hm : p ∣ m) : roundUp p n ≤ m ↔ n ≤ m := by
  refine ⟨Nat.le_trans (le_roundUp hp n), fun h => ?_⟩
  obtain ⟨k, rfl⟩ := hm
  unfold roundUp
  rw [Nat.mul_comm p k]
  refine Nat.mul_le_mul_right p ?_
  rw [← Nat.lt_succ_iff, Nat.div_lt_iff_lt_mul hp, Nat.succ_mul]
  rw [Nat.mul_comm] at h
  omega

theorem roundUp_pos (hp : 0 < p) (hn : 0 < n) : 0 < roundUp p n :=
  Nat.lt_of_lt_of_le hn (le_roundUp hp n)

/-- What ends before a page boundary still does after its size is rounded up. -/
theorem add_roundUp_le (hp : 0 < p) (ha : p ∣ a) (hb : p ∣ b) (h : a + n ≤ b) :
    a + roundUp p n ≤ b := by
  have hdvd : p ∣ b - a := Nat.dvd_sub hb ha
  have hle : roundUp p n ≤ b - a := (roundUp_le hp hdvd).mpr (by omega)
  omega

/-- Two ranges, given by start and size, have no byte in common. -/
def Apart (a m b n : Nat) : Prop := a + m ≤ b ∨ b + n ≤ a

instance : Decidable (Apart a m b n) := inferInstanceAs (Decidable (_ ∨ _))

theorem Apart.symm (h : Apart a m b n) : Apart b n a m := Or.symm h

/-- Ranges that start on page boundaries and are apart stay apart in whole pages. -/
theorem Apart.roundUp (hp : 0 < p) (ha : p ∣ a) (hb : p ∣ b) (h : Apart a m b n) :
    Apart a (roundUp p m) b (roundUp p n) :=
  h.imp (add_roundUp_le hp ha hb) (add_roundUp_le hp hb ha)

end Rounding

/-- The page behind each page number. -/
abbrev PageTable (α : Type*) := Nat → Option α

namespace PageTable
variable {α : Type*}

/-- No page of the stretch is mapped. -/
def Free (t : PageTable α) (q n : Nat) : Prop := ∀ i < n, t (q + i) = none

instance (t : PageTable α) (q n : Nat) : Decidable (t.Free q n) :=
  inferInstanceAs (Decidable (∀ i < n, t (q + i) = none))

/-- Map the pages `page 0`, `page 1`, ... behind the stretch. -/
def map (t : PageTable α) (q n : Nat) (page : Nat → α) : PageTable α := fun x =>
  if q ≤ x ∧ x < q + n then some (page (x - q)) else t x

/-- Unmap the stretch page by page, up to the first page that is not mapped, and
count what was unmapped. -/
def unmap (t : PageTable α) (q : Nat) : Nat → PageTable α × Nat
  | 0 => (t, 0)
  | n + 1 =>
      if t q = none then (t, 0)
      else
        let rest := unmap (update t q none) (q + 1) n
        (rest.1, rest.2 + 1)

variable {t : PageTable α} {q n x : Nat}

/-- A stretch that is mapped throughout is unmapped throughout, and nothing else is. -/
theorem unmap_of_mapped (h : ∀ i < n, t (q + i) ≠ none) :
    t.unmap q n = (fun x => if q ≤ x ∧ x < q + n then none else t x, n) := by
  induction n generalizing t q with
  | zero =>
      have hnone : ∀ x, ¬ (q ≤ x ∧ x < q) := by omega
      simp [unmap, hnone]
  | succ n ih =>
      have hfirst : t q ≠ none := by simpa using h 0 (by omega)
      have hrest : ∀ i < n, update t q none (q + 1 + i) ≠ none := by
        intro i hi
        have hne : q + 1 + i ≠ q := by omega
        simpa [hne, Nat.add_assoc, Nat.add_comm 1 i] using h (i + 1) (by omega)
      simp only [unmap, hfirst, if_false, ih hrest]
      refine Prod.ext ?_ rfl
      funext x
      by_cases hx : x = q
      · subst hx
        simp
      · have hsame : (q + 1 ≤ x ∧ x < q + 1 + n) = (q ≤ x ∧ x < q + (n + 1)) :=
          propext (by omega)
        simp only [hsame, Function.update_of_ne hx]

end PageTable

end Rkopnu.Paging
