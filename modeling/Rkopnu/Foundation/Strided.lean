import Mathlib.Data.BitVec
import Mathlib.Data.List.Forall2

/-!
# Arrays read with a stride

The elements of an array lie a stride apart. Where the offset of an element is a product of
two words of `w` bits, it is the product modulo `2 ^ w`, and every element is read from where
it lies exactly when the offset of the last one fits into a word.
-/

namespace Rkopnu.Strided

variable {w W n : Nat} {β : Type*}

/-- Where element `i` lies. -/
def elementAddr (base : BitVec W) (stride : BitVec w) (i : Nat) : BitVec W :=
  base + BitVec.ofNat W (i * stride.toNat)

/-- The address of element `i` with the offset formed in `w` bits. -/
def strided (base : BitVec W) (stride : BitVec w) (i : Nat) : BitVec W :=
  base + (BitVec.ofNat w i * stride).setWidth W

/-- The list `l` holds the `n` elements that `read` finds where they lie, and `addr` is where
they are read from. -/
def ReadsArray (addr : Nat → BitVec W) (read : BitVec W → Option β) (base : BitVec W)
    (stride : BitVec w) (n : Nat) (l : List β) : Prop :=
  ∀ i < n, addr i = elementAddr base stride i ∧ l[i]? = read (elementAddr base stride i)

/-- The offset of the last element fits into a word. -/
def NoWrap (n : Nat) (stride : BitVec w) : Prop := (n - 1) * stride.toNat < 2 ^ w

instance (n : Nat) (stride : BitVec w) : Decidable (NoWrap n stride) :=
  inferInstanceAs (Decidable (_ < _))

section Addresses
variable {base : BitVec W} {stride : BitVec w} {i : Nat}

/-- An address is formed right exactly when its offset fits into a word. -/
theorem strided_eq_iff (hW : w + w ≤ W) (hi : i < 2 ^ w) :
    strided base stride i = elementAddr base stride i ↔ i * stride.toNat < 2 ^ w := by
  have hword : 2 ^ w ≤ 2 ^ W := Nat.pow_le_pow_right (by decide) (by omega)
  have hexact : i * stride.toNat < 2 ^ W := by
    have hmul : i * stride.toNat < 2 ^ w * 2 ^ w := Nat.mul_lt_mul'' hi stride.isLt
    rw [← Nat.pow_add] at hmul
    exact Nat.lt_of_lt_of_le hmul (Nat.pow_le_pow_right (by decide) hW)
  have hoffset : (BitVec.ofNat w i * stride).toNat = i * stride.toNat % 2 ^ w := by
    rw [BitVec.toNat_mul, BitVec.toNat_ofNat, Nat.mod_eq_of_lt hi]
  unfold strided elementAddr
  rw [BitVec.add_right_inj, ← BitVec.toNat_inj, BitVec.toNat_setWidth, BitVec.toNat_ofNat,
    hoffset, Nat.mod_eq_of_lt hexact]
  have hmod := Nat.mod_lt (i * stride.toNat) (Nat.two_pow_pos w)
  rw [Nat.mod_eq_of_lt (Nat.lt_of_lt_of_le hmod hword)]
  constructor
  · intro h
    rwa [h] at hmod
  · exact Nat.mod_eq_of_lt

/-- All addresses are formed right exactly when the last one is. -/
theorem forall_strided_iff (hW : w + w ≤ W) (hn : n ≤ 2 ^ w) :
    (∀ i < n, strided base stride i = elementAddr base stride i) ↔ NoWrap n stride := by
  constructor
  · intro h
    rcases Nat.eq_zero_or_pos n with rfl | hpos
    · rw [NoWrap, Nat.zero_sub, Nat.zero_mul]
      exact Nat.two_pow_pos w
    · exact (strided_eq_iff hW (by omega)).mp (h (n - 1) (by omega))
  · intro h i hi
    refine (strided_eq_iff hW (by omega)).mpr (Nat.lt_of_le_of_lt ?_ h)
    exact Nat.mul_le_mul_right _ (by omega)

/-- A list that was read from the addresses formed in `w` bits is the array exactly when the
last offset fits. -/
theorem readsArray_iff {addr : Nat → BitVec W} {read : BitVec W → Option β} {l : List β}
    (haddr : ∀ i, addr i = strided base stride i) (hl : ∀ i < n, l[i]? = read (addr i))
    (hW : w + w ≤ W) (hn : n ≤ 2 ^ w) :
    ReadsArray addr read base stride n l ↔ NoWrap n stride := by
  have hall : (∀ i < n, strided base stride i = elementAddr base stride i) ↔ NoWrap n stride :=
    forall_strided_iff hW hn
  rw [← hall]
  constructor
  · intro h i hi
    rw [← haddr, (h i hi).1]
  · intro h i hi
    have hright : addr i = elementAddr base stride i := by rw [haddr, h i hi]
    exact ⟨hright, by rw [hl i hi, hright]⟩

end Addresses

section Loops
variable {ε α : Type*}

/-- A loop over a list that stops at the first error succeeds when each of its rounds does. -/
theorem forall₂_of_mapM {f : α → Except ε β} {xs : List α} {l : List β}
    (h : xs.mapM f = .ok l) : List.Forall₂ (fun x b => f x = .ok b) xs l := by
  induction xs generalizing l with
  | nil =>
      obtain rfl : [] = l := by simpa [pure, Except.pure] using h
      exact .nil
  | cons x rest ih =>
      rw [List.mapM_cons] at h
      cases hx : f x with
      | error e => simp [hx, bind, Except.bind] at h
      | ok b =>
          cases hrest : rest.mapM f with
          | error e => simp [hx, hrest, bind, Except.bind] at h
          | ok bs =>
              obtain rfl : b :: bs = l := by
                simpa [hx, hrest, bind, Except.bind, pure, Except.pure] using h
              exact .cons hx (ih hrest)

/-- What round `i` of a counting loop yields is entry `i` of its list. -/
theorem getElem_of_mapM_range {f : Nat → Except ε β} {l : List β}
    (h : (List.range n).mapM f = .ok l) {i : Nat} (hi : i < n) :
    ∃ b, f i = .ok b ∧ l[i]? = some b := by
  have hall := forall₂_of_mapM h
  have hlength : i < l.length := by
    rw [← hall.length_eq, List.length_range]
    exact hi
  refine ⟨l[i], ?_, List.getElem?_eq_getElem hlength⟩
  simpa using hall.get (by simpa using hi) hlength

end Loops

end Rkopnu.Strided
