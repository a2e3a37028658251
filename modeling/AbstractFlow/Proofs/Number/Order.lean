import AbstractFlow.Number.Basic

/-! # The order of numbers

Numbers that are not NaN are compared by their keys, under which both zeros are equal. The smaller
and the larger of two numbers tell the zeros apart, the negative one being the smaller: they follow a
finer order, that of places, in which no two numbers stand at the same place.
-/
namespace AbstractFlow.Number

variable {x y : Number}

theorem le_iff (hx : x.isNaN = false) (hy : y.isNaN = false) : x ≤ y ↔ x.key ≤ y.key := by
  simp [le_def, hx, hy]

theorem lt_iff (hx : x.isNaN = false) (hy : y.isNaN = false) : x < y ↔ x.key < y.key := by
  simp [lt_def, hx, hy]

theorem same_iff (hx : x.isNaN = false) (hy : y.isNaN = false) : x.same y = true ↔ x.key = y.key := by
  simp [same, hx, hy]

@[simp] theorem isNaN_negInf : negInf.isNaN = false := rfl

@[simp] theorem isNaN_posInf : posInf.isNaN = false := rfl

theorem isNaN_ofInt (n : Int) : (ofInt n).isNaN = false := by
  apply decide_eq_false
  simp only [ofInt, ofRatio, roundRatio]
  split
  · decide
  · exact Nat.not_lt.mpr (Nat.min_le_right _ _)

theorem key_between_infinities (hx : x.isNaN = false) : negInf.key ≤ x.key ∧ x.key ≤ posInf.key := by
  have hm : x.magnitude ≤ infiniteMagnitude := by simpa [isNaN] using hx
  have hneg : negInf.key = -(infiniteMagnitude : Int) := rfl
  have hpos : posInf.key = infiniteMagnitude := rfl
  rw [hneg, hpos]
  unfold key
  split <;> omega

/-- The place of a number where the negative zero stands before the positive one. -/
def place (x : Number) : Int := if x.negative then -2 * x.magnitude else 2 * x.magnitude + 1

theorem place_injective (h : x.place = y.place) : x = y := by
  rcases x with ⟨_ | _, m⟩ <;> rcases y with ⟨_ | _, n⟩ <;>
    simp only [place, Bool.false_eq_true, ↓reduceIte, mk.injEq, true_and, false_and, reduceCtorEq] at h ⊢ <;>
      omega

theorem place_lt_of_key_lt (h : x.key < y.key) : x.place < y.place := by
  rcases x with ⟨_ | _, m⟩ <;> rcases y with ⟨_ | _, n⟩ <;>
    simp only [key, place, Bool.false_eq_true, ↓reduceIte] at h ⊢ <;> omega

theorem key_le_of_place_le (h : x.place ≤ y.place) : x.key ≤ y.key := by
  rcases Int.lt_or_le y.key x.key with hlt | hle
  · have := place_lt_of_key_lt hlt
    omega
  · exact hle

theorem eq_or_zeros_of_key_eq (h : x.key = y.key) :
    x = y ∨ (x = ⟨true, 0⟩ ∧ y = ⟨false, 0⟩) ∨ (x = ⟨false, 0⟩ ∧ y = ⟨true, 0⟩) := by
  rcases x with ⟨_ | _, m⟩ <;> rcases y with ⟨_ | _, n⟩ <;>
    simp only [key, Bool.false_eq_true, ↓reduceIte, mk.injEq, true_and, false_and, reduceCtorEq] at h ⊢ <;>
      omega

theorem min_eq (x y : Number) : x.min y = if x.place ≤ y.place then x else y := by
  unfold min
  rcases Int.lt_trichotomy x.key y.key with h | h | h
  · rw [if_pos h, if_pos (Int.le_of_lt (place_lt_of_key_lt h))]
  · rcases eq_or_zeros_of_key_eq h with rfl | ⟨rfl, rfl⟩ | ⟨rfl, rfl⟩
    · simp
    · simp [key, place]
    · simp [key, place]
  · have hplace := place_lt_of_key_lt h
    rw [if_neg (by omega), if_pos h, if_neg (by omega)]

theorem max_eq (x y : Number) : x.max y = if x.place ≤ y.place then y else x := by
  unfold max
  rcases Int.lt_trichotomy x.key y.key with h | h | h
  · rw [if_pos h, if_pos (Int.le_of_lt (place_lt_of_key_lt h))]
  · rcases eq_or_zeros_of_key_eq h with rfl | ⟨rfl, rfl⟩ | ⟨rfl, rfl⟩
    · simp
    · simp [key, place]
    · simp [key, place]
  · have hplace := place_lt_of_key_lt h
    rw [if_neg (by omega), if_pos h, if_neg (by omega)]

end AbstractFlow.Number
