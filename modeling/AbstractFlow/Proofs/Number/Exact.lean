import AbstractFlow.Proofs.Number.Order
import Mathlib

/-! # Exact values of numbers

Every finite number is a multiple of the smallest positive one, and its multiple grows with its key. An
integer of at most 53 bits becomes a number without being rounded.
-/
namespace AbstractFlow.Number

variable {x y : Number}

/-- How many times the smallest positive number a magnitude is. -/
def multiple (m : Nat) : Nat :=
  if m / fractionSteps = 0 then m else (fractionSteps + m % fractionSteps) * 2 ^ (m / fractionSteps - 1)

theorem multiple_eq (x : Number) :
    multiple x.magnitude = x.significand * 2 ^ (x.exponent + 1074).toNat := by
  unfold multiple significand exponent
  dsimp only
  split
  · simp
  · rename_i hfield
    generalize x.magnitude / fractionSteps = field at hfield ⊢
    have hexp : (field : Int) - 1075 + 1074 = ((field - 1 : Nat) : Int) := by omega
    rw [hexp, Int.toNat_natCast]

theorem multiple_lt_succ (m : Nat) : multiple m < multiple (m + 1) := by
  -- The next magnitude lies between the same powers of two, or is the next power itself.
  have hsucc : ((m + 1) / fractionSteps = m / fractionSteps ∧
        (m + 1) % fractionSteps = m % fractionSteps + 1) ∨
      ((m + 1) / fractionSteps = m / fractionSteps + 1 ∧ (m + 1) % fractionSteps = 0 ∧
        m % fractionSteps + 1 = fractionSteps) := by
    unfold fractionSteps
    omega
  unfold multiple
  rcases hsucc with ⟨hdiv, hmod⟩ | ⟨hdiv, hmod, hlast⟩
  · rw [hdiv, hmod]
    split
    · exact Nat.lt_succ_self m
    · exact Nat.mul_lt_mul_of_pos_right (by omega) (Nat.two_pow_pos _)
  · rw [hdiv, hmod, if_neg (Nat.succ_ne_zero (m / fractionSteps))]
    by_cases hfield : m / fractionSteps = 0
    · rw [if_pos hfield, hfield]
      unfold fractionSteps at *
      omega
    · rw [if_neg hfield]
      obtain ⟨k, hk⟩ := Nat.exists_eq_succ_of_ne_zero hfield
      have hk' : m / fractionSteps = k + 1 := hk
      calc (fractionSteps + m % fractionSteps) * 2 ^ (m / fractionSteps - 1)
          < 2 * fractionSteps * 2 ^ (m / fractionSteps - 1) :=
            Nat.mul_lt_mul_of_pos_right (by omega) (Nat.two_pow_pos _)
        _ = (fractionSteps + 0) * 2 ^ (m / fractionSteps + 1 - 1) := by
            rw [hk', Nat.add_sub_cancel, Nat.add_sub_cancel, Nat.pow_succ]
            ring

theorem strictMono_multiple : StrictMono multiple := strictMono_nat_of_lt_succ multiple_lt_succ

/-- A number as a multiple of the smallest positive one. -/
def units (x : Number) : Int :=
  if x.negative then -(multiple x.magnitude : Int) else multiple x.magnitude

theorem units_lt_iff : x.units < y.units ↔ x.key < y.key := by
  have hzero : multiple 0 = 0 := rfl
  have hx : x.magnitude = 0 ∨ 0 < multiple x.magnitude := by
    rcases Nat.eq_zero_or_pos x.magnitude with h | h
    · exact Or.inl h
    · exact Or.inr (hzero ▸ strictMono_multiple h)
  have hy : y.magnitude = 0 ∨ 0 < multiple y.magnitude := by
    rcases Nat.eq_zero_or_pos y.magnitude with h | h
    · exact Or.inl h
    · exact Or.inr (hzero ▸ strictMono_multiple h)
  have hlt := strictMono_multiple.lt_iff_lt (a := x.magnitude) (b := y.magnitude)
  have hgt := strictMono_multiple.lt_iff_lt (a := y.magnitude) (b := x.magnitude)
  have hx' : x.magnitude = 0 → multiple x.magnitude = 0 := fun h => h ▸ hzero
  have hy' : y.magnitude = 0 → multiple y.magnitude = 0 := fun h => h ▸ hzero
  unfold units key
  split <;> split <;> omega

/-- The exact value of a number that is not NaN, the infinities included. -/
def quantity (x : Number) : WithBot (WithTop Int) :=
  if x.isFinite then ((x.units : WithTop Int) : WithBot (WithTop Int)) else if x.negative then ⊥ else ⊤

theorem quantity_of_finite (h : x.isFinite = true) :
    x.quantity = ((x.units : WithTop Int) : WithBot (WithTop Int)) := if_pos h

theorem eq_infinity (hx : x.isNaN = false) (h : x.isFinite = false) : x = negInf ∨ x = posInf := by
  obtain ⟨negative, m⟩ := x
  simp only [isNaN, isFinite, decide_eq_false_iff_not, not_lt] at hx h
  have hm : m = infiniteMagnitude := Nat.le_antisymm hx h
  cases negative
  · exact Or.inr (by rw [hm]; rfl)
  · exact Or.inl (by rw [hm]; rfl)

theorem key_of_finite (h : x.isFinite = true) : negInf.key < x.key ∧ x.key < posInf.key := by
  have hm : x.magnitude < infiniteMagnitude := by simpa [isFinite] using h
  have hneg : negInf.key = -(infiniteMagnitude : Int) := rfl
  have hpos : posInf.key = infiniteMagnitude := rfl
  rw [hneg, hpos]
  unfold key
  split <;> omega

@[simp] theorem quantity_negInf : negInf.quantity = ⊥ := rfl

@[simp] theorem quantity_posInf : posInf.quantity = ⊤ := rfl

theorem quantity_lt_iff (hx : x.isNaN = false) (hy : y.isNaN = false) :
    x.quantity < y.quantity ↔ x.key < y.key := by
  have hinf : negInf.key < posInf.key := by decide
  -- Finite numbers are compared by their units, and the infinities lie outside them on either side.
  cases hfx : x.isFinite with
  | true =>
    have hkx := key_of_finite hfx
    rw [quantity_of_finite hfx]
    cases hfy : y.isFinite with
    | true =>
      rw [quantity_of_finite hfy, WithBot.coe_lt_coe, WithTop.coe_lt_coe]
      exact units_lt_iff
    | false =>
      rcases eq_infinity hy hfy with rfl | rfl
      · simp only [quantity_negInf, not_lt_bot, false_iff]
        omega
      · simp only [quantity_posInf, hkx.2, iff_true]
        exact WithBot.coe_lt_coe.mpr (WithTop.coe_lt_top _)
  | false =>
    have hky := key_between_infinities hy
    rcases eq_infinity hx hfx with rfl | rfl
    · cases hfy : y.isFinite with
      | true =>
        rw [quantity_of_finite hfy]
        simp only [quantity_negInf, (key_of_finite hfy).1, iff_true]
        exact WithBot.bot_lt_coe _
      | false => rcases eq_infinity hy hfy with rfl | rfl <;> simp [hinf]
    · simp only [quantity_posInf, not_top_lt, false_iff]
      omega

theorem quantity_eq_iff (hx : x.isNaN = false) (hy : y.isNaN = false) :
    x.quantity = y.quantity ↔ x.key = y.key := by
  have hlt := quantity_lt_iff hx hy
  have hgt := quantity_lt_iff hy hx
  rcases lt_trichotomy x.quantity y.quantity with h | h | h
  · have := hlt.mp h
    simp only [h.ne, false_iff]
    omega
  · have h' : ¬ x.key < y.key ∧ ¬ y.key < x.key := ⟨fun hk => (hlt.mpr hk).ne h, fun hk => (hgt.mpr hk).ne h.symm⟩
    simp only [h, true_iff]
    omega
  · have := hgt.mp h
    simp only [h.ne', false_iff]
    omega

/-- The largest integer below which all are numbers. -/
def exactBound : Nat := 2 ^ 53

theorem roundHalfEven_one (n : Nat) : roundHalfEven n 1 = n := by
  simp [roundHalfEven, Nat.mod_one]

theorem scaled_bounds {n : Nat} (hpos : 0 < n) (h : n < exactBound) :
    Nat.log2 n < 53 ∧ fractionSteps ≤ n * 2 ^ (52 - Nat.log2 n) ∧
      n * 2 ^ (52 - Nat.log2 n) < 2 * fractionSteps := by
  have hlog : Nat.log2 n < 53 := (Nat.log2_lt hpos.ne').mpr h
  refine ⟨hlog, ?_, ?_⟩
  · calc fractionSteps = 2 ^ Nat.log2 n * 2 ^ (52 - Nat.log2 n) := by
          rw [← Nat.pow_add, Nat.add_sub_cancel' (Nat.le_of_lt_succ hlog)]
          rfl
      _ ≤ n * 2 ^ (52 - Nat.log2 n) := Nat.mul_le_mul_right _ (Nat.log2_self_le hpos.ne')
  · calc n * 2 ^ (52 - Nat.log2 n) < 2 ^ (Nat.log2 n + 1) * 2 ^ (52 - Nat.log2 n) :=
          Nat.mul_lt_mul_of_pos_right Nat.lt_log2_self (Nat.two_pow_pos _)
      _ = 2 * fractionSteps := by
          rw [← Nat.pow_add, Nat.add_right_comm, Nat.add_sub_cancel' (Nat.le_of_lt_succ hlog)]
          rfl

theorem roundRatio_one {n : Nat} (hpos : 0 < n) (h : n < exactBound) :
    roundRatio n 1 = (Nat.log2 n + 1022) * fractionSteps + n * 2 ^ (52 - Nat.log2 n) := by
  obtain ⟨hlog, hlow, hhigh⟩ := scaled_bounds hpos h
  have hlog₁ : Nat.log2 1 = 0 := rfl
  have hsteps : fractionSteps = 4503599627370496 := rfl
  have hinf : infiniteMagnitude = 2047 * fractionSteps := rfl
  have hestimate : (Nat.log2 n : Int) - (0 : Nat) - 52 = -((52 - Nat.log2 n : Nat) : Int) := by omega
  unfold roundRatio
  rw [if_neg hpos.ne', hlog₁, hestimate]
  generalize hd : 52 - Nat.log2 n = d at hlow hhigh ⊢
  -- The estimate is right: the scaled integer fills all bits of a significand.
  have hscaled : (if (0 : Int) ≤ -(d : Int) then (n, 1 * Nat.pow 2 (-(d : Int)).toNat)
      else (n * Nat.pow 2 (- -(d : Int)).toNat, 1)) = (n * 2 ^ d, 1) := by
    cases d with
    | zero => simp
    | succ d =>
      rw [if_neg (by omega), Int.neg_neg, Int.toNat_natCast]
      rfl
  simp only [hscaled, Nat.mul_one, hlow, decide_true, ↓reduceIte]
  rw [if_neg (by omega), hscaled]
  dsimp only
  rw [roundHalfEven_one]
  have hfield : (-(d : Int) + 1074).toNat = Nat.log2 n + 1022 := by omega
  rw [hfield]
  refine Nat.min_eq_left ?_
  rw [hinf, hsteps] at *
  omega

theorem multiple_field (q : Nat) {r : Nat} (hr : r < fractionSteps) :
    multiple ((q + 1) * fractionSteps + r) = (fractionSteps + r) * 2 ^ q := by
  have hdiv : ((q + 1) * fractionSteps + r) / fractionSteps = q + 1 := by
    unfold fractionSteps at *
    omega
  have hmod : ((q + 1) * fractionSteps + r) % fractionSteps = r := by
    unfold fractionSteps at *
    omega
  rw [multiple, hdiv, hmod, if_neg (Nat.succ_ne_zero q), Nat.add_sub_cancel]

/-- Shifting a significand and counting the shift in the exponent cancel out. -/
theorem multiple_shift {n k : Nat} (q : Nat) (hk : k < 53) (hlow : fractionSteps ≤ n * 2 ^ (52 - k))
    (hhigh : n * 2 ^ (52 - k) < 2 * fractionSteps) :
    multiple ((k + q) * fractionSteps + n * 2 ^ (52 - k)) = n * multiple ((q + 1) * fractionSteps) := by
  have hsteps : fractionSteps = 2 ^ 52 := by decide
  have hone := multiple_field q (r := 0) (by decide)
  rw [Nat.add_zero] at hone
  calc multiple ((k + q) * fractionSteps + n * 2 ^ (52 - k))
      = multiple ((k + q + 1) * fractionSteps + (n * 2 ^ (52 - k) - fractionSteps)) := by
        rw [Nat.succ_mul (k + q), Nat.add_assoc, Nat.add_sub_cancel' hlow]
    _ = (fractionSteps + (n * 2 ^ (52 - k) - fractionSteps)) * 2 ^ (k + q) := multiple_field _ (by omega)
    _ = n * (2 ^ (52 - k) * 2 ^ (k + q)) := by rw [Nat.add_sub_cancel' hlow, Nat.mul_assoc]
    _ = n * (fractionSteps * 2 ^ q) := by
        have hexp : 52 - k + (k + q) = 52 + q := by omega
        rw [hsteps, ← Nat.pow_add, ← Nat.pow_add, hexp]
    _ = n * multiple ((q + 1) * fractionSteps) := by rw [hone]; rfl

/-- How many times the smallest positive number one is. -/
def unit : Nat := multiple one.magnitude

/-- A small integer is a number exactly. -/
theorem multiple_roundRatio_one {n : Nat} (h : n ≤ exactBound) :
    multiple (roundRatio n 1) = n * unit ∧ roundRatio n 1 < infiniteMagnitude := by
  rcases Nat.eq_zero_or_pos n with rfl | hpos
  · rw [Nat.zero_mul]
    exact ⟨rfl, by decide⟩
  rcases Nat.lt_or_eq_of_le h with h | rfl
  · obtain ⟨hlog, hlow, hhigh⟩ := scaled_bounds hpos h
    rw [roundRatio_one hpos h]
    refine ⟨multiple_shift 1022 hlog hlow hhigh, ?_⟩
    have hinf : infiniteMagnitude = 2047 * fractionSteps := rfl
    rw [hinf]
    generalize n * 2 ^ (52 - Nat.log2 n) = k at hhigh ⊢
    unfold fractionSteps at *
    omega
  · exact ⟨by decide +kernel, by decide +kernel⟩

theorem quantity_ofInt {n : Int} (h : n.natAbs ≤ exactBound) :
    (ofInt n).isFinite = true ∧ (ofInt n).quantity = ((n * unit : Int) : WithTop Int) := by
  obtain ⟨hmultiple, hlt⟩ := multiple_roundRatio_one h
  have hfinite : (ofInt n).isFinite = true := decide_eq_true hlt
  refine ⟨hfinite, ?_⟩
  rw [quantity_of_finite hfinite]
  congr 2
  simp only [units, ofInt, ofRatio, hmultiple]
  split
  · rename_i hneg
    have habs : (n.natAbs : Int) = -n := by
      have := of_decide_eq_true hneg
      omega
    rw [Int.natCast_mul, habs, Int.neg_mul, Int.neg_neg]
  · rename_i hneg
    have habs : (n.natAbs : Int) = n := by
      have := of_decide_eq_false (Bool.eq_false_of_not_eq_true hneg)
      omega
    rw [Int.natCast_mul, habs]

theorem quantity_bool (b : Bool) :
    (if b then one else zero).quantity = ((b.toInt * unit : Int) : WithTop Int) := by
  cases b with
  | false =>
    have hunits : zero.units = Bool.false.toInt * unit := by
      rw [Bool.toInt_false, Int.zero_mul]
      rfl
    rw [if_neg Bool.false_ne_true, quantity_of_finite (by decide), hunits]
  | true =>
    have hunits : one.units = Bool.true.toInt * unit := by
      rw [Bool.toInt_true, Int.one_mul]
      exact if_neg Bool.false_ne_true
    rw [if_pos rfl, quantity_of_finite (by decide), hunits]

end AbstractFlow.Number
