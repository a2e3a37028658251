import AbstractFlow.Proofs.Number.Rounding

/-! # Whole numbers

The number of a natural number is whole, however large: rounding it up or down to a whole number leaves it as
it is, and larger natural numbers have no smaller numbers.
-/
namespace AbstractFlow.Number

variable {m n : Nat} {x : Number}

/-- A natural number becomes its rounding, unless that is too large for a finite number. -/
theorem roundRatio_one_eq (n : Nat) :
    ∃ k, multiple k = rounded n * unit ∧ roundRatio n 1 = Nat.min k infiniteMagnitude := by
  rcases Nat.lt_or_ge n exactBound with hsmall | hlarge
  · obtain ⟨hmultiple, hfinite⟩ := multiple_roundRatio_one (Nat.le_of_lt hsmall)
    rw [rounded_of_lt hsmall]
    exact ⟨_, hmultiple, (Nat.min_eq_left (Nat.le_of_lt hfinite)).symm⟩
  · obtain ⟨hlow, hhigh⟩ := scaled_rounded_bounds hlarge
    have hunit : unit = 2 ^ 1074 := by decide +kernel
    refine ⟨_, ?_, roundRatio_of_le hlarge⟩
    rw [multiple_scaled _ hlow hhigh, rounded, hunit, Nat.mul_assoc, ← Nat.pow_add]

theorem roundRatio_one_mono (h : m ≤ n) : roundRatio m 1 ≤ roundRatio n 1 := by
  obtain ⟨k, hk, hm⟩ := roundRatio_one_eq m
  obtain ⟨l, hl, hn⟩ := roundRatio_one_eq n
  have hkl : k ≤ l := by
    rw [← strictMono_multiple.le_iff_le, hk, hl]
    exact Nat.mul_le_mul_right unit (rounded_mono h)
  rw [hm, hn]
  exact Nat.le_min.mpr ⟨(Nat.min_le_left _ _).trans hkl, Nat.min_le_right _ _⟩

theorem roundRatio_one_rounded (n : Nat) : roundRatio (rounded n) 1 = roundRatio n 1 := by
  obtain ⟨k, hk, hn⟩ := roundRatio_one_eq n
  obtain ⟨l, hl, hrounded⟩ := roundRatio_one_eq (rounded n)
  have hkl : l = k := strictMono_multiple.injective (by rw [hl, hk, rounded_rounded])
  rw [hrounded, hn, hkl]

theorem ofInt_natCast (n : Nat) : ofInt n = ⟨false, roundRatio n 1⟩ := by
  have hsign : decide ((n : Int) < 0) = false := decide_eq_false (by omega)
  rw [ofInt, ofRatio, hsign, Int.natAbs_natCast]

theorem key_ofInt_natCast (n : Nat) : (ofInt n).key = roundRatio n 1 := by
  rw [ofInt_natCast]
  rfl

theorem key_ofInt_natCast_mono (h : m ≤ n) : (ofInt m).key ≤ (ofInt n).key := by
  rw [key_ofInt_natCast, key_ofInt_natCast]
  exact Int.ofNat_le.mpr (roundRatio_one_mono h)

theorem exponent_ge (x : Number) : -1074 ≤ x.exponent := by
  unfold exponent
  dsimp only
  generalize x.magnitude / fractionSteps = field
  split <;> omega

/-- The significand of a number that stands for an integer, seen from either side of the point. -/
theorem significand_of_multiple (h : multiple x.magnitude = m * unit) :
    if 0 ≤ x.exponent then x.significand * 2 ^ x.exponent.toNat = m
      else x.significand = m * 2 ^ (-x.exponent).toNat := by
  obtain ⟨w, hw, hunit⟩ : ∃ w, w = 1074 ∧ unit = 2 ^ w := ⟨1074, rfl, by decide +kernel⟩
  have hge := exponent_ge x
  rw [multiple_eq] at h
  split
  · rename_i hexp
    have hsum : (x.exponent + 1074).toNat = x.exponent.toNat + w := by omega
    rw [hsum, Nat.pow_add, ← hunit, ← Nat.mul_assoc] at h
    exact Nat.eq_of_mul_eq_mul_right unit_pos h
  · have hsum : w = (-x.exponent).toNat + (x.exponent + 1074).toNat := by omega
    rw [hunit, hsum, Nat.pow_add, ← Nat.mul_assoc] at h
    exact Nat.eq_of_mul_eq_mul_right (Nat.two_pow_pos _) h

theorem wholePart_of_multiple (h : multiple x.magnitude = m * unit) (up : Bool) : x.wholePart up = m := by
  have hsignificand := significand_of_multiple h
  unfold wholePart
  split
  · rename_i hexp
    rw [if_pos hexp] at hsignificand
    exact hsignificand
  · rename_i hexp
    have hpos : 0 < 2 ^ (-x.exponent).toNat := Nat.two_pow_pos _
    rw [if_neg hexp] at hsignificand
    simp [hsignificand]

theorem roundRatio_wholePart (up : Bool) (h : (ofInt n).isFinite = true) :
    roundRatio ((ofInt n).wholePart up) 1 = roundRatio n 1 := by
  obtain ⟨k, hk, hn⟩ := roundRatio_one_eq n
  have hfinite : roundRatio n 1 < infiniteMagnitude := by
    rw [ofInt_natCast] at h
    exact of_decide_eq_true h
  have hkn : roundRatio n 1 = k := by
    rw [hn] at hfinite ⊢
    exact Nat.min_eq_left (Nat.le_of_not_lt fun hlt => by
      rw [show Nat.min k infiniteMagnitude = infiniteMagnitude from Nat.min_eq_right (Nat.le_of_lt hlt)] at hfinite
      exact Nat.lt_irrefl _ hfinite)
  have hmultiple : multiple (ofInt n).magnitude = rounded n * unit := by
    rw [ofInt_natCast]
    exact (congrArg multiple hkn).trans hk
  rw [wholePart_of_multiple hmultiple, roundRatio_one_rounded]

theorem floor_ofInt_natCast (n : Nat) : (ofInt n).floor = ofInt n := by
  have hfloor : (ofInt n).floor = if (ofInt n).isFinite then
      ⟨(ofInt n).negative, roundRatio ((ofInt n).wholePart (ofInt n).negative) 1⟩ else ofInt n := rfl
  rw [hfloor]
  split
  · rename_i hfinite
    rw [roundRatio_wholePart _ hfinite, ofInt_natCast]
  · rfl

theorem ceil_ofInt_natCast (n : Nat) : (ofInt n).ceil = ofInt n := by
  have hceil : (ofInt n).ceil = if (ofInt n).isFinite then
      ⟨(ofInt n).negative, roundRatio ((ofInt n).wholePart (!(ofInt n).negative)) 1⟩ else ofInt n := rfl
  rw [hceil]
  split
  · rename_i hfinite
    rw [roundRatio_wholePart _ hfinite, ofInt_natCast]
  · rfl

end AbstractFlow.Number
