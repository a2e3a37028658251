import AbstractFlow.Number.Decimal
import AbstractFlow.Number.Word
import AbstractFlow.Proofs.Number.Exact
import Mathlib

/-! # Integers as numbers

An integer becomes the nearest multiple of a power of two that leaves 53 bits, the even one of two. Larger
integers never become smaller numbers, so two integers come in the wrong order only by becoming the same
number; and the integer that a number stands for becomes that number again. A count that goes up has fewer
numbers than values.
-/
namespace AbstractFlow.Number

variable {a d m n : Nat}

section HalfEven

theorem roundHalfEven_mul (hd : 0 < d) : roundHalfEven (a * d) d = a := by
  simp [roundHalfEven, Nat.mul_mod_left, Nat.mul_div_cancel a hd, hd]

theorem le_roundHalfEven (hd : 0 < d) (h : a * d ≤ n) : a ≤ roundHalfEven n d := by
  have hwhole : a ≤ n / d := (Nat.le_div_iff_mul_le hd).mpr h
  unfold roundHalfEven
  dsimp only
  split_ifs <;> omega

theorem roundHalfEven_le (hd : 0 < d) (h : n ≤ a * d) : roundHalfEven n d ≤ a := by
  rcases Nat.lt_or_eq_of_le h with h | rfl
  · have hwhole : n / d < a := (Nat.div_lt_iff_lt_mul hd).mpr h
    unfold roundHalfEven
    dsimp only
    split_ifs <;> omega
  · rw [roundHalfEven_mul hd]

theorem roundHalfEven_mono (hd : 0 < d) (h : m ≤ n) : roundHalfEven m d ≤ roundHalfEven n d := by
  rcases Nat.lt_or_eq_of_le (Nat.div_le_div_right (c := d) h) with hlt | heq
  · refine Nat.le_trans (roundHalfEven_le hd ?_) (le_roundHalfEven hd (Nat.div_mul_le_self n d))
    exact Nat.le_trans (Nat.le_of_lt (Nat.lt_mul_of_div_lt (Nat.lt_succ_self _) hd))
      (Nat.mul_le_mul_right d hlt)
  · -- With the same whole part, the larger integer leaves the larger rest.
    have hrest : m % d ≤ n % d := by
      have hm := Nat.div_add_mod m d
      have hn := Nat.div_add_mod n d
      rw [heq] at hm
      omega
    unfold roundHalfEven
    dsimp only
    rw [heq]
    split_ifs <;> omega

end HalfEven

/-- How many of the last bits of an integer its number does not keep. -/
def lostBits (n : Nat) : Nat := Nat.log2 n - 52

/-- The whole number that an integer becomes. -/
def rounded (n : Nat) : Nat := roundHalfEven n (2 ^ lostBits n) * 2 ^ lostBits n

theorem rounded_of_dvd (h : 2 ^ lostBits n ∣ n) : rounded n = n := by
  have hscaled := roundHalfEven_mul (a := n / 2 ^ lostBits n) (Nat.two_pow_pos (lostBits n))
  rw [Nat.div_mul_cancel h] at hscaled
  rw [rounded, hscaled, Nat.div_mul_cancel h]

theorem lostBits_of_lt (h : n < exactBound) : lostBits n = 0 := by
  rcases Nat.eq_zero_or_pos n with rfl | hpos
  · rfl
  · have := (scaled_bounds hpos h).1
    unfold lostBits
    omega

theorem lostBits_le (h : n ≤ Word.size) : lostBits n ≤ 12 := by
  rcases Nat.eq_zero_or_pos n with rfl | hpos
  · exact Nat.zero_le _
  · have hlog : Nat.log2 n < 65 := (Nat.log2_lt hpos.ne').mpr (Nat.lt_of_le_of_lt h (by decide))
    unfold lostBits
    omega

theorem rounded_of_lt (h : n < exactBound) : rounded n = n :=
  rounded_of_dvd (by rw [lostBits_of_lt h]; exact Nat.one_dvd n)

theorem pow_le_rounded {j : Nat} (hj : lostBits n ≤ j) (h : 2 ^ j ≤ n) : 2 ^ j ≤ rounded n := by
  have hsplit : 2 ^ j = 2 ^ (j - lostBits n) * 2 ^ lostBits n := by rw [← Nat.pow_add, Nat.sub_add_cancel hj]
  rw [hsplit] at h ⊢
  exact Nat.mul_le_mul_right _ (le_roundHalfEven (Nat.two_pow_pos _) h)

theorem rounded_le_pow {j : Nat} (hj : lostBits n ≤ j) (h : n ≤ 2 ^ j) : rounded n ≤ 2 ^ j := by
  have hsplit : 2 ^ j = 2 ^ (j - lostBits n) * 2 ^ lostBits n := by rw [← Nat.pow_add, Nat.sub_add_cancel hj]
  rw [hsplit] at h ⊢
  exact Nat.mul_le_mul_right _ (roundHalfEven_le (Nat.two_pow_pos _) h)

theorem rounded_mono (h : m ≤ n) : rounded m ≤ rounded n := by
  rcases Nat.eq_zero_or_pos m with rfl | hm
  · exact Nat.zero_le _
  have hn : n ≠ 0 := by omega
  rcases Nat.lt_or_ge (Nat.log2 m) (Nat.log2 n) with hlog | hlog
  · -- A power of two lies between integers of different length.
    calc rounded m ≤ 2 ^ (Nat.log2 m + 1) :=
          rounded_le_pow (by unfold lostBits; omega) (Nat.le_of_lt Nat.lt_log2_self)
      _ ≤ 2 ^ Nat.log2 n := Nat.pow_le_pow_right (by decide) hlog
      _ ≤ rounded n := pow_le_rounded (by unfold lostBits; omega) (Nat.log2_self_le hn)
  · have hlog : Nat.log2 m = Nat.log2 n := Nat.le_antisymm ((Nat.le_log2 hn).mpr
      (Nat.le_trans (Nat.log2_self_le hm.ne') h)) hlog
    have hlost : lostBits m = lostBits n := by rw [lostBits, lostBits, hlog]
    rw [rounded, rounded, hlost]
    exact Nat.mul_le_mul_right _ (roundHalfEven_mono (Nat.two_pow_pos _) h)

theorem rounded_pos (h : 0 < n) : 0 < rounded n :=
  Nat.lt_of_lt_of_le (Nat.two_pow_pos _)
    (pow_le_rounded (Nat.sub_le _ _) (Nat.log2_self_le h.ne'))

section Large

variable (h : exactBound ≤ n)
include h

theorem log2_of_le : n ≠ 0 ∧ Nat.log2 n = 52 + lostBits n := by
  have hn : n ≠ 0 := by
    unfold exactBound at h
    omega
  have hlog : 53 ≤ Nat.log2 n := (Nat.le_log2 hn).mpr h
  refine ⟨hn, ?_⟩
  unfold lostBits
  omega

theorem scaled_le : fractionSteps * 2 ^ lostBits n ≤ n := by
  obtain ⟨hn, hlog⟩ := log2_of_le h
  have hsteps : fractionSteps = 2 ^ 52 := by decide
  rw [hsteps, ← Nat.pow_add, ← hlog]
  exact Nat.log2_self_le hn

/-- It may be rounded up to the next power of two. -/
theorem scaled_rounded_bounds :
    fractionSteps ≤ roundHalfEven n (2 ^ lostBits n) ∧ roundHalfEven n (2 ^ lostBits n) ≤ 2 * fractionSteps := by
  refine ⟨le_roundHalfEven (Nat.two_pow_pos _) (scaled_le h), roundHalfEven_le (Nat.two_pow_pos _) ?_⟩
  have hsteps : 2 * fractionSteps = 2 ^ 53 := by decide
  have hexp : 53 + lostBits n = Nat.log2 n + 1 := by
    have := (log2_of_le h).2
    omega
  rw [hsteps, ← Nat.pow_add, hexp]
  exact Nat.le_of_lt Nat.lt_log2_self

end Large

theorem rounded_rounded (n : Nat) : rounded (rounded n) = rounded n := by
  rcases Nat.lt_or_ge n exactBound with h | h
  · rw [rounded_of_lt h, rounded_of_lt h]
  · apply rounded_of_dvd
    obtain ⟨hlow, hhigh⟩ := scaled_rounded_bounds h
    have hsteps : 2 * fractionSteps = 2 ^ 53 := by decide
    have hpos : 0 < rounded n := rounded_pos (Nat.lt_of_lt_of_le (by decide) h)
    rcases Nat.lt_or_eq_of_le hhigh with hlt | heq
    · have hlog : Nat.log2 (rounded n) < 53 + lostBits n := by
        rw [Nat.log2_lt hpos.ne', Nat.pow_add, ← hsteps]
        exact Nat.mul_lt_mul_of_pos_right hlt (Nat.two_pow_pos _)
      exact (Nat.pow_dvd_pow 2 (by unfold lostBits at *; omega)).trans (Nat.dvd_mul_left _ _)
    · have hpower : rounded n = 2 ^ (53 + lostBits n) := by rw [rounded, heq, hsteps, Nat.pow_add]
      rw [hpower]
      exact Nat.pow_dvd_pow 2 (by rw [lostBits, Nat.log2_two_pow]; omega)

/-- A significand may also have become that of the next power of two. -/
theorem multiple_scaled (q : Nat) {r : Nat} (hlow : fractionSteps ≤ r) (hhigh : r ≤ 2 * fractionSteps) :
    multiple (q * fractionSteps + r) = r * 2 ^ q := by
  rcases Nat.lt_or_eq_of_le hhigh with hlt | rfl
  · have hfield := multiple_field q (r := r - fractionSteps) (by omega)
    rw [Nat.succ_mul, Nat.add_assoc, Nat.add_sub_cancel' hlow] at hfield
    exact hfield
  · have hfield := multiple_field (q + 1) (r := 0) (by decide)
    rw [Nat.add_zero, Nat.add_zero] at hfield
    rw [← Nat.add_mul, hfield, Nat.pow_succ']
    ring

theorem roundRatio_of_le (h : exactBound ≤ n) :
    roundRatio n 1 =
      Nat.min ((lostBits n + 1074) * fractionSteps + roundHalfEven n (2 ^ lostBits n)) infiniteMagnitude := by
  obtain ⟨hn, hlog⟩ := log2_of_le h
  have hlog₁ : Nat.log2 1 = 0 := rfl
  have hestimate : (Nat.log2 n : Int) - (0 : Nat) - 52 = (lostBits n : Int) := by omega
  have hfits := scaled_le h
  unfold roundRatio
  rw [if_neg hn, hlog₁, hestimate]
  have hscaled : (if (0 : Int) ≤ (lostBits n : Int) then (n, 1 * Nat.pow 2 (lostBits n : Int).toNat)
      else (n * Nat.pow 2 (-(lostBits n : Int)).toNat, 1)) = (n, 2 ^ lostBits n) := by
    rw [if_pos (Int.natCast_nonneg _), Int.toNat_natCast, Nat.one_mul]
    rfl
  simp only [hscaled, hfits, decide_true, ↓reduceIte]
  rw [if_neg (by omega), hscaled]
  rfl

theorem unit_pos : 0 < unit := by decide +kernel

/-- The number of an integer in a word is its rounding. -/
theorem multiple_roundRatio (h : n ≤ Word.size) :
    multiple (roundRatio n 1) = rounded n * unit ∧ roundRatio n 1 < infiniteMagnitude := by
  rcases Nat.lt_or_ge n exactBound with hsmall | hlarge
  · rw [rounded_of_lt hsmall]
    exact multiple_roundRatio_one (Nat.le_of_lt hsmall)
  · obtain ⟨hlow, hhigh⟩ := scaled_rounded_bounds hlarge
    have hinf : infiniteMagnitude = 2047 * fractionSteps := rfl
    have hlost := lostBits_le h
    have hbelow : (lostBits n + 1074) * fractionSteps + roundHalfEven n (2 ^ lostBits n) < infiniteMagnitude := by
      rw [hinf]
      generalize roundHalfEven n (2 ^ lostBits n) = r at hhigh ⊢
      unfold fractionSteps at *
      omega
    have hunit : unit = 2 ^ 1074 := by decide +kernel
    rw [(roundRatio_of_le hlarge).trans (Nat.min_eq_left (Nat.le_of_lt hbelow))]
    refine ⟨?_, hbelow⟩
    rw [multiple_scaled _ hlow hhigh, rounded, hunit, Nat.mul_assoc, ← Nat.pow_add]

theorem rounded_le_size (h : n ≤ Word.size) : rounded n ≤ Word.size := by
  have hsize : Word.size = 2 ^ 64 := by decide
  rw [hsize] at h ⊢
  exact rounded_le_pow ((lostBits_le (h.trans_eq hsize.symm)).trans (by decide)) h

/-- The integer that the number of an integer stands for. -/
def nearest (n : Int) : Int := if n < 0 then -(rounded n.natAbs : Int) else rounded n.natAbs

theorem nearest_mono {m n : Int} (h : m ≤ n) : nearest m ≤ nearest n := by
  have hm := rounded_mono (m := m.natAbs) (n := n.natAbs)
  have hn := rounded_mono (m := n.natAbs) (n := m.natAbs)
  unfold nearest
  split_ifs <;> omega

theorem natAbs_nearest (n : Int) : (nearest n).natAbs = rounded n.natAbs := by
  unfold nearest
  split <;> omega

theorem nearest_neg_iff {n : Int} : nearest n < 0 ↔ n < 0 := by
  have hpos := rounded_pos (n := n.natAbs)
  unfold nearest
  split <;> omega

theorem nearest_of_small {n : Int} (h : n.natAbs ≤ exactBound) : nearest n = n := by
  have hrounded : rounded n.natAbs = n.natAbs := by
    rcases Nat.lt_or_eq_of_le h with hlt | heq
    · exact rounded_of_lt hlt
    · rw [heq]
      decide +kernel
  unfold nearest
  rw [hrounded]
  split <;> omega

theorem units_ofInt {n : Int} (h : n.natAbs ≤ Word.size) : (ofInt n).units = nearest n * unit := by
  obtain ⟨hmultiple, -⟩ := multiple_roundRatio h
  simp only [units, ofInt, ofRatio, hmultiple, nearest, decide_eq_true_eq]
  split
  · rw [Int.natCast_mul, Int.neg_mul]
  · exact Int.natCast_mul _ _

theorem ofInt_nearest {n : Int} (h : n.natAbs ≤ Word.size) : ofInt (nearest n) = ofInt n := by
  have hmagnitude : roundRatio (rounded n.natAbs) 1 = roundRatio n.natAbs 1 := by
    apply strictMono_multiple.injective
    rw [(multiple_roundRatio h).1, (multiple_roundRatio (rounded_le_size h)).1, rounded_rounded]
  simp only [ofInt, ofRatio, natAbs_nearest, nearest_neg_iff, hmagnitude]

section Order

variable {m n : Int} (hm : m.natAbs ≤ Word.size) (hn : n.natAbs ≤ Word.size)
include hm hn

/-- The numbers of integers are in the order of the integers that they stand for. -/
theorem key_ofInt_lt_iff : (ofInt m).key < (ofInt n).key ↔ nearest m < nearest n := by
  rw [← units_lt_iff, units_ofInt hm, units_ofInt hn]
  exact Int.mul_lt_mul_right (Int.natCast_pos.mpr unit_pos)

theorem ofInt_eq_iff : ofInt m = ofInt n ↔ nearest m = nearest n := by
  constructor
  · intro h
    have hlt := key_ofInt_lt_iff hm hn
    have hgt := key_ofInt_lt_iff hn hm
    rw [h] at hlt hgt
    omega
  · intro h
    rw [← ofInt_nearest hm, ← ofInt_nearest hn, h]

theorem key_ofInt_eq_iff : (ofInt m).key = (ofInt n).key ↔ ofInt m = ofInt n := by
  have hlt := key_ofInt_lt_iff hm hn
  have hgt := key_ofInt_lt_iff hn hm
  rw [ofInt_eq_iff hm hn]
  omega

end Order

section Steps

variable {m n : Nat}

/-- How often the number of a count changes while it goes up from zero. -/
def steps (n : Nat) : Nat := Nat.count (fun k => (ofInt k).magnitude ≠ (ofInt (k + 1 : Nat)).magnitude) n

theorem steps_mono (h : m ≤ n) : steps m ≤ steps n := Nat.count_monotone _ h

theorem steps_succ (n : Nat) :
    steps (n + 1) = steps n + if (ofInt n).magnitude ≠ (ofInt (n + 1 : Nat)).magnitude then 1 else 0 :=
  Nat.count_succ _ n

/-- Counts that are as many steps away have the same number. -/
theorem magnitude_eq_of_steps_eq (h : steps m = steps n) : (ofInt m).magnitude = (ofInt n).magnitude := by
  wlog hle : m ≤ n generalizing m n
  · exact (this h.symm (Nat.le_of_not_le hle)).symm
  induction n, hle using Nat.le_induction with
  | base => rfl
  | succ n hle ih =>
    have hbelow := steps_mono hle
    have hsucc := steps_succ n
    split at hsucc
    · omega
    · rename_i hsame
      rw [ih (by omega), not_not.mp hsame]

theorem magnitude_mono (h : m ≤ n) (hn : n ≤ Word.size) : (ofInt m).magnitude ≤ (ofInt n).magnitude := by
  refine strictMono_multiple.le_iff_le.mp ?_
  change multiple (roundRatio m 1) ≤ multiple (roundRatio n 1)
  rw [(multiple_roundRatio (h.trans hn)).1, (multiple_roundRatio hn).1]
  exact Nat.mul_le_mul_right unit (rounded_mono h)

theorem steps_add_magnitude_le (h : m ≤ n) (hn : n ≤ Word.size) :
    steps n + (ofInt m).magnitude ≤ steps m + (ofInt n).magnitude := by
  induction n, h using Nat.le_induction with
  | base => exact Nat.le_refl _
  | succ n hle ih =>
    have hrest := ih (Nat.le_of_succ_le hn)
    have hmono : (ofInt n).magnitude ≤ (ofInt (n + 1 : Nat)).magnitude := magnitude_mono (Nat.le_succ n) hn
    have hsucc := steps_succ n
    split at hsucc <;> omega

/-- Up to the largest exact integer every count has a number of its own; from there to the largest count
of all, the numbers of ten exponents are left. -/
theorem steps_le (n : Nat) : steps n ≤ 3 * 2 ^ 54 + (n - Word.half) := by
  have hhalf : steps Word.half ≤ 3 * 2 ^ 54 := by
    have hexact : steps exactBound ≤ exactBound := Nat.count_le _
    have hrest := steps_add_magnitude_le (m := exactBound) (n := Word.half) (by decide) (by decide)
    have hfrom : (ofInt exactBound).magnitude = 1076 * 2 ^ 52 := by decide +kernel
    have hto : (ofInt Word.half).magnitude = 1086 * 2 ^ 52 := by decide +kernel
    have hbound : exactBound = 2 ^ 53 := rfl
    omega
  rcases Nat.le_total n Word.half with hle | hle
  · have := steps_mono hle
    omega
  · obtain ⟨d, rfl⟩ := Nat.exists_eq_add_of_le hle
    have hsplit : steps (Word.half + d) ≤ steps Word.half + d := by
      rw [steps, Nat.count_add]
      exact Nat.add_le_add_left (Nat.count_le _) _
    omega

end Steps
end AbstractFlow.Number
