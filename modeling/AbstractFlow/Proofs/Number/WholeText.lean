import AbstractFlow.Value.Convert
import AbstractFlow.Proofs.Number.Whole
import Mathlib

/-! # The text of an integer

The number of an integer is written as the integer that it stands for, and read back as that one if it fits
into a word. Only the last integers of a word, which are rounded to the one beyond it, do not.
-/
namespace AbstractFlow

open Decimal (digitText)
open Number (nearest)

def integerText (n : Int) : String := (if n < 0 then "-" else "") ++ digitText n.natAbs

namespace Text

theorem isBlank_of_isDigit {c : Char} (h : c.isDigit = true) : isBlank c = false := by
  have hrange : 48 ≤ c.toNat ∧ c.toNat ≤ 57 := by
    simp only [Char.isDigit, Bool.and_eq_true, decide_eq_true_eq] at h
    exact h
  unfold isBlank
  simp only [Bool.or_eq_false_iff, Bool.and_eq_false_iff, decide_eq_false_iff_not, beq_eq_false_iff_ne]
  omega

theorem trimBlanks_eq {s : String} (h : ∀ c ∈ s.toList, isBlank c = false) : trimBlanks s = s := by
  have hkeep : ∀ cs : List Char, (∀ c ∈ cs, isBlank c = false) → cs.dropWhile isBlank = cs := by
    intro cs hcs
    rw [List.dropWhile_eq_self_iff]
    intro hlen
    rw [hcs _ (List.getElem_mem hlen)]
    exact Bool.false_ne_true
  rw [trimBlanks, hkeep _ h, hkeep _ fun c hc => h c (List.mem_reverse.mp hc), List.reverse_reverse,
    String.ofList_toList]

end Text

theorem toList_integerText (n : Int) :
    (integerText n).toList = (if n < 0 then ['-'] else []) ++ Nat.toDigits 10 n.natAbs := by
  unfold integerText digitText
  rw [String.toList_append, String.toList_ofList]
  split <;> rfl

theorem value_of_digits (n : Nat) :
    (Nat.toDigits 10 n).foldl (fun n c => n * 10 + (c.toNat - '0'.toNat)) 0 = n := by
  have hvalue := Nat.ofDigitChars_ten_toDigits (n := n)
  simp only [Nat.ofDigitChars, Nat.mul_comm 10] at hvalue
  exact hvalue

theorem readInt?_integerText (n : Int) :
    readInt? (integerText n) = if Word.fits n then some n else none := by
  have hdigits : ∀ c ∈ Nat.toDigits 10 n.natAbs, c.isDigit = true := fun c =>
    Nat.isDigit_of_mem_toDigits (by decide) (by decide)
  have hblank : ∀ c ∈ (integerText n).toList, Text.isBlank c = false := by
    intro c hc
    rw [toList_integerText, List.mem_append] at hc
    rcases hc with hc | hc
    · split at hc
      · rw [List.mem_singleton.mp hc]
        decide
      · cases hc
    · exact Text.isBlank_of_isDigit (hdigits c hc)
  have hall : (Nat.toDigits 10 n.natAbs).all Char.isDigit = true := List.all_eq_true.mpr hdigits
  have hne : (Nat.toDigits 10 n.natAbs).isEmpty = false := by simp [Nat.toDigits_ne_nil]
  have hvalue := value_of_digits n.natAbs
  unfold readInt?
  rw [Text.trimBlanks_eq hblank, toList_integerText]
  by_cases hneg : n < 0
  · have hsign : -(n.natAbs : Int) = n := by omega
    simp only [if_pos hneg, List.cons_append, List.nil_append, hne, hall, hvalue, hsign, Bool.not_true,
      Bool.or_false, Bool.false_eq_true, ↓reduceIte]
  · have hsign : (n.natAbs : Int) = n := by omega
    obtain ⟨c, cs, hcons⟩ := List.exists_cons_of_ne_nil (Nat.toDigits_ne_nil (n := n.natAbs) (b := 10))
    have hc : c.isDigit = true := hdigits c (by simp [hcons])
    rw [hcons] at hall hne hvalue
    rw [if_neg hneg, List.nil_append, hcons]
    -- The first character is a digit, and so no sign.
    split
    · rename_i heq
      split at heq
      · rename_i hhead
        cases hhead
        exact absurd hc (by decide)
      · rename_i hhead
        cases hhead
        exact absurd hc (by decide)
      · cases heq
        simp only [hall, hne, hvalue, hsign, Bool.not_true, Bool.or_false, Bool.false_eq_true, ↓reduceIte]

namespace Number

/-- A number that stands for an integer is not rounded when it is written without decimals. -/
theorem whole_of_multiple {x : Number} {m : Nat} (h : multiple x.magnitude = m * unit) :
    (if 0 ≤ x.exponent then x.wholePart false
      else roundHalfEven x.significand (Nat.pow 2 (-x.exponent).toNat)) = m := by
  have hsignificand := significand_of_multiple h
  split
  · exact wholePart_of_multiple h false
  · rename_i hexp
    rw [if_neg hexp] at hsignificand
    rw [hsignificand]
    exact roundHalfEven_mul (Nat.two_pow_pos _)

theorem wholeText_ofInt {n : Int} (h : n.natAbs ≤ Word.size) : (ofInt n).wholeText = integerText (nearest n) := by
  obtain ⟨hmultiple, hfinite⟩ := multiple_roundRatio h
  have hfinite : (ofInt n).isFinite = true := decide_eq_true hfinite
  rw [wholeText, if_pos hfinite]
  dsimp only
  rw [whole_of_multiple hmultiple, integerText, natAbs_nearest]
  simp only [nearest_neg_iff, ofInt, ofRatio, decide_eq_true_eq]

end Number

/-- What is read back is the integer that the number stands for, unless that one fits into no word. -/
theorem readInt?_wholeText {n : Int} (h : n.natAbs ≤ Word.size) :
    readInt? (Number.ofInt n).wholeText = if Word.fits (nearest n) then some (nearest n) else none := by
  rw [Number.wholeText_ofInt h, readInt?_integerText]

end AbstractFlow
