import AbstractFlow.Program.Decode
import AbstractFlow.Proofs.Number.Rounding
import AbstractFlow.Proofs.Value.Answers
import Mathlib

/-! # Integer literals in comparisons

A program may write integers of 64 bits, with a sign or without one. What is compared are the numbers of the
signed words that they become, and these are always decided; so an answer is right of the integers that were
written as far as neither the wrapping nor the rounding changes their order.
-/
namespace AbstractFlow

namespace Yaml

/-- The integers that a scalar can stand for. -/
def Writable (n : Int) : Prop := -(Word.half : Int) ≤ n ∧ n < Word.size

instance (n : Int) : Decidable (Writable n) :=
  inferInstanceAs (Decidable (-(Word.half : Int) ≤ n ∧ n < Word.size))

/-- An integer is a signed word if it fits into one, and an unsigned one otherwise. -/
def Datum.ofInteger (n : Int) : Datum := if Word.fits n then .int n else .unsigned n.toNat

end Yaml

open Yaml
open Number (nearest)

def wrapped (n : Int) : Int := n.bmod Word.size

variable {m n : Int}

theorem wrapped_eq (hn : Writable n) : wrapped n = if Word.fits n then n else n - Word.size := by
  obtain ⟨hlow, hhigh⟩ := hn
  have hhalf : (Word.half : Int) = 9223372036854775808 := rfl
  have hsize : (Word.size : Int) = 18446744073709551616 := rfl
  rw [wrapped, Int.bmod_def]
  rw [hsize] at hhigh ⊢
  split_ifs with h hfits hfits <;> rw [Word.fits_iff] at hfits <;> omega

theorem fits_wrapped (hn : Writable n) : Word.fits (wrapped n) = true := by
  have hsize : (Word.size : Int) = 2 * Word.half := rfl
  rw [wrapped_eq hn, Word.fits_iff]
  obtain ⟨hlow, hhigh⟩ := hn
  split_ifs with hfits <;> rw [Word.fits_iff] at hfits <;> omega

theorem literalOf_ofInteger (hn : Writable n) : RawStmt.literalOf (.ofInteger n) = .ok (.int (wrapped n)) := by
  rw [wrapped_eq hn]
  obtain ⟨hlow, hhigh⟩ := hn
  unfold Datum.ofInteger
  split_ifs with hfits
  · rfl
  · rw [Word.fits_iff] at hfits
    have hnat : (n.toNat : Int) = n := by omega
    rw [RawStmt.literalOf, hnat]

namespace NumberSet

variable {op : Comparator} {x y : Number} (hx : x.isNaN = false) (hy : y.isNaN = false)
include hx hy

theorem less_singletons : less ⟨[x], x, x⟩ ⟨[y], y, y⟩ = .ofBool (x.key < y.key) := by
  simp only [less, Number.lt_iff hx hy, Number.le_iff hy hx, Verdict.ofBool, decide_eq_true_eq]
  split_ifs <;> first | rfl | omega

theorem atMost_singletons : atMost ⟨[x], x, x⟩ ⟨[y], y, y⟩ = .ofBool (x.key ≤ y.key) := by
  simp only [atMost, Number.le_iff hx hy, Number.lt_iff hy hx, Verdict.ofBool, decide_eq_true_eq]
  split_ifs <;> first | rfl | omega

/-- Two numbers are always compared. -/
theorem compare_singletons (hop : op.isIdentity = false) :
    ∃ r, (ofList [x]).compare op (ofList [y]) = .ofBool r ∧ (r = true ↔ op.Holds x.key y.key) := by
  simp only [ofList_singleton, hx, hy, Bool.false_eq_true, ↓reduceIte]
  cases op with
  | eq => exact ⟨x.same y, rfl, Number.same_iff hx hy⟩
  | ne =>
    refine ⟨!x.same y, ?_, ?_⟩
    · show (Verdict.ofBool (x.same y)).not = _
      cases x.same y <;> rfl
    · rw [Bool.not_eq_true', ← Bool.not_eq_true, Number.same_iff hx hy]
      rfl
  | lt => exact ⟨_, less_singletons hx hy, decide_eq_true_iff⟩
  | le => exact ⟨_, atMost_singletons hx hy, decide_eq_true_iff.trans Int.not_lt.symm⟩
  | gt => exact ⟨_, less_singletons hy hx, decide_eq_true_iff⟩
  | ge => exact ⟨_, atMost_singletons hy hx, decide_eq_true_iff.trans Int.not_lt.symm⟩
  | is | isNot => exact absurd hop Bool.noConfusion

end NumberSet

section Compare

variable {op : Comparator} (hm : m.natAbs ≤ Word.size) (hn : n.natAbs ≤ Word.size)
include hm hn

theorem holds_ofInt : op.Holds (Number.ofInt m).key (Number.ofInt n).key ↔ op.Holds (nearest m) (nearest n) := by
  have hlt := Number.key_ofInt_lt_iff hm hn
  have hgt := Number.key_ofInt_lt_iff hn hm
  cases op <;> simp only [Comparator.Holds] <;> omega

/-- Two integers are compared as their roundings are. -/
theorem compare_ints (hop : op.isIdentity = false) :
    ∃ r, Value.compare op.text (Value.ints [m]) (Value.ints [n]) = .ofBool r ∧
      (r = true ↔ op.Holds (nearest m) (nearest n)) := by
  obtain ⟨r, hr, hholds⟩ := NumberSet.compare_singletons (Number.isNaN_ofInt m) (Number.isNaN_ofInt n) hop
  refine ⟨r, ?_, hholds.trans (holds_ofInt hm hn)⟩
  rw [Value.compare_text, Value.compareBy]
  exact (Constant.compare_numbers op .int .int _ _).trans hr

end Compare

/-- Whatever is decided about two integers that were written is right of them. -/
def ComparedRightly (op : Comparator) (m n : Int) : Prop :=
  ∃ l k, RawStmt.literalOf (.ofInteger m) = .ok l ∧ RawStmt.literalOf (.ofInteger n) = .ok k ∧
    ∀ r, Value.compare op.text l.value k.value = .ofBool r → (r = true ↔ op.Holds m n)

section Answers

variable (hm : Writable m) (hn : Writable n)

include hn in
theorem natAbs_wrapped_le : (wrapped n).natAbs ≤ Word.size := by
  have hfits := (Word.fits_iff _).mp (fits_wrapped hn)
  have hsize : Word.size = 2 * Word.half := rfl
  omega

include hm hn

theorem compared_rightly_iff_holds {op : Comparator} (hop : op.isIdentity = false) :
    ComparedRightly op m n ↔ (op.Holds (nearest (wrapped m)) (nearest (wrapped n)) ↔ op.Holds m n) := by
  obtain ⟨r, hr, hholds⟩ := compare_ints (natAbs_wrapped_le hm) (natAbs_wrapped_le hn) hop
  unfold ComparedRightly
  rw [literalOf_ofInteger hm, literalOf_ofInteger hn, ← hholds]
  constructor
  · rintro ⟨l, k, hl, hk, hright⟩
    cases hl
    cases hk
    exact hright r hr
  · intro hright
    refine ⟨_, _, rfl, rfl, fun r' hr' => ?_⟩
    rw [← Verdict.ofBool_injective (hr.symm.trans hr')]
    exact hright

/-- Integers that are told apart are in the order of their words. -/
theorem nearest_lt_iff (h : Number.ofInt (wrapped m) ≠ Number.ofInt (wrapped n)) :
    nearest (wrapped m) < nearest (wrapped n) ↔ wrapped m < wrapped n := by
  rw [Ne, Number.ofInt_eq_iff (natAbs_wrapped_le hm) (natAbs_wrapped_le hn)] at h
  have hle := Number.nearest_mono (m := wrapped m) (n := wrapped n)
  have hge := Number.nearest_mono (m := wrapped n) (n := wrapped m)
  omega

end Answers

/-- Integers of at most 53 bits are compared as they are. -/
theorem compared_rightly_of_small {op : Comparator} (hop : op.isIdentity = false)
    (hm : m.natAbs ≤ Number.exactBound) (hn : n.natAbs ≤ Number.exactBound) : ComparedRightly op m n := by
  have hsmall : ∀ {k : Int}, k.natAbs ≤ Number.exactBound → Writable k ∧ nearest (wrapped k) = k := by
    intro k hk
    have hpos : 0 < Number.exactBound := by decide
    have hhalf : Word.half = 1024 * Number.exactBound := by decide
    have hsize : Word.size = 2 * Word.half := rfl
    have hfits : Word.fits k = true := (Word.fits_iff k).mpr (by omega)
    have hwritable : Writable k := by
      unfold Writable
      omega
    rw [wrapped_eq hwritable, if_pos hfits]
    exact ⟨hwritable, Number.nearest_of_small hk⟩
  rw [compared_rightly_iff_holds (hsmall hm).1 (hsmall hn).1 hop, (hsmall hm).2, (hsmall hn).2]

/-- Every comparison is answered as for the rounded words. So all of them are right exactly if the integers
are the same, or their words are told apart by their numbers and come in the same order. -/
theorem compared_rightly_iff (hm : Writable m) (hn : Writable n) :
    (∀ op : Comparator, op.isIdentity = false → (ComparedRightly op m n ↔
      (op.Holds (nearest (wrapped m)) (nearest (wrapped n)) ↔ op.Holds m n))) ∧
    ((∀ op : Comparator, op.isIdentity = false → ComparedRightly op m n) ↔
      m = n ∨ (Number.ofInt (wrapped m) ≠ Number.ofInt (wrapped n) ∧ (wrapped m < wrapped n ↔ m < n))) := by
  have hanswer := fun (op : Comparator) (hop : op.isIdentity = false) => compared_rightly_iff_holds hm hn hop
  refine ⟨hanswer, fun h => ?_, ?_⟩
  · have hlt := (hanswer .lt rfl).mp (h .lt rfl)
    have hgt := (hanswer .gt rfl).mp (h .gt rfl)
    simp only [Comparator.Holds] at hlt hgt
    by_cases heq : m = n
    · exact Or.inl heq
    · have hne : Number.ofInt (wrapped m) ≠ Number.ofInt (wrapped n) := by
        rw [Ne, Number.ofInt_eq_iff (natAbs_wrapped_le hm) (natAbs_wrapped_le hn)]
        omega
      exact Or.inr ⟨hne, (nearest_lt_iff hm hn hne).symm.trans hlt⟩
  · rintro (rfl | ⟨hne, horder⟩) op hop
    · rw [hanswer op hop]
      cases op <;> simp [Comparator.Holds]
    · have hlt := nearest_lt_iff hm hn hne
      have hgt := nearest_lt_iff hn hm hne.symm
      have hwords : wrapped m ≠ wrapped n := fun h => hne (congrArg Number.ofInt h)
      have hdiffer : m ≠ n := fun h => hwords (congrArg wrapped h)
      rw [hanswer op hop]
      cases op <;> simp only [Comparator.Holds] <;> omega

/-- Both of these integers are rounded, but to different ones. -/
theorem compared_rightly_iff_rounded :
    Writable 9007199254740993 ∧ Writable 9007199254740995 ∧
      (∀ op : Comparator, op.isIdentity = false → ComparedRightly op 9007199254740993 9007199254740995) ∧
      nearest 9007199254740993 = 9007199254740992 := by
  have hm : Writable 9007199254740993 := by decide
  have hn : Writable 9007199254740995 := by decide
  exact ⟨hm, hn, (compared_rightly_iff hm hn).2.mpr (Or.inr (by decide +kernel)), by decide +kernel⟩

/-- An integer beyond 63 bits is taken for a negative one, and two neighbours for the same integer. -/
theorem not_compared_rightly :
    (Writable 9223372036854775808 ∧ ¬ ComparedRightly .lt 9223372036854775808 0) ∧
      (Writable 9007199254740993 ∧ ¬ ComparedRightly .eq 9007199254740993 9007199254740992) := by
  refine ⟨⟨by decide, ?_⟩, by decide, ?_⟩
  · rintro ⟨l, k, hl, hk, hright⟩
    cases hl
    cases hk
    have hless : Value.compare "<" (Value.ints [-9223372036854775808]) (Value.ints [0]) = .ofBool true := by
      decide +kernel
    exact absurd ((hright true hless).mp rfl) (by simp [Comparator.Holds])
  · rintro ⟨l, k, hl, hk, hright⟩
    cases hl
    cases hk
    have hequal : Value.compare "==" (Value.ints [9007199254740993]) (Value.ints [9007199254740992]) =
        .ofBool true := by
      decide +kernel
    exact absurd ((hright true hequal).mp rfl) (by simp [Comparator.Holds])

end AbstractFlow
