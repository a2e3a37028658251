import AbstractFlow.Proofs.Value.Canonical

/-! # Well-formed constants

A tidy set of numbers is well formed if its lower bound is not above its upper one, and a tidy set of
strings if its greatest length is a length or, at -1, left open. Whatever comes out of a constructor that
is given its bounds in order is well formed, and joins keep it so.
-/
namespace AbstractFlow

namespace NumberSet

variable {s t : NumberSet}

/-- A tidy set whose bounds are in order and say which signs its members may have. -/
structure WellFormed (s : NumberSet) : Prop extends Tidy s where
  ordered : s.lower ≤ s.upper
  zero : s.mayBeZero = true ↔ s.lower ≤ .zero ∧ .zero ≤ s.upper
  negative : s.mayBeNegative = true ↔ s.lower < .zero
  positive : s.mayBePositive = true ↔ .zero < s.upper

theorem Tidy.wellFormed (h : s.Tidy) (hordered : s.lower ≤ s.upper) : s.WellFormed where
  toTidy := h
  ordered := hordered
  zero := by simp only [mayBeZero, Bool.and_eq_true, decide_eq_true_iff]
  negative := decide_eq_true_iff
  positive := decide_eq_true_iff

theorem lower_le_upper_spanned {xs : List Number} {lower upper : Number} (h : Increasing xs)
    (hbounds : lower ≤ upper) : (spanned xs lower upper).lower ≤ (spanned xs lower upper).upper := by
  cases xs with
  | nil => exact hbounds
  | cons x rest =>
    have hlast := List.getLast_mem (List.cons_ne_nil x rest)
    show x ≤ _
    rw [spanned_upper, Number.le_iff (h.numbers x List.mem_cons_self) (h.numbers _ hlast)]
    exact h.head_le hlast

/-- Bounds that are not in the wrong order are put right, whatever is not a number among them. -/
theorem wellFormed_normalize (h : ¬ s.upper < s.lower) : s.normalize.WellFormed := by
  apply (tidy_normalize s).wellFormed
  obtain ⟨xs, hxs, heq⟩ := s.exists_normalize
  rw [heq]
  apply lower_le_upper_spanned hxs
  rw [Number.lt_def] at h
  split
  · split
    · exact ⟨rfl, rfl, by decide⟩
    · rename_i hupper
      have hupper := Bool.eq_false_of_not_eq_true hupper
      exact ⟨rfl, hupper, (Number.key_between_infinities hupper).1⟩
  · rename_i hlower
    have hlower := Bool.eq_false_of_not_eq_true hlower
    split
    · exact ⟨hlower, rfl, (Number.key_between_infinities hlower).2⟩
    · rename_i hupper
      have hupper := Bool.eq_false_of_not_eq_true hupper
      exact ⟨hlower, hupper, by simpa [hlower, hupper] using h⟩

theorem wellFormed_any : any.WellFormed := wellFormed_normalize (by decide)

theorem wellFormed_ofList (xs : List Number) : (ofList xs).WellFormed :=
  wellFormed_normalize (show ¬ Number.posInf < Number.negInf by decide)

theorem wellFormed_between (lower upper : Number) : (between lower upper).WellFormed := by
  unfold between
  split
  · rename_i h
    apply wellFormed_normalize
    intro h'
    rw [Number.lt_def] at h h'
    exact absurd h.2.2 (Int.not_lt.mpr h'.2.2.le)
  · rename_i h
    exact wellFormed_normalize h

theorem wellFormed_join (hs : s.WellFormed) : (s.join t).WellFormed := by
  apply wellFormed_normalize
  intro h
  have hkeys : s.lower.key ≤ s.upper.key := hs.ordered.2.2
  have hmin := (key_min_le s.lower t.lower).1
  have hmax := (le_key_max s.upper t.upper).1
  have hlt : (s.upper.max t.upper).key < (s.lower.min t.lower).key := h.2.2
  omega

end NumberSet

namespace StringSet

variable {s t : StringSet}

/-- A tidy set of which the greatest length is a length or -1, which leaves it open. -/
structure WellFormed (s : StringSet) : Prop extends Tidy s where
  length : -1 ≤ s.maxLen

theorem wellFormed_normalize (h : -1 ≤ s.maxLen) : s.normalize.WellFormed := by
  have hraised : ∀ (least : Nat) {most : Int}, -1 ≤ most → -1 ≤ if 0 ≤ most then max most least else most := by
    intro least most hmost
    split <;> omega
  refine ⟨tidy_normalize s, ?_⟩
  unfold normalize
  apply hraised
  split
  · exact h
  · omega

theorem wellFormed_ofList (ss : List ByteString) : (ofList ss).WellFormed :=
  wellFormed_normalize (s := { any with exact := ss }) (Int.le_refl _)

theorem wellFormed_join : (s.join t).WellFormed := by
  apply wellFormed_normalize
  show -1 ≤ looserBound s.maxLen t.maxLen
  unfold looserBound
  split <;> omega

end StringSet

namespace Constant

def WellFormed : Constant → Prop
  | .number _ s => s.WellFormed
  | .string s => s.WellFormed
  | .none => True

theorem WellFormed.tidy {c : Constant} (h : c.WellFormed) : c.Tidy := by
  cases c with
  | number => exact h.toTidy
  | string => exact h.toTidy
  | none => trivial

theorem wellFormed_join {c d : Constant} (hc : c.WellFormed) : (c.join d).WellFormed := by
  cases c <;> cases d <;> simp only [join]
  case number.number => exact NumberSet.wellFormed_join hc
  case string.string => exact StringSet.wellFormed_join
  all_goals exact hc

end Constant

end AbstractFlow
