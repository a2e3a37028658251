import AbstractFlow.Proofs.Collection.Search
import AbstractFlow.Proofs.Value.Lengths
import AbstractFlow.Value.Build

/-! # Sets as they are built

However a set of numbers or strings is built, normalising loses no member that it was to have, and its signs
are true to its members. Since the exact values are sorted, halving finds a member wherever a look at all of them
would.
-/
namespace AbstractFlow

namespace NumberSet

variable {x y : Number} {xs : List Number} {s : NumberSet} {lower upper : Number}

/-- Membership as it is looked up: by halving among the exact values, or by the bounds if there are none. -/
def looksUp (s : NumberSet) (x : Number) : Bool :=
  if s.exact.isEmpty then s.lower ≤ x && x ≤ s.upper
  else (Search.first? (fun y => decide (x ≤ y)) s.exact).any (·.same x)

theorem looksUp_eq (hs : s.Tidy) (x : Number) : s.looksUp x = s.contains x := by
  unfold looksUp contains
  split
  · rfl
  · have hkeys := hs.increasing.pairwise
    rw [Search.first?_eq_find?, Search.any_find?]
    · intro y hy hsame
      simp only [Number.same, Bool.and_eq_true, Bool.not_eq_true', beq_iff_eq] at hsame
      exact decide_eq_true ⟨hsame.1.2, hsame.1.1, hsame.2.ge⟩
    · -- Behind a number that is not below `x` all numbers are above it.
      refine hkeys.imp fun {y z} hlt hle => ?_
      obtain ⟨-, -, hle⟩ := of_decide_eq_true hle
      have hne : (z.key == x.key) = false := beq_eq_false_iff_ne.mpr (by omega)
      rw [Number.same, hne, Bool.and_false]
    · refine (List.pairwise_iff_getElem.mpr fun i j hi hj hij hle => ?_)
      obtain ⟨hx, -, hle⟩ := of_decide_eq_true hle
      have hlt := List.pairwise_iff_getElem.mp hkeys i j hi hj hij
      exact decide_eq_true ⟨hx, hs.increasing.numbers _ (List.getElem_mem hj), by omega⟩

/-- The signs that a set admits are those of its members, and perhaps more. -/
structure Signed (s : NumberSet) : Prop where
  negative : ∀ x, s.contains x = true → x < .zero → s.mayBeNegative = true
  positive : ∀ x, s.contains x = true → .zero < x → s.mayBePositive = true
  zero : ∀ x, s.contains x = true → x.same .zero = true → s.mayBeZero = true

theorem Tidy.signed (hs : s.Tidy) : s.Signed where
  negative x hx hneg := by
    have hbounds := (bounds_of_contains hs hx).1
    exact decide_eq_true ((Number.lt_iff hs.lower rfl).mpr
      (Int.lt_of_le_of_lt hbounds ((Number.lt_iff (isNaN_of_contains hx) rfl).mp hneg)))
  positive x hx hpos := by
    have hbounds := (bounds_of_contains hs hx).2
    exact decide_eq_true ((Number.lt_iff rfl hs.upper).mpr
      (Int.lt_of_lt_of_le ((Number.lt_iff rfl (isNaN_of_contains hx)).mp hpos) hbounds))
  zero x hx hzero := by
    have hbounds := bounds_of_contains hs hx
    rw [(Number.same_iff (isNaN_of_contains hx) rfl).mp hzero] at hbounds
    unfold mayBeZero
    rw [decide_eq_true ((Number.le_iff hs.lower rfl).mpr hbounds.1),
      decide_eq_true ((Number.le_iff rfl hs.upper).mpr hbounds.2)]
    rfl

/-- Of the given values those between the bounds are kept, whether one by one or, of too many, as a range. -/
theorem contains_normalize (hx : x ∈ xs) (hlower : lower ≤ x) (hupper : x ≤ upper) :
    (normalize ⟨xs, lower, upper⟩).contains x = true := by
  obtain ⟨hlowerNumber, hnumber, hlowerKey⟩ := hlower
  obtain ⟨-, hupperNumber, hupperKey⟩ := hupper
  obtain ⟨y, hy, hkey⟩ := exists_key_of_mem hnumber hx
  have hincreasing := increasing_sortedNumbers xs
  have hynumber := hincreasing.numbers y hy
  have hinside : y ∈ (sortedNumbers xs).filter fun x => lower ≤ x && x ≤ upper := by
    refine List.mem_filter.mpr ⟨hy, ?_⟩
    rw [decide_eq_true ((Number.le_iff hlowerNumber hynumber).mpr (hkey ▸ hlowerKey)),
      decide_eq_true ((Number.le_iff hynumber hupperNumber).mpr (hkey ▸ hupperKey))]
    rfl
  have hnormal : normalize ⟨xs, lower, upper⟩ =
      spanned ((sortedNumbers xs).filter fun x => lower ≤ x && x ≤ upper) lower upper := by
    have hsome : ((sortedNumbers xs).filter fun x => lower ≤ x && x ≤ upper).isEmpty = false :=
      List.isEmpty_eq_false_iff.mpr (List.ne_nil_of_mem hinside)
    unfold normalize spanned
    simp only [hlowerNumber, hupperNumber, Bool.false_eq_true, ↓reduceIte, hsome]
  rw [hnormal]
  exact contains_spanned (hincreasing.filter _) hnumber ⟨y, hinside, hkey⟩ lower upper

theorem contains_ofList_of_mem (hx : x ∈ xs) (hnumber : x.isNaN = false) : (ofList xs).contains x = true := by
  obtain ⟨hlower, hupper⟩ := Number.key_between_infinities hnumber
  exact contains_normalize hx ((Number.le_iff rfl hnumber).mpr hlower) ((Number.le_iff hnumber rfl).mpr hupper)

theorem between_swap (h : upper.key ≤ lower.key) (hlower : lower ≤ x) (hupper : x ≤ upper) :
    upper ≤ x ∧ x ≤ lower := by
  obtain ⟨hlowerNumber, hx, hlower⟩ := hlower
  obtain ⟨-, hupperNumber, hupper⟩ := hupper
  exact ⟨⟨hupperNumber, hx, by omega⟩, ⟨hx, hlowerNumber, by omega⟩⟩

/-- A range admits what lies between its bounds, in whichever order they were given. -/
theorem contains_between (hlower : lower.isNaN = false) (hupper : upper.isNaN = false) (x : Number) :
    (between lower upper).contains x = true ↔ (lower ≤ x ∧ x ≤ upper) ∨ (upper ≤ x ∧ x ≤ lower) := by
  have hrange : ∀ {l u : Number}, l.isNaN = false → u.isNaN = false →
      ((normalize ⟨[], l, u⟩).contains x = true ↔ l ≤ x ∧ x ≤ u) := by
    intro l u hl hu
    rw [normalize_of_exact_nil hl hu rfl]
    simp [contains]
  unfold between
  split
  · rename_i hlt
    rw [Number.lt_iff hupper hlower] at hlt
    rw [hrange hupper hlower, iff_or_self]
    exact fun h => between_swap hlt.le h.1 h.2
  · rename_i hle
    rw [Number.lt_iff hupper hlower, Int.not_lt] at hle
    rw [hrange hlower hupper, iff_self_or]
    exact fun h => between_swap hle h.1 h.2

theorem tidy_between (lower upper : Number) : (between lower upper).Tidy := by
  unfold between
  split <;> exact tidy_normalize _

end NumberSet

namespace StringSet

variable {s : StringSet} {ss : List ByteString}

/-- Membership as it is looked up: by halving among the exact strings, if there are any. -/
def looksUp (s : StringSet) (x : ByteString) : Bool :=
  if s.exact.isEmpty then s.contains x else (Search.first? (fun y => decide (¬ y < x)) s.exact).any (· == x)

theorem looksUp_eq (hs : s.Tidy) (x : ByteString) : s.looksUp x = s.contains x := by
  unfold looksUp
  split
  · rfl
  · rename_i hexact
    have hne : s.exact ≠ [] := fun hnil => hexact (List.isEmpty_iff.mpr hnil)
    rw [Search.first?_eq_find?, Search.any_find?]
    · have hany : s.exact.any (· == x) = true ↔ x ∈ s.exact := by simp
      exact Bool.eq_iff_iff.mpr (hany.trans (contains_of_exact hne).symm)
    · intro y _ hsame
      rw [beq_iff_eq.mp hsame]
      exact decide_eq_true (irrefl x)
    · refine hs.increasing.imp fun {y z} hlt hle => beq_eq_false_iff_ne.mpr ?_
      rintro rfl
      exact of_decide_eq_true hle hlt
    · refine hs.increasing.imp fun {y z} hlt hle => ?_
      have hy : ¬ y < x := of_decide_eq_true hle
      have hz : ¬ z < x := fun hz => hy (IsTrans.trans _ _ _ hlt hz)
      exact decide_eq_true hz

theorem card_eq_length_ofList (ss : List ByteString) : ss.toFinset.card = (Sorted.ofList ss).length := by
  rw [← List.toFinset_card_of_nodup (Sorted.pairwise_ofList ss).nodup]
  congr 1
  ext s
  rw [List.mem_toFinset, List.mem_toFinset, Sorted.mem_ofList]

/-- Of few strings none is lost and none is gained. -/
theorem contains_ofList_iff (hne : ss ≠ []) (hfew : ss.toFinset.card ≤ exactLimit) (x : ByteString) :
    (ofList ss).contains x = true ↔ x ∈ ss := by
  rw [card_eq_length_ofList] at hfew
  rw [contains_of_exact (exact_ofList_ne_nil hne hfew), ofList_eq_exactly hne hfew]
  exact Sorted.mem_ofList

end StringSet

namespace Value

/-- However numbers or strings are given, the set that is built of them has them. What a constant stores has all
its exact values between the bounds; a set of numbers has them all; a range has what lies between its bounds,
given in either order; in each the signs are true to the members, and halving finds the members. A set of strings
has them all, and of one to 32 different ones it has no others. -/
theorem constructors_sound :
    (∀ (type : NumericType) (xs : List Number) (lower upper : Number), ∃ s : NumberSet,
      numeric type ⟨xs, lower, upper⟩ = [.constant (.number type s)] ∧
      (∀ x ∈ xs, lower ≤ x → x ≤ upper → s.contains x = true) ∧
      s.Signed ∧ ∀ x, s.looksUp x = s.contains x) ∧
    (∀ xs : List Number, (∀ x ∈ xs, x.isNaN = false → (NumberSet.ofList xs).contains x = true) ∧
      (NumberSet.ofList xs).Signed ∧ ∀ x, (NumberSet.ofList xs).looksUp x = (NumberSet.ofList xs).contains x) ∧
    (∀ lower upper : Number, lower.isNaN = false → upper.isNaN = false →
      (∀ x, (NumberSet.between lower upper).contains x = true ↔
        (lower ≤ x ∧ x ≤ upper) ∨ (upper ≤ x ∧ x ≤ lower)) ∧ (NumberSet.between lower upper).Signed) ∧
    ∀ ss : List ByteString, (∀ s ∈ ss, (StringSet.ofList ss).contains s = true) ∧
      (1 ≤ ss.toFinset.card → ss.toFinset.card ≤ 32 →
        ∀ s, (StringSet.ofList ss).contains s = true ↔ s ∈ ss) ∧
      ∀ s, (StringSet.ofList ss).looksUp s = (StringSet.ofList ss).contains s := by
  refine ⟨fun type xs lower upper => ⟨_, rfl, fun x hx => NumberSet.contains_normalize hx, ?_, ?_⟩,
    fun xs => ⟨fun x hx => NumberSet.contains_ofList_of_mem hx, ?_, ?_⟩,
    fun lower upper hlower hupper => ⟨NumberSet.contains_between hlower hupper, ?_⟩,
    fun ss => ⟨fun s hs => StringSet.contains_ofList hs, fun hsome hfew => ?_, ?_⟩⟩
  · exact (NumberSet.tidy_normalize _).signed
  · exact NumberSet.looksUp_eq (NumberSet.tidy_normalize _)
  · exact (NumberSet.tidy_ofList xs).signed
  · exact NumberSet.looksUp_eq (NumberSet.tidy_ofList xs)
  · exact (NumberSet.tidy_between lower upper).signed
  · refine StringSet.contains_ofList_iff ?_ hfew
    rintro rfl
    simp at hsome
  · exact StringSet.looksUp_eq (StringSet.tidy_normalize _)

/-- Of three numbers the one outside the bounds is lost; the range and the strings are given in reverse. -/
theorem constructors_sound_clipped :
    (∃ s, numeric .float ⟨[.posInf, .one, .zero], .zero, .one⟩ = [.constant (.number .float s)] ∧
      s.contains .one = true ∧ s.looksUp .one = true ∧ s.mayBePositive = true) ∧
    (NumberSet.ofList [.one, .negInf]).contains .negInf = true ∧
    (NumberSet.between .posInf .zero).contains .one = true ∧
    (NumberSet.between .posInf .zero).mayBeZero = true ∧
    (StringSet.ofList [⟨[98]⟩, ⟨[97]⟩]).contains ⟨[97]⟩ = true ∧
    ¬ (StringSet.ofList [⟨[98]⟩, ⟨[97]⟩]).contains ⟨[99]⟩ = true := by
  obtain ⟨hnumeric, hnumbers, hrange, hstrings⟩ := constructors_sound
  obtain ⟨s, hstored, hkept, hsigned, hfound⟩ := hnumeric .float [.posInf, .one, .zero] .zero .one
  have hone : s.contains .one = true := hkept .one (by decide) (by decide) (by decide)
  obtain ⟨hbetween, hbetweenSigned⟩ := hrange .posInf .zero rfl rfl
  obtain ⟨hall, honly, -⟩ := hstrings [⟨[98]⟩, ⟨[97]⟩]
  refine ⟨⟨s, hstored, hone, (hfound .one).trans hone, hsigned.positive .one hone (by decide)⟩,
    (hnumbers _).1 .negInf (by decide) rfl, (hbetween .one).mpr (.inr (by decide)), ?_,
    hall _ (by decide), fun h => ?_⟩
  · exact hbetweenSigned.zero .zero ((hbetween .zero).mpr (.inr (by decide))) (by decide)
  · exact absurd ((honly (by decide) (by decide) _).mp h) (by decide)

end Value

end AbstractFlow
