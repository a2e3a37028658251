import AbstractFlow.Proofs.Number.WholeText
import AbstractFlow.Proofs.Value.Cover
import AbstractFlow.Proofs.Value.Listed
import Mathlib

/-! # Integers as texts and back

The texts of listed integers are read back as the integers that their numbers stand for. Only the one beyond
the last integer of a word cannot be read. It is passed over, unless there is nothing else to read or there
are too many numbers to write them down one by one.
-/
namespace AbstractFlow

open Number (nearest)

theorem Word.natAbs_le_size {n : Int} (h : Word.fits n = true) : n.natAbs ≤ Word.size := by
  rw [Word.fits_iff] at h
  have hsize : Word.size = 2 * Word.half := rfl
  omega

theorem Number.ofInt_ne_negZero {n : Int} (h : n.natAbs ≤ Word.size) : ofInt n ≠ negZero := by
  intro hzero
  have hkey : (ofInt n).key = (ofInt 0).key := by
    rw [hzero]
    decide
  have heq := (key_ofInt_eq_iff h (Nat.zero_le _)).mp hkey
  exact absurd (hzero.symm.trans heq) (by decide)

namespace Value

/-- Whether the number of an integer is read back from its text. -/
def isReadBack (n : Int) : Bool := Word.fits (nearest n)

variable {xs : List Int} {n : Int}

theorem isReadBack_iff (h : Word.fits n = true) :
    isReadBack n = true ↔ Number.ofInt n < Number.ofInt Word.half := by
  have hfirst : nearest (-Word.half) = -Word.half := by decide +kernel
  have hlast : nearest Word.half = Word.half := by decide +kernel
  have hword := (Word.fits_iff n).mp h
  have hlow := Number.nearest_mono hword.1
  rw [isReadBack, Word.fits_iff, Number.lt_iff (Number.isNaN_ofInt n) (Number.isNaN_ofInt _),
    Number.key_ofInt_lt_iff (Word.natAbs_le_size h) (by decide), hlast]
  omega

def readings (s : StringSet) : List Int := s.exact.filterMap fun e => readInt? e.text

theorem collect_of_ne_nil {fallback : Value} {parts : List Value} (h : mergeAll parts ≠ []) :
    collect fallback parts = mergeAll parts := by
  simp [collect, h]

theorem mem_readings {ts : List String} (hne : ts ≠ [])
    (hfew : (Sorted.ofList (ts.map ByteString.ofString)).length ≤ exactLimit) :
    n ∈ readings (.ofList (ts.map ByteString.ofString)) ↔ ∃ t ∈ ts, readInt? t = some n := by
  rw [readings, StringSet.ofList_eq_exactly (by simpa using hne) hfew]
  simp only [StringSet.exactly, List.mem_filterMap, Sorted.mem_ofList, List.mem_map]
  constructor
  · rintro ⟨_, ⟨t, ht, rfl⟩, hread⟩
    exact ⟨t, ht, ByteString.text_ofString t ▸ hread⟩
  · rintro ⟨t, ht, hread⟩
    exact ⟨_, ⟨t, ht, rfl⟩, (ByteString.text_ofString t).symm ▸ hread⟩

theorem asInt_string {s : StringSet} (h : s.exact ≠ []) :
    asInt [.constant (.string s)] = collect anyInt ((readings s).map fun n => ints [n]) := by
  simp [asInt, intParts, readings, h]

theorem collect_singleton {fallback v : Value} (h : v ≠ []) : collect fallback [v] = v := by
  have hmerge : mergeAll [v] = v := nil_merge v
  rw [collect_of_ne_nil (by rwa [hmerge]), hmerge]

/-- The texts of the numbers of integers, in the order of the numbers. -/
def integerTexts (xs : List Int) : List String :=
  (NumberSet.sortedNumbers (xs.map Number.ofInt)).map Number.wholeText

section Few

variable (hwords : ∀ x ∈ xs, Word.fits x = true) (hne : xs ≠ [])
  (hfew : (NumberSet.sortedNumbers (xs.map Number.ofInt)).length ≤ exactLimit)

section Words

include hwords

theorem sortable_ofInt : NumberSet.Sortable (xs.map Number.ofInt) := by
  intro y hy
  obtain ⟨x, hx, rfl⟩ := List.mem_map.mp hy
  exact ⟨Number.isNaN_ofInt x, Number.ofInt_ne_negZero (Word.natAbs_le_size (hwords x hx))⟩

theorem words_filter : ∀ x ∈ xs.filter isReadBack, Word.fits x = true := fun x hx =>
  hwords x (List.mem_filter.mp hx).1

theorem mem_integerTexts {t : String} : t ∈ integerTexts xs ↔ ∃ x ∈ xs, (Number.ofInt x).wholeText = t := by
  simp only [integerTexts, List.mem_map, NumberSet.mem_sortedNumbers (sortable_ofInt hwords), exists_exists_and_eq_and]

include hne in
theorem integerTexts_ne_nil : integerTexts xs ≠ [] := by
  obtain ⟨x, hx⟩ := List.exists_mem_of_ne_nil xs hne
  exact List.ne_nil_of_mem ((mem_integerTexts hwords).mpr ⟨x, hx, rfl⟩)

include hfew

theorem few_filter :
    (NumberSet.sortedNumbers ((xs.filter isReadBack).map Number.ofInt)).length ≤ exactLimit :=
  (NumberSet.length_sortedNumbers_mono (sortable_ofInt (words_filter hwords)) (sortable_ofInt hwords)
    (List.map_subset _ (List.filter_subset_self _))).trans hfew

omit hwords in
theorem few_integerTexts : (Sorted.ofList ((integerTexts xs).map ByteString.ofString)).length ≤ exactLimit := by
  refine (StringSet.length_ofList_le _).trans ?_
  rwa [integerTexts, List.length_map, List.length_map]

/-- Of few integers that are not all lost, exactly those that are read back are kept. -/
theorem contains_kept (hsome : xs.filter isReadBack ≠ []) (hn : n ∈ xs) :
    (NumberSet.ofList ((xs.filter isReadBack).map Number.ofInt)).contains (.ofInt n) = true ↔
      isReadBack n = true := by
  have hword := Word.natAbs_le_size (hwords n hn)
  have hback := words_filter hwords
  have hne : (xs.filter isReadBack).map Number.ofInt ≠ [] := by simpa using hsome
  rw [NumberSet.contains_ofList (sortable_ofInt hback) hne (few_filter hwords hfew) (Number.isNaN_ofInt n)
    (Number.ofInt_ne_negZero hword), List.mem_map]
  constructor
  · rintro ⟨x, hx, heq⟩
    have hnearest := (Number.ofInt_eq_iff (Word.natAbs_le_size (hback x hx)) hword).mp heq
    have hread := (List.mem_filter.mp hx).2
    rwa [isReadBack, hnearest] at hread
  · exact fun hread => ⟨n, List.mem_filter.mpr ⟨hn, hread⟩, rfl⟩

end Words

include hwords hne hfew

/-- Few integers become one text for each number. -/
theorem asString_ints : asString (ints xs) = texts (integerTexts xs) := by
  have hsorted := NumberSet.exact_ofList_ne_nil (sortable_ofInt hwords) (by simpa using hne) hfew
  have hparts : (ints xs).flatMap stringParts = (integerTexts xs).map fun t => texts [t] := by
    simp only [ints, List.flatMap_cons, List.flatMap_nil, List.append_nil, stringParts]
    rw [if_neg (by simpa using hsorted), NumberSet.exact_ofList hfew]
    rfl
  have hmerge := mergeAll_texts (integerTexts_ne_nil hwords hne) (few_integerTexts hfew)
  rw [asString, hparts, collect_of_ne_nil (by rw [hmerge]; exact List.cons_ne_nil _ _), hmerge]

/-- From those texts the integers that the numbers stand for are read, except for the unreadable ones. -/
theorem exists_texts :
    ∃ s : StringSet, asString (ints xs) = [.constant (.string s)] ∧ s.exact ≠ [] ∧
      ∀ n, n ∈ readings s ↔ ∃ x ∈ xs.filter isReadBack, nearest x = n := by
  have htexts := integerTexts_ne_nil hwords hne
  have hexact := StringSet.exact_ofList_ne_nil (by simpa using htexts) (few_integerTexts hfew)
  refine ⟨_, asString_ints hwords hne hfew, hexact, fun n => ?_⟩
  rw [mem_readings htexts (few_integerTexts hfew)]
  simp only [mem_integerTexts hwords, List.mem_filter]
  constructor
  · rintro ⟨_, ⟨x, hx, rfl⟩, hread⟩
    rw [readInt?_wholeText (Word.natAbs_le_size (hwords x hx))] at hread
    split at hread
    · rename_i hback
      exact ⟨x, ⟨hx, hback⟩, Option.some.inj hread⟩
    · cases hread
  · rintro ⟨x, ⟨hx, hback⟩, rfl⟩
    refine ⟨_, ⟨x, hx, rfl⟩, ?_⟩
    rw [readInt?_wholeText (Word.natAbs_le_size (hwords x hx))]
    exact if_pos hback

/-- Few integers come back as those that can be read back, or as any integer if none can. -/
theorem asInt_asString_of_few :
    asInt (asString (ints xs)) = if xs.filter isReadBack = [] then anyInt else ints (xs.filter isReadBack) := by
  obtain ⟨s, hs, hexact, hread⟩ := exists_texts hwords hne hfew
  have hback := words_filter hwords
  rw [hs, asInt_string hexact]
  split
  · rename_i hnone
    have hnil : readings s = [] := List.eq_nil_iff_forall_not_mem.mpr fun n hn => by
      obtain ⟨x, hx, -⟩ := (hread n).mp hn
      rw [hnone] at hx
      exact List.not_mem_nil hx
    rw [hnil]
    rfl
  · rename_i hsome
    obtain ⟨x, hx⟩ := List.exists_mem_of_ne_nil _ hsome
    have hne' : readings s ≠ [] := List.ne_nil_of_mem ((hread _).mpr ⟨x, hx, rfl⟩)
    -- What is read differs from what was written, but becomes the same numbers.
    have hsame : ∀ y, y ∈ (readings s).map Number.ofInt ↔ y ∈ (xs.filter isReadBack).map Number.ofInt := by
      intro y
      simp only [List.mem_map, hread]
      constructor
      · rintro ⟨_, ⟨x, hx, rfl⟩, rfl⟩
        exact ⟨x, hx, (Number.ofInt_nearest (Word.natAbs_le_size (hback x hx))).symm⟩
      · rintro ⟨x, hx, rfl⟩
        exact ⟨_, ⟨x, hx, rfl⟩, Number.ofInt_nearest (Word.natAbs_le_size (hback x hx))⟩
    have hsortable := sortable_ofInt hback
    have hsortable' : NumberSet.Sortable ((readings s).map Number.ofInt) := fun y hy =>
      hsortable y ((hsame y).mp hy)
    have hlength := NumberSet.length_sortedNumbers_mono hsortable' hsortable fun y hy => (hsame y).mp hy
    have hmerge := mergeAll_ints hne' hsortable' (hlength.trans (few_filter hwords hfew))
    rw [collect_of_ne_nil (by rw [hmerge]; exact List.cons_ne_nil _ _), hmerge, ints, ints,
      NumberSet.ofList_congr hsortable' hsortable hsame]

end Few

/-- Too many integers come back as any integer. -/
theorem asInt_asString_of_many (hmany : exactLimit < (NumberSet.sortedNumbers (xs.map Number.ofInt)).length) :
    asInt (asString (ints xs)) = anyInt := by
  have hexact : (NumberSet.ofList (xs.map Number.ofInt)).exact = [] := by
    rw [NumberSet.ofList_eq_spanned]
    exact if_neg (Nat.not_le.mpr hmany)
  have hstring : asString (ints xs) = ofStringSet { StringSet.any with minLen := 1 } := by
    simp only [asString, ints, stringParts, hexact, List.flatMap_cons, List.flatMap_nil, List.append_nil]
    exact collect_singleton (List.cons_ne_nil _ _)
  rw [hstring]
  exact collect_singleton (List.cons_ne_nil _ _)

theorem contains_any {x : Number} (hx : x.isNaN = false) : NumberSet.any.contains x = true := by
  have hany : NumberSet.any = ⟨[], .negInf, .posInf⟩ := by decide +kernel
  have hkey := Number.key_between_infinities hx
  rw [hany]
  simp [NumberSet.contains, Number.le_iff Number.isNaN_negInf hx, Number.le_iff hx Number.isNaN_posInf, hkey]

/-- The integers of a list come back from their texts as one set of integers. The number of a listed integer
is in the set exactly if it lies below the first one beyond a word, or no listed one does, or there are too
many different ones; and if few all lie below, nothing is lost or added. -/
theorem int_undoes_str (hne : xs ≠ []) (hwords : ∀ x ∈ xs, Word.fits x = true) :
    ∃ s, asInt (asString (ints xs)) = [.constant (.number .int s)] ∧
      (∀ x ∈ xs, s.contains (.ofInt x) = true ↔
        Number.ofInt x < Number.ofInt Word.half ∨ (∀ y ∈ xs, ¬ Number.ofInt y < Number.ofInt Word.half) ∨
          exactLimit < (xs.map Number.ofInt).dedup.length) ∧
      ((xs.map Number.ofInt).dedup.length ≤ exactLimit → (∀ x ∈ xs, Number.ofInt x < Number.ofInt Word.half) →
        (asInt (asString (ints xs))).equal (ints xs) = true) := by
  have hsortable := sortable_ofInt hwords
  have hback : ∀ x ∈ xs, isReadBack x = true ↔ Number.ofInt x < Number.ofInt Word.half := fun x hx =>
    isReadBack_iff (hwords x hx)
  rw [← NumberSet.length_sortedNumbers hsortable]
  -- Too many texts are not kept; of few, those that are read back are kept, unless these are none.
  rcases Nat.lt_or_ge exactLimit (NumberSet.sortedNumbers (xs.map Number.ofInt)).length with hmany | hfew
  · refine ⟨_, asInt_asString_of_many hmany, fun x _ => ?_, fun hfew => absurd hfew (Nat.not_le.mpr hmany)⟩
    exact iff_of_true (contains_any (Number.isNaN_ofInt x)) (Or.inr (Or.inr hmany))
  · have hresult := asInt_asString_of_few hwords hne hfew
    by_cases hnone : xs.filter isReadBack = []
    · have hlost : ∀ y ∈ xs, ¬ Number.ofInt y < Number.ofInt Word.half := fun y hy hlt =>
        List.filter_eq_nil_iff.mp hnone y hy ((hback y hy).mpr hlt)
      rw [if_pos hnone] at hresult
      refine ⟨_, hresult, fun x _ => ?_, fun _ hall => ?_⟩
      · exact iff_of_true (contains_any (Number.isNaN_ofInt x)) (Or.inr (Or.inl hlost))
      · obtain ⟨x, hx⟩ := List.exists_mem_of_ne_nil xs hne
        exact absurd (hall x hx) (hlost x hx)
    · rw [if_neg hnone] at hresult
      refine ⟨_, hresult, fun x hx => ?_, fun _ hall => ?_⟩
      · have hkept := contains_kept hwords hfew hnone hx
        rw [hkept, hback x hx]
        constructor
        · exact Or.inl
        · rintro (hlt | hlost | hmany)
          · exact hlt
          · obtain ⟨y, hy⟩ := List.exists_mem_of_ne_nil _ hnone
            obtain ⟨hy, hread⟩ := List.mem_filter.mp hy
            exact absurd ((hback y hy).mp hread) (hlost y hy)
          · exact absurd hfew (Nat.not_le.mpr hmany)
      · have hkept : xs.filter isReadBack = xs := List.filter_eq_self.mpr fun x hx => (hback x hx).mpr (hall x hx)
        rw [hresult, hkept]
        exact equal_refl _

/-- An integer that is rounded is lost neither by itself nor beside another one. -/
theorem int_undoes_str_rounded :
    let xs := [9007199254740993, 1]
    xs ≠ [] ∧ (∀ x ∈ xs, Word.fits x = true) ∧
      ∃ s, asInt (asString (ints xs)) = [.constant (.number .int s)] ∧
        s.contains (.ofInt 9007199254740993) = true ∧ (asInt (asString (ints xs))).equal (ints xs) = true := by
  intro xs
  have hne : xs ≠ [] := List.cons_ne_nil _ _
  have hwords : ∀ x ∈ xs, Word.fits x = true := by decide
  have hbelow : ∀ x ∈ xs, Number.ofInt x < Number.ofInt Word.half := by decide +kernel
  obtain ⟨s, hs, hkept, hequal⟩ := int_undoes_str hne hwords
  refine ⟨hne, hwords, s, hs, (hkept _ List.mem_cons_self).mpr (Or.inl (hbelow _ List.mem_cons_self)), ?_⟩
  exact hequal (by decide +kernel) hbelow

/-- The largest integer of a word is rounded to one beyond, and is lost beside any other. -/
theorem not_int_undoes_str :
    ¬ ∀ xs : List Int, xs ≠ [] → (∀ x ∈ xs, Word.fits x = true) →
      ∃ s, asInt (asString (ints xs)) = [.constant (.number .int s)] ∧
        ∀ x ∈ xs, s.contains (.ofInt x) = true := by
  intro h
  have hwords : ∀ x ∈ [9223372036854775807, 1], Word.fits x = true := by decide
  obtain ⟨s, hs, hkept⟩ := h [9223372036854775807, 1] (List.cons_ne_nil _ _) hwords
  have hread : [9223372036854775807, 1].filter isReadBack = [1] := by decide +kernel
  have hresult := asInt_asString_of_few hwords (List.cons_ne_nil _ _) (by decide +kernel)
  rw [hread, if_neg (List.cons_ne_nil _ _), hs] at hresult
  have hset : s = NumberSet.ofList [Number.ofInt 1] := by
    injection hresult with hobject
    injection hobject with hconstant
    injection hconstant
  have hlost := hkept 9223372036854775807 List.mem_cons_self
  rw [hset] at hlost
  exact absurd hlost (by decide +kernel)

end Value

end AbstractFlow
