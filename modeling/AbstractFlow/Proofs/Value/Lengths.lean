import AbstractFlow.Proofs.Digest.Ideal
import AbstractFlow.Proofs.Number.Whole
import AbstractFlow.Proofs.Value.Admission
import AbstractFlow.Proofs.Value.Listed
import AbstractFlow.Value.Convert

/-! # Lengths of strings

A set of strings knows how many bytes its members have. A text has as many bytes as characters only if all of
its characters are of one byte, so what is said of its length and of its characters may leave it out. It does not
exactly when some string of the set has no more bytes than the text has characters and, unless the strings are
listed one by one, all characters of the text are of one byte.
-/
namespace AbstractFlow

namespace ByteString

theorem size_ofString (s : String) : (ofString s).size = s.utf8ByteSize := by
  rw [size, ofString, Array.length_toList]
  rfl

theorem size_ofString_eq_sum (s : String) : (ofString s).size = (s.toList.map Char.utf8Size).sum := by
  rw [size, bytes_ofString, List.length_flatMap]
  simp only [String.length_utf8EncodeChar]

theorem length_le_size_ofString (s : String) : s.length ≤ (ofString s).size := by
  have hpos : ∀ cs : List Char, cs.length ≤ (cs.map Char.utf8Size).sum := by
    intro cs
    induction cs with
    | nil => simp
    | cons c cs ih =>
      have := c.utf8Size_pos
      simp only [List.length_cons, List.map_cons, List.sum_cons]
      omega
  rw [size_ofString_eq_sum, ← String.length_toList]
  exact hpos s.toList

theorem size_singleton (c : Char) : (ofString (String.singleton c)).size = c.utf8Size := by
  rw [size_ofString, String.utf8ByteSize_singleton]

end ByteString

namespace Number

variable {x : Number}

/-- No number comes after the positive infinity, or before the negative one. -/
theorem place_between_infinities (hx : x.isNaN = false) : negInf.place ≤ x.place ∧ x.place ≤ posInf.place := by
  have hm : x.magnitude ≤ infiniteMagnitude := by simpa [isNaN] using hx
  have hneg : negInf.place = -2 * (infiniteMagnitude : Int) := rfl
  have hpos : posInf.place = 2 * (infiniteMagnitude : Int) + 1 := rfl
  rw [hneg, hpos]
  unfold place
  split <;> omega

theorem posInf_min (hx : x.isNaN = false) : posInf.min x = x := by
  rw [min_eq]
  split
  · rename_i hle
    exact place_injective (Int.le_antisymm hle (place_between_infinities hx).2)
  · rfl

theorem negInf_max (hx : x.isNaN = false) : negInf.max x = x := by
  rw [max_eq, if_pos (place_between_infinities hx).1]

end Number

theorem NumberSet.between_of_le {lower upper : Number} (hlower : lower.isNaN = false) (hupper : upper.isNaN = false)
    (h : lower.key ≤ upper.key) : between lower upper = ⟨[], lower, upper⟩ := by
  have hordered : ¬ upper < lower := by
    rw [Number.lt_iff hupper hlower]
    omega
  rw [between, if_neg hordered, normalize_of_exact_nil hlower hupper rfl]

namespace StringSet

variable {x : ByteString} {xs : List ByteString}

theorem minLength_le_iff (h : xs ≠ []) {n : Nat} : minLength xs ≤ n ↔ ∃ x ∈ xs, x.size ≤ n := by
  constructor
  · intro hle
    by_contra hnone
    have hlong : ∀ x ∈ xs, n + 1 ≤ x.size := by
      intro x hx
      by_contra hshort
      exact hnone ⟨x, hx, by omega⟩
    have := le_minLength h hlong
    omega
  · rintro ⟨x, hx, hle⟩
    exact (minLength_le hx).trans hle

/-- Too many members are kept as their lengths. -/
theorem ofList_of_many (hmany : exactLimit < (Sorted.ofList xs).length) :
    ofList xs = sized (minLength (Sorted.ofList xs)) (maxLength (Sorted.ofList xs)) := by
  have hne : Sorted.ofList xs ≠ [] := by
    intro hnil
    simp [hnil] at hmany
  have hle := minLength_le_maxLength hne
  have hkept : capped (Sorted.ofList xs) = [] := if_neg (Nat.not_le.mpr hmany)
  have hnone : capped (Sorted.ofList ([] : List ByteString)) = [] := rfl
  have hempty : (Sorted.ofList xs).isEmpty = false := by simpa using hne
  simp only [ofList, any, normalize, sized, hkept, hnone, hempty, List.isEmpty_nil, Bool.false_eq_true, ↓reduceIte,
    Int.natCast_nonneg]
  congr 1
  omega

theorem lengths_ofList (hne : xs ≠ []) :
    (ofList xs).minLen = minLength (Sorted.ofList xs) ∧ (ofList xs).maxLen = maxLength (Sorted.ofList xs) := by
  by_cases hfew : (Sorted.ofList xs).length ≤ exactLimit
  · rw [ofList_eq_exactly hne hfew]
    exact ⟨rfl, rfl⟩
  · rw [ofList_of_many (Nat.lt_of_not_le hfew)]
    exact ⟨rfl, rfl⟩

theorem contains_sized {m n : Nat} (h : (m : Int) ≤ n) :
    (sized m n).contains x = true ↔ m ≤ x.size ∧ x.size ≤ n := by
  constructor
  · intro hx
    obtain ⟨hmin, hmax⟩ := lengths_of_contains (normal_sized h).tidy hx
    exact ⟨hmin, Int.ofNat_le.mp (hmax (Int.natCast_nonneg n))⟩
  · intro hx
    exact contains_affixed hx.1 (fun _ => Int.ofNat_le.mpr hx.2) (absurd rfl) (absurd rfl)

/-- The members of a list are members of its set, whether they are kept or not. -/
theorem contains_ofList (h : x ∈ xs) : (ofList xs).contains x = true := by
  have hmem : x ∈ Sorted.ofList xs := Sorted.mem_ofList.mpr h
  by_cases hfew : (Sorted.ofList xs).length ≤ exactLimit
  · rw [ofList_eq_exactly (List.ne_nil_of_mem h) hfew]
    exact (contains_of_exact (List.ne_nil_of_mem hmem)).mpr hmem
  · rw [ofList_of_many (Nat.lt_of_not_le hfew)]
    exact (contains_sized (Int.ofNat_le.mpr (minLength_le_maxLength (List.ne_nil_of_mem hmem)))).mpr
      ⟨minLength_le hmem, le_maxLength hmem⟩

end StringSet

namespace Value

variable {ss : List String} {s : String}

def characters (s : String) : List Thing := s.toList.map fun c => .string (.ofString (String.singleton c))

/-- The length of a text counts its characters, and iterating over it yields as many: its characters. -/
structure Measures (ss : List String) (s : String) : Prop where
  length : (asLength (texts ss)).Describes (.number .int (.ofInt s.length))
  iterated : (asSequence .list (texts ss)).Describes (.container .list (characters s) [])

def members (ss : List String) : List ByteString := Sorted.ofList (ss.map .ofString)

theorem mem_members {x : ByteString} : x ∈ members ss ↔ ∃ t ∈ ss, ByteString.ofString t = x := by
  rw [members, Sorted.mem_ofList, List.mem_map]

theorem length_members (ss : List String) : (members ss).length = ss.dedup.length := by
  have hperm : (members ss).Perm (ss.map ByteString.ofString).dedup :=
    (List.perm_ext_iff_of_nodup (Sorted.pairwise_ofList _).nodup (List.nodup_dedup _)).mpr fun x =>
      Sorted.mem_ofList.trans List.mem_dedup.symm
  rw [hperm.length_eq, List.dedup_map_of_injective ByteString.ofString_injective, List.length_map]

theorem members_ne_nil (hne : ss ≠ []) : members ss ≠ [] := by
  obtain ⟨t, ht⟩ := List.exists_mem_of_ne_nil ss hne
  exact List.ne_nil_of_mem (mem_members.mpr ⟨t, ht, rfl⟩)

theorem members_lengths (hne : ss ≠ []) :
    StringSet.minLength (members ss) ≤ StringSet.maxLength (members ss) :=
  StringSet.minLength_le_maxLength (members_ne_nil hne)

/-- The length of strings is a range between the lengths of the shortest and the longest. -/
theorem asLength_texts (hne : ss ≠ []) : asLength (texts ss) = [.constant (.number .int
    ⟨[], .ofInt (StringSet.minLength (members ss)), .ofInt (StringSet.maxLength (members ss))⟩)] := by
  have hbytes : ss.map ByteString.ofString ≠ [] := by simpa using hne
  obtain ⟨hmin, hmax⟩ := StringSet.lengths_ofList hbytes
  have hle := members_lengths hne
  have hbounds : lengthBounds (.constant (.string (.ofList (ss.map .ofString)))) =
      (.ofInt (StringSet.minLength (members ss)), .ofInt (StringSet.maxLength (members ss))) := by
    rw [lengthBounds, hmin, hmax, if_pos (Int.natCast_nonneg _)]
    rfl
  have hrange := NumberSet.between_of_le (Number.isNaN_ofInt _) (Number.isNaN_ofInt _)
    (Number.key_ofInt_natCast_mono hle)
  unfold asLength texts strings
  simp only [List.isEmpty_cons, Bool.false_eq_true, ↓reduceIte, List.map_cons, List.map_nil, List.foldl_cons,
    List.foldl_nil, hbounds, Number.posInf_min (Number.isNaN_ofInt _), Number.negInf_max (Number.isNaN_ofInt _)]
  rw [intRange, Number.ceil_ofInt_natCast, Number.floor_ofInt_natCast, hrange]

/-- A list of the characters of strings. -/
theorem asSequence_texts (hne : ss ≠ []) : ∃ c : Container Value, asSequence .list (texts ss) = [.container c] ∧
    c.type = .list ∧ c.elem = chars (.ofList (ss.map .ofString)) ∧
    c.minSize = StringSet.minLength (members ss) ∧ c.maxSize = some (StringSet.maxLength (members ss)) := by
  have hbytes : ss.map ByteString.ofString ≠ [] := by simpa using hne
  obtain ⟨hmin, hmax⟩ := StringSet.lengths_ofList hbytes
  have hle := members_lengths hne
  refine ⟨.ofBounds .list (chars (.ofList (ss.map .ofString))) [] (StringSet.minLength (members ss))
    (StringSet.maxLength (members ss)), ?_, rfl, rfl, rfl, ?_⟩
  · unfold asSequence collect texts strings
    simp only [List.filterMap_cons, iterated, List.filterMap_nil, List.map_cons, List.map_nil, mergeAll,
      List.foldl_cons, List.foldl_nil, nil_merge, hmin, hmax, reduceCtorEq, ↓reduceIte, List.isEmpty_cons,
      Bool.false_eq_true]
    rfl
  · have hbound : ¬ (StringSet.maxLength (members ss) : Int) < 0 := by omega
    simp only [Container.ofBounds, Container.normalize, if_neg hbound, Int.toNat_natCast, Option.map_some,
      Nat.max_eq_right hle]

theorem mem_characters {x : Thing} :
    x ∈ characters s ↔ ∃ c ∈ s.toList, x = .string (.ofString (String.singleton c)) := by
  simp only [characters, List.mem_map, eq_comm]

theorem describes_string_iff {set : StringSet} {x : ByteString} :
    Describes [.constant (.string set)] (.string x) ↔ set.contains x = true := by
  constructor
  · intro h
    cases h with
    | unknown h => cases h
    | constant h hx =>
      cases List.mem_singleton.mp h
      exact hx
  · exact fun h => .constant (List.mem_singleton_self _) h

/-- The characters of strings that are kept are listed. -/
theorem chars_of_few (hfew : ss.dedup.length ≤ exactLimit) (h : s ∈ ss) :
    ∀ x ∈ characters s, (chars (.ofList (ss.map .ofString))).Describes x := by
  have hexact : (StringSet.ofList (ss.map .ofString)).exact = members ss := by
    rw [StringSet.ofList_eq_exactly (by simpa using List.ne_nil_of_mem h) (length_members ss ▸ hfew)]
    rfl
  have hempty : (members ss).isEmpty = false := by simpa using members_ne_nil (List.ne_nil_of_mem h)
  intro x hx
  obtain ⟨c, hc, rfl⟩ := mem_characters.mp hx
  have hlisted : String.singleton c ∈ (members ss).flatMap fun e => e.text.toList.map String.singleton := by
    refine List.mem_flatMap.mpr ⟨.ofString s, mem_members.mpr ⟨s, h, rfl⟩, ?_⟩
    rw [ByteString.text_ofString]
    exact List.mem_map.mpr ⟨c, hc, rfl⟩
  unfold chars
  rw [hexact, hempty, if_neg Bool.false_ne_true]
  simp only [List.isEmpty_iff, List.ne_nil_of_mem hlisted, ↓reduceIte]
  exact describes_string_iff.mpr (StringSet.contains_ofList (List.mem_map.mpr ⟨_, hlisted, rfl⟩))

/-- Of strings that are not kept, only the characters of one byte are described. -/
theorem chars_of_many (hmany : exactLimit < ss.dedup.length) :
    (∀ x ∈ characters s, (chars (.ofList (ss.map .ofString))).Describes x) ↔ ∀ c ∈ s.toList, c.utf8Size = 1 := by
  have hchars : chars (.ofList (ss.map .ofString)) = [.constant (.string (.sized 1 1))] := by
    rw [StringSet.ofList_of_many (length_members ss ▸ hmany)]
    rfl
  have hone : ∀ c : Char, (chars (.ofList (ss.map .ofString))).Describes
      (.string (.ofString (String.singleton c))) ↔ c.utf8Size = 1 := by
    intro c
    rw [hchars, describes_string_iff, ← ByteString.size_singleton]
    generalize ByteString.ofString (String.singleton c) = x
    have hsized : (StringSet.sized 1 1).contains x = true ↔ 1 ≤ x.size ∧ x.size ≤ 1 :=
      StringSet.contains_sized (Int.le_refl _)
    rw [hsized]
    omega
  constructor
  · exact fun h c hc => (hone c).mp (h _ (mem_characters.mpr ⟨c, hc, rfl⟩))
  · intro h x hx
    obtain ⟨c, hc, rfl⟩ := mem_characters.mp hx
    exact (hone c).mpr (h c hc)

theorem chars_describes (h : s ∈ ss) :
    (∀ x ∈ characters s, (chars (.ofList (ss.map .ofString))).Describes x) ↔
      ss.dedup.length ≤ exactLimit ∨ ∀ c ∈ s.toList, c.utf8Size = 1 := by
  rcases Nat.lt_or_ge exactLimit ss.dedup.length with hmany | hfew
  · rw [chars_of_many hmany, or_iff_right (Nat.not_le.mpr hmany)]
  · exact iff_of_true (chars_of_few hfew h) (Or.inl hfew)

/-- Iterating over strings yields as many characters as the shortest of them has bytes, and those of a text only if
they are described. -/
theorem iterated_iff (h : s ∈ ss) : (asSequence .list (texts ss)).Describes (.container .list (characters s) []) ↔
    (∃ t ∈ ss, t.utf8ByteSize ≤ s.length) ∧
      (ss.dedup.length ≤ exactLimit ∨ ∀ c ∈ s.toList, c.utf8Size = 1) := by
  have hne := List.ne_nil_of_mem h
  obtain ⟨c, heq, htype, helem, hmin, hmax⟩ := asSequence_texts hne
  have hlength : (characters s).length = s.length := by rw [characters, List.length_map, String.length_toList]
  have hshort : StringSet.minLength (members ss) ≤ s.length ↔ ∃ t ∈ ss, t.utf8ByteSize ≤ s.length := by
    rw [StringSet.minLength_le_iff (members_ne_nil hne)]
    constructor
    · rintro ⟨x, hx, hle⟩
      obtain ⟨t, ht, rfl⟩ := mem_members.mp hx
      exact ⟨t, ht, ByteString.size_ofString t ▸ hle⟩
    · rintro ⟨t, ht, hle⟩
      exact ⟨_, mem_members.mpr ⟨t, ht, rfl⟩, (ByteString.size_ofString t).trans_le hle⟩
  rw [heq, ← chars_describes h, ← hshort]
  constructor
  · intro hdescribes
    generalize hx : Thing.container .list (characters s) [] = x at hdescribes
    cases hdescribes with
    | unknown hunknown => cases hunknown
    | constant hmem => simp at hmem
    | entity => cases hx
    | container hmem hfits helems =>
      cases List.mem_singleton.mp hmem
      obtain ⟨-, rfl, -⟩ := Thing.container.inj hx
      rw [← helem]
      exact ⟨hmin ▸ hlength ▸ hfits.1, helems⟩
  · rintro ⟨hle, hchars⟩
    rw [← htype]
    refine .container (List.mem_singleton_self _) ⟨by rw [hmin, hlength]; exact hle, fun k hk => ?_⟩
      (helem ▸ hchars) (fun hdict => absurd (htype.symm.trans hdict) (by decide))
    -- No string has more characters than bytes.
    rw [hmax] at hk
    cases hk
    rw [hlength]
    exact (ByteString.length_le_size_ofString s).trans
      (StringSet.le_maxLength (mem_members.mpr ⟨s, h, rfl⟩))

theorem length_described (h : s ∈ ss) (hshort : ∃ t ∈ ss, t.utf8ByteSize ≤ s.length) :
    (asLength (texts ss)).Describes (.number .int (.ofInt s.length)) := by
  have hne := List.ne_nil_of_mem h
  obtain ⟨t, ht, hle⟩ := hshort
  have hmin : StringSet.minLength (members ss) ≤ s.length :=
    (StringSet.minLength_le (mem_members.mpr ⟨t, ht, rfl⟩)).trans ((ByteString.size_ofString t).trans_le hle)
  have hmax : s.length ≤ StringSet.maxLength (members ss) :=
    (ByteString.length_le_size_ofString s).trans (StringSet.le_maxLength (mem_members.mpr ⟨s, h, rfl⟩))
  rw [asLength_texts hne]
  refine .constant (List.mem_singleton_self _) ⟨rfl, ?_⟩
  simp only [NumberSet.contains, List.isEmpty_nil, ↓reduceIte, Bool.and_eq_true, decide_eq_true_eq]
  exact ⟨(Number.le_iff (Number.isNaN_ofInt _) (Number.isNaN_ofInt _)).mpr (Number.key_ofInt_natCast_mono hmin),
    (Number.le_iff (Number.isNaN_ofInt _) (Number.isNaN_ofInt _)).mpr (Number.key_ofInt_natCast_mono hmax)⟩

/-- A text is measured by its characters exactly if some string has no more bytes than the text has characters
and, where the strings are not kept one by one, all characters of the text are of one byte. -/
theorem measures_iff (h : s ∈ ss) : Measures ss s ↔
    (∃ t ∈ ss, t.utf8ByteSize ≤ s.length) ∧
      (ss.dedup.length ≤ exactLimit ∨ ∀ c ∈ s.toList, c.utf8Size = 1) := by
  constructor
  · exact fun hmeasures => (iterated_iff h).mp hmeasures.iterated
  · exact fun hbytes => ⟨length_described h hbytes.1, (iterated_iff h).mpr hbytes⟩

theorem measures_iff_accented : "é" ∈ ["é", "e"] ∧ Measures ["é", "e"] "é" := by
  have hmem : "é" ∈ ["é", "e"] := List.mem_cons_self
  refine ⟨hmem, (measures_iff hmem).mpr ⟨⟨"e", by simp, by decide⟩, Or.inl (by decide)⟩⟩

/-- An accented letter alone is not measured: it has two bytes. -/
theorem not_measures : ¬ ∀ (ss : List String) (s : String), s ∈ ss → Measures ss s := by
  intro h
  have hmem : "é" ∈ ["é"] := List.mem_cons_self
  obtain ⟨⟨t, ht, hle⟩, -⟩ := (iterated_iff hmem).mp (h _ _ hmem).iterated
  cases List.mem_singleton.mp ht
  exact absurd hle (by decide)

end Value

end AbstractFlow
