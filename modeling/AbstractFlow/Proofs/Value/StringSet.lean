import AbstractFlow.Proofs.Collection.Sorted
import AbstractFlow.Value.StringSet

/-! # Normal sets of strings

Normalising gives tidy sets: few exact members in strictly increasing order and nothing else but their
lengths, or few beginnings, few endings and a range of lengths. The join of two tidy sets is the sorted
union of their members, or it unites their beginnings, their endings and their lengths. The sets that
literals give are normal: they have neither beginnings nor endings, since these are forgotten together
with the members.
-/
namespace AbstractFlow

instance : IsStrictTotalOrder ByteString (· < ·) where
  irrefl s := List.lt_irrefl s.bytes
  trans _ _ _ h h' := List.lt_trans h h'
  trichotomous s t h h' := by
    obtain ⟨s⟩ := s
    obtain ⟨t⟩ := t
    have hst : s = t := List.le_antisymm (List.not_lt.mp h') (List.not_lt.mp h)
    rw [hst]

namespace StringSet

variable {x : ByteString} {xs : List ByteString} {s t : StringSet}

theorem minLength_le (h : x ∈ xs) : minLength xs ≤ x.size := by
  induction xs with
  | nil => simp at h
  | cons y rest ih =>
    cases rest with
    | nil => simp [List.mem_singleton.mp h, minLength]
    | cons z rest =>
      rw [minLength]
      · rcases List.mem_cons.mp h with rfl | h
        · exact Nat.min_le_left _ _
        · exact Nat.le_trans (Nat.min_le_right _ _) (ih h)
      · simp

theorem le_maxLength (h : x ∈ xs) : x.size ≤ maxLength xs := by
  induction xs with
  | nil => simp at h
  | cons y rest ih =>
    rw [maxLength]
    rcases List.mem_cons.mp h with rfl | h
    · exact Nat.le_max_left _ _
    · exact Nat.le_trans (ih h) (Nat.le_max_right _ _)

theorem le_minLength {n : Nat} (hne : xs ≠ []) (h : ∀ x ∈ xs, n ≤ x.size) :
    n ≤ minLength xs := by
  induction xs with
  | nil => exact absurd rfl hne
  | cons y rest ih =>
    obtain ⟨hy, hrest⟩ := List.forall_mem_cons.mp h
    cases rest with
    | nil => exact hy
    | cons z rest =>
      rw [minLength]
      · exact Nat.le_min.mpr ⟨hy, ih (List.cons_ne_nil z rest) hrest⟩
      · simp

theorem maxLength_le {n : Nat} (h : ∀ x ∈ xs, x.size ≤ n) : maxLength xs ≤ n := by
  induction xs with
  | nil => exact Nat.zero_le n
  | cons y rest ih =>
    obtain ⟨hy, hrest⟩ := List.forall_mem_cons.mp h
    exact Nat.max_le.mpr ⟨hy, ih hrest⟩

theorem minLength_le_maxLength (h : xs ≠ []) : minLength xs ≤ maxLength xs := by
  obtain ⟨x, hx⟩ := List.exists_mem_of_ne_nil xs h
  exact Nat.le_trans (minLength_le hx) (le_maxLength hx)

def exactly (xs : List ByteString) : StringSet := ⟨xs, [], [], minLength xs, maxLength xs⟩

/-- All strings of a length between the bounds. -/
def sized (minLen : Nat) (maxLen : Int) : StringSet := ⟨[], [], [], minLen, maxLen⟩

structure Tidy (s : StringSet) : Prop where
  increasing : s.exact.Pairwise (· < ·)
  few : s.exact.length ≤ exactLimit
  beginnings : s.beginnings.Pairwise (· < ·)
  fewBeginnings : s.beginnings.length ≤ exactLimit
  endings : s.endings.Pairwise (· < ·)
  fewEndings : s.endings.length ≤ exactLimit
  alone : s.exact ≠ [] → s = exactly s.exact
  ordered : 0 ≤ s.maxLen → (s.minLen : Int) ≤ s.maxLen

/-- A set as literals give it and joins keep it. -/
structure Normal (s : StringSet) : Prop where
  increasing : s.exact.Pairwise (· < ·)
  few : s.exact.length ≤ exactLimit
  beginnings : s.beginnings = []
  endings : s.endings = []
  minLen : s.exact ≠ [] → s.minLen = minLength s.exact
  maxLen : s.exact ≠ [] → s.maxLen = maxLength s.exact
  ordered : (s.minLen : Int) ≤ s.maxLen

theorem Normal.tidy (h : s.Normal) : s.Tidy := by
  refine ⟨h.increasing, h.few, h.beginnings ▸ .nil, by simp [h.beginnings], h.endings ▸ .nil,
    by simp [h.endings], fun hne => ?_, fun _ => h.ordered⟩
  obtain ⟨exact, beginnings, endings, minLen, maxLen⟩ := s
  rw [exactly, ← h.minLen hne, ← h.maxLen hne]
  exact congrArg₂ (fun bs es => (⟨exact, bs, es, minLen, maxLen⟩ : StringSet)) h.beginnings h.endings

theorem Normal.eq_sized (h : s.Normal) (hnil : s.exact = []) : s = sized s.minLen s.maxLen := by
  have hbeginnings := h.beginnings
  have hendings := h.endings
  obtain ⟨exact, beginnings, endings, minLen, maxLen⟩ := s
  simp only at hnil hbeginnings hendings
  rw [sized, hnil, hbeginnings, hendings]

theorem normal_exactly (h : xs.Pairwise (· < ·)) (hne : xs ≠ []) (hfew : xs.length ≤ exactLimit) :
    (exactly xs).Normal :=
  ⟨h, hfew, rfl, rfl, fun _ => rfl, fun _ => rfl, Int.ofNat_le.mpr (minLength_le_maxLength hne)⟩

theorem normal_sized {minLen : Nat} {maxLen : Int} (h : (minLen : Int) ≤ maxLen) :
    (sized minLen maxLen).Normal :=
  ⟨.nil, by simp [sized], rfl, rfl, by simp [sized], by simp [sized], h⟩

theorem pairwise_capped (h : xs.Pairwise (· < ·)) : (capped xs).Pairwise (· < ·) := by
  unfold capped
  split
  · exact h
  · exact .nil

theorem length_capped_le (xs : List ByteString) : (capped xs).length ≤ exactLimit := by
  unfold capped
  split
  · assumption
  · simp

/-- The set of the strings with the given beginnings, endings and lengths. -/
def affixed (bs es : List ByteString) (minLen : Nat) (maxLen : Int) : StringSet :=
  ⟨[], capped bs, capped es, minLen, maxLen⟩

theorem tidy_affixed {bs es : List ByteString} (hbs : bs.Pairwise (· < ·)) (hes : es.Pairwise (· < ·))
    {minLen : Nat} {maxLen : Int} (h : 0 ≤ maxLen → (minLen : Int) ≤ maxLen) :
    (affixed bs es minLen maxLen).Tidy :=
  ⟨.nil, by simp [affixed], pairwise_capped hbs, length_capped_le bs, pairwise_capped hes, length_capped_le es,
    by simp [affixed], h⟩

theorem tidy_exactly (h : xs.Pairwise (· < ·)) (hfew : xs.length ≤ exactLimit) : (exactly xs).Tidy := by
  refine ⟨h, hfew, .nil, by simp [exactly], .nil, by simp [exactly], fun _ => rfl, fun _ => ?_⟩
  by_cases hne : xs = []
  · subst hne
    exact Int.le_refl _
  · exact Int.ofNat_le.mpr (minLength_le_maxLength hne)

/-- Few exact members are all that is kept. -/
theorem normalize_of_few (hne : Sorted.ofList s.exact ≠ [])
    (hfew : (Sorted.ofList s.exact).length ≤ exactLimit) : s.normalize = exactly (Sorted.ofList s.exact) := by
  have hle := minLength_le_maxLength hne
  have hkept : capped (Sorted.ofList s.exact) = Sorted.ofList s.exact := if_pos hfew
  have hempty : (Sorted.ofList s.exact).isEmpty = false := by simpa using hne
  simp only [normalize, hkept, hempty, exactly, Bool.false_eq_true, ↓reduceIte, Int.natCast_nonneg]
  congr 1
  omega

theorem normalize_exact (h : xs.Pairwise (· < ·)) (hne : xs ≠ []) (hfew : xs.length ≤ exactLimit)
    (minLen : Nat) (maxLen : Int) : normalize ⟨xs, [], [], minLen, maxLen⟩ = exactly xs := by
  have hsorted := Sorted.ofList_of_pairwise h
  have := normalize_of_few (s := ⟨xs, [], [], minLen, maxLen⟩) (by rwa [hsorted]) (by rwa [hsorted])
  rwa [hsorted] at this

/-- Without exact members, beginnings and endings are kept unless they are too many. -/
theorem normalize_of_none {bs es : List ByteString} {minLen : Nat} {maxLen : Int}
    (h : 0 ≤ maxLen → (minLen : Int) ≤ maxLen) :
    normalize ⟨[], bs, es, minLen, maxLen⟩ = affixed (Sorted.ofList bs) (Sorted.ofList es) minLen maxLen := by
  have hnil : Sorted.ofList ([] : List ByteString) = [] := rfl
  have hkept : capped [] = [] := rfl
  simp only [normalize, hnil, hkept, affixed, List.isEmpty_nil, ↓reduceIte]
  congr 1
  split <;> omega

theorem tidy_normalize (s : StringSet) : s.normalize.Tidy := by
  by_cases hkept : capped (Sorted.ofList s.exact) = []
  · have hordered : ∀ (minLen : Nat) (maxLen : Int), 0 ≤ (if 0 ≤ maxLen then max maxLen minLen else maxLen) →
        (minLen : Int) ≤ if 0 ≤ maxLen then max maxLen minLen else maxLen := by
      intro minLen maxLen
      split <;> omega
    unfold normalize
    simp only [hkept, List.isEmpty_nil, ↓reduceIte]
    exact tidy_affixed (Sorted.pairwise_ofList _) (Sorted.pairwise_ofList _) (hordered _ _)
  · have hfew : (Sorted.ofList s.exact).length ≤ exactLimit := by
      by_contra hmany
      exact hkept (if_neg hmany)
    have hne : Sorted.ofList s.exact ≠ [] := by
      intro hnil
      exact hkept (by rw [hnil]; rfl)
    rw [normalize_of_few hne hfew]
    exact tidy_exactly (Sorted.pairwise_ofList s.exact) hfew

theorem ofList_singleton (x : ByteString) : ofList [x] = exactly [x] :=
  normalize_exact (List.pairwise_singleton _ _) (by simp) (by simp [exactLimit]) _ _

theorem normal_ofList_singleton (x : ByteString) : (ofList [x]).Normal := by
  rw [ofList_singleton]
  exact normal_exactly (List.pairwise_singleton _ _) (by simp) (by simp [exactLimit])

theorem join_of_exact (h : s.exact ≠ []) (h' : t.exact ≠ [])
    (hfew : (Sorted.union s.exact t.exact).length ≤ exactLimit) :
    s.join t = exactly (Sorted.union s.exact t.exact) := by
  have hunion : bothOrNone s.exact t.exact = Sorted.union s.exact t.exact := by
    simp [bothOrNone, h, h']
  have hkept : capped (Sorted.union s.exact t.exact) = Sorted.union s.exact t.exact := if_pos hfew
  have hne : Sorted.union s.exact t.exact ≠ [] := by
    obtain ⟨x, hx⟩ := List.exists_mem_of_ne_nil _ h
    exact List.ne_nil_of_mem (Sorted.mem_union.mpr (Or.inl hx))
  have hempty : (Sorted.union s.exact t.exact).isEmpty = false := by simpa using hne
  simp only [join, hunion, hkept, hempty, Bool.false_eq_true, ↓reduceIte]
  exact normalize_exact (Sorted.pairwise_ofList _) hne hfew _ _

theorem pairwise_bothOrNone (as bs : List ByteString) : (bothOrNone as bs).Pairwise (· < ·) := by
  unfold bothOrNone
  split
  · exact .nil
  · exact Sorted.pairwise_ofList _

theorem capped_bothOrNone (h : s.exact = [] ∨ t.exact = [] ∨
    exactLimit < (Sorted.union s.exact t.exact).length) : capped (bothOrNone s.exact t.exact) = [] := by
  rcases h with h | h | h
  · simp [bothOrNone, h, capped]
  · simp [bothOrNone, h, capped]
  · unfold bothOrNone
    split
    · rfl
    · exact if_neg (by omega)

theorem looserBound_ordered (hs : s.Tidy) (ht : t.Tidy) (h : 0 ≤ looserBound s.maxLen t.maxLen) :
    ((min s.minLen t.minLen : Nat) : Int) ≤ looserBound s.maxLen t.maxLen := by
  have := hs.ordered
  have := ht.ordered
  unfold looserBound at h ⊢
  split at h <;> omega

/-- The join with a set that has no exact members, or of too many members, unites what members begin and
end with. -/
theorem join_of_affixed (hs : s.Tidy) (ht : t.Tidy) (h : s.exact = [] ∨ t.exact = [] ∨
    exactLimit < (Sorted.union s.exact t.exact).length) :
    s.join t = affixed (bothOrNone s.effectiveBeginnings t.effectiveBeginnings)
      (bothOrNone s.effectiveEndings t.effectiveEndings) (min s.minLen t.minLen)
      (looserBound s.maxLen t.maxLen) := by
  simp only [join, capped_bothOrNone h, List.isEmpty_nil, ↓reduceIte]
  rw [normalize_of_none (looserBound_ordered hs ht), Sorted.ofList_of_pairwise (pairwise_bothOrNone _ _),
    Sorted.ofList_of_pairwise (pairwise_bothOrNone _ _)]

theorem tidy_join (s t : StringSet) : (s.join t).Tidy := tidy_normalize _

section Join

variable (hs : s.Normal) (ht : t.Normal)

include hs ht

theorem looserBound_eq : looserBound s.maxLen t.maxLen = max s.maxLen t.maxLen := by
  have := hs.ordered
  have := ht.ordered
  unfold looserBound
  rw [if_neg (by omega)]

theorem join_of_sized (h : s.exact = [] ∨ t.exact = [] ∨
    exactLimit < (Sorted.union s.exact t.exact).length) :
    s.join t = sized (min s.minLen t.minLen) (max s.maxLen t.maxLen) := by
  have heffective : ∀ {u : StringSet}, u.Normal → u.effectiveBeginnings = u.exact ∧ u.effectiveEndings = u.exact := by
    intro u hu
    unfold effectiveBeginnings effectiveEndings
    by_cases hexact : u.exact = [] <;> simp [hexact, hu.beginnings, hu.endings]
  rw [join_of_affixed hs.tidy ht.tidy h, looserBound_eq hs ht, (heffective hs).1, (heffective hs).2,
    (heffective ht).1, (heffective ht).2, affixed, capped_bothOrNone h]
  rfl

theorem normal_join : (s.join t).Normal := by
  by_cases h : s.exact = [] ∨ t.exact = [] ∨ exactLimit < (Sorted.union s.exact t.exact).length
  · rw [join_of_sized hs ht h]
    refine normal_sized ?_
    have := hs.ordered
    have := ht.ordered
    omega
  · simp only [not_or, Nat.not_lt] at h
    obtain ⟨x, hx⟩ := List.exists_mem_of_ne_nil _ h.1
    rw [join_of_exact h.1 h.2.1 h.2.2]
    exact normal_exactly (Sorted.pairwise_ofList _)
      (List.ne_nil_of_mem (Sorted.mem_union.mpr (Or.inl hx))) h.2.2

/-- What a join can do to a set: nothing, give it members, give it bounds in their place, or widen it. -/
theorem join_grows :
    s.join t = s ∨
      (s.exact ≠ [] ∧ (s.exact.length < (s.join t).exact.length ∨ (s.join t).exact = [])) ∨
      (s.exact = [] ∧ s.join t = sized (min s.minLen t.minLen) (max s.maxLen t.maxLen) ∧
        (min s.minLen t.minLen ≠ s.minLen ∨ max s.maxLen t.maxLen ≠ s.maxLen)) := by
  by_cases h : s.exact = [] ∨ t.exact = [] ∨ exactLimit < (Sorted.union s.exact t.exact).length
  · rw [join_of_sized hs ht h]
    by_cases hexact : s.exact = []
    · by_cases hsame : min s.minLen t.minLen = s.minLen ∧ max s.maxLen t.maxLen = s.maxLen
      · left
        rw [hsame.1, hsame.2]
        exact (hs.eq_sized hexact).symm
      · exact Or.inr (Or.inr ⟨hexact, rfl, by tauto⟩)
    · exact Or.inr (Or.inl ⟨hexact, Or.inr rfl⟩)
  · simp only [not_or, Nat.not_lt] at h
    have hsub : s.exact ⊆ Sorted.union s.exact t.exact := fun x hx => Sorted.mem_union.mpr (Or.inl hx)
    have hsorted : (Sorted.union s.exact t.exact).Pairwise (· < ·) := Sorted.pairwise_ofList _
    rw [join_of_exact h.1 h.2.1 h.2.2]
    by_cases hlen : (Sorted.union s.exact t.exact).length ≤ s.exact.length
    · left
      rw [Sorted.eq_of_subset hs.increasing hsorted hsub hlen]
      exact (hs.tidy.alone h.1).symm
    · exact Or.inr (Or.inl ⟨h.1, Or.inl (Nat.lt_of_not_le hlen)⟩)

end Join

end StringSet

end AbstractFlow
