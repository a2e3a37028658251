import AbstractFlow.Proofs.Collection.Sorted
import AbstractFlow.Proofs.Number.Order
import AbstractFlow.Value.NumberSet

/-! # Normal sets of numbers

Normalising gives tidy sets: bounds that are numbers, and exact members that increase strictly from the
lower to the upper bound. The join of two tidy sets is the sorted union of their members, or the range
over all of their bounds. The sets that literals give are normal: their bounds are in order as well.
-/
namespace AbstractFlow.NumberSet

variable {x y : Number} {xs ys : List Number} {s t : NumberSet}

structure Increasing (xs : List Number) : Prop where
  numbers : ∀ x ∈ xs, x.isNaN = false
  pairwise : xs.Pairwise fun x y => x.key < y.key

theorem increasing_nil : Increasing [] := ⟨by simp, .nil⟩

theorem Increasing.tail (h : Increasing (x :: xs)) : Increasing xs :=
  ⟨fun y hy => h.numbers y (List.mem_cons_of_mem x hy), (List.pairwise_cons.mp h.pairwise).2⟩

theorem mem_insertSorted_self (x : Number) (xs : List Number) : x ∈ insertSorted x xs := by
  induction xs with
  | nil => simp [insertSorted]
  | cons y rest ih =>
    unfold insertSorted
    split
    · exact List.mem_cons_self
    · split
      · exact List.mem_cons_of_mem _ ih
      · exact List.mem_cons_self

theorem mem_of_mem_insertSorted (h : y ∈ insertSorted x xs) : y = x ∨ y ∈ xs := by
  induction xs with
  | nil => exact Or.inl (List.mem_singleton.mp h)
  | cons z rest ih =>
    unfold insertSorted at h
    split at h
    · exact List.mem_cons.mp h
    · split at h
      · rcases List.mem_cons.mp h with rfl | h
        · exact Or.inr List.mem_cons_self
        · exact (ih h).imp_right (List.mem_cons_of_mem z)
      · exact (List.mem_cons.mp h).imp_right (List.mem_cons_of_mem z)

/-- An insertion replaces at most a number of the same key. -/
theorem mem_insertSorted_of_mem (hx : x.isNaN = false) (hxs : Increasing xs) (hy : y ∈ xs) :
    y ∈ insertSorted x xs ∨ y.key = x.key := by
  induction xs with
  | nil => simp at hy
  | cons z rest ih =>
    have hz := hxs.numbers z List.mem_cons_self
    unfold insertSorted
    simp only [Number.lt_iff hx hz, Number.lt_iff hz hx]
    split
    · exact Or.inl (List.mem_cons_of_mem x hy)
    · split
      · rcases List.mem_cons.mp hy with rfl | hy
        · exact Or.inl List.mem_cons_self
        · exact (ih hxs.tail hy).imp_left (List.mem_cons_of_mem z)
      · rcases List.mem_cons.mp hy with rfl | hy
        · exact Or.inr (by omega)
        · exact Or.inl (List.mem_cons_of_mem x hy)

theorem increasing_insertSorted (hx : x.isNaN = false) (hxs : Increasing xs) :
    Increasing (insertSorted x xs) := by
  refine ⟨fun y hy => ?_, ?_⟩
  · rcases mem_of_mem_insertSorted hy with rfl | hy
    · exact hx
    · exact hxs.numbers y hy
  · induction xs with
    | nil => simp [insertSorted]
    | cons z rest ih =>
      have hz := hxs.numbers z List.mem_cons_self
      obtain ⟨hlt, hpair⟩ := List.pairwise_cons.mp hxs.pairwise
      unfold insertSorted
      simp only [Number.lt_iff hx hz, Number.lt_iff hz hx]
      split
      · rename_i hxz
        refine List.pairwise_cons.mpr ⟨fun w hw => ?_, hxs.pairwise⟩
        rcases List.mem_cons.mp hw with rfl | hw
        · exact hxz
        · exact Int.lt_trans hxz (hlt w hw)
      · split
        · rename_i hzx
          refine List.pairwise_cons.mpr ⟨fun w hw => ?_, ih hxs.tail⟩
          rcases mem_of_mem_insertSorted hw with rfl | hw
          · exact hzx
          · exact hlt w hw
        · refine List.pairwise_cons.mpr ⟨fun w hw => ?_, hpair⟩
          have := hlt w hw
          omega

theorem increasing_foldr_insertSorted (hxs : ∀ x ∈ xs, x.isNaN = false) (hys : Increasing ys) :
    Increasing (xs.foldr insertSorted ys) := by
  induction xs with
  | nil => exact hys
  | cons x rest ih =>
    exact increasing_insertSorted (hxs x List.mem_cons_self) (ih fun y hy => hxs y (List.mem_cons_of_mem x hy))

theorem increasing_sortedNumbers (xs : List Number) : Increasing (sortedNumbers xs) :=
  increasing_foldr_insertSorted (by simp) increasing_nil

theorem mem_of_mem_foldr_insertSorted (h : y ∈ xs.foldr insertSorted ys) : y ∈ xs ∨ y ∈ ys := by
  induction xs with
  | nil => exact Or.inr h
  | cons x rest ih =>
    rcases mem_of_mem_insertSorted h with rfl | h
    · exact Or.inl List.mem_cons_self
    · exact (ih h).imp_left (List.mem_cons_of_mem x)

theorem mem_of_mem_sortedNumbers (h : x ∈ sortedNumbers xs) : x ∈ xs := by
  rcases mem_of_mem_foldr_insertSorted h with h | h
  · exact (List.mem_filter.mp h).1
  · simp at h

/-- Every number of the list is found again, up to the sign of a zero. -/
theorem exists_key_of_mem (hx : x.isNaN = false) (h : x ∈ xs) :
    ∃ y ∈ sortedNumbers xs, y.key = x.key := by
  have hmem : x ∈ xs.filter fun x => !x.isNaN := by simp [h, hx]
  have hnumbers : ∀ y ∈ xs.filter fun x => !x.isNaN, y.isNaN = false := by simp
  unfold sortedNumbers
  revert hmem hnumbers
  generalize (xs.filter fun x => !x.isNaN) = xs
  intro hmem hnumbers
  induction xs with
  | nil => simp at hmem
  | cons z rest ih =>
    have hz := hnumbers z List.mem_cons_self
    have hnumbers' : ∀ y ∈ rest, y.isNaN = false := fun y hy => hnumbers y (List.mem_cons_of_mem z hy)
    rcases List.mem_cons.mp hmem with rfl | hmem
    · exact ⟨x, mem_insertSorted_self _ _, rfl⟩
    · obtain ⟨y, hy, hkey⟩ := ih hmem hnumbers'
      rcases mem_insertSorted_of_mem hz (increasing_foldr_insertSorted hnumbers' increasing_nil) hy with h | h
      · exact ⟨y, h, hkey⟩
      · exact ⟨z, mem_insertSorted_self _ _, h.symm.trans hkey⟩

/-- Of equal numbers the first stays, so numbers in front that increase all stay. -/
theorem subset_sortedNumbers_append (hxs : Increasing xs) (ys : List Number) :
    xs ⊆ sortedNumbers (xs ++ ys) := by
  have hfilter : (xs ++ ys).filter (fun x => !x.isNaN) = xs ++ ys.filter fun x => !x.isNaN := by
    rw [List.filter_append, List.filter_eq_self.mpr]
    intro x hx
    simp [hxs.numbers x hx]
  unfold sortedNumbers
  rw [hfilter, List.foldr_append]
  have hys : Increasing ((ys.filter fun x => !x.isNaN).foldr insertSorted []) := increasing_sortedNumbers ys
  generalize (ys.filter fun x => !x.isNaN).foldr insertSorted [] = ys at hys
  clear hfilter
  induction xs with
  | nil => simp
  | cons x rest ih =>
    intro y hy
    rcases List.mem_cons.mp hy with rfl | hy
    · exact mem_insertSorted_self _ _
    · rcases mem_insertSorted_of_mem (hxs.numbers x List.mem_cons_self)
        (increasing_foldr_insertSorted hxs.tail.numbers hys) (ih hxs.tail hy) with h | h
      · exact h
      · have := (List.pairwise_cons.mp hxs.pairwise).1 y hy
        omega

theorem Increasing.head_le (h : Increasing (x :: xs)) (hy : y ∈ x :: xs) : x.key ≤ y.key := by
  rcases List.mem_cons.mp hy with rfl | hy
  · exact Int.le_refl _
  · exact Int.le_of_lt ((List.pairwise_cons.mp h.pairwise).1 y hy)

theorem Increasing.le_last (h : Increasing (x :: xs)) (hy : y ∈ x :: xs) :
    y.key ≤ ((x :: xs).getLast (List.cons_ne_nil x xs)).key := by
  induction xs generalizing x y with
  | nil => rw [List.mem_singleton.mp hy]; exact Int.le_refl _
  | cons z rest ih =>
    rw [List.getLast_cons (List.cons_ne_nil z rest)]
    have hz := ih h.tail List.mem_cons_self
    rcases List.mem_cons.mp hy with rfl | hy
    · have := (List.pairwise_cons.mp h.pairwise).1 z List.mem_cons_self
      omega
    · exact ih h.tail hy

/-- A set as normalising gives it: numbers as bounds, and few exact members, which increase from the
lower to the upper bound. -/
structure Tidy (s : NumberSet) : Prop where
  lower : s.lower.isNaN = false
  upper : s.upper.isNaN = false
  increasing : Increasing s.exact
  few : s.exact.length ≤ exactLimit
  first : ∀ x, s.exact.head? = some x → s.lower = x
  last : ∀ x, s.exact.getLast? = some x → s.upper = x

/-- A set as literals give it and joins keep it. -/
structure Normal (s : NumberSet) : Prop where
  lower : s.lower.isNaN = false
  upper : s.upper.isNaN = false
  ordered : s.lower.place ≤ s.upper.place
  increasing : Increasing s.exact
  few : s.exact.length ≤ exactLimit
  first : ∀ x, s.exact.head? = some x → s.lower = x
  last : ∀ x, s.exact.getLast? = some x → s.upper = x

theorem Normal.tidy (h : s.Normal) : s.Tidy := ⟨h.lower, h.upper, h.increasing, h.few, h.first, h.last⟩

theorem Tidy.normal (h : s.Tidy) (hordered : s.lower.place ≤ s.upper.place) : s.Normal :=
  ⟨h.lower, h.upper, hordered, h.increasing, h.few, h.first, h.last⟩

/-- The set of the given members, or of all that lies between the first and the last of too many. -/
def spanned (xs : List Number) (lower upper : Number) : NumberSet :=
  { exact := if xs.length ≤ exactLimit then xs else []
    lower := xs.headD lower
    upper := xs.getLastD upper }

theorem spanned_upper (x : Number) (xs : List Number) (lower upper : Number) :
    (spanned (x :: xs) lower upper).upper = (x :: xs).getLast (List.cons_ne_nil x xs) := by
  simp [spanned, List.getLastD_eq_getLast?, List.getLast?_eq_some_getLast]

theorem tidy_spanned (h : Increasing xs) {lower upper : Number}
    (hbounds : xs = [] → lower.isNaN = false ∧ upper.isNaN = false) : (spanned xs lower upper).Tidy := by
  cases xs with
  | nil =>
    obtain ⟨hlower, hupper⟩ := hbounds rfl
    exact ⟨hlower, hupper, increasing_nil, by simp [spanned], by simp [spanned], by simp [spanned]⟩
  | cons x rest =>
    have hlast := h.numbers _ (List.getLast_mem (List.cons_ne_nil x rest))
    by_cases hfew : (x :: rest).length ≤ exactLimit
    · have hexact : (spanned (x :: rest) lower upper).exact = x :: rest := if_pos hfew
      refine ⟨h.numbers x List.mem_cons_self, ?_, by rwa [hexact], by rwa [hexact], ?_, ?_⟩
      · rwa [spanned_upper]
      · rw [hexact]
        exact fun y hy => Option.some.inj hy
      · rw [hexact, spanned_upper, List.getLast?_eq_some_getLast (List.cons_ne_nil x rest)]
        exact fun y hy => Option.some.inj hy
    · have hexact : (spanned (x :: rest) lower upper).exact = [] := if_neg hfew
      refine ⟨h.numbers x List.mem_cons_self, ?_, hexact ▸ increasing_nil, by simp [hexact], ?_, ?_⟩
      · rwa [spanned_upper]
      · simp [hexact]
      · simp [hexact]

theorem normal_spanned (h : Increasing xs) (hne : xs ≠ []) (lower upper : Number) :
    (spanned xs lower upper).Normal := by
  refine (tidy_spanned h (absurd · hne)).normal ?_
  obtain ⟨x, rest, rfl⟩ := List.exists_cons_of_ne_nil hne
  rw [spanned_upper]
  show x.place ≤ _
  cases rest with
  | nil => simp
  | cons z rest =>
    refine Int.le_of_lt (Number.place_lt_of_key_lt ?_)
    rw [List.getLast_cons (List.cons_ne_nil z rest)]
    exact (List.pairwise_cons.mp h.pairwise).1 _ (List.getLast_mem _)

theorem Increasing.filter (h : Increasing xs) (p : Number → Bool) : Increasing (xs.filter p) :=
  ⟨fun x hx => h.numbers x (List.mem_of_mem_filter hx), h.pairwise.filter p⟩

/-- Normalising keeps some increasing numbers; where there are none, it keeps the bounds that are numbers. -/
theorem exists_normalize (s : NumberSet) : ∃ xs, Increasing xs ∧ s.normalize =
    spanned xs (if s.lower.isNaN then .negInf else s.lower) (if s.upper.isNaN then .posInf else s.upper) := by
  have hsorted := increasing_sortedNumbers s.exact
  have hkept : ∀ p, Increasing (if ((sortedNumbers s.exact).filter p).isEmpty then sortedNumbers s.exact
      else (sortedNumbers s.exact).filter p) := by
    intro p
    split
    · exact hsorted
    · exact hsorted.filter p
  exact ⟨_, hkept _, rfl⟩

theorem tidy_normalize (s : NumberSet) : s.normalize.Tidy := by
  obtain ⟨xs, hxs, heq⟩ := s.exists_normalize
  rw [heq]
  refine tidy_spanned hxs fun _ => ⟨?_, ?_⟩ <;> split <;> simp_all

theorem normalize_eq_spanned (hlower : s.lower.isNaN = false) (hupper : s.upper.isNaN = false)
    (hinside : ∀ x ∈ s.exact, x.isNaN = false → s.lower.key ≤ x.key ∧ x.key ≤ s.upper.key) :
    s.normalize = spanned (sortedNumbers s.exact) s.lower s.upper := by
  have hfilter : (sortedNumbers s.exact).filter (fun x => s.lower ≤ x && x ≤ s.upper) = sortedNumbers s.exact := by
    rw [List.filter_eq_self]
    intro x hx
    have hnumber := (increasing_sortedNumbers s.exact).numbers x hx
    obtain ⟨hl, hu⟩ := hinside x (mem_of_mem_sortedNumbers hx) hnumber
    simp [Number.le_iff hlower hnumber, Number.le_iff hnumber hupper, hl, hu]
  unfold normalize spanned
  simp only [hlower, hupper, Bool.false_eq_true, ↓reduceIte, hfilter, ite_self]

theorem normalize_of_exact_nil (hlower : s.lower.isNaN = false) (hupper : s.upper.isNaN = false)
    (h : s.exact = []) : s.normalize = s := by
  rw [normalize_eq_spanned hlower hupper (by simp [h]), h]
  obtain ⟨exact, lower, upper⟩ := s
  simp only at h
  rw [h]
  rfl

theorem Tidy.inside (h : s.Tidy) (hx : x ∈ s.exact) : s.lower.key ≤ x.key ∧ x.key ≤ s.upper.key := by
  obtain ⟨z, rest, hexact⟩ := List.exists_cons_of_ne_nil (List.ne_nil_of_mem hx)
  have hlower : s.lower = z := h.first z (by simp [hexact])
  have hlast := h.last
  have hincreasing := h.increasing
  rw [hexact] at hx hlast hincreasing
  have hupper := hlast _ (List.getLast?_eq_some_getLast (List.cons_ne_nil z rest))
  rw [hlower, hupper]
  exact ⟨hincreasing.head_le hx, hincreasing.le_last hx⟩

theorem lower_min (s t : NumberSet) : s.lower.min t.lower = s.lower ∨ s.lower.min t.lower = t.lower := by
  rw [Number.min_eq]
  split <;> simp

theorem upper_max (s t : NumberSet) : s.upper.max t.upper = s.upper ∨ s.upper.max t.upper = t.upper := by
  rw [Number.max_eq]
  split <;> simp

theorem key_min_le (x y : Number) : (x.min y).key ≤ x.key ∧ (x.min y).key ≤ y.key := by
  rw [Number.min_eq]
  split
  · rename_i h
    exact ⟨Int.le_refl _, Number.key_le_of_place_le h⟩
  · rename_i h
    exact ⟨Number.key_le_of_place_le (by omega), Int.le_refl _⟩

theorem le_key_max (x y : Number) : x.key ≤ (x.max y).key ∧ y.key ≤ (x.max y).key := by
  rw [Number.max_eq]
  split
  · rename_i h
    exact ⟨Number.key_le_of_place_le h, Int.le_refl _⟩
  · rename_i h
    exact ⟨Int.le_refl _, Number.key_le_of_place_le (by omega)⟩

section Join

variable (hs : s.Tidy) (ht : t.Tidy)

include hs ht

theorem join_lower_number : (s.lower.min t.lower).isNaN = false := by
  rcases lower_min s t with h | h <;> rw [h]
  · exact hs.lower
  · exact ht.lower

theorem join_upper_number : (s.upper.max t.upper).isNaN = false := by
  rcases upper_max s t with h | h <;> rw [h]
  · exact hs.upper
  · exact ht.upper

theorem join_of_range (h : s.exact = [] ∨ t.exact = []) :
    s.join t = ⟨[], s.lower.min t.lower, s.upper.max t.upper⟩ := by
  have hempty : (s.exact.isEmpty || t.exact.isEmpty) = true := by
    rcases h with h | h <;> simp [h]
  unfold join
  rw [if_pos hempty]
  exact normalize_of_exact_nil (join_lower_number hs ht) (join_upper_number hs ht) rfl

theorem join_of_exact (h : s.exact ≠ []) (h' : t.exact ≠ []) :
    s.join t =
      spanned (sortedNumbers (s.exact ++ t.exact)) (s.lower.min t.lower) (s.upper.max t.upper) := by
  have hboth : ¬ (s.exact.isEmpty || t.exact.isEmpty) = true := by simp [h, h']
  unfold join
  rw [if_neg hboth]
  refine normalize_eq_spanned (join_lower_number hs ht) (join_upper_number hs ht) fun x hx _ => ?_
  have hmin := key_min_le s.lower t.lower
  have hmax := le_key_max s.upper t.upper
  dsimp only
  rcases List.mem_append.mp hx with hx | hx
  · have := hs.inside hx
    omega
  · have := ht.inside hx
    omega

omit ht in
theorem sortedNumbers_ne_nil (h : s.exact ≠ []) : sortedNumbers (s.exact ++ t.exact) ≠ [] := by
  obtain ⟨x, hx⟩ := List.exists_mem_of_ne_nil _ h
  exact List.ne_nil_of_mem (subset_sortedNumbers_append hs.increasing t.exact hx)

end Join

theorem tidy_join (s t : NumberSet) : (s.join t).Tidy := tidy_normalize _

instance : Std.Asymm fun x y : Number => x.key < y.key := ⟨fun _ _ h h' => by omega⟩

theorem Tidy.spanned_exact (hs : s.Tidy) (h : s.exact ≠ []) (lower upper : Number) :
    spanned s.exact lower upper = s := by
  obtain ⟨exact, lo, hi⟩ := s
  obtain ⟨x, rest, hexact⟩ := List.exists_cons_of_ne_nil h
  simp only at hexact
  subst hexact
  have hfirst : lo = x := hs.first x rfl
  have hlast : hi = (x :: rest).getLast (List.cons_ne_nil x rest) := hs.last _ (List.getLast?_eq_some_getLast _)
  have hfew : (x :: rest).length ≤ exactLimit := hs.few
  simp only [spanned, if_pos hfew, List.headD_cons, hfirst, hlast, List.getLastD_eq_getLast?,
    List.getLast?_eq_some_getLast (List.cons_ne_nil x rest), Option.getD_some]

/-- What a join can do to a set: nothing, give it members, give it bounds in their place, or widen it. -/
theorem join_grows (hs : s.Tidy) (ht : t.Tidy) :
    s.join t = s ∨
      (s.exact ≠ [] ∧ (s.exact.length < (s.join t).exact.length ∨ (s.join t).exact = [])) ∨
      (s.exact = [] ∧ s.join t = ⟨[], s.lower.min t.lower, s.upper.max t.upper⟩ ∧
        (s.lower.min t.lower ≠ s.lower ∨ s.upper.max t.upper ≠ s.upper)) := by
  by_cases h : s.exact = [] ∨ t.exact = []
  · rw [join_of_range hs ht h]
    by_cases hexact : s.exact = []
    · by_cases hsame : s.lower.min t.lower = s.lower ∧ s.upper.max t.upper = s.upper
      · left
        obtain ⟨exact, lower, upper⟩ := s
        simp only at hexact hsame
        rw [hsame.1, hsame.2, hexact]
      · exact Or.inr (Or.inr ⟨hexact, rfl, by tauto⟩)
    · exact Or.inr (Or.inl ⟨hexact, Or.inr rfl⟩)
  · rw [not_or] at h
    have hsub := subset_sortedNumbers_append hs.increasing t.exact
    have hsorted := increasing_sortedNumbers (s.exact ++ t.exact)
    rw [join_of_exact hs ht h.1 h.2]
    -- If the members are no more than before, they are the same ones.
    by_cases hlen : (sortedNumbers (s.exact ++ t.exact)).length ≤ s.exact.length
    · left
      rw [Sorted.eq_of_subset hs.increasing.pairwise hsorted.pairwise hsub hlen]
      exact hs.spanned_exact h.1 _ _
    · refine Or.inr (Or.inl ⟨h.1, ?_⟩)
      by_cases hfew : (sortedNumbers (s.exact ++ t.exact)).length ≤ exactLimit
      · left
        rw [spanned, if_pos hfew]
        exact Nat.lt_of_not_le hlen
      · right
        rw [spanned, if_neg hfew]

theorem normal_join (hs : s.Normal) (ht : t.Normal) : (s.join t).Normal := by
  by_cases h : s.exact = [] ∨ t.exact = []
  · refine (tidy_join s t).normal ?_
    have hs' := hs.ordered
    have ht' := ht.ordered
    rw [join_of_range hs.tidy ht.tidy h]
    dsimp only
    rw [Number.min_eq, Number.max_eq]
    split <;> split <;> omega
  · rw [not_or] at h
    rw [join_of_exact hs.tidy ht.tidy h.1 h.2]
    exact normal_spanned (increasing_sortedNumbers _) (sortedNumbers_ne_nil hs.tidy h.1) _ _

theorem sortedNumbers_singleton (hx : x.isNaN = false) : sortedNumbers [x] = [x] := by
  simp [sortedNumbers, hx, insertSorted]

theorem ofList_singleton (x : Number) :
    ofList [x] = if x.isNaN then ⟨[], .negInf, .posInf⟩ else ⟨[x], x, x⟩ := by
  unfold ofList
  rw [normalize_eq_spanned Number.isNaN_negInf Number.isNaN_posInf]
  · cases hx : x.isNaN with
    | true =>
      have hnone : sortedNumbers [x] = [] := by simp [sortedNumbers, hx]
      rw [hnone]
      rfl
    | false =>
      rw [sortedNumbers_singleton hx]
      rfl
  · intro y _ hy
    exact Number.key_between_infinities hy

theorem normal_ofList_singleton (x : Number) : (ofList [x]).Normal := by
  rw [ofList_singleton]
  cases hx : x.isNaN with
  | true =>
    rw [if_pos rfl]
    exact ⟨by decide, by decide, by decide, increasing_nil, by decide, by simp, by simp⟩
  | false =>
    rw [if_neg Bool.false_ne_true]
    refine ⟨hx, hx, Int.le_refl _, ⟨?_, ?_⟩, by simp [exactLimit], ?_, ?_⟩ <;> simp [hx]

end AbstractFlow.NumberSet
