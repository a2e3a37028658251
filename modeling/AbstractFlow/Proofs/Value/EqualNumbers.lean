import AbstractFlow.Proofs.Value.Imprint
import AbstractFlow.Proofs.Value.RoundTrip

/-! # Values of equal numbers

A value of numbers shows which numbers it was made of, up to their order and repetitions: all of them while they are
few, and the least and the greatest of them otherwise. So lists of the same numbers give equal values, and so do
merges of these numbers one by one in whatever order, unless a zero is shown and it has both signs: the zeros are the
same number, but not the same member or bound.
-/
namespace AbstractFlow

namespace NumberSet

variable {xs ys : List Number} {x y : Number} {s t : NumberSet}

def distinct (xs : List Number) : Nat := (xs.map Number.key).toFinset.card

/-- Each number of one list is numerically equal to one of the other. -/
structure SameNumbers (xs ys : List Number) : Prop where
  left : ∀ x ∈ xs, ∃ y ∈ ys, x.same y = true
  right : ∀ y ∈ ys, ∃ x ∈ xs, y.same x = true

def OneZero (xs : List Number) : Prop := ¬ (.zero ∈ xs ∧ .negZero ∈ xs)

/-- The numbers are too many to be members, and zero is neither the least nor the greatest of them. -/
def Hidden (xs : List Number) : Prop := exactLimit < distinct xs ∧ (∃ x ∈ xs, x < .zero) ∧ ∃ x ∈ xs, .zero < x

instance (xs ys : List Number) : Decidable (SameNumbers xs ys) :=
  decidable_of_iff ((∀ x ∈ xs, ∃ y ∈ ys, x.same y = true) ∧ ∀ y ∈ ys, ∃ x ∈ xs, y.same x = true)
    ⟨fun h => ⟨h.1, h.2⟩, fun h => ⟨h.left, h.right⟩⟩

instance (xs : List Number) : Decidable (OneZero xs) :=
  inferInstanceAs (Decidable (¬ (.zero ∈ xs ∧ .negZero ∈ xs)))

instance (xs : List Number) : Decidable (Hidden xs) :=
  inferInstanceAs (Decidable (exactLimit < distinct xs ∧ (∃ x ∈ xs, x < .zero) ∧ ∃ x ∈ xs, .zero < x))

/-- What a set shows of the numbers it is made of. -/
structure Shows (xs : List Number) (s : NumberSet) : Prop where
  tidy : s.Tidy
  members : s.exact ⊆ xs
  lower : s.lower ∈ xs ∧ ∀ x ∈ xs, s.lower.key ≤ x.key
  upper : s.upper ∈ xs ∧ ∀ x ∈ xs, x.key ≤ s.upper.key
  few : distinct xs ≤ exactLimit → xs.map Number.key ⊆ s.exact.map Number.key
  many : exactLimit < distinct xs → s.exact = []

section Counting

theorem distinct_mono (h : xs.map Number.key ⊆ ys.map Number.key) : distinct xs ≤ distinct ys :=
  Finset.card_le_card fun _ hk => List.mem_toFinset.mpr (h (List.mem_toFinset.mp hk))

theorem distinct_eq_length (h : Increasing xs) : distinct xs = xs.length := by
  have hnodup : (xs.map Number.key).Nodup := List.pairwise_map.mpr (h.pairwise.imp fun hlt => ne_of_lt hlt)
  rw [distinct, List.toFinset_card_of_nodup hnodup, List.length_map]

theorem map_key_sortedNumbers (h : ∀ x ∈ xs, x.isNaN = false) :
    xs.map Number.key ⊆ (sortedNumbers xs).map Number.key := by
  intro k hk
  obtain ⟨x, hx, rfl⟩ := List.mem_map.mp hk
  obtain ⟨y, hy, hkey⟩ := exists_key_of_mem (h x hx) hx
  exact List.mem_map.mpr ⟨y, hy, hkey⟩

theorem SameNumbers.exists_key (h : SameNumbers xs ys) (hx : x ∈ xs) : ∃ y ∈ ys, y.key = x.key := by
  obtain ⟨y, hy, hsame⟩ := h.left x hx
  simp only [Number.same, Bool.and_eq_true, beq_iff_eq] at hsame
  exact ⟨y, hy, hsame.2.symm⟩

theorem SameNumbers.map_key (h : SameNumbers xs ys) : xs.map Number.key ⊆ ys.map Number.key := by
  intro k hk
  obtain ⟨x, hx, rfl⟩ := List.mem_map.mp hk
  obtain ⟨y, hy, hkey⟩ := h.exists_key hx
  exact List.mem_map.mpr ⟨y, hy, hkey⟩

theorem SameNumbers.symm (h : SameNumbers xs ys) : SameNumbers ys xs := ⟨h.right, h.left⟩

theorem SameNumbers.isNaN (h : SameNumbers xs ys) (hx : x ∈ xs) : x.isNaN = false := by
  obtain ⟨y, -, hsame⟩ := h.left x hx
  simp only [Number.same, Bool.and_eq_true, Bool.not_eq_true'] at hsame
  exact hsame.1.1

theorem sameNumbers_of_mem_iff (hnumbers : ∀ x ∈ xs, x.isNaN = false) (h : ∀ x, x ∈ xs ↔ x ∈ ys) :
    SameNumbers xs ys := by
  have hself : ∀ x ∈ xs, x.same x = true := fun x hx =>
    (Number.same_iff (hnumbers x hx) (hnumbers x hx)).mpr rfl
  exact ⟨fun x hx => ⟨x, (h x).mp hx, hself x hx⟩, fun y hy => ⟨y, (h y).mpr hy, hself y ((h y).mpr hy)⟩⟩

end Counting

section Showing

/-- A list is shown by what some of its numbers span, if they increase and all others are equal to one of them. -/
theorem shows_spanned {zs : List Number} (hne : xs ≠ []) (hzs : Increasing zs) (hmem : zs ⊆ xs)
    (hkeys : xs.map Number.key ⊆ zs.map Number.key) (lower upper : Number) : Shows xs (spanned zs lower upper) := by
  -- There are as many of the chosen numbers as of different ones, so both are too many at the same time.
  have hcount : distinct xs = zs.length :=
    (le_antisymm (distinct_mono hkeys) (distinct_mono (List.map_subset _ hmem))).trans (distinct_eq_length hzs)
  have hkey : ∀ x ∈ xs, ∃ z ∈ zs, z.key = x.key := fun x hx =>
    List.mem_map.mp (hkeys (List.mem_map_of_mem hx))
  obtain ⟨z, rest, rfl⟩ : ∃ z rest, zs = z :: rest := by
    obtain ⟨x, hx⟩ := List.exists_mem_of_ne_nil xs hne
    obtain ⟨z, hz, -⟩ := hkey x hx
    exact List.exists_cons_of_ne_nil (List.ne_nil_of_mem hz)
  have hexact : (spanned (z :: rest) lower upper).exact = if distinct xs ≤ exactLimit then z :: rest else [] := by
    rw [hcount]
    rfl
  refine ⟨tidy_spanned hzs (absurd · (List.cons_ne_nil z rest)), ?_, ⟨hmem List.mem_cons_self, fun x hx => ?_⟩, ?_,
    fun hfew => ?_, fun hmany => ?_⟩
  · rw [hexact]
    split
    · exact hmem
    · exact List.nil_subset _
  · obtain ⟨y, hy, hyx⟩ := hkey x hx
    exact hyx ▸ hzs.head_le hy
  · rw [spanned_upper]
    refine ⟨hmem (List.getLast_mem _), fun x hx => ?_⟩
    obtain ⟨y, hy, hyx⟩ := hkey x hx
    exact hyx ▸ hzs.le_last hy
  · rwa [hexact, if_pos hfew]
  · rw [hexact, if_neg (Nat.not_le.mpr hmany)]

theorem shows_ofList (hne : xs ≠ []) (hnumbers : ∀ x ∈ xs, x.isNaN = false) : Shows xs (ofList xs) := by
  rw [ofList_eq_spanned]
  exact shows_spanned hne (increasing_sortedNumbers xs) (fun _ => mem_of_mem_sortedNumbers)
    (map_key_sortedNumbers hnumbers) _ _

theorem Shows.many_of_nil (hs : Shows xs s) (h : s.exact = []) : exactLimit < distinct xs := by
  by_contra hfew
  have hlower := hs.few (not_lt.mp hfew) (List.mem_map_of_mem hs.lower.1)
  rw [h] at hlower
  cases hlower

theorem Shows.keys (hs : Shows xs s) (h : s.exact ≠ []) : xs.map Number.key ⊆ s.exact.map Number.key :=
  hs.few (not_lt.mp fun hmany => h (hs.many hmany))

/-- A join shows the numbers of both sets. -/
theorem Shows.join (hs : Shows xs s) (ht : Shows ys t) : Shows (xs ++ ys) (s.join t) := by
  by_cases h : s.exact = [] ∨ t.exact = []
  · have htidy := tidy_join s t
    rw [join_of_range hs.tidy ht.tidy h] at htidy ⊢
    have hmin := key_min_le s.lower t.lower
    have hmax := le_key_max s.upper t.upper
    -- A set without members shows too many numbers already, and joining adds to them.
    have hmany : exactLimit < distinct (xs ++ ys) := by
      rcases h with h | h
      · exact (hs.many_of_nil h).trans_le (distinct_mono (List.map_subset _ (List.subset_append_left xs ys)))
      · exact (ht.many_of_nil h).trans_le (distinct_mono (List.map_subset _ (List.subset_append_right xs ys)))
    refine ⟨htidy, List.nil_subset _, ⟨?_, fun x hx => ?_⟩, ⟨?_, fun x hx => ?_⟩, fun hfew => ?_, fun _ => rfl⟩
    · rcases lower_min s t with h | h <;> simp only [h]
      · exact List.mem_append_left _ hs.lower.1
      · exact List.mem_append_right _ ht.lower.1
    · rcases List.mem_append.mp hx with hx | hx
      · exact hmin.1.trans (hs.lower.2 x hx)
      · exact hmin.2.trans (ht.lower.2 x hx)
    · rcases upper_max s t with h | h <;> simp only [h]
      · exact List.mem_append_left _ hs.upper.1
      · exact List.mem_append_right _ ht.upper.1
    · rcases List.mem_append.mp hx with hx | hx
      · exact (hs.upper.2 x hx).trans hmax.1
      · exact (ht.upper.2 x hx).trans hmax.2
    · exact absurd hmany (not_lt.mpr hfew)
  · obtain ⟨hexact, hexact'⟩ := not_or.mp h
    have hnumbers : ∀ x ∈ s.exact ++ t.exact, x.isNaN = false :=
      List.forall_mem_append.mpr ⟨hs.tidy.increasing.numbers, ht.tidy.increasing.numbers⟩
    have hkeys : (xs ++ ys).map Number.key ⊆ (s.exact ++ t.exact).map Number.key := by
      rw [List.map_append, List.map_append]
      exact List.append_subset.mpr ⟨List.subset_append_of_subset_left _ (hs.keys hexact),
        List.subset_append_of_subset_right _ (ht.keys hexact')⟩
    rw [join_of_exact hs.tidy ht.tidy hexact hexact']
    refine shows_spanned (List.ne_nil_of_mem (List.mem_append_left ys hs.lower.1)) (increasing_sortedNumbers _) ?_
      (List.Subset.trans hkeys (map_key_sortedNumbers hnumbers)) _ _
    intro x hx
    exact List.mem_append.mpr ((List.mem_append.mp (mem_of_mem_sortedNumbers hx)).imp (hs.members ·) (ht.members ·))

end Showing

section Zeros

theorem OneZero.eq_of_key_eq (h : OneZero xs) (hx : x ∈ xs) (hy : y ∈ xs) (hkey : x.key = y.key) : x = y := by
  rcases Number.eq_or_zeros_of_key_eq hkey with heq | ⟨rfl, rfl⟩ | ⟨rfl, rfl⟩
  · exact heq
  · exact absurd ⟨hy, hx⟩ h
  · exact absurd ⟨hx, hy⟩ h

theorem eq_of_key_ne_zero (hkey : x.key = y.key) (hne : x.key ≠ 0) : x = y := by
  rcases Number.eq_or_zeros_of_key_eq hkey with heq | ⟨rfl, rfl⟩ | ⟨rfl, rfl⟩
  · exact heq
  · exact absurd rfl hne
  · exact absurd rfl hne

section Same

variable (hs : Shows xs s) (ht : Shows ys t) (hsame : SameNumbers xs ys)

include hs ht hsame

theorem Shows.lower_key_le : s.lower.key ≤ t.lower.key := by
  obtain ⟨x, hx, hkey⟩ := hsame.symm.exists_key ht.lower.1
  exact hkey ▸ hs.lower.2 x hx

theorem Shows.upper_key_le : s.upper.key ≤ t.upper.key := by
  obtain ⟨y, hy, hkey⟩ := hsame.exists_key hs.upper.1
  exact hkey ▸ ht.upper.2 y hy

theorem Shows.exact_subset (hone : OneZero (xs ++ ys)) (hfew : distinct ys ≤ exactLimit) : s.exact ⊆ t.exact := by
  intro z hz
  obtain ⟨y, hy, hyz⟩ := hsame.exists_key (hs.members hz)
  obtain ⟨w, hw, hwy⟩ := List.mem_map.mp (ht.few hfew (List.mem_map_of_mem hy))
  have hwz : w = z := hone.eq_of_key_eq (List.mem_append_right _ (ht.members hw))
    (List.mem_append_left _ (hs.members hz)) (hwy.trans hyz)
  exact hwz ▸ hw

/-- Sets that show the same numbers are the same if no zero is shown, or zeros of one sign only. -/
theorem Shows.eq (hzero : OneZero (xs ++ ys) ∨ Hidden xs) : s = t := by
  have hlower := le_antisymm (hs.lower_key_le ht hsame) (ht.lower_key_le hs hsame.symm)
  have hupper := le_antisymm (hs.upper_key_le ht hsame) (ht.upper_key_le hs hsame.symm)
  have hcount := le_antisymm (distinct_mono hsame.map_key) (distinct_mono hsame.symm.map_key)
  have hexact : s.exact = t.exact := by
    by_cases hmany : exactLimit < distinct xs
    · rw [hs.many hmany, ht.many (hcount ▸ hmany)]
    · have hone := hzero.resolve_right fun h => hmany h.1
      have hone' : OneZero (ys ++ xs) := by simpa only [OneZero, List.mem_append, or_comm] using hone
      have hfew := not_lt.mp hmany
      exact Sorted.ext_mem hs.tidy.increasing.pairwise ht.tidy.increasing.pairwise fun z =>
        ⟨(hs.exact_subset ht hsame hone (hcount ▸ hfew) ·), (ht.exact_subset hs hsame.symm hone' hfew ·)⟩
  -- Bounds of one key may differ as zeros only, and a hidden zero is no bound.
  have hbounds : s.lower = t.lower ∧ s.upper = t.upper := by
    rcases hzero with hone | ⟨-, ⟨x, hx, hneg⟩, y, hy, hpos⟩
    · have hshown : ∀ {x y}, x ∈ xs → y ∈ ys → x.key = y.key → x = y := fun hx hy =>
        hone.eq_of_key_eq (List.mem_append_left _ hx) (List.mem_append_right _ hy)
      exact ⟨hshown hs.lower.1 ht.lower.1 hlower, hshown hs.upper.1 ht.upper.1 hupper⟩
    · have hbelow : s.lower.key < 0 := (hs.lower.2 x hx).trans_lt hneg.2.2
      have habove : 0 < s.upper.key := hpos.2.2.trans_le (hs.upper.2 y hy)
      exact ⟨eq_of_key_ne_zero hlower hbelow.ne, eq_of_key_ne_zero hupper habove.ne'⟩
  obtain ⟨hlower, hupper⟩ := hbounds
  obtain ⟨exact, lower, upper⟩ := s
  obtain ⟨exact', lower', upper'⟩ := t
  cases hexact
  cases hlower
  cases hupper
  rfl

end Same

/-- A zero that is listed once only by one of two lists that one set shows is hidden. -/
theorem Shows.hidden (hs : Shows xs s) (hs' : Shows ys s) (hone : OneZero xs) (hx : x ∈ xs) (hzero : x.key = 0)
    (hlost : x ∉ ys) : Hidden xs := by
  have hother : ∀ y ∈ xs, y ∈ ys → y.key ≠ 0 := by
    intro y hy hy' hkey
    exact hlost (hone.eq_of_key_eq hy hx (hkey.trans hzero.symm) ▸ hy')
  have hlower := hother _ hs.lower.1 hs'.lower.1
  have hupper := hother _ hs.upper.1 hs'.upper.1
  have hle := hs.lower.2 x hx
  have hge := hs.upper.2 x hx
  refine ⟨?_, ⟨s.lower, hs.lower.1, (Number.lt_iff hs.tidy.lower rfl).mpr ?_⟩,
    ⟨s.upper, hs.upper.1, (Number.lt_iff rfl hs.tidy.upper).mpr ?_⟩⟩
  · by_contra hfew
    obtain ⟨y, hy, hkey⟩ := List.mem_map.mp (hs.few (not_lt.mp hfew) (List.mem_map_of_mem hx))
    exact hother y (hs.members hy) (hs'.members hy) (hkey.trans hzero)
  · show s.lower.key < 0
    omega
  · show 0 < s.upper.key
    omega

end Zeros

end NumberSet

namespace Value

open NumberSet

/-- Values of single items, merged in some order and with any brackets. -/
inductive Gathered {α : Type} (f : α → Value) : List α → Value → Prop
  | single (a : α) : Gathered f [a] (f a)
  | merge {as bs : List α} {v w : Value} : Gathered f as v → Gathered f bs w → Gathered f (as ++ bs) (v.merge w)

/-- Two lists give equal values, and so does whatever their items are gathered into. -/
def EqualListings {α D : Type} [DecidableEq D] (H : Hasher D) (f : List α → Value) (as bs : List α) : Prop :=
  (f as).equalBy H (f bs) = true ∧ ∀ cs v, (∀ c, c ∈ cs ↔ c ∈ bs) → Gathered (fun b => f [b]) cs v →
    (f as).equalBy H v = true ∧ (f bs).equalBy H v = true

def listed {α : Type} (type : NumericType) (g : α → Number) (as : List α) : Value :=
  [.constant (.number type (.ofList (as.map g)))]

theorem floats_eq : floats = listed .float id := by
  funext xs
  rw [floats, listed, List.map_id]

variable {α D : Type} [DecidableEq D] {type : NumericType} {g : α → Number} {as bs : List α} {v : Value}

theorem equalBy_self (H : Hasher D) (v : Value) : v.equalBy H v = true := by
  simp [equalBy]

theorem gathered_mergeAll {f : α → Value} (hne : as ≠ []) : Gathered f as (mergeAll (as.map f)) := by
  induction as using List.reverseRecOn with
  | nil => exact absurd rfl hne
  | append_singleton as a ih =>
    have hlast : mergeAll ((as ++ [a]).map f) = (mergeAll (as.map f)).merge (f a) := by
      simp [mergeAll, List.foldl_append]
    rw [hlast]
    by_cases has : as = []
    · subst has
      exact (nil_merge (f a)).symm ▸ .single a
    · exact .merge (ih has) (.single a)

theorem Gathered.shows (h : Gathered (fun a => listed type g [a]) as v)
    (hnumbers : ∀ a ∈ as, (g a).isNaN = false) :
    ∃ s, v = [.constant (.number type s)] ∧ Shows (as.map g) s := by
  induction h with
  | single a => exact ⟨_, rfl, shows_ofList (List.cons_ne_nil _ _) (by simpa using hnumbers)⟩
  | merge _ _ ihv ihw =>
    obtain ⟨hleft, hright⟩ := List.forall_mem_append.mp hnumbers
    obtain ⟨s, rfl, hs⟩ := ihv hleft
    obtain ⟨t, rfl, ht⟩ := ihw hright
    exact ⟨_, merge_numbers type s t, List.map_append ▸ hs.join ht⟩

/-- Lists of the same numbers give equal values if no zero is shown, or zeros of one sign only. -/
theorem equalListings_of_same (H : Hasher D) (type : NumericType) (hne : as ≠ [])
    (hsame : SameNumbers (as.map g) (bs.map g)) (hzero : OneZero (as.map g ++ bs.map g) ∨ Hidden (as.map g)) :
    EqualListings H (listed type g) as bs := by
  have hshows : Shows (as.map g) (.ofList (as.map g)) :=
    shows_ofList (mt List.map_eq_nil_iff.mp hne) fun _ hx => hsame.isNaN hx
  have hequal : ∀ {cs : List α} {s}, (∀ c, c ∈ cs ↔ c ∈ bs) → Shows (cs.map g) s → .ofList (as.map g) = s := by
    intro cs s hcs hs
    have hmem : ∀ x, x ∈ cs.map g ↔ x ∈ bs.map g := by simp only [List.mem_map, hcs, implies_true]
    refine hshows.eq hs ⟨?_, ?_⟩ ?_
    · simpa only [hmem] using hsame.left
    · simpa only [hmem] using hsame.right
    · simpa only [OneZero, List.mem_append, hmem] using hzero
  have hbs : NumberSet.ofList (as.map g) = .ofList (bs.map g) := by
    obtain ⟨a, ha⟩ := List.exists_mem_of_ne_nil as hne
    obtain ⟨y, hy, -⟩ := hsame.left _ (List.mem_map_of_mem ha)
    exact hequal (fun _ => Iff.rfl) (shows_ofList (List.ne_nil_of_mem hy) fun _ hx => hsame.symm.isNaN hx)
  rw [EqualListings, listed, listed, ← hbs]
  refine ⟨equalBy_self H _, fun cs v hcs hgathered => ?_⟩
  obtain ⟨s, rfl, hs⟩ := hgathered.shows fun c hc => hsame.symm.isNaN (List.mem_map_of_mem ((hcs c).mp hc))
  rw [hequal hcs hs]
  exact ⟨equalBy_self H _, equalBy_self H _⟩

/-- An ideal hash function tells the zeros apart, unless they are hidden. -/
theorem oneZero_of_equal {H : Hasher D} (hH : H.Ideal) {xs ys : List Number} (hne : xs ≠ [])
    (hsame : SameNumbers xs ys) (hxs : OneZero xs) (hys : OneZero ys)
    (hequal : (floats xs).equalBy H (floats ys) = true) : OneZero (xs ++ ys) ∨ Hidden xs := by
  have hcanonical : ∀ zs, (floats zs).Canonical := fun zs => Built.canonical (.number .float ⟨zs, .negInf, .posInf⟩)
  have himprint : floats xs = floats ys := (equalBy_iff_imprint hH (hcanonical xs) (hcanonical ys)).mp hequal
  have hset : NumberSet.ofList xs = .ofList ys := by simpa [floats] using himprint
  have hshows : Shows xs (.ofList xs) := shows_ofList hne fun _ hx => hsame.isNaN hx
  have hshows' : Shows ys (.ofList xs) := by
    obtain ⟨x, hx⟩ := List.exists_mem_of_ne_nil xs hne
    obtain ⟨y, hy, -⟩ := hsame.left x hx
    exact hset ▸ shows_ofList (List.ne_nil_of_mem hy) fun _ hx => hsame.symm.isNaN hx
  by_cases hzero : OneZero (xs ++ ys)
  · exact .inl hzero
  · right
    obtain ⟨hpos, hneg⟩ := not_not.mp hzero
    -- One of the zeros is in the first list, and not in the second one.
    rcases List.mem_append.mp hpos with hpos | hpos
    · have hneg := (List.mem_append.mp hneg).resolve_left fun h => hxs ⟨hpos, h⟩
      exact hshows.hidden hshows' hxs hpos rfl fun h => hys ⟨h, hneg⟩
    · have hneg := (List.mem_append.mp hneg).resolve_right fun h => hys ⟨hpos, h⟩
      exact hshows.hidden hshows' hxs hneg rfl fun h => hys ⟨hpos, h⟩

/-- Lists of the same numbers, in any order and with any repetitions, give equal floats, and so does every merge of
these numbers one by one, if a zero that is shown has one sign; of lists that have each one sign of zero, an ideal
hash function takes no others for equal. Integers have one zero: the same ones always give equal values. -/
theorem equal_listings (H : Hasher D) :
    (∀ xs ys : List Number, xs ≠ [] → SameNumbers xs ys → OneZero (xs ++ ys) ∨ Hidden xs →
      EqualListings H floats xs ys) ∧
    (H.Ideal → ∀ xs ys : List Number, xs ≠ [] → SameNumbers xs ys → OneZero xs → OneZero ys →
      (EqualListings H floats xs ys ↔ OneZero (xs ++ ys) ∨ Hidden xs)) ∧
    ∀ ms ns : List Int, ms ≠ [] → (∀ n ∈ ms, Word.fits n = true) → (∀ n, n ∈ ms ↔ n ∈ ns) →
      EqualListings H ints ms ns := by
  have hfloats : ∀ xs ys : List Number, xs ≠ [] → SameNumbers xs ys → OneZero (xs ++ ys) ∨ Hidden xs →
      EqualListings H floats xs ys := by
    intro xs ys hne hsame hzero
    rw [floats_eq]
    exact equalListings_of_same H .float hne (by simpa only [List.map_id] using hsame)
      (by simpa only [List.map_id] using hzero)
  refine ⟨hfloats, fun hH xs ys hne hsame hxs hys => ?_, fun ms ns hne hfits hmem => ?_⟩
  · exact ⟨fun h => oneZero_of_equal hH hne hsame hxs hys h.1, hfloats xs ys hne hsame⟩
  · have hsortable : Sortable (ms.map Number.ofInt ++ ns.map Number.ofInt) :=
      (sortable_ofInt hfits).append (sortable_ofInt fun n hn => hfits n ((hmem n).mpr hn))
    have hsame : SameNumbers (ms.map Number.ofInt) (ns.map Number.ofInt) :=
      sameNumbers_of_mem_iff (fun x hx => (hsortable.left x hx).1) (by simp only [List.mem_map, hmem, implies_true])
    exact equalListings_of_same H .int hne hsame (.inl fun h => (hsortable _ h.2).2 rfl)

def aroundZero (zero : Number) : List Number :=
  zero :: (List.range 17).flatMap fun n => [.ofInt (n + 1), .ofInt (-(n + 1))]

theorem equal_listings_zeros :
    (floats [.one, .negZero, .one]).equal (mergeAll ([.negZero, .one].map fun x => floats [x])) = true ∧
      EqualListings .spooky floats (aroundZero .zero) (aroundZero .negZero) ∧
      ¬ EqualListings .remembering floats [.zero] [.negZero] ∧
      EqualListings .spooky ints [2, 1, 2] [1, 2] := by
  obtain ⟨hfloats, -, hints⟩ := equal_listings .spooky
  have hzeros := (equal_listings .remembering).2.1 Hasher.ideal_remembering [.zero] [.negZero] (by decide) (by decide)
    (by decide) (by decide)
  refine ⟨?_, ?_, mt hzeros.mp (by decide), hints _ _ (by decide) (by decide) fun n => ?_⟩
  · have hone := hfloats [.one, .negZero, .one] [.negZero, .one] (by decide) (by decide) (.inl (by decide))
    exact (hone.2 _ _ (fun _ => Iff.rfl) (gathered_mergeAll (by decide))).1
  · exact hfloats _ _ (List.cons_ne_nil _ _) (by decide +kernel) (.inr (by decide +kernel))
  · simp only [List.mem_cons, List.not_mem_nil, or_false]
    omega

/-- The zeros are numerically equal, and their values are not. -/
theorem not_equal_listings : ¬ ∀ xs ys : List Number, xs ≠ [] → SameNumbers xs ys →
    EqualListings .spooky floats xs ys := by
  intro h
  exact absurd (h [.zero] [.negZero] (by decide) (by decide)).1 (by decide +kernel)

end Value

end AbstractFlow
