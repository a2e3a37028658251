import AbstractFlow.Proofs.Collection.Semilattice
import AbstractFlow.Proofs.Value.Canonical
import Mathlib.Data.Prod.Lex

/-! # The joins that merges are made of

Sets of numbers, sets of strings, bounds, flags, parameters and bases are joined each in its own way, and
each way is that of a semilattice. The negative zero stays out, since it is the same as zero only in
comparisons; names stay free of commas, since lists of names are compared with commas between them; and so
does the list whose only base has the empty name, which is taken for the empty list.
-/
namespace AbstractFlow

namespace Number

variable {x y : Number}

def negZero : Number := ⟨true, 0⟩

theorem eq_of_key_eq (hx : x ≠ negZero) (hy : y ≠ negZero) (h : x.key = y.key) : x = y := by
  rcases eq_or_zeros_of_key_eq h with h | ⟨h, -⟩ | ⟨-, h⟩
  · exact h
  · exact absurd h hx
  · exact absurd h hy

theorem semilattice_min : SemilatticeOn (fun _ : Number => True) min := by
  refine SemilatticeOn.min.pullback place (fun _ => trivial) (fun _ _ => place_injective) (fun _ _ => trivial) ?_
  intro x y _ _
  rw [min_eq]
  split <;> omega

theorem semilattice_max : SemilatticeOn (fun _ : Number => True) max := by
  refine SemilatticeOn.max.pullback place (fun _ => trivial) (fun _ _ => place_injective) (fun _ _ => trivial) ?_
  intro x y _ _
  rw [max_eq]
  split <;> omega

end Number

namespace NumberSet

variable {s t : NumberSet} {xs ys : List Number} {x : Number}

structure Unsigned (s : NumberSet) : Prop where
  lower : s.lower ≠ .negZero
  upper : s.upper ≠ .negZero
  exact : ∀ x ∈ s.exact, x ≠ .negZero

def Plus (xs : List Number) : Prop := Increasing xs ∧ ∀ x ∈ xs, x ≠ .negZero

def Sortable (xs : List Number) : Prop := ∀ x ∈ xs, x.isNaN = false ∧ x ≠ .negZero

theorem Sortable.append (hxs : Sortable xs) (hys : Sortable ys) : Sortable (xs ++ ys) := by
  intro x hx
  rcases List.mem_append.mp hx with hx | hx
  · exact hxs x hx
  · exact hys x hx

theorem Plus.sortable (h : Plus xs) : Sortable xs := fun x hx => ⟨h.1.numbers x hx, h.2 x hx⟩

theorem mem_sortedNumbers (h : Sortable xs) : x ∈ sortedNumbers xs ↔ x ∈ xs := by
  constructor
  · exact mem_of_mem_sortedNumbers
  · intro hx
    obtain ⟨y, hy, hkey⟩ := exists_key_of_mem (h x hx).1 hx
    have hyx : y = x := Number.eq_of_key_eq (h y (mem_of_mem_sortedNumbers hy)).2 (h x hx).2 hkey
    exact hyx ▸ hy

theorem plus_sortedNumbers (h : Sortable xs) : Plus (sortedNumbers xs) :=
  ⟨increasing_sortedNumbers xs, fun x hx => (h x (mem_of_mem_sortedNumbers hx)).2⟩

theorem unionOn : UnionOn Plus fun xs ys => sortedNumbers (xs ++ ys) where
  closed hxs hys := plus_sortedNumbers (hxs.sortable.append hys.sortable)
  mem hxs hys := (mem_sortedNumbers (hxs.sortable.append hys.sortable)).trans List.mem_append
  ext hxs hys := Sorted.ext_mem hxs.1.pairwise hys.1.pairwise
  nodup hxs := hxs.1.pairwise.nodup

theorem Tidy.lower_mem (hs : s.Tidy) (h : s.exact ≠ []) : s.lower ∈ s.exact := by
  obtain ⟨x, rest, hexact⟩ := List.exists_cons_of_ne_nil h
  rw [hs.first x (by simp [hexact]), hexact]
  exact List.mem_cons_self

theorem Tidy.upper_mem (hs : s.Tidy) (h : s.exact ≠ []) : s.upper ∈ s.exact := by
  rw [hs.last _ (List.getLast?_eq_some_getLast h)]
  exact List.getLast_mem h

section Join

variable (hs : s.Tidy ∧ s.Unsigned) (ht : t.Tidy ∧ t.Unsigned)
include hs ht

theorem unsigned_min : s.lower.min t.lower ≠ .negZero := by
  rcases lower_min s t with h | h <;> rw [h]
  · exact hs.2.lower
  · exact ht.2.lower

theorem unsigned_max : s.upper.max t.upper ≠ .negZero := by
  rcases upper_max s t with h | h <;> rw [h]
  · exact hs.2.upper
  · exact ht.2.upper

theorem join_exact :
    (s.join t).exact = unionUpTo exactLimit (fun xs ys => sortedNumbers (xs ++ ys)) s.exact t.exact := by
  by_cases h : s.exact = [] ∨ t.exact = []
  · rw [join_of_range hs.1 ht.1 h, unionUpTo, if_pos h]
  · rw [unionUpTo, if_neg h, join_of_exact hs.1 ht.1 (not_or.mp h).1 (not_or.mp h).2]
    rfl

theorem join_bounds :
    (s.join t).lower = s.lower.min t.lower ∧ (s.join t).upper = s.upper.max t.upper := by
  by_cases h : s.exact = [] ∨ t.exact = []
  · rw [join_of_range hs.1 ht.1 h]
    exact ⟨rfl, rfl⟩
  · obtain ⟨hs', ht'⟩ := not_or.mp h
    have hplus := unionOn.closed ⟨hs.1.increasing, hs.2.exact⟩ ⟨ht.1.increasing, ht.2.exact⟩
    have hmem : ∀ x, x ∈ sortedNumbers (s.exact ++ t.exact) ↔ x ∈ s.exact ∨ x ∈ t.exact := fun x =>
      unionOn.mem ⟨hs.1.increasing, hs.2.exact⟩ ⟨ht.1.increasing, ht.2.exact⟩
    rw [join_of_exact hs.1 ht.1 hs' ht']
    obtain ⟨x, rest, hall⟩ := List.exists_cons_of_ne_nil (sortedNumbers_ne_nil (t := t) hs.1 hs')
    rw [hall] at hplus hmem ⊢
    have hinside : ∀ y ∈ x :: rest, (s.lower.min t.lower).key ≤ y.key ∧ y.key ≤ (s.upper.max t.upper).key := by
      intro y hy
      have hmin := key_min_le s.lower t.lower
      have hmax := le_key_max s.upper t.upper
      rcases (hmem y).mp hy with hy | hy
      · have := hs.1.inside hy
        omega
      · have := ht.1.inside hy
        omega
    -- Both outermost bounds are members of the union, so they are its first and its last.
    have hlower : s.lower.min t.lower ∈ x :: rest := by
      rw [hmem]
      rcases lower_min s t with h | h <;> rw [h]
      · exact Or.inl (hs.1.lower_mem hs')
      · exact Or.inr (ht.1.lower_mem ht')
    have hupper : s.upper.max t.upper ∈ x :: rest := by
      rw [hmem]
      rcases upper_max s t with h | h <;> rw [h]
      · exact Or.inl (hs.1.upper_mem hs')
      · exact Or.inr (ht.1.upper_mem ht')
    have hlast := List.getLast_mem (List.cons_ne_nil x rest)
    constructor
    · refine Number.eq_of_key_eq (hplus.2 x List.mem_cons_self) (unsigned_min hs ht) ?_
      exact le_antisymm (hplus.1.head_le hlower) (hinside x List.mem_cons_self).1
    · rw [spanned_upper]
      refine Number.eq_of_key_eq (hplus.2 _ hlast) (unsigned_max hs ht) ?_
      exact le_antisymm (hinside _ hlast).2 (hplus.1.le_last hupper)

theorem unsigned_join : (s.join t).Unsigned := by
  obtain ⟨hlower, hupper⟩ := join_bounds hs ht
  refine ⟨hlower ▸ unsigned_min hs ht, hupper ▸ unsigned_max hs ht, fun x hx => ?_⟩
  have hlimited := unionOn.upTo ⟨increasing_nil, by simp⟩ exactLimit
  have hplus := hlimited.closed ⟨⟨hs.1.increasing, hs.2.exact⟩, hs.1.few⟩ ⟨⟨ht.1.increasing, ht.2.exact⟩, ht.1.few⟩
  rw [← join_exact hs ht] at hplus
  exact hplus.1.2 x hx

end Join

theorem semilattice_join : SemilatticeOn (fun s : NumberSet => s.Tidy ∧ s.Unsigned) join := by
  have hexact := unionOn.upTo ⟨increasing_nil, by simp⟩ exactLimit
  refine (hexact.prod (Number.semilattice_min.prod Number.semilattice_max)).pullback
    (fun s => (s.exact, s.lower, s.upper)) ?_ ?_ ?_ ?_
  · intro s hs
    exact ⟨⟨⟨hs.1.increasing, hs.2.exact⟩, hs.1.few⟩, trivial, trivial⟩
  · rintro ⟨xs, l, u⟩ ⟨xs', l', u'⟩ _ _ h
    simp only [Prod.mk.injEq] at h
    rw [h.1, h.2.1, h.2.2]
  · intro s t hs ht
    exact ⟨tidy_join s t, unsigned_join hs ht⟩
  · intro s t hs ht
    obtain ⟨hlower, hupper⟩ := join_bounds hs ht
    rw [join_exact hs ht, hlower, hupper]

end NumberSet

namespace StringSet

variable {s t : StringSet} {as bs : List ByteString}

theorem capped_bothOrNone_eq (as bs : List ByteString) :
    capped (bothOrNone as bs) = unionUpTo exactLimit Sorted.union as bs := by
  unfold bothOrNone unionUpTo
  by_cases h : as = [] ∨ bs = []
  · rw [if_pos h, if_pos (by simpa using h)]
    rfl
  · rw [if_neg h, if_neg (by simpa using h)]
    rfl

theorem semilattice_looserBound : SemilatticeOn (fun n : Int => -1 ≤ n) looserBound where
  closed := by
    intro m n hm hn
    unfold looserBound
    split <;> omega
  comm := by
    intro m n hm hn
    unfold looserBound
    split <;> split <;> omega
  assoc := by
    intro m n k hm hn hk
    unfold looserBound
    split <;> split <;> split <;> split <;> omega
  idem := by
    intro n hn
    unfold looserBound
    split <;> omega

theorem exists_minLength (h : as ≠ []) : ∃ x ∈ as, minLength as = x.size := by
  induction as with
  | nil => exact absurd rfl h
  | cons x rest ih =>
    cases rest with
    | nil => exact ⟨x, List.mem_cons_self, rfl⟩
    | cons y rest =>
      obtain ⟨z, hz, hsize⟩ := ih (List.cons_ne_nil y rest)
      have hmin : minLength (x :: y :: rest) = min x.size (minLength (y :: rest)) := rfl
      rcases Nat.le_total x.size (minLength (y :: rest)) with hle | hle
      · exact ⟨x, List.mem_cons_self, by omega⟩
      · exact ⟨z, List.mem_cons_of_mem x hz, by omega⟩

theorem exists_maxLength (h : as ≠ []) : ∃ x ∈ as, maxLength as = x.size := by
  induction as with
  | nil => exact absurd rfl h
  | cons x rest ih =>
    cases rest with
    | nil => exact ⟨x, List.mem_cons_self, by simp [maxLength]⟩
    | cons y rest =>
      obtain ⟨z, hz, hsize⟩ := ih (List.cons_ne_nil y rest)
      have hmax : maxLength (x :: y :: rest) = max x.size (maxLength (y :: rest)) := rfl
      rcases Nat.le_total x.size (maxLength (y :: rest)) with hle | hle
      · exact ⟨z, List.mem_cons_of_mem x hz, by omega⟩
      · exact ⟨x, List.mem_cons_self, by omega⟩

theorem lengths_union (ha : as ≠ []) (hb : bs ≠ []) :
    minLength (Sorted.union as bs) = min (minLength as) (minLength bs) ∧
      maxLength (Sorted.union as bs) = max (maxLength as) (maxLength bs) := by
  have hleft : ∀ {x}, x ∈ as → x ∈ Sorted.union as bs := fun hx => Sorted.mem_union.mpr (Or.inl hx)
  have hright : ∀ {x}, x ∈ bs → x ∈ Sorted.union as bs := fun hx => Sorted.mem_union.mpr (Or.inr hx)
  obtain ⟨x, hx, hxsize⟩ := exists_minLength ha
  obtain ⟨y, hy, hysize⟩ := exists_minLength hb
  obtain ⟨x', hx', hxsize'⟩ := exists_maxLength ha
  obtain ⟨y', hy', hysize'⟩ := exists_maxLength hb
  obtain ⟨z, hz, hzsize⟩ := exists_minLength (List.ne_nil_of_mem (hleft hx))
  obtain ⟨z', hz', hzsize'⟩ := exists_maxLength (List.ne_nil_of_mem (hleft hx))
  have hxle := minLength_le (hleft hx)
  have hyle := minLength_le (hright hy)
  have hxge := le_maxLength (hleft hx')
  have hyge := le_maxLength (hright hy')
  constructor
  · rcases Sorted.mem_union.mp hz with hz | hz
    · have := minLength_le hz
      omega
    · have := minLength_le hz
      omega
  · rcases Sorted.mem_union.mp hz' with hz | hz
    · have := le_maxLength hz
      omega
    · have := le_maxLength hz
      omega

/-- A join keeps the exact members of both, or what is left of both without them. -/
theorem join_cases (hs : s.Tidy) (ht : t.Tidy) :
    (s.exact ≠ [] ∧ t.exact ≠ [] ∧ s.join t = exactly (Sorted.union s.exact t.exact) ∧
      unionUpTo exactLimit Sorted.union s.exact t.exact = Sorted.union s.exact t.exact) ∨
    (s.join t = affixed (bothOrNone s.effectiveBeginnings t.effectiveBeginnings)
      (bothOrNone s.effectiveEndings t.effectiveEndings) (min s.minLen t.minLen)
      (looserBound s.maxLen t.maxLen) ∧ unionUpTo exactLimit Sorted.union s.exact t.exact = []) := by
  by_cases h : s.exact = [] ∨ t.exact = [] ∨ exactLimit < (Sorted.union s.exact t.exact).length
  · refine Or.inr ⟨join_of_affixed hs ht h, ?_⟩
    rw [← capped_bothOrNone_eq]
    exact capped_bothOrNone h
  · simp only [not_or, Nat.not_lt] at h
    obtain ⟨hs', ht', hfew⟩ := h
    refine Or.inl ⟨hs', ht', join_of_exact hs' ht' hfew, ?_⟩
    rw [unionUpTo_eq hs' ht', if_pos hfew]

section Join

variable (hs : s.Tidy) (ht : t.Tidy)
include hs ht

theorem join_exact : (s.join t).exact = unionUpTo exactLimit Sorted.union s.exact t.exact := by
  rcases join_cases hs ht with ⟨-, -, hjoin, hunion⟩ | ⟨hjoin, hunion⟩ <;> rw [hjoin, hunion]
  · rfl
  · rfl

theorem join_effective :
    (s.join t).effectiveBeginnings =
        unionUpTo exactLimit Sorted.union s.effectiveBeginnings t.effectiveBeginnings ∧
      (s.join t).effectiveEndings =
        unionUpTo exactLimit Sorted.union s.effectiveEndings t.effectiveEndings := by
  rcases join_cases hs ht with ⟨hs', ht', hjoin, hunion⟩ | ⟨hjoin, -⟩ <;> rw [hjoin]
  · have hne : Sorted.union s.exact t.exact ≠ [] :=
      Sorted.unionOn.ne_nil hs.increasing ht.increasing hs'
    simp only [effectiveBeginnings, effectiveEndings, exactly, List.isEmpty_iff, hs', ht', hne, ↓reduceIte, hunion,
      and_self]
  · rw [← capped_bothOrNone_eq, ← capped_bothOrNone_eq]
    exact ⟨rfl, rfl⟩

theorem join_lengths : (s.join t).minLen = min s.minLen t.minLen ∧
    (s.join t).maxLen = looserBound s.maxLen t.maxLen := by
  rcases join_cases hs ht with ⟨hs', ht', hjoin, -⟩ | ⟨hjoin, -⟩ <;> rw [hjoin]
  · obtain ⟨hmin, hmax⟩ := lengths_union hs' ht'
    rw [hs.alone hs', ht.alone ht']
    refine ⟨hmin, ?_⟩
    show (maxLength (Sorted.union s.exact t.exact) : Int) = looserBound (maxLength s.exact) (maxLength t.exact)
    rw [hmax, looserBound, if_neg (by omega)]
    omega
  · exact ⟨rfl, rfl⟩

end Join

theorem Tidy.effective (hs : s.Tidy) :
    (s.effectiveBeginnings.Pairwise (· < ·) ∧ s.effectiveBeginnings.length ≤ exactLimit) ∧
      s.effectiveEndings.Pairwise (· < ·) ∧ s.effectiveEndings.length ≤ exactLimit := by
  unfold effectiveBeginnings effectiveEndings
  split
  · exact ⟨⟨hs.beginnings, hs.fewBeginnings⟩, hs.endings, hs.fewEndings⟩
  · exact ⟨⟨hs.increasing, hs.few⟩, hs.increasing, hs.few⟩

theorem semilattice_join : SemilatticeOn (fun s : StringSet => s.Tidy ∧ -1 ≤ s.maxLen) join := by
  have hunion := (Sorted.unionOn (α := ByteString)).upTo .nil exactLimit
  refine (hunion.prod (hunion.prod (hunion.prod (SemilatticeOn.min.prod semilattice_looserBound)))).pullback
    (fun s => (s.exact, s.effectiveBeginnings, s.effectiveEndings, s.minLen, s.maxLen)) ?_ ?_ ?_ ?_
  · intro s hs
    exact ⟨⟨hs.1.increasing, hs.1.few⟩, hs.1.effective.1, hs.1.effective.2, trivial, hs.2⟩
  · intro s t hs ht h
    simp only [Prod.mk.injEq] at h
    obtain ⟨hexact, hbeginnings, hendings, hmin, hmax⟩ := h
    by_cases hne : s.exact = []
    · obtain ⟨exact, beginnings, endings, minLen, maxLen⟩ := s
      obtain ⟨exact', beginnings', endings', minLen', maxLen'⟩ := t
      simp only at hexact hne hmin hmax
      subst hexact hne hmin hmax
      simp only [effectiveBeginnings, effectiveEndings, List.isEmpty_nil, ↓reduceIte] at hbeginnings hendings
      rw [hbeginnings, hendings]
    · rw [hs.1.alone hne, ht.1.alone (hexact ▸ hne), hexact]
  · intro s t hs ht
    refine ⟨tidy_join s t, ?_⟩
    rw [(join_lengths hs.1 ht.1).2]
    exact semilattice_looserBound.closed hs.2 ht.2
  · intro s t hs ht
    obtain ⟨hmin, hmax⟩ := join_lengths hs.1 ht.1
    rw [join_exact hs.1 ht.1, (join_effective hs.1 ht.1).1, (join_effective hs.1 ht.1).2, hmin, hmax]

end StringSet

theorem Bool.semilattice_or : SemilatticeOn (fun _ : Bool => True) or :=
  ⟨fun _ _ => trivial, fun _ _ => Bool.or_comm _ _, fun _ _ _ => Bool.or_assoc _ _ _, fun _ => Bool.or_self _⟩

theorem Binding.semilattice_join : SemilatticeOn (fun _ : Binding => True) Binding.join := by
  refine SemilatticeOn.max.pullback Binding.rank (fun _ => trivial) ?_ (fun _ _ => trivial) ?_
  · intro a b _ _ h
    revert h
    cases a <;> cases b <;> decide
  · intro a b _ _
    unfold join
    split <;> omega

namespace Container

theorem semilattice_looserSize : SemilatticeOn (fun _ : Option Nat => True) looserSize where
  closed _ _ := trivial
  comm := by
    intro m n _ _
    cases m <;> cases n <;> simp [looserSize, Nat.max_comm]
  assoc := by
    intro m n k _ _ _
    cases m <;> cases n <;> cases k <;> simp [looserSize, Nat.max_assoc]
  idem := by
    intro n _
    cases n <;> simp [looserSize]

end Container

namespace Names

/-- Names that may stand in a list with commas between them. -/
def CommaFree (names : List String) : Prop := ∀ n ∈ names, ',' ∉ n.toList

instance (names : List String) : Decidable (CommaFree names) :=
  inferInstanceAs (Decidable (∀ n ∈ names, ',' ∉ n.toList))

variable {ps qs : List String}

/-- Lists of names without commas are told apart by their texts, but for the empty list. -/
theorem eq_of_text_eq (hps : CommaFree ps) (hqs : CommaFree qs) (hne : ps ≠ []) (hne' : qs ≠ [])
    (h : ",".intercalate ps = ",".intercalate qs) : ps = qs := by
  have hsplit : ∀ {ns : List String}, CommaFree ns → ns ≠ [] →
      (",".intercalate ns).toList.splitOn ',' = ns.map String.toList := by
    intro ns hns hne
    rw [String.toList_intercalate]
    refine List.splitOn_intercalate ',' ?_ (by simpa using hne)
    intro l hl
    obtain ⟨n, hn, rfl⟩ := List.mem_map.mp hl
    exact hns n hn
  have hlists : ps.map String.toList = qs.map String.toList := by
    rw [← hsplit hps hne, h, hsplit hqs hne']
  exact List.map_injective_iff.mpr (fun _ _ => String.toList_inj.mp) hlists

end Names

namespace Function

open Names

/-- Longer lists come after shorter ones, and of two lists of one length the one with the smaller text. -/
def paramOrder (ps : List String) : ℕ ×ₗ Stringᵒᵈ := toLex (ps.length, OrderDual.toDual (",".intercalate ps))

theorem paramOrder_lt_iff {ps qs : List String} : paramOrder ps < paramOrder qs ↔
    ps.length < qs.length ∨ (qs.length = ps.length ∧ ",".intercalate qs < ",".intercalate ps) := by
  rw [paramOrder, paramOrder, Prod.Lex.toLex_lt_toLex, OrderDual.toDual_lt_toDual, eq_comm (a := qs.length)]

theorem semilattice_widerParams : SemilatticeOn CommaFree widerParams := by
  have hchoice : ∀ ps qs, widerParams ps qs = ps ∨ widerParams ps qs = qs := by
    intro ps qs
    unfold widerParams
    split
    · exact Or.inr rfl
    · exact Or.inl rfl
  -- The wider list is the larger one by length and text, and texts tell lists apart.
  refine SemilatticeOn.max.pullback paramOrder (fun _ => trivial) ?_ ?_ ?_
  · intro ps qs hps hqs h
    have hpair := toLex.injective h
    have hlength : ps.length = qs.length := congrArg Prod.fst hpair
    have htext : ",".intercalate ps = ",".intercalate qs := OrderDual.toDual.injective (congrArg Prod.snd hpair)
    by_cases hne : ps = []
    · rw [hne]
      exact (List.length_eq_zero_iff.mp (by rw [← hlength, hne]; rfl)).symm
    · have hne' : qs ≠ [] := by
        rw [← List.length_pos_iff, ← hlength]
        exact List.length_pos_iff.mpr hne
      exact eq_of_text_eq hps hqs hne hne' htext
  · intro ps qs hps hqs
    rcases hchoice ps qs with h | h <;> rw [h]
    · exact hps
    · exact hqs
  · intro ps qs _ _
    unfold widerParams
    by_cases h : paramOrder ps < paramOrder qs
    · rw [if_pos (paramOrder_lt_iff.mp h), max_eq_right h.le]
    · rw [if_neg (mt paramOrder_lt_iff.mpr h), max_eq_left (not_lt.mp h)]

end Function

namespace Names

variable {x : String} {names more : List String}

theorem place_eq (name : String) (names : List String) : sort.place name names = Sorted.sort.place name names := by
  induction names with
  | nil => rfl
  | cons n rest ih => rw [sort.place, Sorted.sort.place, ih]

theorem sort_eq (names : List String) : sort names = Sorted.sort names := by
  unfold sort Sorted.sort
  induction names with
  | nil => rfl
  | cons n rest ih => rw [List.foldr_cons, List.foldr_cons, ih, place_eq]

theorem mem_sort : x ∈ sort names ↔ x ∈ names := by
  rw [sort_eq]
  exact (Sorted.perm_sort names).mem_iff

theorem pairwise_sort (h : names.Nodup) : (sort names).Pairwise (· < ·) := by
  rw [sort_eq]
  exact Sorted.pairwise_sort h

theorem mem_foldl_append :
    x ∈ more.foldl (fun acc b => if b ∈ acc then acc else acc ++ [b]) names ↔ x ∈ names ∨ x ∈ more := by
  induction more generalizing names with
  | nil => simp
  | cons n rest ih =>
    rw [List.foldl_cons, ih]
    split
    · rename_i hn
      simp only [List.mem_cons]
      constructor
      · exact Or.imp_right Or.inr
      · rintro (hx | rfl | hx)
        · exact Or.inl hx
        · exact Or.inl hn
        · exact Or.inr hx
    · simp only [List.mem_append, List.mem_cons, List.not_mem_nil, or_false, or_assoc]

theorem nodup_foldl_append (h : names.Nodup) :
    (more.foldl (fun acc b => if b ∈ acc then acc else acc ++ [b]) names).Nodup := by
  induction more generalizing names with
  | nil => exact h
  | cons n rest ih =>
    rw [List.foldl_cons]
    apply ih
    split
    · exact h
    · rename_i hn
      exact List.nodup_append.mpr ⟨h, by simp, fun a ha b hb => by rintro rfl; exact hn (List.mem_singleton.mp hb ▸ ha)⟩

end Names

namespace Class

open Names

/-- Lists of bases that their texts tell apart. -/
structure Distinct (bs : List String) : Prop where
  nodup : bs.Nodup
  commaFree : CommaFree bs
  named : bs ≠ [""]

variable {bs cs ds : List String} {x : String}

def allBases (bs cs : List String) : List String :=
  sort (cs.foldl (fun acc b => if b ∈ acc then acc else acc ++ [b]) bs)

theorem mem_allBases : x ∈ allBases bs cs ↔ x ∈ bs ∨ x ∈ cs := by
  rw [allBases, mem_sort, mem_foldl_append]

theorem pairwise_allBases (hb : bs.Nodup) : (allBases bs cs).Pairwise (· < ·) :=
  pairwise_sort (nodup_foldl_append hb)

theorem text_eq_iff (hb : Distinct bs) (hc : Distinct cs) :
    ",".intercalate bs = ",".intercalate cs ↔ bs = cs := by
  have hempty : ∀ {ds : List String}, Distinct ds → ds ≠ [] → ",".intercalate ds ≠ "" := by
    intro ds hd hne htext
    exact hd.named (eq_of_text_eq hd.commaFree (by simp [CommaFree]) hne (by simp) htext)
  constructor
  · intro h
    by_cases hbne : bs = []
    · by_cases hcne : cs = []
      · rw [hbne, hcne]
      · subst hbne
        exact absurd h.symm (hempty hc hcne)
    · by_cases hcne : cs = []
      · subst hcne
        exact absurd h (hempty hb hbne)
      · exact eq_of_text_eq hb.commaFree hc.commaFree hbne hcne h
  · exact congrArg _

theorem joinBases_eq (hb : Distinct bs) (hc : Distinct cs) :
    joinBases bs cs = if bs = cs then bs else allBases bs cs := by
  unfold joinBases
  exact if_congr (text_eq_iff hb hc) rfl rfl

theorem mem_joinBases (hb : Distinct bs) (hc : Distinct cs) : x ∈ joinBases bs cs ↔ x ∈ bs ∨ x ∈ cs := by
  rw [joinBases_eq hb hc]
  split
  · rename_i h
    rw [h, or_self_iff]
  · exact mem_allBases

theorem distinct_joinBases (hb : Distinct bs) (hc : Distinct cs) : Distinct (joinBases bs cs) := by
  have hmem := fun x => mem_joinBases (x := x) hb hc
  refine ⟨?_, ?_, ?_⟩
  · rw [joinBases_eq hb hc]
    split
    · exact hb.nodup
    · exact (pairwise_allBases hb.nodup).nodup
  · intro n hn
    rcases (hmem n).mp hn with hn | hn
    · exact hb.commaFree n hn
    · exact hc.commaFree n hn
  · intro hsingle
    -- Either list has no other member than the empty name, and is not that name alone.
    have hnil : ∀ {ds : List String}, Distinct ds → (∀ x ∈ ds, x = "") → ds = [] := by
      intro ds hd hall
      match ds, hd, hall with
      | [], _, _ => rfl
      | [x], hd, hall => exact absurd (congrArg (fun y => [y]) (hall x List.mem_cons_self)) hd.named
      | x :: y :: rest, hd, hall =>
        have hxy : x = y := (hall x List.mem_cons_self).trans (hall y (by simp)).symm
        exact absurd hd.nodup (by simp [hxy])
    have hbnil := hnil hb fun x hx => List.mem_singleton.mp (hsingle ▸ (hmem x).mpr (Or.inl hx))
    have hcnil := hnil hc fun x hx => List.mem_singleton.mp (hsingle ▸ (hmem x).mpr (Or.inr hx))
    rw [hbnil, hcnil] at hsingle
    exact absurd hsingle (by decide)

theorem semilattice_joinBases : SemilatticeOn Distinct joinBases := by
  have hcomm : ∀ {bs cs : List String}, Distinct bs → Distinct cs → joinBases bs cs = joinBases cs bs := by
    intro bs cs hb hc
    rw [joinBases_eq hb hc, joinBases_eq hc hb]
    by_cases h : bs = cs
    · rw [h]
    · rw [if_neg h, if_neg (Ne.symm h)]
      refine Sorted.ext_mem (pairwise_allBases hb.nodup) (pairwise_allBases hc.nodup) fun x => ?_
      rw [mem_allBases, mem_allBases]
      exact or_comm
  -- Three lists that are not all equal become their sorted union, whichever two are joined first.
  have hthree : ∀ {bs cs ds : List String}, Distinct bs → Distinct cs → Distinct ds →
      ¬ (bs = cs ∧ cs = ds) → joinBases (joinBases bs cs) ds = allBases (allBases bs cs) ds := by
    intro bs cs ds hb hc hd hne
    have hbc := distinct_joinBases hb hc
    have hmem : ∀ x, x ∈ joinBases bs cs ∨ x ∈ ds ↔ x ∈ allBases (allBases bs cs) ds := by
      intro x
      rw [mem_joinBases hb hc, mem_allBases, mem_allBases]
    have hsorted : (allBases (allBases bs cs) ds).Pairwise (· < ·) :=
      pairwise_allBases (pairwise_allBases hb.nodup).nodup
    rw [joinBases_eq hbc hd]
    split
    · rename_i hsame
      refine Sorted.ext_mem ?_ hsorted fun x => ?_
      · rw [joinBases_eq hb hc] at hsame ⊢
        by_cases h : bs = cs
        · rw [if_pos h] at hsame
          exact absurd ⟨h, h.symm.trans hsame⟩ hne
        · rw [if_neg h]
          exact pairwise_allBases hb.nodup
      · rw [← hmem, ← hsame, or_self_iff]
    · refine Sorted.ext_mem (pairwise_allBases hbc.nodup) hsorted fun x => ?_
      rw [← hmem, mem_allBases]
  refine ⟨distinct_joinBases, hcomm, fun {bs cs ds} hb hc hd => ?_, fun {bs} hb => ?_⟩
  · by_cases hall : bs = cs ∧ cs = ds
    · obtain ⟨rfl, rfl⟩ := hall
      rw [hcomm (distinct_joinBases hb hb) hb]
    · rw [hthree hb hc hd hall, hcomm hb (distinct_joinBases hc hd), hthree hc hd hb fun ⟨h, h'⟩ => hall ⟨(h.trans h').symm, h⟩]
      refine Sorted.ext_mem (pairwise_allBases (pairwise_allBases hb.nodup).nodup)
        (pairwise_allBases (pairwise_allBases hc.nodup).nodup) fun x => ?_
      simp only [mem_allBases]
      tauto
  · rw [joinBases_eq hb hb, if_pos rfl]

end Class

end AbstractFlow
