import AbstractFlow.Proofs.Value.Verdict
import AbstractFlow.Proofs.Value.WellFormed

/-! # Narrower sets

A set of numbers or strings is narrower than another if what it allows the other allows too. Joins are wider
than either side. A question about wider sets is answered as about the narrower ones, or not at all.
-/
namespace AbstractFlow

namespace Verdict

variable {v w : Verdict} {vs ws : List Verdict}

/-- The first answer is the second, or none. -/
def Blurs (v w : Verdict) : Prop := v = .maybe ∨ v = w

theorem blurs_maybe : Verdict.maybe.Blurs w := Or.inl rfl

theorem blurs_refl (v : Verdict) : v.Blurs v := Or.inr rfl

theorem blurs_of_eq (h : w = v) : v.Blurs w := Or.inr h.symm

theorem Blurs.not (h : v.Blurs w) : v.not.Blurs w.not := by
  rcases h with rfl | rfl
  · exact blurs_maybe
  · exact blurs_refl _

theorem Blurs.eq (h : v.Blurs w) (hv : v.isDefinite = true) : w = v := by
  rcases h with rfl | rfl
  · cases hv
  · rfl

theorem unanimous_of_forall (hne : vs ≠ []) (h : ∀ w ∈ vs, w = v) : unanimous vs = v := by
  cases vs with
  | nil => exact absurd rfl hne
  | cons w rest =>
    obtain ⟨rfl, hrest⟩ := List.forall_mem_cons.mp h
    exact if_pos (List.all_eq_true.mpr fun x hx => beq_iff_eq.mpr (hrest x hx))

/-- Every answer is blurred by another one, so the common answer of these others blurs theirs. -/
theorem blurs_unanimous (hne : ws ≠ []) (h : ∀ w ∈ ws, ∃ v ∈ vs, v.Blurs w) :
    (unanimous vs).Blurs (unanimous ws) := by
  by_cases hmaybe : unanimous vs = .maybe
  · exact Or.inl hmaybe
  · apply blurs_of_eq
    apply unanimous_of_forall hne
    intro w hw
    obtain ⟨v, hv, hblurs⟩ := h w hw
    have hvs : unanimous vs = v := (unanimous_eq hv).resolve_left hmaybe
    rcases hblurs with rfl | rfl
    · exact absurd hvs hmaybe
    · exact hvs.symm

end Verdict

open Verdict

theorem Number.isInfinite_of_key {x y : Number} (h : x.key = y.key) : x.isInfinite = y.isInfinite := by
  have hmagnitude : ∀ x : Number, x.magnitude = x.key.natAbs := by
    intro x
    unfold key
    split <;> omega
  rw [isInfinite, isInfinite, hmagnitude x, hmagnitude y, h]

namespace NumberSet

variable {x y : Number} {s s' t t' : NumberSet}

/-- The wider set contains all numbers of the narrower one, and it has exact members only if that has. -/
structure Narrows (s s' : NumberSet) : Prop where
  members : ∀ x, s.contains x = true → s'.contains x = true
  exact : s'.exact ≠ [] → s.exact ≠ []

theorem narrows_refl (s : NumberSet) : s.Narrows s := ⟨fun _ h => h, fun h => h⟩

theorem exact_ne_nil_of_join (h : (s.join t).exact ≠ []) : s.exact ≠ [] ∧ t.exact ≠ [] := by
  by_contra hnil
  apply h
  have hempty : (s.exact.isEmpty || t.exact.isEmpty) = true := by
    simp only [Bool.or_eq_true, List.isEmpty_iff]
    tauto
  simp [join, normalize, hempty, sortedNumbers]

theorem narrows_join (hs : s.WellFormed) (ht : t.WellFormed) : s.Narrows (s.join t) ∧ t.Narrows (s.join t) := by
  have hmembers : ∀ x, s.contains x = true ∨ t.contains x = true → (s.join t).contains x = true :=
    fun _ => contains_join hs.toTidy ht.toTidy
  constructor
  · exact ⟨fun x hx => hmembers x (Or.inl hx), fun h => (exact_ne_nil_of_join h).1⟩
  · exact ⟨fun x hx => hmembers x (Or.inr hx), fun h => (exact_ne_nil_of_join h).2⟩

theorem WellFormed.bounds (h : s.WellFormed) : s.lower.key ≤ s.upper.key := h.ordered.2.2

theorem contains_bounds (h : s.WellFormed) : s.contains s.lower = true ∧ s.contains s.upper = true := by
  have hbounds := h.bounds
  by_cases hexact : s.exact = []
  · rw [contains_of_range h.toTidy hexact h.lower, contains_of_range h.toTidy hexact h.upper]
    omega
  · rw [contains_of_exact h.toTidy hexact h.lower, contains_of_exact h.toTidy hexact h.upper]
    have hfirst := List.head?_eq_some_head hexact
    have hlast := List.getLast?_eq_some_getLast hexact
    exact ⟨⟨_, List.head_mem hexact, by rw [h.first _ hfirst]⟩, ⟨_, List.getLast_mem hexact, by rw [h.last _ hlast]⟩⟩

theorem Narrows.bounds (h : s.Narrows s') (hs : s.WellFormed) (hs' : s'.WellFormed) :
    s'.lower.key ≤ s.lower.key ∧ s.upper.key ≤ s'.upper.key := by
  obtain ⟨hlower, hupper⟩ := contains_bounds hs
  exact ⟨(bounds_of_contains hs'.toTidy (h.members _ hlower)).1,
    (bounds_of_contains hs'.toTidy (h.members _ hupper)).2⟩

/-- The only member stands at both bounds. -/
theorem key_of_single_eq (hs : s.WellFormed) (h : s.single? = some x) :
    x.isNaN = false ∧ s.lower.key = x.key ∧ s.upper.key = x.key := by
  unfold single? at h
  split at h
  · rename_i y hexact
    obtain rfl := Option.some.inj h
    rw [hs.first y (by rw [hexact]; rfl), hs.last y (by rw [hexact]; rfl)]
    exact ⟨hs.increasing.numbers y (by simp [hexact]), rfl, rfl⟩
  · split at h
    · rename_i hsame
      obtain rfl := Option.some.inj h
      rw [Bool.and_eq_true, Number.same_iff hs.lower hs.upper] at hsame
      exact ⟨hs.lower, rfl, hsame.1.symm⟩
    · cases h

theorem exists_single (hs : s.WellFormed) (hbounds : s.lower.key = s.upper.key)
    (h : s.exact = [] → s.lower.isInfinite = false) : ∃ x, s.single? = some x := by
  unfold single?
  split
  · exact ⟨_, rfl⟩
  · rename_i hmany
    have hexact : s.exact = [] := by
      match hlist : s.exact with
      | [] => rfl
      | [x] => exact absurd hlist (hmany x)
      | x :: y :: rest =>
        -- Two members would stand apart between bounds that do not.
        have hlt := (List.pairwise_cons.mp (hlist ▸ hs.increasing.pairwise)).1 y List.mem_cons_self
        have hx := hs.inside (x := x) (by simp [hlist])
        have hy := hs.inside (x := y) (by simp [hlist])
        omega
    refine ⟨s.lower, if_pos ?_⟩
    rw [Bool.and_eq_true, Number.same_iff hs.lower hs.upper, h hexact]
    exact ⟨hbounds, rfl⟩

/-- A set within one of a single member has a single member, an equal one. -/
theorem Narrows.single (h : s.Narrows s') (hs : s.WellFormed) (hs' : s'.WellFormed)
    (hy : s'.single? = some y) : ∃ x, s.single? = some x ∧ x.isNaN = false ∧ x.key = y.key := by
  have hkeys := key_of_single_eq hs' hy
  have hbounds := h.bounds hs hs'
  have hordered := hs.bounds
  have hfinite : s.exact = [] → s.lower.isInfinite = false := by
    intro hexact
    have hexact' : s'.exact = [] := by
      by_contra hne
      exact h.exact hne hexact
    simp only [single?, hexact'] at hy
    split at hy
    · rename_i hsame
      rw [Bool.and_eq_true, Bool.not_eq_true'] at hsame
      rw [← hsame.2]
      exact Number.isInfinite_of_key (by omega)
    · cases hy
  obtain ⟨x, hx⟩ := exists_single hs (by omega) hfinite
  have hkeys' := key_of_single_eq hs hx
  exact ⟨x, hx, hkeys'.1, by omega⟩

theorem contains_zero_of_single (hs : s.WellFormed) (hx : s.single? = some x) (hzero : x.key = 0) :
    s.contains .zero = true := by
  obtain ⟨-, hlower, hupper⟩ := key_of_single_eq hs hx
  have hmember := (contains_bounds hs).1
  by_cases hexact : s.exact = []
  · rw [contains_of_range hs.toTidy hexact rfl]
    show s.lower.key ≤ 0 ∧ 0 ≤ s.upper.key
    omega
  · rw [contains_of_exact hs.toTidy hexact hs.lower] at hmember
    rw [contains_of_exact hs.toTidy hexact rfl]
    obtain ⟨y, hy, hkey⟩ := hmember
    exact ⟨y, hy, by rw [hkey, hlower, hzero]; rfl⟩

theorem contains_zero_of_truth (hs : s.WellFormed) (h : s.truth = .yes) : s.contains .zero = false := by
  unfold truth at h
  split at h
  · rename_i hmay
    rw [Bool.not_eq_true', ← Bool.not_eq_true, hs.zero, Number.le_iff hs.lower rfl, Number.le_iff rfl hs.upper] at hmay
    rw [← Bool.not_eq_true]
    exact fun hzero => hmay (bounds_of_contains hs.toTidy hzero)
  split at h
  · cases h
  split at h
  · rename_i hexact
    rw [Bool.and_eq_true, Bool.not_eq_true', Bool.not_eq_true'] at hexact
    exact hexact.2
  · cases h

theorem truth_eq_yes (hs : s.WellFormed) (h : s.contains .zero = false) : s.truth = .yes := by
  unfold truth
  split
  · rfl
  rename_i hmay
  rw [if_neg, if_pos]
  · rw [Bool.and_eq_true, h, Bool.not_eq_true', List.isEmpty_eq_false_iff]
    refine ⟨fun hnil => hmay ?_, rfl⟩
    rw [contains, if_pos (List.isEmpty_iff.mpr hnil)] at h
    rw [mayBeZero, h]
    rfl
  · intro hany
    cases hx : s.single? with
    | none => simp [hx] at hany
    | some x =>
      rw [hx, Option.any_some, Number.same_iff (key_of_single_eq hs hx).1 rfl] at hany
      rw [contains_zero_of_single hs hx hany] at h
      cases h

theorem truth_eq_no (hs : s.WellFormed) (hx : s.single? = some x) (hzero : x.key = 0) : s.truth = .no := by
  obtain ⟨hnx, hlower, hupper⟩ := key_of_single_eq hs hx
  unfold truth
  rw [if_neg, if_pos]
  · rw [hx, Option.any_some, Number.same_iff hnx rfl]
    exact hzero
  · rw [Bool.not_eq_true', Bool.not_eq_false, hs.zero, Number.le_iff hs.lower rfl, Number.le_iff rfl hs.upper]
    show s.lower.key ≤ 0 ∧ 0 ≤ s.upper.key
    omega

theorem single_of_truth (hs : s.WellFormed) (h : s.truth = .no) : ∃ x, s.single? = some x ∧ x.key = 0 := by
  unfold truth at h
  split at h
  · cases h
  split at h
  · rename_i hany
    cases hx : s.single? with
    | none => simp [hx] at hany
    | some x =>
      rw [hx, Option.any_some, Number.same_iff (key_of_single_eq hs hx).1 rfl] at hany
      exact ⟨x, rfl, hany⟩
  split at h <;> cases h

section Questions

variable (h : s.Narrows s') (hs : s.WellFormed) (hs' : s'.WellFormed)

include h hs hs'

theorem blurs_truth : s'.truth.Blurs s.truth := by
  cases htruth : s'.truth with
  | maybe => exact blurs_maybe
  | yes =>
    have hzero := contains_zero_of_truth hs' htruth
    apply blurs_of_eq
    apply truth_eq_yes hs
    rw [← Bool.not_eq_true] at hzero ⊢
    exact fun hmember => hzero (h.members _ hmember)
  | no =>
    obtain ⟨y, hy, hzero⟩ := single_of_truth hs' htruth
    obtain ⟨x, hx, -, hkey⟩ := h.single hs hs' hy
    exact blurs_of_eq (truth_eq_no hs hx (hkey.trans hzero))

variable (h' : t.Narrows t') (ht : t.WellFormed) (ht' : t'.WellFormed)

include h' ht ht'

theorem blurs_equals : (s'.equals t').Blurs (s.equals t) := by
  have hbounds := h.bounds hs hs'
  have hbounds' := h'.bounds ht ht'
  unfold equals
  -- If the wider sets have single members, so have the narrower ones, the same up to the sign of a zero.
  split
  · rename_i x' y' hx' hy'
    obtain ⟨x, hx, hnx, hxkey⟩ := h.single hs hs' hx'
    obtain ⟨y, hy, hny, hykey⟩ := h'.single ht ht' hy'
    have hsame : x.same y = x'.same y' := by
      rw [Bool.eq_iff_iff, Number.same_iff hnx hny, hxkey, hykey,
        Number.same_iff (key_of_single_eq hs' hx').1 (key_of_single_eq ht' hy').1]
    simp only [hx, hy, hsame]
    exact blurs_refl _
  split
  · rename_i hapart
    simp only [Bool.or_eq_true, decide_eq_true_eq, Number.lt_iff hs'.upper ht'.lower,
      Number.lt_iff ht'.upper hs'.lower] at hapart
    apply blurs_of_eq
    split
    · rename_i x y hx hy
      have hx := key_of_single_eq hs hx
      have hy := key_of_single_eq ht hy
      have hsame : x.same y = false := by
        rw [← Bool.not_eq_true, Number.same_iff hx.1 hy.1]
        omega
      rw [hsame]
      rfl
    · apply if_pos
      simp only [Bool.or_eq_true, decide_eq_true_eq, Number.lt_iff hs.upper ht.lower,
        Number.lt_iff ht.upper hs.lower]
      omega
  · exact blurs_maybe

theorem blurs_less : (s'.less t').Blurs (s.less t) := by
  have hbounds := h.bounds hs hs'
  have hbounds' := h'.bounds ht ht'
  have hordered := hs.bounds
  have hordered' := ht.bounds
  unfold less
  simp only [Number.lt_iff hs.upper ht.lower, Number.le_iff ht.upper hs.lower,
    Number.lt_iff hs'.upper ht'.lower, Number.le_iff ht'.upper hs'.lower]
  split
  · rw [if_pos (by omega)]
    exact blurs_refl _
  split
  · rw [if_neg (by omega), if_pos (by omega)]
    exact blurs_refl _
  · exact blurs_maybe

theorem blurs_atMost : (s'.atMost t').Blurs (s.atMost t) := by
  have hbounds := h.bounds hs hs'
  have hbounds' := h'.bounds ht ht'
  have hordered := hs.bounds
  have hordered' := ht.bounds
  unfold atMost
  simp only [Number.le_iff hs.upper ht.lower, Number.lt_iff ht.upper hs.lower,
    Number.le_iff hs'.upper ht'.lower, Number.lt_iff ht'.upper hs'.lower]
  split
  · rw [if_pos (by omega)]
    exact blurs_refl _
  split
  · rw [if_neg (by omega), if_pos (by omega)]
    exact blurs_refl _
  · exact blurs_maybe

theorem blurs_compare (op : Comparator) : (s'.compare op t').Blurs (s.compare op t) := by
  cases op with
  | eq => exact blurs_equals h hs hs' h' ht ht'
  | ne => exact (blurs_equals h hs hs' h' ht ht').not
  | lt => exact blurs_less h hs hs' h' ht ht'
  | le => exact blurs_atMost h hs hs' h' ht ht'
  | gt => exact blurs_less h' ht ht' h hs hs'
  | ge => exact blurs_atMost h' ht ht' h hs hs'
  | is => exact blurs_maybe
  | isNot => exact blurs_maybe

end Questions

end NumberSet

namespace StringSet

variable {x y : ByteString} {s s' t t' : StringSet}

/-- The wider set has looser bounds on the length, and it has exact members only if the narrower one has
some of them. -/
structure Narrows (s s' : StringSet) : Prop where
  minLen : s'.minLen ≤ s.minLen
  maxLen : 0 ≤ s'.maxLen → 0 ≤ s.maxLen ∧ s.maxLen ≤ s'.maxLen
  exact : s'.exact ≠ [] → s.exact ≠ [] ∧ s.exact ⊆ s'.exact

theorem narrows_refl (s : StringSet) : s.Narrows s :=
  ⟨Nat.le_refl _, fun h => ⟨h, Int.le_refl _⟩, fun h => ⟨h, fun _ hx => hx⟩⟩

theorem narrows_exactly {xs ys : List ByteString} (hne : xs ≠ []) (h : xs ⊆ ys) :
    (exactly xs).Narrows (exactly ys) where
  minLen := le_minLength hne fun _ hx => minLength_le (h hx)
  maxLen _ := ⟨Int.natCast_nonneg _, Int.ofNat_le.mpr (maxLength_le fun _ hx => le_maxLength (h hx))⟩
  exact _ := ⟨hne, h⟩

theorem narrows_join (hs : s.Tidy) (ht : t.Tidy) : s.Narrows (s.join t) ∧ t.Narrows (s.join t) := by
  by_cases hsized : s.exact = [] ∨ t.exact = [] ∨ exactLimit < (Sorted.union s.exact t.exact).length
  · rw [join_of_affixed hs ht hsized]
    have hmax : 0 ≤ looserBound s.maxLen t.maxLen →
        (0 ≤ s.maxLen ∧ s.maxLen ≤ looserBound s.maxLen t.maxLen) ∧
          0 ≤ t.maxLen ∧ t.maxLen ≤ looserBound s.maxLen t.maxLen := by
      unfold looserBound
      split <;> omega
    exact ⟨⟨Nat.min_le_left _ _, fun h => (hmax h).1, fun hne => absurd rfl hne⟩,
      ⟨Nat.min_le_right _ _, fun h => (hmax h).2, fun hne => absurd rfl hne⟩⟩
  · simp only [not_or, Nat.not_lt] at hsized
    obtain ⟨hne, hne', hfew⟩ := hsized
    rw [join_of_exact hne hne' hfew]
    constructor
    · nth_rewrite 1 [hs.alone hne]
      exact narrows_exactly hne fun _ hx => Sorted.mem_union.mpr (Or.inl hx)
    · nth_rewrite 1 [ht.alone hne']
      exact narrows_exactly hne' fun _ hx => Sorted.mem_union.mpr (Or.inr hx)

theorem exact_of_single (h : s.single? = some x) : s.exact = [x] := by
  unfold single? at h
  split at h
  · rename_i y hexact
    rw [hexact, Option.some.inj h]
  · cases h

theorem Narrows.single (h : s.Narrows s') (hs : s.Tidy) (hx : s'.single? = some x) : s.single? = some x := by
  have hexact' := exact_of_single hx
  obtain ⟨hne, hsub⟩ := h.exact (by simp [hexact'])
  have hsingle : s.exact = [x] := by
    match hlist : s.exact with
    | [] => exact absurd hlist hne
    | [y] =>
      have hy : y = x := List.mem_singleton.mp (hexact' ▸ hsub (by simp [hlist]))
      rw [hy]
    | y :: z :: rest =>
      -- Members of one string cannot increase.
      have hlt : y < z := (List.pairwise_cons.mp (hlist ▸ hs.increasing)).1 z List.mem_cons_self
      have hy : y = x := List.mem_singleton.mp (hexact' ▸ hsub (by simp [hlist]))
      have hz : z = x := List.mem_singleton.mp (hexact' ▸ hsub (by simp [hlist]))
      rw [hy, hz] at hlt
      exact absurd hlt (List.lt_irrefl _)
  rw [single?, hsingle]

section Questions

variable (h : s.Narrows s') (hs : s.Tidy) (h' : t.Narrows t') (ht : t.Tidy)

include h hs

theorem blurs_truth : s'.truth.Blurs s.truth := by
  have hmin := h.minLen
  have hmax := h.maxLen
  have hordered := hs.ordered
  unfold truth
  split
  · rw [if_pos (by omega)]
    exact blurs_refl _
  split
  · rw [if_neg (by omega), if_pos (by omega)]
    exact blurs_refl _
  · exact blurs_maybe

include h' ht

theorem blurs_decided (question : ByteString → ByteString → Bool) :
    (s'.decided t' question).Blurs (s.decided t question) := by
  unfold decided
  split
  · rename_i x y hx hy
    rw [h.single hs hx, h'.single ht hy]
    exact blurs_refl _
  · exact blurs_maybe

theorem blurs_equals : (s'.equals t').Blurs (s.equals t) := by
  unfold equals
  split
  · rename_i x y hx hy
    rw [h.single hs hx, h'.single ht hy]
    exact blurs_refl _
  split
  · exact blurs_maybe
  split
  · exact blurs_maybe
  rename_i hempty hany
  simp only [Bool.or_eq_true, List.isEmpty_iff, not_or] at hempty
  obtain ⟨hne, hsub⟩ := h.exact hempty.1
  obtain ⟨hne', hsub'⟩ := h'.exact hempty.2
  have hapart : ∀ x ∈ s.exact, x ∉ t.exact := by
    intro x hx hx'
    exact hany (List.any_eq_true.mpr ⟨x, hsub hx, (contains_of_exact hempty.2).mpr (hsub' hx')⟩)
  apply blurs_of_eq
  split
  · rename_i x y hx hy
    rw [exact_of_single hx, exact_of_single hy] at hapart
    have hdiffer : (x == y) = false := beq_eq_false_iff_ne.mpr fun heq => hapart x (by simp) (by simp [heq])
    rw [hdiffer]
    rfl
  · rw [if_neg (by simp [hne, hne']), if_neg]
    intro hcommon
    obtain ⟨x, hx, hx'⟩ := List.any_eq_true.mp hcommon
    exact hapart x hx ((contains_of_exact hne').mp hx')

theorem blurs_compare (op : Comparator) : (s'.compare op t').Blurs (s.compare op t) := by
  cases op with
  | eq => exact blurs_equals h hs h' ht
  | ne => exact (blurs_equals h hs h' ht).not
  | is => exact blurs_maybe
  | isNot => exact blurs_maybe
  | _ => exact blurs_decided h hs h' ht _

end Questions

end StringSet

end AbstractFlow
