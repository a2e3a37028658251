import AbstractFlow.Analysis.Run
import AbstractFlow.Proofs.Value.NumberSet
import AbstractFlow.Proofs.Value.Plain
import AbstractFlow.Proofs.Value.StringSet
import Mathlib

/-! # Ranks

The literals of a body bound everything that can be known of its variables: the bounds of every range
are numbers that were written down, and no string is longer than the longest one. Within such an extent
every set, every value and every snapshot has a rank, which is bounded, and which rises whenever a join
changes anything.
-/
namespace AbstractFlow

/-- The variables, the places of the numbers, and the length of the strings that a body can come
upon. -/
structure Extent where
  names : List String
  places : Finset Int
  length : Nat

namespace NumberSet

variable {e : Extent} {s t : NumberSet}

/-- A normal set with bounds and members from the extent. -/
structure Within (e : Extent) (s : NumberSet) : Prop extends s.Normal where
  lowerPlace : s.lower.place ∈ e.places
  upperPlace : s.upper.place ∈ e.places
  exactPlace : ∀ x ∈ s.exact, x.place ∈ e.places

/-- The places of the extent that a range covers. -/
def covered (e : Extent) (lower upper : Number) : Finset Int :=
  e.places.filter fun q => lower.place ≤ q ∧ q ≤ upper.place

/-- Ranges rank above all exact sets, and then by what they cover. -/
def rank (e : Extent) (s : NumberSet) : Nat :=
  if s.exact = [] then exactLimit + 1 + (covered e s.lower s.upper).card else s.exact.length

theorem rank_of_range (h : s.exact = []) :
    s.rank e = exactLimit + 1 + (covered e s.lower s.upper).card := if_pos h

theorem rank_of_exact (h : s.exact ≠ []) : s.rank e = s.exact.length := if_neg h

theorem rank_le (h : s.Normal) : s.rank e ≤ exactLimit + 1 + e.places.card := by
  unfold rank
  split
  · have : (covered e s.lower s.upper).card ≤ e.places.card := Finset.card_filter_le _ _
    omega
  · have := h.few
    omega

theorem rank_pos (s : NumberSet) : 0 < s.rank e := by
  unfold rank
  split
  · omega
  · exact List.length_pos_iff.mpr (by assumption)

theorem spanned_within {xs : List Number} (h : Increasing xs) (hne : xs ≠ [])
    (hxs : ∀ x ∈ xs, x.place ∈ e.places) (lower upper : Number) : (spanned xs lower upper).Within e := by
  refine ⟨normal_spanned h hne lower upper, ?_, ?_, ?_⟩
  · obtain ⟨x, rest, rfl⟩ := List.exists_cons_of_ne_nil hne
    exact hxs x List.mem_cons_self
  · obtain ⟨x, rest, rfl⟩ := List.exists_cons_of_ne_nil hne
    rw [spanned_upper]
    exact hxs _ (List.getLast_mem _)
  · intro x hx
    unfold spanned at hx
    split at hx
    · exact hxs x hx
    · simp at hx

theorem within_join (hs : s.Within e) (ht : t.Within e) : (s.join t).Within e := by
  by_cases h : s.exact = [] ∨ t.exact = []
  · have hnormal := normal_join hs.toNormal ht.toNormal
    rw [join_of_range hs.tidy ht.tidy h] at hnormal ⊢
    refine ⟨hnormal, ?_, ?_, by simp⟩
    · rcases lower_min s t with hmin | hmin <;> dsimp only <;> rw [hmin]
      · exact hs.lowerPlace
      · exact ht.lowerPlace
    · rcases upper_max s t with hmax | hmax <;> dsimp only <;> rw [hmax]
      · exact hs.upperPlace
      · exact ht.upperPlace
  · rw [not_or] at h
    rw [join_of_exact hs.tidy ht.tidy h.1 h.2]
    refine spanned_within (increasing_sortedNumbers _) (sortedNumbers_ne_nil hs.tidy h.1) ?_ _ _
    intro x hx
    rcases List.mem_append.mp (mem_of_mem_sortedNumbers hx) with hx | hx
    · exact hs.exactPlace x hx
    · exact ht.exactPlace x hx

/-- A range that is widened covers more. -/
theorem covered_lt (hs : s.Within e) (ht : t.Within e)
    (h : s.lower.min t.lower ≠ s.lower ∨ s.upper.max t.upper ≠ s.upper) :
    (covered e s.lower s.upper).card < (covered e (s.lower.min t.lower) (s.upper.max t.upper)).card := by
  have hordered := hs.ordered
  have hordered' := ht.ordered
  refine Finset.card_lt_card ((Finset.ssubset_iff_of_subset ?_).mpr ?_)
  · intro q hq
    simp only [covered, Finset.mem_filter] at hq ⊢
    rw [Number.min_eq, Number.max_eq]
    refine ⟨hq.1, ?_, ?_⟩ <;> split <;> omega
  · simp only [covered, Finset.mem_filter]
    rw [Number.min_eq, Number.max_eq] at *
    rcases h with h | h
    · have hlt : ¬ s.lower.place ≤ t.lower.place := fun hle => h (if_pos hle)
      refine ⟨t.lower.place, ⟨ht.lowerPlace, ?_, ?_⟩, by omega⟩
      · rw [if_neg hlt]
      · split <;> omega
    · have hlt : s.upper.place ≤ t.upper.place := by
        by_contra hle
        exact h (if_neg hle)
      have hne : s.upper.place ≠ t.upper.place := by
        intro heq
        rw [if_pos hlt] at h
        exact h (Number.place_injective heq).symm
      refine ⟨t.upper.place, ⟨ht.upperPlace, ?_, ?_⟩, by omega⟩
      · split <;> omega
      · rw [if_pos hlt]

theorem join_eq_or_rank_lt (hs : s.Within e) (ht : t.Within e) :
    s.join t = s ∨ s.rank e < (s.join t).rank e := by
  have hfew := hs.few
  rcases join_grows hs.tidy ht.tidy with h | ⟨hexact, hmore | hnone⟩ | ⟨hexact, hjoin, hwider⟩
  · exact Or.inl h
  · have hne : (s.join t).exact ≠ [] := List.ne_nil_of_length_pos (by omega)
    rw [rank_of_exact hexact, rank_of_exact hne]
    exact Or.inr hmore
  · rw [rank_of_exact hexact, rank_of_range hnone]
    omega
  · have := covered_lt hs ht hwider
    rw [hjoin, rank_of_range hexact, rank_of_range rfl]
    dsimp only
    omega

end NumberSet

namespace StringSet

variable {e : Extent} {s t : StringSet}

/-- A normal set of strings no longer than the extent allows. -/
structure Within (e : Extent) (s : StringSet) : Prop extends s.Normal where
  length : s.maxLen ≤ e.length

/-- Ranges rank above all exact sets, and then by their bounds. -/
def rank (e : Extent) (s : StringSet) : Nat :=
  if s.exact = [] then exactLimit + 1 + (e.length - s.minLen) + s.maxLen.toNat else s.exact.length

theorem rank_of_sized (h : s.exact = []) :
    s.rank e = exactLimit + 1 + (e.length - s.minLen) + s.maxLen.toNat := if_pos h

theorem rank_of_exact (h : s.exact ≠ []) : s.rank e = s.exact.length := if_neg h

theorem rank_le (h : s.Within e) : s.rank e ≤ exactLimit + 1 + 2 * e.length := by
  have := h.length
  have := h.few
  unfold rank
  split <;> omega

theorem rank_pos (s : StringSet) : 0 < s.rank e := by
  unfold rank
  split
  · omega
  · exact List.length_pos_iff.mpr (by assumption)

theorem Within.size_le (h : s.Within e) {x : ByteString} (hx : x ∈ s.exact) : x.size ≤ e.length := by
  have hmax := h.maxLen (List.ne_nil_of_mem hx)
  have hlength := h.length
  have := le_maxLength hx
  omega

theorem within_join (hs : s.Within e) (ht : t.Within e) : (s.join t).Within e := by
  refine ⟨normal_join hs.toNormal ht.toNormal, ?_⟩
  by_cases h : s.exact = [] ∨ t.exact = [] ∨ exactLimit < (Sorted.union s.exact t.exact).length
  · rw [join_of_sized hs.toNormal ht.toNormal h]
    exact Int.max_le.mpr ⟨hs.length, ht.length⟩
  · simp only [not_or, Nat.not_lt] at h
    rw [join_of_exact h.1 h.2.1 h.2.2]
    refine Int.ofNat_le.mpr (maxLength_le fun x hx => ?_)
    rcases Sorted.mem_union.mp hx with hx | hx
    · exact hs.size_le hx
    · exact ht.size_le hx

theorem join_eq_or_rank_lt (hs : s.Within e) (ht : t.Within e) :
    s.join t = s ∨ s.rank e < (s.join t).rank e := by
  have hfew := hs.few
  have hordered := hs.ordered
  have hlength := hs.length
  rcases join_grows hs.toNormal ht.toNormal with h | ⟨hexact, hmore | hnone⟩ | ⟨hexact, hjoin, hwider⟩
  · exact Or.inl h
  · have hne : (s.join t).exact ≠ [] := List.ne_nil_of_length_pos (by omega)
    rw [rank_of_exact hexact, rank_of_exact hne]
    exact Or.inr hmore
  · rw [rank_of_exact hexact, rank_of_sized hnone]
    omega
  · rw [hjoin, rank_of_sized hexact, rank_of_sized rfl]
    simp only [sized]
    omega

end StringSet

namespace Extent

def setBound (e : Extent) : Nat := exactLimit + 1 + e.places.card + 2 * e.length

/-- The rank of what is unknown, larger than that of any value within the extent. -/
def valueBound (e : Extent) : Nat := Constant.typeNames.length * e.setBound + 1

def snapshotBound (e : Extent) : Nat := e.names.length * (e.valueBound + 1)

end Extent

namespace Constant

variable {e : Extent}

def Within (e : Extent) : Constant → Prop
  | .number _ s => s.Within e
  | .string s => s.Within e
  | .none => True

def rank (e : Extent) : Constant → Nat
  | .number _ s => s.rank e
  | .string s => s.rank e
  | .none => 1

theorem rank_pos (c : Constant) : 0 < c.rank e := by
  cases c with
  | number _ s => exact s.rank_pos
  | string s => exact s.rank_pos
  | none => exact Nat.one_pos

theorem rank_le {c : Constant} (h : c.Within e) : c.rank e ≤ e.setBound := by
  unfold Extent.setBound
  cases c with
  | number _ s =>
    have := NumberSet.rank_le (e := e) h.toNormal
    simp only [rank]
    omega
  | string s =>
    have := StringSet.rank_le h
    simp only [rank]
    omega
  | none =>
    simp only [rank]
    omega

theorem within_join : Value.Joins (Within e) := by
  intro c d htype hc hd
  cases c <;> cases d <;> simp only [join]
  case number.number => exact NumberSet.within_join hc hd
  case string.string => exact StringSet.within_join hc hd
  all_goals exact hc

theorem join_eq_or_rank_lt {c d : Constant} (htype : c.typeName = d.typeName) (hc : c.Within e)
    (hd : d.Within e) : c.join d = c ∨ c.rank e < (c.join d).rank e := by
  cases c with
  | number t s =>
    cases d with
    | number t' s' => exact (NumberSet.join_eq_or_rank_lt hc hd).imp_left (congrArg (Constant.number t))
    | _ => exact Or.inl rfl
  | string s =>
    cases d with
    | string s' => exact (StringSet.join_eq_or_rank_lt hc hd).imp_left (congrArg Constant.string)
    | _ => exact Or.inl rfl
  | none => exact Or.inl rfl

end Constant

/-- The rank of a constant; nothing else is ranked. -/
def Object.rank (e : Extent) : Object → Nat
  | .constant c => c.rank e
  | _ => 0

namespace Value

variable {e : Extent} {a b : Value}

/-- A plain value whose constants lie within the extent. -/
abbrev Within (e : Extent) (v : Value) : Prop := v.Plain (Constant.Within e)

def rank (e : Extent) (v : Value) : Nat :=
  if v.hasUnknown then e.valueBound else Dict.weight (Object.rank e) v.keyed

theorem ranked_constants :
    Object.Ranked (fun o => ∃ c, o = .constant c ∧ c.Within e) (Constant.typeNames.map ("const:" ++ ·)) id
      (Object.rank e) e.setBound := by
  refine ⟨family_constants Constant.within_join, congrArg _, ?_, ?_, ?_⟩
  · rintro o ⟨c, rfl, -⟩
    exact c.rank_pos
  · rintro o ⟨c, rfl, hc⟩
    exact Constant.rank_le hc
  · rintro x y ⟨c, rfl, hc⟩ ⟨d, rfl, hd⟩ hkey
    rw [Object.mergeWith_constant merge hkey]
    exact (Constant.join_eq_or_rank_lt (Object.key_constant_inj hkey) hc hd).imp_left (congrArg Object.constant)

theorem rank_le (h : a.Within e) : a.rank e ≤ e.valueBound :=
  measure_le ranked_constants (Nat.lt_succ_self _) h

/-- A merge that changes a value raises its rank. -/
theorem merge_eq_or_rank_lt (ha : a.Within e) (hb : b.Within e) :
    a.merge b = a ∨ a.rank e < (a.merge b).rank e := by
  have hmerge := merge_map_eq_or_measure_lt ranked_constants (Nat.lt_succ_self _) ha hb
  rwa [List.map_id, List.map_id] at hmerge

end Value

namespace Snapshot

variable {e : Extent} {s t : Snapshot}

def Within (e : Extent) (s : Snapshot) : Prop :=
  Dict.Sorted s ∧ Dict.Each (fun n v => n ∈ e.names ∧ v.Within e) s

/-- The ranks of all values together, each counting one more. -/
def rank (e : Extent) (s : Snapshot) : Nat := Dict.weight (fun v => v.rank e + 1) s

theorem within_nil : Within e [] := ⟨Dict.sorted_nil, Dict.each_nil⟩

theorem Within.insert (h : s.Within e) {name : String} (hname : name ∈ e.names) {v : Value}
    (hv : v.Within e) : Within e (Dict.insert s name v) :=
  ⟨Dict.sorted_insert name v h.1, h.2.insert ⟨hname, hv⟩⟩

theorem Within.merge (hs : s.Within e) (ht : t.Within e) : (s.merge t).Within e :=
  ⟨Dict.sorted_mergeWith _ hs.1,
    hs.2.mergeWith (fun _ _ _ hu hv => ⟨hu.1, Value.plain_merge Constant.within_join hu.2 hv.2⟩) ht.2⟩

/-- A merge that changes a snapshot raises its rank. -/
theorem merge_eq_or_rank_lt (hs : s.Within e) (ht : t.Within e) :
    s.merge t = s ∨ s.rank e < (s.merge t).rank e :=
  Dict.mergeWith_eq_or_weight_lt (fun _ _ _ => Nat.succ_pos _)
    (fun _ _ _ hu hv => ⟨hu.1, Value.plain_merge Constant.within_join hu.2 hv.2⟩)
    (fun _ _ _ hu hv => (Value.merge_eq_or_rank_lt hu.2 hv.2).imp_right Nat.succ_lt_succ) hs.2 ht.2

theorem rank_le (hs : s.Within e) : s.rank e ≤ e.snapshotBound := by
  have hweight : s.rank e ≤ s.length * (e.valueBound + 1) :=
    Dict.weight_le fun x hx => Nat.succ_le_succ (Value.rank_le (hs.2 x hx).2)
  exact hweight.trans (Nat.mul_le_mul_right _ (hs.1.length_le fun x hx => (hs.2 x hx).1))

end Snapshot

namespace Literal

def number? : Literal → Option Number
  | .int n => some (.ofInt n)
  | .float x => some x
  | .bool b => some (if b then .one else .zero)
  | .none | .str _ => Option.none

def size : Literal → Nat
  | .str s => s.size
  | _ => 0

theorem within_value {e : Extent} (hneg : Number.negInf.place ∈ e.places)
    (hpos : Number.posInf.place ∈ e.places) (l : Literal)
    (hnumber : ∀ x, l.number? = some x → x.place ∈ e.places) (hsize : l.size ≤ e.length) :
    l.value.Within e := by
  have hset : ∀ x, l.number? = some x → (NumberSet.ofList [x]).Within e := by
    intro x hx
    refine ⟨NumberSet.normal_ofList_singleton x, ?_, ?_, ?_⟩ <;> rw [NumberSet.ofList_singleton] <;>
      cases x.isNaN <;> simp [hneg, hpos, hnumber x hx]
  cases l with
  | none => exact Value.plain_constant trivial
  | int n => exact Value.plain_constant (hset _ rfl)
  | float x => exact Value.plain_constant (hset _ rfl)
  | bool b => exact Value.plain_constant (hset _ rfl)
  | str s =>
    refine Value.plain_constant ⟨StringSet.normal_ofList_singleton s, ?_⟩
    rw [StringSet.ofList_singleton]
    simpa [StringSet.exactly, StringSet.maxLength, size] using hsize

end Literal

namespace Extent

def literal? : Stmt → Option Literal
  | .const _ l => some l
  | _ => none

def ofBody (body : List Stmt) : Extent where
  names := body.map Stmt.target
  places := {Number.negInf.place, Number.posInf.place} ∪
    ((body.filterMap literal?).filterMap Literal.number?).toFinset.image Number.place
  length := ((body.filterMap literal?).map Literal.size).sum

theorem within_ofBody {body : List Stmt} {t : String} {l : Literal} (h : .const t l ∈ body) :
    l.value.Within (ofBody body) := by
  have hl : l ∈ body.filterMap literal? := List.mem_filterMap.mpr ⟨.const t l, h, rfl⟩
  refine l.within_value ?_ ?_ ?_ ?_
  · simp [ofBody]
  · simp [ofBody]
  · intro x hx
    refine Finset.mem_union_right _ (Finset.mem_image_of_mem _ (List.mem_toFinset.mpr ?_))
    exact List.mem_filterMap.mpr ⟨l, hl, hx⟩
  · exact List.le_sum_of_mem (List.mem_map_of_mem hl)

end Extent

end AbstractFlow
