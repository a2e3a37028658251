import AbstractFlow.Proofs.Number.Exact
import AbstractFlow.Proofs.Value.Admission
import AbstractFlow.Value.Convert

/-! # Sums of elements

The sum of as many numbers of a set as a container may hold lies between products of its bounds. Each constant
among the elements gives such a range, as if all elements were of its type, and a sum is admitted if it lies
within the ranges of its own type. With exact products, every sum of elements lies there whose members lie between
bounds of constants that the sum takes its type from.
-/
namespace AbstractFlow

namespace Number

variable {x y : Number}

theorem key_min (x y : Number) : (x.min y).key = Min.min x.key y.key := by
  unfold min
  split_ifs <;> omega

theorem key_max (x y : Number) : (x.max y).key = Max.max x.key y.key := by
  unfold max
  split_ifs <;> omega

end Number

namespace NumberSet

variable {s t : NumberSet} {x : Number}

/-- A set that has all numbers between its bounds: a range, or zero alone. -/
structure Solid (s : NumberSet) : Prop where
  tidy : s.Tidy
  range : s.exact = [] ∨ s = ofList [.zero]

theorem Solid.contains_iff (h : s.Solid) (hx : x.isNaN = false) :
    s.contains x = true ↔ s.lower.key ≤ x.key ∧ x.key ≤ s.upper.key := by
  rcases h.range with hexact | rfl
  · exact contains_of_range h.tidy hexact hx
  · have hzero : ofList [.zero] = ⟨[.zero], .zero, .zero⟩ := by decide +kernel
    rw [hzero] at h ⊢
    rw [contains_of_exact h.tidy (List.cons_ne_nil _ _) hx]
    simp only [List.mem_singleton, exists_eq_left]
    omega

theorem solid_join (hs : s.Solid) (ht : t.Solid) : (s.join t).Solid := by
  refine ⟨tidy_join s t, ?_⟩
  by_cases hrange : s.exact = [] ∨ t.exact = []
  · rw [join_of_range hs.tidy ht.tidy hrange]
    exact Or.inl rfl
  · rw [not_or] at hrange
    rw [hs.range.resolve_left hrange.1, ht.range.resolve_left hrange.2]
    exact Or.inr (by decide +kernel)

theorem key_join (hs : s.Solid) (ht : t.Solid) :
    (s.join t).lower.key = min s.lower.key t.lower.key ∧ (s.join t).upper.key = max s.upper.key t.upper.key := by
  by_cases hrange : s.exact = [] ∨ t.exact = []
  · rw [join_of_range hs.tidy ht.tidy hrange]
    exact ⟨Number.key_min _ _, Number.key_max _ _⟩
  · rw [not_or] at hrange
    rw [hs.range.resolve_left hrange.1, ht.range.resolve_left hrange.2]
    exact ⟨by decide +kernel, by decide +kernel⟩

end NumberSet

namespace Value

/-! ## Merges of sets of numbers -/

section Hull

variable {v w : Value} {type : NumericType} {x : Number} {parts : List (NumericType × NumberSet)}

def ofPart (p : NumericType × NumberSet) : Value := [.constant (.number p.1 p.2)]

def typeKey (type : NumericType) : String := "const:" ++ type.name

theorem typeKey_injective : Function.Injective typeKey := by
  intro t t' h
  have hname : t.name = t'.name := Object.key_constant_inj (c := .number t .any) (d := .number t' .any) h
  cases t <;> cases t' <;> first | rfl | exact absurd hname (by decide)

/-- Whether a number lies between the lowest and the highest bound of the sets of a type. -/
structure Spans (parts : List (NumericType × NumberSet)) (type : NumericType) (x : Number) : Prop where
  above : ∃ p ∈ parts, p.1 = type ∧ p.2.lower.key ≤ x.key
  below : ∃ p ∈ parts, p.1 = type ∧ x.key ≤ p.2.upper.key

/-- The set of a type has the outermost bounds of that type. -/
structure Encloses (parts : List (NumericType × NumberSet)) (type : NumericType) (s : NumberSet) : Prop where
  solid : s.Solid
  lower : ∀ k, s.lower.key ≤ k ↔ ∃ p ∈ parts, p.1 = type ∧ p.2.lower.key ≤ k
  upper : ∀ k, k ≤ s.upper.key ↔ ∃ p ∈ parts, p.1 = type ∧ k ≤ p.2.upper.key

/-- Constants only, with one set of numbers for each type of the parts. -/
structure Gathers (v : Value) (parts : List (NumericType × NumberSet)) : Prop where
  sorted : Dict.Sorted v.keyed
  constants : ∀ o ∈ v, ∃ c, o = .constant c
  found : ∀ type,
    (∃ s, Dict.get? v.keyed (typeKey type) = some (.constant (.number type s)) ∧ Encloses parts type s) ∨
      (Dict.get? v.keyed (typeKey type) = none ∧ ∀ p ∈ parts, p.1 ≠ type)

theorem family_constant :
    Object.Family (fun o => ∃ c, o = .constant c) (Constant.typeNames.map ("const:" ++ ·)) := by
  have hfamily := family_constants (p := fun _ => True) fun _ _ _ _ _ => trivial
  simpa only [and_true] using hfamily

theorem get?_ofPart (p : NumericType × NumberSet) (type : NumericType) :
    Dict.get? (ofPart p).keyed (typeKey type) = if p.1 = type then some (.constant (.number p.1 p.2)) else none := by
  have hkey : (ofPart p).keyed = [(typeKey p.1, .constant (.number p.1 p.2))] := rfl
  rw [hkey]
  unfold Dict.get?
  simp only [typeKey_injective.eq_iff, Dict.get?]

theorem covers_single {p : NumericType × NumberSet} (hp : p.2.Solid) : Encloses [p] p.1 p.2 := by
  refine ⟨hp, fun k => ?_, fun k => ?_⟩ <;> simp

theorem gathers_ofPart {p : NumericType × NumberSet} (hp : p.2.Solid) : Gathers (ofPart p) [p] := by
  refine ⟨List.pairwise_singleton _ _, fun o ho => ⟨_, List.mem_singleton.mp ho⟩, fun type => ?_⟩
  rw [get?_ofPart]
  split
  · rename_i htype
    subst htype
    exact Or.inl ⟨p.2, rfl, covers_single hp⟩
  · rename_i htype
    exact Or.inr ⟨rfl, by simpa using htype⟩

theorem Encloses.join {p : NumericType × NumberSet} {s : NumberSet} (h : Encloses parts p.1 s) (hp : p.2.Solid) :
    Encloses (parts ++ [p]) p.1 (s.join p.2) := by
  obtain ⟨hlower, hupper⟩ := NumberSet.key_join h.solid hp
  refine ⟨NumberSet.solid_join h.solid hp, fun k => ?_, fun k => ?_⟩
  · rw [hlower, min_le_iff, h.lower]
    simp [List.mem_append, or_and_right, exists_or]
  · rw [hupper, le_max_iff, h.upper]
    simp [List.mem_append, or_and_right, exists_or]

theorem Encloses.first {p : NumericType × NumberSet} (hnone : ∀ q ∈ parts, q.1 ≠ p.1) (hp : p.2.Solid) :
    Encloses (parts ++ [p]) p.1 p.2 := by
  refine ⟨hp, fun k => ⟨fun hk => ⟨p, by simp, rfl, hk⟩, ?_⟩, fun k => ⟨fun hk => ⟨p, by simp, rfl, hk⟩, ?_⟩⟩
  all_goals
    rintro ⟨q, hq, htype, hk⟩
    rcases List.mem_append.mp hq with hq | hq
    · exact absurd htype (hnone q hq)
    · exact List.mem_singleton.mp hq ▸ hk

theorem Encloses.other {p : NumericType × NumberSet} {s : NumberSet} (h : Encloses parts type s) (hne : p.1 ≠ type) :
    Encloses (parts ++ [p]) type s := by
  refine ⟨h.solid, fun k => (h.lower k).trans ?_, fun k => (h.upper k).trans ?_⟩ <;>
    simp [or_and_right, exists_or, hne]

theorem Gathers.merge {p : NumericType × NumberSet} (h : Gathers v parts) (hne : v ≠ []) (hp : p.2.Solid) :
    Gathers (v.merge (ofPart p)) (parts ++ [p]) := by
  have hpart := gathers_ofPart hp
  have hkeyed := keyed_merge family_constant h.sorted h.constants hpart.constants hne (List.cons_ne_nil _ _)
  refine ⟨hkeyed ▸ Dict.sorted_mergeWith _ h.sorted, fun o ho => ?_, fun type => ?_⟩
  · have heach := Dict.Each.mergeWith (entry_mergeWith family_constant) (each_keyed h.constants) (each_keyed hpart.constants)
    rw [← hkeyed] at heach
    exact (heach (o.key, o) (mem_keyed.mpr ⟨ho, rfl⟩)).1
  · rw [hkeyed, Dict.get?_mergeWith _ _ h.sorted hpart.sorted, get?_ofPart]
    by_cases htype : p.1 = type
    · subst htype
      rw [if_pos rfl]
      left
      rcases h.found p.1 with ⟨s, hs, hencloses⟩ | ⟨hnone, hother⟩
      · have hjoined := Object.mergeWith_constant Value.merge (c := .number p.1 s) (d := .number p.1 p.2) rfl
        exact ⟨s.join p.2, by rw [hs, Dict.union, hjoined]; rfl, hencloses.join hp⟩
      · exact ⟨p.2, by rw [hnone]; rfl, .first hother hp⟩
    · rw [if_neg htype]
      rcases h.found type with ⟨s, hs, hencloses⟩ | ⟨hnone, hother⟩
      · exact Or.inl ⟨s, by rw [hs]; rfl, hencloses.other htype⟩
      · refine Or.inr ⟨by rw [hnone]; rfl, fun q hq => ?_⟩
        rcases List.mem_append.mp hq with hq | hq
        · exact hother q hq
        · exact List.mem_singleton.mp hq ▸ htype

theorem gathers_mergeAll (hne : parts ≠ []) (hparts : ∀ p ∈ parts, p.2.Solid) :
    mergeAll (parts.map ofPart) ≠ [] ∧ Gathers (mergeAll (parts.map ofPart)) parts := by
  induction parts using List.reverseRecOn with
  | nil => exact absurd rfl hne
  | append_singleton bs b ih =>
    have hb : b.2.Solid := hparts b (by simp)
    have hlast : mergeAll ((bs ++ [b]).map ofPart) = (mergeAll (bs.map ofPart)).merge (ofPart b) := by
      simp [mergeAll, List.foldl_append]
    rw [hlast]
    by_cases hbs : bs = []
    · subst hbs
      rw [show mergeAll ([].map ofPart) = [] from rfl, nil_merge]
      exact ⟨List.cons_ne_nil _ _, gathers_ofPart hb⟩
    · obtain ⟨hne', hgathers⟩ := ih hbs fun p hp => hparts p (List.mem_append_left _ hp)
      have hmerged := hgathers.merge hne' hb
      refine ⟨?_, hmerged⟩
      rintro hnil
      have hfound := hmerged.found b.1
      rw [hnil] at hfound
      rcases hfound with ⟨s, hs, -⟩ | ⟨-, hnone⟩
      · cases hs
      · exact hnone b (by simp) rfl

/-- A value describes the numbers that lie between the bounds of what it gathers. -/
theorem Gathers.describes_iff (h : Gathers v parts) :
    v.Describes (.number type x) ↔ x.isNaN = false ∧ Spans parts type x := by
  constructor
  · intro hx
    generalize hthing : Thing.number type x = thing at hx
    -- A type has one constant, so the set that has the number is the one that was gathered.
    cases hx with
    | unknown hunknown =>
      rw [hasUnknown_of_family family_constant h.constants] at hunknown
      cases hunknown
    | constant hmem hhas =>
      rename_i c
      subst hthing
      cases c with
      | number t s =>
        obtain ⟨rfl, hx⟩ := hhas
        have hget := Dict.get?_of_mem h.sorted (mem_keyed.mpr ⟨hmem, rfl⟩)
        rcases h.found t with ⟨s', hs', hencloses⟩ | ⟨hnone, -⟩
        · cases hs'.symm.trans hget
          have hnumber := NumberSet.isNaN_of_contains hx
          obtain ⟨hlower, hupper⟩ := (hencloses.solid.contains_iff hnumber).mp hx
          exact ⟨hnumber, (hencloses.lower _).mp hlower, (hencloses.upper _).mp hupper⟩
        · cases hnone.symm.trans hget
      | string => cases hhas
      | none => cases hhas
    | container => cases hthing
    | entity => cases hthing
  · rintro ⟨hnumber, habove, hbelow⟩
    rcases h.found type with ⟨s, hs, hencloses⟩ | ⟨-, hother⟩
    · refine .constant (mem_keyed.mp (Dict.mem_of_get? hs)).1 ⟨rfl, ?_⟩
      exact (hencloses.solid.contains_iff hnumber).mpr ⟨(hencloses.lower _).mpr habove, (hencloses.upper _).mpr hbelow⟩
    · obtain ⟨p, hp, htype, -⟩ := habove
      exact absurd htype (hother p hp)

end Hull

end Value

/-! ## Ranges of sums -/

/-- A sum is a float if it is one of floats, and else an integer. -/
def NumericType.summed (type : NumericType) : NumericType := if type = .float then .float else .int

/-- How the products of sizes and numbers are taken. The sum takes rounded ones. -/
structure Products (β : Type) where
  zero : β
  least : β
  greatest : β
  times : Nat → Number → β

namespace Products

def rounded : Products Number := ⟨.zero, .negInf, .posInf, fun n x => (Number.ofInt n).mul x⟩

def exact : Products (WithBot (WithTop Int)) := ⟨0, ⊥, ⊤, fun n x => n • x.quantity⟩

section Ranges

variable {β : Type} (p : Products β)

/-- The bounds of a sum of as many numbers of a set as a container may hold. -/
def bounds (s : NumberSet) (c : Container Value) : β × β :=
  (if Number.zero ≤ s.lower then p.times c.minSize s.lower
    else (c.maxSize.map (p.times · s.lower)).getD p.least,
  if s.upper ≤ Number.zero then p.times c.minSize s.upper
    else (c.maxSize.map (p.times · s.upper)).getD p.greatest)

/-- The type and the range of the sums that one of the elements' objects stands for. -/
def rangeOf (c : Container Value) : Object → NumericType × β × β
  | .constant (.number type s) => (type.summed, p.bounds s c)
  | _ => (.int, p.least, p.greatest)

/-- The types and ranges of the sums of an object's elements. -/
def ranges : Object → List (NumericType × β × β)
  | .container c =>
    if c.maxSize = some 0 || c.elem.isEmpty then [(.int, p.zero, p.zero)] else c.elem.map (p.rangeOf c)
  | _ => [(.int, p.least, p.greatest)]

def rangesOf (v : Value) : List (NumericType × β × β) :=
  if v.isEmpty then [(.int, p.least, p.greatest)] else v.flatMap p.ranges

variable [LT β] [DecidableLT β]

def inOrder (r : β × β) : β × β := if r.2 < r.1 then (r.2, r.1) else r

/-- What lies between the outermost ends of the ranges of its type. -/
structure Admits (v : Value) (type : NumericType) (q : β) : Prop where
  above : ∃ r ∈ p.rangesOf v, r.1 = type ∧ ¬ q < (inOrder r.2).1
  below : ∃ r ∈ p.rangesOf v, r.1 = type ∧ ¬ (inOrder r.2).2 < q

end Ranges

end Products

namespace Value

/-! ### With rounded products -/

section Rounded

theorem sumBounds_eq (s : NumberSet) (c : Container Value) : sumBounds s c = Products.rounded.bounds s c := by
  unfold sumBounds Products.bounds
  cases c.maxSize <;> rfl

/-- A set of a type has the numbers between the ends of a range. -/
structure Agrees (r : NumericType × Number × Number) (p : NumericType × NumberSet) : Prop where
  type : r.1 = p.1
  solid : p.2.Solid
  lower : ∀ x : Number, x.isNaN = false → (¬ x < (Products.inOrder r.2).1 ↔ p.2.lower.key ≤ x.key)
  upper : ∀ x : Number, x.isNaN = false → (¬ (Products.inOrder r.2).2 < x ↔ x.key ≤ p.2.upper.key)

/-- An end that is not a number leaves the range open. -/
theorem agrees_between (type : NumericType) (l u : Number) :
    Agrees (type, l, u) (type, (NumberSet.between l u).normalize) := by
  -- An end that is not a number is replaced by the infinity on its side.
  let r := Products.inOrder (l, u)
  let lower := if r.1.isNaN then Number.negInf else r.1
  let upper := if r.2.isNaN then Number.posInf else r.2
  have hlower : lower.isNaN = false := by
    simp only [lower]
    split <;> simp_all
  have hupper : upper.isNaN = false := by
    simp only [upper]
    split <;> simp_all
  have hbetween : NumberSet.between l u = ⟨[], lower, upper⟩ := by
    simp only [NumberSet.between, lower, upper, r, Products.inOrder]
    split <;> rfl
  have hset : (NumberSet.between l u).normalize = ⟨[], lower, upper⟩ := by
    rw [hbetween]
    exact NumberSet.normalize_of_exact_nil hlower hupper rfl
  refine ⟨rfl, ⟨NumberSet.tidy_normalize _, Or.inl (by rw [hset])⟩, fun x hx => ?_, fun x hx => ?_⟩
  · rw [hset]
    show ¬ x < r.1 ↔ lower.key ≤ x.key
    cases hr : r.1.isNaN with
    | true =>
      have hinf : lower = .negInf := by simp only [lower, hr, ↓reduceIte]
      rw [hinf]
      exact iff_of_true (fun h => by simp [h.2.1] at hr) (Number.key_between_infinities hx).1
    | false =>
      have hsame : lower = r.1 := by simp only [lower, hr, Bool.false_eq_true, ↓reduceIte]
      rw [hsame, Number.lt_iff hx hr]
      omega
  · rw [hset]
    show ¬ r.2 < x ↔ x.key ≤ upper.key
    cases hr : r.2.isNaN with
    | true =>
      have hinf : upper = .posInf := by simp only [upper, hr, ↓reduceIte]
      rw [hinf]
      exact iff_of_true (fun h => by simp [h.1] at hr) (Number.key_between_infinities hx).2
    | false =>
      have hsame : upper = r.2 := by simp only [upper, hr, Bool.false_eq_true, ↓reduceIte]
      rw [hsame, Number.lt_iff hr hx]
      omega

theorem agrees_zero : Agrees (.int, .zero, .zero) (.int, .ofList [.zero]) := by
  have hset : NumberSet.ofList [.zero] = ⟨[.zero], .zero, .zero⟩ := by decide +kernel
  have horder : Products.inOrder (Number.zero, Number.zero) = (.zero, .zero) := by decide
  refine ⟨rfl, ⟨NumberSet.tidy_normalize _, Or.inr rfl⟩, fun x hx => ?_, fun x hx => ?_⟩
  · show ¬ x < (Products.inOrder (Number.zero, Number.zero)).1 ↔ (NumberSet.ofList [.zero]).lower.key ≤ x.key
    rw [hset, horder, Number.lt_iff hx rfl]
    exact Int.not_lt
  · show ¬ (Products.inOrder (Number.zero, Number.zero)).2 < x ↔ x.key ≤ (NumberSet.ofList [.zero]).upper.key
    rw [hset, horder, Number.lt_iff rfl hx]
    exact Int.not_lt

theorem agrees_any : Agrees (.int, .negInf, .posInf) (.int, .any) := by
  have hset : (NumberSet.between .negInf .posInf).normalize = .any := by decide
  exact hset ▸ agrees_between .int .negInf .posInf

theorem exists_parts (o : Object) : ∃ parts, sumParts o = parts.map ofPart ∧
    List.Forall₂ Agrees (Products.rounded.ranges o) parts := by
  have hany : ∃ parts, [anyInt] = parts.map ofPart ∧
      List.Forall₂ Agrees [(NumericType.int, Number.negInf, Number.posInf)] parts :=
    ⟨[(.int, .any)], rfl, .cons agrees_any .nil⟩
  cases o with
  | container c =>
    by_cases hempty : (decide (c.maxSize = some 0) || c.elem.isEmpty) = true
    · simp only [sumParts, Products.ranges, hempty, ↓reduceIte]
      exact ⟨[(.int, .ofList [.zero])], rfl, .cons agrees_zero .nil⟩
    · simp only [sumParts, Products.ranges, if_neg hempty]
      clear hempty
      -- One part for each object among the elements: a range for numbers, any integer for all else.
      induction c.elem with
      | nil => exact ⟨[], rfl, .nil⟩
      | cons e rest ih =>
        obtain ⟨parts, heq, hagrees⟩ := ih
        cases e with
        | constant k =>
          cases k with
          | number type set =>
            refine ⟨(type.summed, (NumberSet.between (sumBounds set c).1 (sumBounds set c).2).normalize) :: parts,
              congrArg (List.cons _) heq, .cons ?_ hagrees⟩
            rw [sumBounds_eq]
            exact agrees_between _ _ _
          | _ => exact ⟨(.int, .any) :: parts, congrArg (List.cons _) heq, .cons agrees_any hagrees⟩
        | _ => exact ⟨(.int, .any) :: parts, congrArg (List.cons _) heq, .cons agrees_any hagrees⟩
  | _ => exact hany

theorem exists_allParts (v : Value) : ∃ parts, v.flatMap sumParts = parts.map ofPart ∧
    List.Forall₂ Agrees (v.flatMap Products.rounded.ranges) parts := by
  induction v with
  | nil => exact ⟨[], rfl, .nil⟩
  | cons o v ih =>
    obtain ⟨parts, heq, hagrees⟩ := exists_parts o
    obtain ⟨rest, heq', hagrees'⟩ := ih
    refine ⟨parts ++ rest, ?_, List.rel_append hagrees hagrees'⟩
    rw [List.flatMap_cons, heq, heq', List.map_append]

theorem forall_solid {ranges : List (NumericType × Number × Number)} {parts : List (NumericType × NumberSet)}
    (h : List.Forall₂ Agrees ranges parts) : ∀ p ∈ parts, p.2.Solid := by
  induction h with
  | nil => simp
  | cons hrp _ ih => exact List.forall_mem_cons.mpr ⟨hrp.solid, ih⟩

/-- Ranges admit what the sets that agree with them span. -/
theorem spans_iff {ranges : List (NumericType × Number × Number)} {parts : List (NumericType × NumberSet)}
    (h : List.Forall₂ Agrees ranges parts) {type : NumericType} {x : Number} (hx : x.isNaN = false) :
    Spans parts type x ↔ (∃ r ∈ ranges, r.1 = type ∧ ¬ x < (Products.inOrder r.2).1) ∧
      ∃ r ∈ ranges, r.1 = type ∧ ¬ (Products.inOrder r.2).2 < x := by
  have hlower : (∃ p ∈ parts, p.1 = type ∧ p.2.lower.key ≤ x.key) ↔
      ∃ r ∈ ranges, r.1 = type ∧ ¬ x < (Products.inOrder r.2).1 := by
    induction h with
    | nil => simp
    | cons hrp _ ih => simp only [List.mem_cons, exists_eq_or_imp, ih, hrp.type, hrp.lower x hx]
  have hupper : (∃ p ∈ parts, p.1 = type ∧ x.key ≤ p.2.upper.key) ↔
      ∃ r ∈ ranges, r.1 = type ∧ ¬ (Products.inOrder r.2).2 < x := by
    clear hlower
    induction h with
    | nil => simp
    | cons hrp _ ih => simp only [List.mem_cons, exists_eq_or_imp, ih, hrp.type, hrp.upper x hx]
  rw [← hlower, ← hupper]
  exact ⟨fun h => ⟨h.above, h.below⟩, fun h => ⟨h.1, h.2⟩⟩

theorem ranges_ne_nil {β : Type} (p : Products β) (o : Object) : p.ranges o ≠ [] := by
  cases o with
  | container c =>
    by_cases hempty : (decide (c.maxSize = some 0) || c.elem.isEmpty) = true
    · simp only [Products.ranges, hempty, ↓reduceIte]
      exact List.cons_ne_nil _ _
    · simp only [Products.ranges, if_neg hempty]
      simp only [Bool.or_eq_true, not_or, List.isEmpty_iff] at hempty
      simpa using hempty.2
  | _ => exact List.cons_ne_nil _ _

theorem exists_gathered (v : Value) : ∃ parts, Gathers (sum v) parts ∧
    List.Forall₂ Agrees (Products.rounded.rangesOf v) parts := by
  cases v with
  | nil =>
    have hany : (NumberSet.any).Solid := agrees_any.solid
    exact ⟨[(.int, .any)], gathers_ofPart (p := (.int, .any)) hany, .cons agrees_any .nil⟩
  | cons o v =>
    obtain ⟨parts, heq, hagrees⟩ := exists_allParts (o :: v)
    have hne : parts ≠ [] := by
      rintro rfl
      rw [List.forall₂_nil_right_iff, List.flatMap_cons, List.append_eq_nil_iff] at hagrees
      exact ranges_ne_nil _ o hagrees.1
    obtain ⟨hmerged, hgathers⟩ := gathers_mergeAll hne (forall_solid hagrees)
    have hsum : sum (o :: v) = mergeAll (parts.map ofPart) := by
      simp only [sum, collect, heq, List.isEmpty_iff, hmerged, ↓reduceIte]
    exact ⟨parts, hsum ▸ hgathers, hagrees⟩

/-- The sum has the numbers that lie between the ends of ranges with rounded products. -/
theorem sum_describes_iff (v : Value) (type : NumericType) (x : Number) :
    (sum v).Describes (.number type x) ↔ x.isNaN = false ∧ Products.rounded.Admits v type x := by
  obtain ⟨parts, hgathers, hagrees⟩ := exists_gathered v
  rw [hgathers.describes_iff]
  refine and_congr_right fun hx => ?_
  rw [spans_iff hagrees hx]
  exact ⟨fun h => ⟨h.1, h.2⟩, fun h => ⟨h.above, h.below⟩⟩

end Rounded

/-! ### With exact products -/

section Exact

variable {c : Container Value} {s : NumberSet} {n : Nat}

theorem quantity_le_iff {x y : Number} (hx : x.isNaN = false) (hy : y.isNaN = false) :
    x.quantity ≤ y.quantity ↔ x.key ≤ y.key := by
  rw [← not_lt, ← not_lt, Number.quantity_lt_iff hy hx]

theorem zero_le_quantity_iff {x : Number} (hx : x.isNaN = false) : Number.zero ≤ x ↔ 0 ≤ x.quantity := by
  rw [Number.le_iff rfl hx, ← quantity_le_iff rfl hx]
  rfl

theorem quantity_le_zero_iff {x : Number} (hx : x.isNaN = false) : x ≤ Number.zero ↔ x.quantity ≤ 0 := by
  rw [Number.le_iff hx rfl, ← quantity_le_iff hx rfl]
  rfl

theorem bounds_nsmul (hs : s.Tidy) (hn : c.Fits n) :
    (Products.exact.bounds s c).1 ≤ n • s.lower.quantity ∧ n • s.upper.quantity ≤ (Products.exact.bounds s c).2 := by
  obtain ⟨hmin, hmax⟩ := hn
  constructor
  · simp only [Products.bounds, zero_le_quantity_iff hs.lower]
    split
    · rename_i hpos
      exact nsmul_le_nsmul_left hpos hmin
    · rename_i hneg
      cases hsize : c.maxSize with
      | none => exact bot_le
      | some m => exact nsmul_le_nsmul_left_of_nonpos (not_le.mp hneg).le (hmax m hsize)
  · simp only [Products.bounds, quantity_le_zero_iff hs.upper]
    split
    · rename_i hneg
      exact nsmul_le_nsmul_left_of_nonpos hneg hmin
    · rename_i hpos
      cases hsize : c.maxSize with
      | none => exact le_top
      | some m => exact nsmul_le_nsmul_left (not_le.mp hpos).le (hmax m hsize)

/-- Constants only, all of them of numbers. -/
def Numeric (elem : Value) : Prop := ∀ o ∈ elem, ∃ t s, o = .constant (.number t s)

/-- The sets of numbers among the elements, with the types of their sums. -/
def summands (elem : Value) : List (NumericType × NumberSet) :=
  elem.filterMap fun
    | .constant (.number type s) => some (type.summed, s)
    | _ => none

/-- A sum is a float if a float is added, and else an integer. -/
def sumType (xs : List (NumericType × Number)) : NumericType := if xs.any (·.1 = .float) then .float else .int

/-- The sum without rounding. -/
def total (xs : List (NumericType × Number)) : WithBot (WithTop Int) := (xs.map (·.2.quantity)).sum

variable {v elem : Value} {type : NumericType} {q : WithBot (WithTop Int)} {xs : List (NumericType × Number)}

theorem mem_summands {p : NumericType × NumberSet} :
    p ∈ summands elem ↔ ∃ t s, .constant (.number t s) ∈ elem ∧ (t.summed, s) = p := by
  unfold summands
  rw [List.mem_filterMap]
  constructor
  · rintro ⟨o, ho, hp⟩
    split at hp
    · exact ⟨_, _, ho, Option.some.inj hp⟩
    · cases hp
  · rintro ⟨t, s, hmem, hp⟩
    exact ⟨_, hmem, congrArg some hp⟩

theorem tidy_summands (h : elem.Canonical) {p : NumericType × NumberSet} (hp : p ∈ summands elem) : p.2.Tidy := by
  obtain ⟨t, s, hmem, rfl⟩ := mem_summands.mp hp
  exact h.constant hmem

/-- Each number among the elements is between the bounds of its own set. -/
theorem spans_summands (h : elem.Canonical) (hnumbers : elem.Numeric) {x : Number}
    (hx : elem.Describes (.number type x)) : x.isNaN = false ∧ Spans (summands elem) type.summed x := by
  generalize hthing : Thing.number type x = thing at hx
  cases hx with
  | unknown hunknown =>
    obtain ⟨o, ho, hunknown⟩ := List.any_eq_true.mp hunknown
    obtain ⟨t, s, rfl⟩ := hnumbers o ho
    cases hunknown
  | constant hmem hhas =>
    obtain ⟨t, s, hc⟩ := hnumbers _ hmem
    cases hc
    subst hthing
    obtain ⟨rfl, hx⟩ := hhas
    have hbounds := NumberSet.bounds_of_contains (h.constant hmem) hx
    have hp := mem_summands.mpr ⟨_, _, hmem, rfl⟩
    exact ⟨NumberSet.isNaN_of_contains hx, ⟨⟨_, hp, rfl, hbounds.1⟩, ⟨_, hp, rfl, hbounds.2⟩⟩⟩
  | container => cases hthing
  | entity => cases hthing

theorem mem_rangesOf (hc : .container c ∈ v) (hsize : c.maxSize ≠ some 0) {p : NumericType × NumberSet}
    (hp : p ∈ summands c.elem) : (p.1, Products.exact.bounds p.2 c) ∈ Products.exact.rangesOf v := by
  obtain ⟨t, s, hmem, rfl⟩ := mem_summands.mp hp
  have hempty : ¬ (decide (c.maxSize = some 0) || c.elem.isEmpty) = true := by
    simp [hsize, List.ne_nil_of_mem hmem]
  unfold Products.rangesOf
  rw [if_neg (by simpa using List.ne_nil_of_mem hc)]
  refine List.mem_flatMap.mpr ⟨_, hc, ?_⟩
  simp only [Products.ranges, if_neg hempty]
  exact List.mem_map.mpr ⟨_, hmem, rfl⟩

theorem admits_of_ranges (hlower : ∃ r ∈ Products.exact.rangesOf v, r.1 = type ∧ r.2.1 ≤ q)
    (hupper : ∃ r ∈ Products.exact.rangesOf v, r.1 = type ∧ q ≤ r.2.2) : Products.exact.Admits v type q := by
  obtain ⟨r, hr, htype, hle⟩ := hlower
  obtain ⟨r', hr', htype', hle'⟩ := hupper
  refine ⟨⟨r, hr, htype, not_lt.mpr ?_⟩, ⟨r', hr', htype', not_lt.mpr ?_⟩⟩
  · unfold Products.inOrder
    split
    · rename_i hswapped
      exact hswapped.le.trans hle
    · exact hle
  · unfold Products.inOrder
    split
    · rename_i hswapped
      exact hle'.trans hswapped.le
    · exact hle'

/-- Numbers between the bounds of sets of one type add up to what lies between products of the outermost bounds. -/
theorem total_between (h : elem.Canonical) (hne : xs ≠ [])
    (hxs : ∀ m ∈ xs, m.2.isNaN = false ∧ Spans (summands elem) type m.2) :
    (∃ p ∈ summands elem, p.1 = type ∧ xs.length • p.2.lower.quantity ≤ total xs) ∧
      ∃ p ∈ summands elem, p.1 = type ∧ total xs ≤ xs.length • p.2.upper.quantity := by
  have hlength : xs.length = (xs.map (·.2.quantity)).length := (List.length_map _).symm
  have hfinite : {p ∈ summands elem | p.1 = type}.Finite := (List.finite_toSet _).subset fun p hp => hp.1
  obtain ⟨m, hm⟩ := List.exists_mem_of_ne_nil xs hne
  obtain ⟨p₀, hp₀, htype₀, -⟩ := (hxs m hm).2.above
  constructor
  · obtain ⟨p, ⟨hp, htype⟩, hleast⟩ :=
      Set.exists_min_image _ (fun p => p.2.lower.key) hfinite ⟨p₀, hp₀, htype₀⟩
    refine ⟨p, hp, htype, ?_⟩
    rw [hlength]
    refine List.card_nsmul_le_sum _ _ fun y hy => ?_
    obtain ⟨m, hm, rfl⟩ := List.mem_map.mp hy
    obtain ⟨p', hp', htype', hle⟩ := (hxs m hm).2.above
    exact (quantity_le_iff (tidy_summands h hp).lower (hxs m hm).1).mpr ((hleast p' ⟨hp', htype'⟩).trans hle)
  · obtain ⟨p, ⟨hp, htype⟩, hgreatest⟩ :=
      Set.exists_max_image _ (fun p => p.2.upper.key) hfinite ⟨p₀, hp₀, htype₀⟩
    refine ⟨p, hp, htype, ?_⟩
    rw [hlength]
    refine List.sum_le_card_nsmul _ _ fun y hy => ?_
    obtain ⟨m, hm, rfl⟩ := List.mem_map.mp hy
    obtain ⟨p', hp', htype', hle⟩ := (hxs m hm).2.below
    exact (quantity_le_iff (hxs m hm).1 (tidy_summands h hp).upper).mpr (hle.trans (hgreatest p' ⟨hp', htype'⟩))

/-- The sum of no elements is among the sums if the container is empty or has integers. -/
theorem admits_zero (hv : v.Canonical) (hc : .container c ∈ v) (hsize : c.Fits 0)
    (hnone : c.maxSize = some 0 ∨ c.elem = [] ∨ ∃ p ∈ summands c.elem, p.1 = .int) :
    Products.exact.Admits v .int 0 := by
  by_cases hempty : (decide (c.maxSize = some 0) || c.elem.isEmpty) = true
  · have hrange : (NumericType.int, (0 : WithBot (WithTop Int)), (0 : WithBot (WithTop Int))) ∈
        Products.exact.rangesOf v := by
      unfold Products.rangesOf
      rw [if_neg (by simpa using List.ne_nil_of_mem hc)]
      refine List.mem_flatMap.mpr ⟨_, hc, ?_⟩
      simp only [Products.ranges, hempty, ↓reduceIte]
      exact List.mem_singleton_self _
    exact admits_of_ranges ⟨_, hrange, rfl, le_rfl⟩ ⟨_, hrange, rfl, le_rfl⟩
  · simp only [Bool.or_eq_true, decide_eq_true_eq, List.isEmpty_iff, not_or] at hempty
    obtain ⟨p, hp, htype⟩ := (hnone.resolve_left hempty.1).resolve_left hempty.2
    have hbounds := bounds_nsmul (tidy_summands (hv.container hc).1 hp) hsize
    simp only [zero_nsmul] at hbounds
    have hrange := mem_rangesOf hc hempty.1 hp
    exact admits_of_ranges ⟨_, hrange, htype, hbounds.1⟩ ⟨_, hrange, htype, hbounds.2⟩

/-- The sum has the numbers that lie between the ends of ranges with rounded products. Between those with exact
products lie the sums of numbers among the elements, provided that those of another type than the sum lie between
bounds of constants of its type, and that the sum of none is not one of floats only. -/
theorem sum_admits (hv : v.Canonical) (hc : .container c ∈ v) (hnumbers : c.elem.Numeric)
    (hsize : c.Fits xs.length) (hxs : ∀ m ∈ xs, c.elem.Describes (.number m.1 m.2))
    (hmixed : ∀ m ∈ xs, m.1.summed = sumType xs ∨ Spans (summands c.elem) (sumType xs) m.2)
    (hnone : xs = [] → c.maxSize = some 0 ∨ c.elem = [] ∨ ∃ p ∈ summands c.elem, p.1 = .int) :
    (∀ (type : NumericType) (x : Number), (sum v).Describes (.number type x) ↔
      x.isNaN = false ∧ Products.rounded.Admits v type x) ∧
    Products.exact.Admits v (sumType xs) (total xs) := by
  refine ⟨sum_describes_iff v, ?_⟩
  -- The range of no constant need have the sum of none; otherwise some constant has the outermost bound.
  by_cases hempty : xs = []
  · subst hempty
    exact admits_zero hv hc hsize (hnone rfl)
  · have helem := (hv.container hc).1
    have hspans : ∀ m ∈ xs, m.2.isNaN = false ∧ Spans (summands c.elem) (sumType xs) m.2 := by
      intro m hm
      obtain ⟨hnumber, hown⟩ := spans_summands helem hnumbers (hxs m hm)
      exact ⟨hnumber, (hmixed m hm).elim (fun htype => htype ▸ hown) id⟩
    have hpositive : c.maxSize ≠ some 0 := by
      intro hzero
      exact hempty (List.eq_nil_of_length_eq_zero (Nat.le_zero.mp (hsize.2 0 hzero)))
    obtain ⟨⟨p, hp, htype, hle⟩, ⟨p', hp', htype', hle'⟩⟩ := total_between helem hempty hspans
    have hlower := (bounds_nsmul (tidy_summands helem hp) hsize).1
    have hupper := (bounds_nsmul (tidy_summands helem hp') hsize).2
    exact admits_of_ranges ⟨_, mem_rangesOf hc hpositive hp, htype, hlower.trans hle⟩
      ⟨_, mem_rangesOf hc hpositive hp', htype', hle'.trans hupper⟩

/-- Floats from one to three, and the integer two. -/
def floatsAndTwo : Value :=
  [.constant (.number .float (.ofList [.one, .ofInt 3])), .constant (.number .int (.ofList [.ofInt 2]))]

theorem forall_floatsAndTwo {P : Object → Prop} (hfloat : P (.constant (.number .float (.ofList [.one, .ofInt 3]))))
    (hint : P (.constant (.number .int (.ofList [.ofInt 2])))) : ∀ o ∈ floatsAndTwo, P o :=
  List.forall_mem_cons.mpr ⟨hfloat, List.forall_mem_singleton.mpr hint⟩

theorem canonical_floatsAndTwo : floatsAndTwo.Canonical := by
  have hsorted : Dict.Sorted floatsAndTwo.keyed := List.pairwise_pair.mpr (by decide)
  refine everywhere_iff.mpr ⟨⟨hsorted, by decide, fun h => absurd h (by decide), ?_⟩, ?_⟩
  · exact forall_floatsAndTwo (NumberSet.tidy_normalize _) (NumberSet.tidy_normalize _)
  · exact forall_floatsAndTwo (Object.inside_constant _) (Object.inside_constant _)

theorem sum_admits_floatsAndTwo :
    (∀ (type : NumericType) (x : Number),
      (sum [.container (.ofBounds .list floatsAndTwo [] 0 2)]).Describes (.number type x) ↔
        x.isNaN = false ∧ Products.rounded.Admits [.container (.ofBounds .list floatsAndTwo [] 0 2)] type x) ∧
    Products.exact.Admits [.container (.ofBounds .list floatsAndTwo [] 0 2)] .float
      (total [(.int, .ofInt 2), (.float, .one)]) := by
  have hcanonical : Canonical [.container (.ofBounds .list floatsAndTwo [] 0 2)] :=
    canonical_object (Container.tidy_normalize _)
      (Object.inside_container.mpr ⟨canonical_floatsAndTwo, canonical_nil⟩)
  have hfloat : .constant (.number .float (.ofList [.one, .ofInt 3])) ∈ floatsAndTwo := List.mem_cons_self
  have hint : .constant (.number .int (.ofList [.ofInt 2])) ∈ floatsAndTwo :=
    List.mem_cons_of_mem _ (List.mem_singleton_self _)
  have hfits : (Container.ofBounds .list floatsAndTwo [] 0 2).Fits
      [(NumericType.int, Number.ofInt 2), (.float, .one)].length :=
    ⟨Nat.zero_le _, fun k hk => (Option.some.inj hk).le⟩
  have hxs : ∀ m ∈ [(NumericType.int, Number.ofInt 2), (.float, .one)], floatsAndTwo.Describes (.number m.1 m.2) :=
    List.forall_mem_cons.mpr ⟨.constant hint ⟨rfl, by decide +kernel⟩,
      List.forall_mem_singleton.mpr (.constant hfloat ⟨rfl, by decide +kernel⟩)⟩
  have hspans : Spans (summands floatsAndTwo) .float (.ofInt 2) :=
    ⟨⟨_, mem_summands.mpr ⟨_, _, hfloat, rfl⟩, rfl, by decide +kernel⟩,
      ⟨_, mem_summands.mpr ⟨_, _, hfloat, rfl⟩, rfl, by decide +kernel⟩⟩
  have hmixed : ∀ m ∈ [(NumericType.int, Number.ofInt 2), (.float, .one)],
      m.1.summed = .float ∨ Spans (summands floatsAndTwo) .float m.2 :=
    List.forall_mem_cons.mpr ⟨Or.inr hspans, List.forall_mem_singleton.mpr (Or.inl rfl)⟩
  have hnumbers : floatsAndTwo.Numeric := forall_floatsAndTwo ⟨_, _, rfl⟩ ⟨_, _, rfl⟩
  exact sum_admits hcanonical (List.mem_singleton_self _) hnumbers hfits hxs hmixed
    (fun h => absurd h (List.cons_ne_nil _ _))

/-- What iterating over a container yields. -/
def yielded (c : Container Value) : Value := if c.type = .dict then c.key else c.elem

/-- The dictionary of the number five under the key one. -/
def fiveUnderOne : Container Value := .ofBounds .dict (ints [5]) (ints [1]) 1 1

theorem rangesOf_fiveUnderOne : Products.exact.rangesOf [.container fiveUnderOne] =
    [(.int, (Number.ofInt 5).quantity, (Number.ofInt 5).quantity)] := by
  have hset : NumberSet.ofList ([5].map Number.ofInt) = ⟨[.ofInt 5], .ofInt 5, .ofInt 5⟩ := by decide +kernel
  have hbounds : Products.exact.bounds ⟨[.ofInt 5], .ofInt 5, .ofInt 5⟩ fiveUnderOne =
      ((Number.ofInt 5).quantity, (Number.ofInt 5).quantity) := by
    have hlower : Number.zero ≤ .ofInt 5 := by decide +kernel
    have hupper : ¬ Number.ofInt 5 ≤ .zero := by decide +kernel
    simp only [Products.bounds, hlower, hupper, ↓reduceIte]
    exact congrArg₂ Prod.mk (one_nsmul _) (one_nsmul _)
  rw [← hbounds, ← hset]
  rfl

/-- The sum of a dictionary's only key is not admitted if its only value is another number. -/
theorem not_sum_admits :
    (¬ ∀ (v : Value) (c : Container Value) (xs : List (NumericType × Number)), v.Canonical →
      (∀ o ∈ v, ∃ d, o = .container d ∧ (yielded d).Numeric) → .container c ∈ v → c.Fits xs.length →
      (∀ m ∈ xs, (yielded c).Describes (.number m.1 m.2)) → Products.exact.Admits v (sumType xs) (total xs)) ∧
    ¬ (sum [.container fiveUnderOne]).Describes (.number .int (.ofInt 1)) := by
  refine ⟨fun h => ?_, fun h => ?_⟩
  · have hcanonical : Canonical [.container fiveUnderOne] :=
      Built.canonical (.container .dict 1 1 (.number .int _) (.number .int _))
    have hnumeric : (yielded fiveUnderOne).Numeric := List.forall_mem_singleton.mpr ⟨_, _, rfl⟩
    have hone : (yielded fiveUnderOne).Describes (.number .int (.ofInt 1)) :=
      .constant (List.mem_singleton_self _) ⟨rfl, by decide +kernel⟩
    obtain ⟨⟨r, hr, -, hlower⟩, -⟩ := h _ fiveUnderOne [(.int, .ofInt 1)] hcanonical
      (List.forall_mem_singleton.mpr ⟨_, rfl, hnumeric⟩) (List.mem_singleton_self _)
      ⟨Nat.le_refl 1, fun k hk => (Option.some.inj hk).le⟩ (List.forall_mem_singleton.mpr hone)
    rw [rangesOf_fiveUnderOne, List.mem_singleton] at hr
    subst hr
    -- The range is five alone, and one is below it.
    refine hlower ?_
    simp only [Products.inOrder, lt_irrefl, ↓reduceIte, total, List.map_cons, List.map_nil, List.sum_singleton]
    exact (Number.quantity_lt_iff (by decide +kernel) (by decide +kernel)).mpr (by decide +kernel)
  · have hsum : sum [.container fiveUnderOne] =
        ofPart (.int, (NumberSet.between (.ofInt 5) (.ofInt 5)).normalize) := rfl
    have hsolid := (agrees_between .int (.ofInt 5) (.ofInt 5)).solid
    rw [hsum, (gathers_ofPart hsolid).describes_iff] at h
    obtain ⟨-, ⟨p, hp, -, hle⟩, -⟩ := h
    rw [List.mem_singleton.mp hp] at hle
    exact absurd hle (by decide +kernel)

end Exact

end Value

end AbstractFlow
