import AbstractFlow.Analysis.Run
import AbstractFlow.Proofs.Number.Exact
import AbstractFlow.Proofs.Value.NumberSet
import AbstractFlow.Proofs.Value.Plain
import AbstractFlow.Proofs.Value.StringSet
import AbstractFlow.Value.Compare

/-! # Concrete values

What a variable holds while a program runs, when that is true, and how two of them compare. A constant
admits the concrete values of its type that its set contains, and what is unknown admits everything.
Joins and merges admit all that the joined values admit.
-/
namespace AbstractFlow

/-- What a variable of a running program holds; all that no literal can be is `other`. -/
inductive Concrete where
  | none
  | bool (b : Bool)
  | int (n : Int)
  | float (x : Number)
  | str (s : ByteString)
  | other
deriving DecidableEq

def Literal.concrete : Literal → Concrete
  | .none => .none
  | .int n => .int n
  | .float x => .float x
  | .str s => .str s
  | .bool b => .bool b

/-- Literals that can be told from all others: finite numbers, and integers of at most 53 bits. -/
def Literal.isExact : Literal → Bool
  | .int n => n.natAbs ≤ Number.exactBound
  | .float x => x.isFinite
  | _ => true

namespace Comparator

/-- Whether a comparison asks for the identity of two values. -/
def isIdentity : Comparator → Bool
  | .is | .isNot => true
  | _ => false

/-- What a comparison says of two elements of a linear order. -/
def Holds {α : Type} [LT α] (op : Comparator) (x y : α) : Prop :=
  match op with
  | .eq | .is => x = y
  | .ne | .isNot => x ≠ y
  | .lt => x < y
  | .le => ¬ y < x
  | .gt => y < x
  | .ge => ¬ x < y

end Comparator

namespace Concrete

def isNumber : Concrete → Bool
  | .bool _ | .int _ | .float _ => true
  | _ => false

/-- The exact value of a number other than NaN. -/
def quantity? : Concrete → Option (WithBot (WithTop Int))
  | .bool b => some ((b.toInt * Number.unit : Int) : WithTop Int)
  | .int n => some ((n * Number.unit : Int) : WithTop Int)
  | .float x => if x.isNaN then Option.none else some x.quantity
  | _ => Option.none

/-- The truth of a concrete value. Nothing is known of the truth of `other`. -/
def Truth : Concrete → Bool → Prop
  | .none, r => r = false
  | .bool b, r => r = b
  | .int n, r => r = true ↔ n ≠ 0
  | .float x, r => r = true ↔ x.magnitude ≠ 0
  | .str s, r => r = true ↔ s.size ≠ 0
  | .other, _ => True

/-- The results that a comparison can have. Numbers of all types are compared by their exact values,
and NaN differs from everything; values of different types are not equal, and to ask for their order
has no result. Values that are equal need not be identical, except for `None`. -/
inductive Compares : Comparator → Concrete → Concrete → Bool → Prop where
  | numbers {op a b p q r} (hop : op.isIdentity = false) (ha : quantity? a = some p)
      (hb : quantity? b = some q) (h : r = true ↔ op.Holds p q) : Compares op a b r
  | nan {op a b} (hop : op.isIdentity = false) (ha : a.isNumber = true) (hb : b.isNumber = true)
      (h : a.quantity? = Option.none ∨ b.quantity? = Option.none) : Compares op a b (op == .ne)
  | strings {op s t r} (hop : op.isIdentity = false) (h : r = true ↔ op.Holds s t) :
      Compares op (.str s) (.str t) r
  | equal {a b r} (hab : (a.isNumber && b.isNumber) = false) (h : r = true ↔ a = b) : Compares .eq a b r
  | differ {a b r} (hab : (a.isNumber && b.isNumber) = false) (h : r = true ↔ a ≠ b) : Compares .ne a b r
  | same {a b r} (h : r = true → a = b) (hnone : a = .none → b = .none → r = true) : Compares .is a b r
  | distinct {a b r} (h : r = false → a = b) (hnone : a = .none → b = .none → r = false) :
      Compares .isNot a b r
  | other {op a b r} (h : a = .other ∨ b = .other) : Compares op a b r

end Concrete

namespace NumberSet

variable {x : Number} {xs : List Number} {s t : NumberSet}

theorem isNaN_of_contains (h : s.contains x = true) : x.isNaN = false := by
  unfold contains at h
  split at h
  · simp only [Bool.and_eq_true, decide_eq_true_eq] at h
    exact h.1.2.1
  · obtain ⟨y, -, hy⟩ := List.any_eq_true.mp h
    simp only [Number.same, Bool.and_eq_true, Bool.not_eq_true'] at hy
    exact hy.1.2

theorem contains_of_range (hs : s.Tidy) (h : s.exact = []) (hx : x.isNaN = false) :
    s.contains x = true ↔ s.lower.key ≤ x.key ∧ x.key ≤ s.upper.key := by
  simp [contains, h, Number.le_iff hs.lower hx, Number.le_iff hx hs.upper]

theorem contains_of_exact (hs : s.Tidy) (h : s.exact ≠ []) (hx : x.isNaN = false) :
    s.contains x = true ↔ ∃ y ∈ s.exact, y.key = x.key := by
  have hempty : s.exact.isEmpty = false := by simpa using h
  rw [contains, hempty, if_neg Bool.false_ne_true, List.any_eq_true]
  constructor
  · rintro ⟨y, hy, hsame⟩
    exact ⟨y, hy, (Number.same_iff (hs.increasing.numbers y hy) hx).mp hsame⟩
  · rintro ⟨y, hy, hkey⟩
    exact ⟨y, hy, (Number.same_iff (hs.increasing.numbers y hy) hx).mpr hkey⟩

theorem bounds_of_contains (hs : s.Tidy) (h : s.contains x = true) :
    s.lower.key ≤ x.key ∧ x.key ≤ s.upper.key := by
  have hx := isNaN_of_contains h
  by_cases hexact : s.exact = []
  · exact (contains_of_range hs hexact hx).mp h
  · obtain ⟨y, hy, hkey⟩ := (contains_of_exact hs hexact hx).mp h
    have := hs.inside hy
    omega

theorem contains_spanned (hxs : Increasing xs) (hx : x.isNaN = false) (h : ∃ y ∈ xs, y.key = x.key)
    (lower upper : Number) : (spanned xs lower upper).contains x = true := by
  obtain ⟨y, hy, hkey⟩ := h
  have hne := List.ne_nil_of_mem hy
  have htidy := (normal_spanned hxs hne lower upper).tidy
  by_cases hfew : xs.length ≤ exactLimit
  · have hexact : (spanned xs lower upper).exact = xs := if_pos hfew
    exact (contains_of_exact htidy (by rwa [hexact]) hx).mpr ⟨y, hexact.symm ▸ hy, hkey⟩
  · have hexact : (spanned xs lower upper).exact = [] := if_neg hfew
    rw [contains_of_range htidy hexact hx, ← hkey]
    obtain ⟨z, rest, rfl⟩ := List.exists_cons_of_ne_nil hne
    refine ⟨hxs.head_le hy, ?_⟩
    rw [spanned_upper]
    exact hxs.le_last hy

theorem contains_join (hs : s.Tidy) (ht : t.Tidy) (h : s.contains x = true ∨ t.contains x = true) :
    (s.join t).contains x = true := by
  have hx : x.isNaN = false := h.elim isNaN_of_contains isNaN_of_contains
  -- Where one side has no exact members the join is a range, and only the bounds count.
  by_cases hrange : s.exact = [] ∨ t.exact = []
  · have htidy := tidy_join s t
    rw [join_of_range hs ht hrange] at htidy ⊢
    rw [contains_of_range htidy rfl hx]
    have hmin := key_min_le s.lower t.lower
    have hmax := le_key_max s.upper t.upper
    dsimp only
    rcases h with h | h
    · have := bounds_of_contains hs h
      omega
    · have := bounds_of_contains ht h
      omega
  · rw [not_or] at hrange
    rw [join_of_exact hs ht hrange.1 hrange.2]
    refine contains_spanned (increasing_sortedNumbers _) hx ?_ _ _
    have hmember : ∃ y ∈ s.exact ++ t.exact, y.isNaN = false ∧ y.key = x.key := by
      rcases h with h | h
      · obtain ⟨y, hy, hkey⟩ := (contains_of_exact hs hrange.1 hx).mp h
        exact ⟨y, List.mem_append_left _ hy, hs.increasing.numbers y hy, hkey⟩
      · obtain ⟨y, hy, hkey⟩ := (contains_of_exact ht hrange.2 hx).mp h
        exact ⟨y, List.mem_append_right _ hy, ht.increasing.numbers y hy, hkey⟩
    obtain ⟨y, hy, hnumber, hkey⟩ := hmember
    obtain ⟨z, hz, hzy⟩ := exists_key_of_mem hnumber hy
    exact ⟨z, hz, hzy.trans hkey⟩

theorem contains_ofList_singleton (hx : x.isNaN = false) : (ofList [x]).contains x = true := by
  rw [ofList_singleton, if_neg (by simp [hx])]
  simp [contains, Number.same, hx]

end NumberSet

namespace StringSet

variable {x : ByteString} {s t : StringSet}

theorem contains_of_exact (h : s.exact ≠ []) : s.contains x = true ↔ x ∈ s.exact := by
  simp [contains, h]

theorem lengths_of_contains (hs : s.Tidy) (h : s.contains x = true) :
    s.minLen ≤ x.size ∧ (0 ≤ s.maxLen → (x.size : Int) ≤ s.maxLen) := by
  by_cases hexact : s.exact = []
  · simp only [contains, hexact, List.isEmpty_nil, Bool.not_true, Bool.false_eq_true, ↓reduceIte, Bool.and_eq_true,
      Bool.or_eq_true, decide_eq_true_eq] at h
    obtain ⟨⟨⟨hmin, hmax⟩, -⟩, -⟩ := h
    exact ⟨hmin, by omega⟩
  · have hx := (contains_of_exact hexact).mp h
    rw [hs.alone hexact]
    exact ⟨minLength_le hx, fun _ => Int.ofNat_le.mpr (le_maxLength hx)⟩

theorem startsWith_of_contains (h : s.contains x = true) (hne : s.effectiveBeginnings ≠ []) :
    ∃ b ∈ s.effectiveBeginnings, x.startsWith b = true := by
  unfold effectiveBeginnings at hne ⊢
  by_cases hexact : s.exact = []
  · simp only [hexact, List.isEmpty_nil, ↓reduceIte] at hne ⊢
    simp only [contains, hexact, List.isEmpty_nil, Bool.not_true, Bool.false_eq_true, ↓reduceIte, Bool.and_eq_true,
      Bool.or_eq_true, List.isEmpty_iff, hne, false_or, List.any_eq_true] at h
    exact h.1.2
  · simp only [List.isEmpty_iff, hexact, ↓reduceIte]
    exact ⟨x, (contains_of_exact hexact).mp h, List.isPrefixOf_iff_prefix.mpr List.prefix_rfl⟩

theorem endsWith_of_contains (h : s.contains x = true) (hne : s.effectiveEndings ≠ []) :
    ∃ e ∈ s.effectiveEndings, x.endsWith e = true := by
  unfold effectiveEndings at hne ⊢
  by_cases hexact : s.exact = []
  · simp only [hexact, List.isEmpty_nil, ↓reduceIte] at hne ⊢
    simp only [contains, hexact, List.isEmpty_nil, Bool.not_true, Bool.false_eq_true, ↓reduceIte, Bool.and_eq_true,
      Bool.or_eq_true, List.isEmpty_iff, hne, false_or, List.any_eq_true] at h
    exact h.2
  · simp only [List.isEmpty_iff, hexact, ↓reduceIte]
    exact ⟨x, (contains_of_exact hexact).mp h, List.isSuffixOf_iff_suffix.mpr List.suffix_rfl⟩

theorem contains_affixed {bs es : List ByteString} {minLen : Nat} {maxLen : Int} (hmin : minLen ≤ x.size)
    (hmax : 0 ≤ maxLen → (x.size : Int) ≤ maxLen) (hbs : bs ≠ [] → ∃ b ∈ bs, x.startsWith b = true)
    (hes : es ≠ [] → ∃ e ∈ es, x.endsWith e = true) : (affixed bs es minLen maxLen).contains x = true := by
  have hcapped : ∀ (f : ByteString → Bool) (as : List ByteString), (as ≠ [] → ∃ a ∈ as, f a = true) →
      ((capped as).isEmpty || (capped as).any f) = true := by
    intro f as h
    unfold capped
    split
    · by_cases has : as = []
      · simp [has]
      · simpa [has] using h has
    · rfl
  have hlength : (decide (minLen ≤ x.size) && (decide (maxLen < 0) || decide ((x.size : Int) ≤ maxLen))) = true := by
    simp only [Bool.and_eq_true, Bool.or_eq_true, decide_eq_true_eq]
    omega
  simp only [contains, affixed, List.isEmpty_nil, Bool.not_true, Bool.false_eq_true, ↓reduceIte,
    hcapped _ _ hbs, hcapped _ _ hes, Bool.and_true]
  exact hlength

/-- A union of constraints is met by what meets one of them. -/
theorem exists_of_bothOrNone {f : ByteString → Bool} {as bs : List ByteString}
    (h : (as ≠ [] → ∃ a ∈ as, f a = true) ∨ (bs ≠ [] → ∃ b ∈ bs, f b = true))
    (hne : bothOrNone as bs ≠ []) : ∃ a ∈ bothOrNone as bs, f a = true := by
  unfold bothOrNone at hne ⊢
  split at hne
  · exact absurd rfl hne
  · rename_i hboth
    simp only [Bool.or_eq_true, List.isEmpty_iff, not_or] at hboth
    rw [if_neg (by simp [hboth])]
    rcases h with h | h
    · obtain ⟨a, ha, hf⟩ := h hboth.1
      exact ⟨a, Sorted.mem_union.mpr (Or.inl ha), hf⟩
    · obtain ⟨b, hb, hf⟩ := h hboth.2
      exact ⟨b, Sorted.mem_union.mpr (Or.inr hb), hf⟩

theorem contains_join (hs : s.Tidy) (ht : t.Tidy) (h : s.contains x = true ∨ t.contains x = true) :
    (s.join t).contains x = true := by
  by_cases hsized : s.exact = [] ∨ t.exact = [] ∨ exactLimit < (Sorted.union s.exact t.exact).length
  · rw [join_of_affixed hs ht hsized]
    have hlengths := h.imp (lengths_of_contains hs) (lengths_of_contains ht)
    refine contains_affixed (by omega) (fun hmax => ?_)
      (exists_of_bothOrNone (h.imp startsWith_of_contains startsWith_of_contains))
      (exists_of_bothOrNone (h.imp endsWith_of_contains endsWith_of_contains))
    unfold looserBound at hmax ⊢
    split at hmax <;> omega
  · simp only [not_or, Nat.not_lt] at hsized
    rw [join_of_exact hsized.1 hsized.2.1 hsized.2.2]
    have hx : x ∈ Sorted.union s.exact t.exact := by
      rw [Sorted.mem_union]
      exact h.imp (contains_of_exact hsized.1).mp (contains_of_exact hsized.2.1).mp
    exact (contains_of_exact (List.ne_nil_of_mem hx)).mpr hx

end StringSet

namespace Constant

/-- A constant whose set is normal. -/
def Normal : Constant → Prop
  | .number _ s => s.Normal
  | .string s => s.Normal
  | .none => True

theorem normal_join : Value.Joins Normal := by
  intro c d htype hc hd
  cases c <;> cases d <;> simp only [join]
  case number.number => exact NumberSet.normal_join hc hd
  case string.string => exact StringSet.normal_join hc hd
  all_goals exact hc

/-- The concrete values of the constant's type that its set contains. An integer is one of them only if
it is a number exactly. -/
def Admits : Constant → Concrete → Prop
  | .number .bool s, .bool b => s.contains (if b then .one else .zero) = true
  | .number .int s, .int n => n.natAbs ≤ Number.exactBound ∧ s.contains (.ofInt n) = true
  | .number .float s, .float x => s.contains x = true
  | .string s, .str x => s.contains x = true
  | .none, .none => True
  | _, _ => False

/-- Constants of one type are of one shape. -/
theorem shape_of_typeName {c d : Constant} (h : c.typeName = d.typeName) :
    (∃ t s s', c = .number t s ∧ d = .number t s') ∨ (∃ s s', c = .string s ∧ d = .string s') ∨
      (c = .none ∧ d = .none) := by
  rcases c with ⟨_ | _ | _, s⟩ | s | _ <;> rcases d with ⟨_ | _ | _, s'⟩ | s' | _ <;>
    simp [typeName, NumericType.name] at h ⊢

theorem admits_join {c d : Constant} {a : Concrete} (htype : c.typeName = d.typeName) (hc : c.Normal)
    (hd : d.Normal) (h : c.Admits a ∨ d.Admits a) : (c.join d).Admits a := by
  obtain ⟨t, s, s', rfl, rfl⟩ | ⟨s, s', rfl, rfl⟩ | ⟨rfl, rfl⟩ := shape_of_typeName htype
  · have hjoin : ∀ x, s.contains x = true ∨ s'.contains x = true → (s.join s').contains x = true :=
      fun x => NumberSet.contains_join hc.tidy hd.tidy
    cases t <;> cases a <;> simp only [Admits, join, or_self] at h ⊢
    · exact ⟨h.elim And.left And.left, hjoin _ (h.imp And.right And.right)⟩
    · exact hjoin _ h
    · exact hjoin _ h
  · cases a <;> simp only [Admits, join, or_self] at h ⊢
    exact StringSet.contains_join hc.tidy hd.tidy h
  · exact h.elim id id

end Constant

namespace Value

variable {v w : Value} {a : Concrete}

/-- What is unknown admits everything, and other values what their constants admit. -/
def Admits (v : Value) (a : Concrete) : Prop := v.hasUnknown = true ∨ ∃ c, .constant c ∈ v ∧ c.Admits a

theorem admits_unknown : unknown.Admits a := Or.inl rfl

theorem not_admits_nil : ¬ Admits [] a := by
  rintro (h | ⟨c, hc, -⟩)
  · simp [hasUnknown] at h
  · simp at hc

/-- A merge of constants has a constant for each of them that admits as much. -/
theorem exists_constant_merge (hv : Dict.Sorted v.keyed) (hw : Dict.Sorted w.keyed)
    (hcv : ∀ o ∈ v, ∃ c, o = .constant c ∧ c.Normal) (hcw : ∀ o ∈ w, ∃ c, o = .constant c ∧ c.Normal)
    (hne : v ≠ []) (hne' : w ≠ []) {c : Constant} (hc : .constant c ∈ v ∨ .constant c ∈ w)
    (h : c.Admits a) : ∃ d, .constant d ∈ v.merge w ∧ d.Admits a := by
  have hnormal : c.Normal := by
    obtain ⟨d, hd, hnormal⟩ := hc.elim (hcv _) (hcw _)
    exact Object.constant.inj hd ▸ hnormal
  have hfind : ∀ u : Value, Dict.Sorted u.keyed → .constant c ∈ u →
      Dict.get? u.keyed (Object.constant c).key = some (.constant c) :=
    fun u hu hmem => Dict.get?_of_mem hu (mem_keyed.mpr ⟨hmem, rfl⟩)
  have hget := Dict.get?_mergeWith (Object.mergeWith merge) (Object.constant c).key hv hw
  rw [← keyed_merge (family_constants Constant.normal_join) hv hcv hcw hne hne'] at hget
  -- The other value has no constant of the same type, or one that is joined with it.
  have hfound : ∃ d, Dict.get? (v.merge w).keyed (Object.constant c).key = some (.constant d) ∧ d.Admits a := by
    rcases hc with hc | hc
    · rw [hfind v hv hc] at hget
      cases hq : Dict.get? w.keyed (Object.constant c).key with
      | none => exact ⟨c, by rw [hget, hq]; rfl, h⟩
      | some o =>
        obtain ⟨⟨d, rfl, hd⟩, hkey⟩ := (each_keyed hcw).get? hq
        refine ⟨c.join d, ?_, Constant.admits_join (Object.key_constant_inj hkey.symm) hnormal hd (Or.inl h)⟩
        rw [hget, hq, Dict.union, Object.mergeWith_constant merge hkey.symm]
    · rw [hfind w hw hc] at hget
      cases hq : Dict.get? v.keyed (Object.constant c).key with
      | none => exact ⟨c, by rw [hget, hq]; rfl, h⟩
      | some o =>
        obtain ⟨⟨d, rfl, hd⟩, hkey⟩ := (each_keyed hcv).get? hq
        refine ⟨d.join c, ?_, Constant.admits_join (Object.key_constant_inj hkey) hd hnormal (Or.inr h)⟩
        rw [hget, hq, Dict.union, Object.mergeWith_constant merge hkey]
  obtain ⟨d, hd, hadmits⟩ := hfound
  exact ⟨d, (mem_keyed.mp (Dict.mem_of_get? hd)).1, hadmits⟩

/-- A merge admits all that either value admits. -/
theorem admits_merge (hv : v.Plain Constant.Normal) (hw : w.Plain Constant.Normal)
    (h : v.Admits a ∨ w.Admits a) : (v.merge w).Admits a := by
  by_cases hne : v = []
  · rw [hne, nil_merge]
    exact h.resolve_left (hne ▸ not_admits_nil)
  by_cases hne' : w = []
  · rw [hne', merge_nil]
    exact h.resolve_right (hne' ▸ not_admits_nil)
  by_cases hunknown : v.hasUnknown = true ∨ w.hasUnknown = true
  · rw [merge_of_unknown (family_constants Constant.normal_join) hv hw hne hne' hunknown]
    exact admits_unknown
  · rw [not_or] at hunknown
    obtain ⟨hsv, hcv⟩ := hv.resolve_left fun h => hunknown.1 (h ▸ hasUnknown_unknown)
    obtain ⟨hsw, hcw⟩ := hw.resolve_left fun h => hunknown.2 (h ▸ hasUnknown_unknown)
    have hc : ∃ c : Constant, (.constant c ∈ v ∨ .constant c ∈ w) ∧ c.Admits a := by
      rcases h with h | h
      · obtain ⟨c, hc, hadmits⟩ := h.resolve_left hunknown.1
        exact ⟨c, Or.inl hc, hadmits⟩
      · obtain ⟨c, hc, hadmits⟩ := h.resolve_left hunknown.2
        exact ⟨c, Or.inr hc, hadmits⟩
    obtain ⟨c, hc, hadmits⟩ := hc
    exact Or.inr (exists_constant_merge hsv hsw hcv hcw hne hne' hc hadmits)

end Value

namespace Literal

theorem plain_value (l : Literal) : l.value.Plain Constant.Normal := by
  cases l with
  | none => exact Value.plain_constant trivial
  | int n => exact Value.plain_constant (NumberSet.normal_ofList_singleton _)
  | float x => exact Value.plain_constant (NumberSet.normal_ofList_singleton _)
  | str s => exact Value.plain_constant (StringSet.normal_ofList_singleton _)
  | bool b => exact Value.plain_constant (NumberSet.normal_ofList_singleton _)

theorem isNaN_of_isFinite {x : Number} (h : x.isFinite = true) : x.isNaN = false := by
  simp only [Number.isFinite, Number.isNaN, decide_eq_true_eq, decide_eq_false_iff_not, not_lt] at h ⊢
  exact Nat.le_of_lt h

theorem admits_value {l : Literal} (h : l.isExact = true) : l.value.Admits l.concrete := by
  cases l with
  | none => exact Or.inr ⟨.none, List.mem_singleton_self _, trivial⟩
  | int n =>
    have hbound : n.natAbs ≤ Number.exactBound := of_decide_eq_true h
    have hnumber := isNaN_of_isFinite (Number.quantity_ofInt hbound).1
    exact Or.inr ⟨_, List.mem_singleton_self _, hbound, NumberSet.contains_ofList_singleton hnumber⟩
  | float x =>
    exact Or.inr ⟨_, List.mem_singleton_self _, NumberSet.contains_ofList_singleton (isNaN_of_isFinite h)⟩
  | str s =>
    have hs : (StringSet.ofList [s]).contains s = true := by
      rw [StringSet.ofList_singleton]
      simp [StringSet.contains, StringSet.exactly]
    exact Or.inr ⟨_, List.mem_singleton_self _, hs⟩
  | bool b =>
    have hnumber : (if b then Number.one else .zero).isNaN = false := by cases b <;> rfl
    exact Or.inr ⟨_, List.mem_singleton_self _, NumberSet.contains_ofList_singleton hnumber⟩

end Literal

end AbstractFlow
