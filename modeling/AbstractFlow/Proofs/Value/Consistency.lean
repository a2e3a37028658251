import AbstractFlow.Proofs.Value.Answers
import AbstractFlow.Proofs.Value.Composition
import AbstractFlow.Proofs.Value.Narrowing

/-! # Comparisons agree with each other

Swapping the sides of a comparison mirrors its operator, and negating a verdict negates the operator: for
two objects, and since the common answer of all pairs depends on the set of the answers only, for values of
any number of objects. Only the negation of an order needs the bounds of numbers to be in order.
-/
namespace AbstractFlow

namespace Comparator

/-- The comparison that says the same with its sides swapped. -/
def swapped : Comparator → Comparator
  | .lt => .gt
  | .le => .ge
  | .gt => .lt
  | .ge => .le
  | op => op

/-- The comparison that says the opposite. -/
def negated : Comparator → Comparator
  | .eq => .ne
  | .ne => .eq
  | .lt => .ge
  | .le => .gt
  | .gt => .le
  | .ge => .lt
  | .is => .isNot
  | .isNot => .is

end Comparator

namespace Verdict

variable {vs ws : List Verdict}

@[simp] theorem not_not (v : Verdict) : v.not.not = v := by
  cases v <;> rfl

@[simp] theorem not_inj {v w : Verdict} : v.not = w.not ↔ v = w := by
  cases v <;> cases w <;> decide

theorem eq_not_comm {v w : Verdict} : v = w.not ↔ w = v.not := by
  rw [← not_inj, not_not, eq_comm]

theorem unanimous_of_differ {v w : Verdict} (hv : v ∈ vs) (hw : w ∈ vs) (h : v ≠ w) : unanimous vs = .maybe := by
  rcases unanimous_eq hv with hmaybe | hcommon
  · exact hmaybe
  · rcases unanimous_eq hw with hmaybe | hcommon'
    · exact hmaybe
    · exact absurd (hcommon.symm.trans hcommon') h

/-- The common answer of all depends only on which answers there are. -/
theorem unanimous_congr (h : ∀ v, v ∈ vs ↔ v ∈ ws) : unanimous vs = unanimous ws := by
  cases vs with
  | nil => rw [List.eq_nil_iff_forall_not_mem.mpr fun v hv => List.not_mem_nil ((h v).mpr hv)]
  | cons v rest =>
    have hv := (h v).mp List.mem_cons_self
    by_cases hall : ∀ w ∈ ws, w = v
    · rw [unanimous_of_forall (List.ne_nil_of_mem hv) hall,
        unanimous_of_forall (List.cons_ne_nil v rest) fun w hw => hall w ((h w).mp hw)]
    · push Not at hall
      obtain ⟨w, hw, hne⟩ := hall
      rw [unanimous_of_differ hv hw hne.symm, unanimous_of_differ List.mem_cons_self ((h w).mpr hw) hne.symm]

theorem unanimous_map_not (vs : List Verdict) : unanimous (vs.map Verdict.not) = (unanimous vs).not := by
  cases vs with
  | nil => rfl
  | cons v rest =>
    have hall : (rest.map Verdict.not).all (· == v.not) = rest.all (· == v) := by
      rw [List.all_map, Bool.eq_iff_iff]
      simp
    simp only [List.map_cons, unanimous, hall]
    split <;> rfl

end Verdict

open Verdict

theorem Number.same_comm (x y : Number) : x.same y = y.same x := by
  rw [same, same, Bool.and_comm (!x.isNaN), Bool.beq_comm]

namespace NumberSet

variable {s t : NumberSet}

theorem equals_comm (s t : NumberSet) : s.equals t = t.equals s := by
  unfold equals
  rw [Bool.or_comm]
  cases s.single? with
  | none => cases t.single? <;> rfl
  | some x =>
    cases t.single? with
    | none => rfl
    | some y => exact congrArg Verdict.ofBool (Number.same_comm x y)

theorem compare_swapped (op : Comparator) (s t : NumberSet) : t.compare op.swapped s = s.compare op t := by
  cases op with
  | eq => exact equals_comm t s
  | ne => exact congrArg Verdict.not (equals_comm t s)
  | _ => rfl

section Order

variable (hs : s.lower ≤ s.upper) (ht : t.lower ≤ t.upper)
include hs ht

/-- Bounds that decide an order one way cannot also decide it the other way. -/
theorem atMost_eq_not_less : t.atMost s = (s.less t).not := by
  have hordered : t.upper ≤ s.lower → ¬ s.upper < t.lower := by
    intro hle hlt
    have := hs.2.2
    have := ht.2.2
    have := hle.2.2
    have := hlt.2.2
    omega
  unfold atMost less
  by_cases hle : t.upper ≤ s.lower
  · rw [if_pos hle, if_neg (hordered hle), if_pos hle]
    rfl
  · rw [if_neg hle, if_neg hle]
    split <;> rfl

theorem compare_negated (op : Comparator) : s.compare op.negated t = (s.compare op t).not := by
  have hless := atMost_eq_not_less hs ht
  have hgreater := atMost_eq_not_less ht hs
  cases op with
  | eq => rfl
  | ne => exact (Verdict.not_not _).symm
  | lt => exact hless
  | le => exact eq_not_comm.mp hgreater
  | gt => exact hgreater
  | ge => exact eq_not_comm.mp hless
  | is | isNot => rfl

end Order

end NumberSet

namespace StringSet

variable {s t : StringSet}

theorem exists_common_comm (hs : s.exact ≠ []) (ht : t.exact ≠ []) :
    s.exact.any t.contains = t.exact.any s.contains := by
  rw [Bool.eq_iff_iff, List.any_eq_true, List.any_eq_true]
  simp only [contains_of_exact hs, contains_of_exact ht, and_comm]

theorem equals_comm (s t : StringSet) : s.equals t = t.equals s := by
  have hsets : (if s.exact.isEmpty || t.exact.isEmpty then Verdict.maybe
        else if s.exact.any t.contains then .maybe else .no) =
      if t.exact.isEmpty || s.exact.isEmpty then .maybe else if t.exact.any s.contains then .maybe else .no := by
    rw [Bool.or_comm]
    split
    · rfl
    · rename_i hne
      simp only [Bool.or_eq_true, List.isEmpty_iff, not_or] at hne
      rw [exists_common_comm hne.2 hne.1]
  unfold equals
  cases s.single? with
  | none => cases t.single? <;> exact hsets
  | some x =>
    cases t.single? with
    | none => exact hsets
    | some y => exact congrArg Verdict.ofBool Bool.beq_comm

theorem decided_comm (s t : StringSet) (question : ByteString → ByteString → Bool) :
    s.decided t question = t.decided s fun x y => question y x := by
  unfold decided
  cases s.single? <;> cases t.single? <;> rfl

theorem decided_not (s t : StringSet) (question : ByteString → ByteString → Bool) :
    (s.decided t fun x y => !question x y) = (s.decided t question).not := by
  unfold decided
  cases s.single? with
  | none => rfl
  | some x =>
    cases t.single? with
    | none => rfl
    | some y => cases h : question x y <;> simp [h] <;> rfl

theorem compare_swapped (op : Comparator) (s t : StringSet) : t.compare op.swapped s = s.compare op t := by
  cases op with
  | eq => exact equals_comm t s
  | ne => exact congrArg Verdict.not (equals_comm t s)
  | lt | le | gt | ge => exact decided_comm _ _ _
  | is | isNot => rfl

theorem compare_negated (op : Comparator) (s t : StringSet) : s.compare op.negated t = (s.compare op t).not := by
  cases op with
  | eq => rfl
  | ne => exact (Verdict.not_not _).symm
  | lt => exact decided_not s t fun x y => x < y
  | le => exact eq_not_comm.mp (decided_not s t fun x y => y < x)
  | gt => exact decided_not s t fun x y => y < x
  | ge => exact eq_not_comm.mp (decided_not s t fun x y => x < y)
  | is | isNot => rfl

end StringSet

namespace Constant

variable {c d : Constant}

def Ordered : Constant → Prop
  | .number _ s => s.lower ≤ s.upper
  | _ => True

theorem compare_swapped (op : Comparator) (c d : Constant) : d.compare op.swapped c = c.compare op d := by
  cases c with
  | number t s =>
    cases d with
    | number t' s' =>
      rw [compare_numbers, compare_numbers]
      exact NumberSet.compare_swapped op s s'
    | _ => cases op <;> rfl
  | string s =>
    cases d with
    | string s' =>
      rw [compare_strings, compare_strings]
      exact StringSet.compare_swapped op s s'
    | _ => cases op <;> rfl
  | none => cases d <;> cases op <;> rfl

theorem compare_negated (op : Comparator) (hc : c.Ordered) (hd : d.Ordered) :
    c.compare op.negated d = (c.compare op d).not := by
  cases c with
  | number t s =>
    cases d with
    | number t' s' =>
      rw [compare_numbers, compare_numbers]
      exact NumberSet.compare_negated hc hd op
    | _ => cases op <;> rfl
  | string s =>
    cases d with
    | string s' =>
      rw [compare_strings, compare_strings]
      exact StringSet.compare_negated op s s'
    | _ => cases op <;> rfl
  | none => cases d <;> cases op <;> rfl

end Constant

namespace Object

theorem compare_swapped (op : Comparator) (x y : Object) : y.compare op.swapped x = x.compare op y := by
  cases x <;> cases y <;> first | rfl | exact Constant.compare_swapped _ _ _

end Object

namespace Value

variable {a b : Value}

def Ordered (v : Value) : Prop := ∀ c, .constant c ∈ v → c.Ordered

theorem WellFormed.ordered {v : Value} (h : v.WellFormed) : v.Ordered := by
  intro c hc
  have hproper : c.WellFormed := (comprises_singleton.mp (h.object hc)).2.1
  cases c with
  | number => exact hproper.ordered
  | _ => trivial

theorem mem_pairs {op : Comparator} {v : Verdict} :
    v ∈ a.flatMap (fun x => b.map fun y => x.compare op y) ↔ ∃ x ∈ a, ∃ y ∈ b, x.compare op y = v := by
  simp only [List.mem_flatMap, List.mem_map]

theorem compare_swapped (op : Comparator) (a b : Value) : compare op.swapped.text b a = compare op.text a b := by
  rw [compare_text, compare_text]
  apply unanimous_congr
  intro v
  rw [mem_pairs, mem_pairs]
  constructor
  · rintro ⟨y, hy, x, hx, rfl⟩
    exact ⟨x, hx, y, hy, (Object.compare_swapped op x y).symm⟩
  · rintro ⟨x, hx, y, hy, rfl⟩
    exact ⟨y, hy, x, hx, Object.compare_swapped op x y⟩

theorem compare_negated (op : Comparator) (ha : a.Ordered) (hb : b.Ordered) :
    compare op.negated.text a b = (compare op.text a b).not := by
  have hobjects : ∀ x ∈ a, ∀ y ∈ b, x.compare op.negated y = (x.compare op y).not := by
    intro x hx y hy
    cases x with
    | constant c =>
      cases y with
      | constant d => exact Constant.compare_negated op (ha c hx) (hb d hy)
      | _ => rfl
    | _ => rfl
  rw [compare_text, compare_text, compareBy, compareBy, ← unanimous_map_not]
  apply unanimous_congr
  intro v
  rw [List.mem_map, mem_pairs]
  constructor
  · rintro ⟨x, hx, y, hy, rfl⟩
    exact ⟨_, mem_pairs.mpr ⟨x, hx, y, hy, rfl⟩, (hobjects x hx y hy).symm⟩
  · rintro ⟨w, hw, rfl⟩
    obtain ⟨x, hx, y, hy, rfl⟩ := mem_pairs.mp hw
    exact ⟨x, hx, y, hy, hobjects x hx y hy⟩

/-- The operators agree with each other, whatever objects the values have. -/
theorem comparisons_agree (ha : a.Ordered) (hb : b.Ordered) :
    compare "!=" a b = (compare "==" a b).not ∧ compare "is not" a b = (compare "is" a b).not ∧
      compare "==" a b = compare "==" b a ∧ compare "is" a b = compare "is" b a ∧
      compare ">" a b = compare "<" b a ∧ compare ">=" a b = compare "<=" b a ∧
      compare ">=" a b = (compare "<" a b).not :=
  ⟨compare_negated .eq ha hb, compare_negated .is ha hb, compare_swapped .eq b a, compare_swapped .is b a,
    compare_swapped .lt b a, compare_swapped .le b a, compare_negated .lt ha hb⟩

theorem comparisons_agree_range :
    let a := ints [3, 5]
    let b := intRange .negInf (.ofInt 2)
    a.Ordered ∧ b.Ordered ∧ compare "<" a b = .no ∧ compare ">=" a b = .yes := by
  intro a b
  have ha : a.Ordered := (closed_wellFormed.numbers _ _).ordered
  have hb : b.Ordered := (closed_wellFormed.range _ _ _).ordered
  have hless : compare "<" a b = .no := by decide +kernel
  obtain ⟨-, -, -, -, -, -, hnegated⟩ := comparisons_agree ha hb
  exact ⟨ha, hb, hless, hnegated.trans (congrArg Verdict.not hless)⟩

end Value

end AbstractFlow
