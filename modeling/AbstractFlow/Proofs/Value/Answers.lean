import AbstractFlow.Proofs.Value.Admission
import AbstractFlow.Proofs.Value.Verdict

/-! # Definite answers

A definite answer about canonical values is right of everything in the sets of their constants: about the
comparison of any two numbers, strings or `None`, and about the truth of each of them and of a container of
any size that fits. Only constants take part in a comparison that is decided.
-/
namespace AbstractFlow

namespace Comparator

def text : Comparator → String
  | .eq => "=="
  | .ne => "!="
  | .lt => "<"
  | .le => "<="
  | .gt => ">"
  | .ge => ">="
  | .is => "is"
  | .isNot => "is not"

theorem ofText?_text (op : Comparator) : ofText? op.text = some op := by
  cases op <;> rfl

def isOrder : Comparator → Bool
  | .lt | .le | .gt | .ge => true
  | _ => false

/-- Whether a comparison holds of what is told apart. -/
def isNegated : Comparator → Bool
  | .ne | .isNot => true
  | _ => false

end Comparator

theorem Value.compare_text (op : Comparator) (a b : Value) : compare op.text a b = compareBy op a b := by
  unfold Value.compare
  rw [op.ofText?_text]

namespace Thing

/-- The kinds of constants; numbers of all types are of one kind. -/
inductive Kind where
  | number
  | string
  | none
deriving DecidableEq

def kind? : Thing → Option Kind
  | .number _ _ => some .number
  | .string _ => some .string
  | .none => some .none
  | _ => Option.none

/-- The result of a comparison, where it follows from the constants that are compared. Numbers of all types
are compared by their exact values, the infinities included, and strings byte by byte; constants of
different kinds differ and have no order. Equal numbers or strings may be identical or not. -/
inductive Compares : Comparator → Thing → Thing → Bool → Prop where
  | numbers {op t t' x y r} (hop : op.isIdentity = false) (h : r = true ↔ op.Holds x.quantity y.quantity) :
      Compares op (.number t x) (.number t' y) r
  | strings {op s s' r} (hop : op.isIdentity = false) (h : r = true ↔ op.Holds s s') :
      Compares op (.string s) (.string s') r
  | nones {op} (hop : op.isOrder = false) : Compares op .none .none (!op.isNegated)
  | unlike {op u v k k'} (hop : op.isOrder = false) (hu : u.kind? = some k) (hv : v.kind? = some k')
      (h : k ≠ k') : Compares op u v op.isNegated

/-- The truth of a number, a string or `None`. -/
def Truth : Thing → Bool → Prop
  | .number _ x, r => r = true ↔ x.quantity ≠ 0
  | .string s, r => r = true ↔ 0 < s.size
  | .none, r => r = false
  | _, _ => True

variable {op : Comparator} {u v : Thing} {r r' : Bool}

theorem Compares.unique (h : Compares op u v r) (h' : Compares op u v r') : r = r' := by
  cases h with
  | numbers _ hr =>
    cases h' with
    | numbers _ hr' => rw [Bool.eq_iff_iff, hr, hr']
    | unlike _ hu hv hne => exact absurd (Option.some.inj (hu.symm.trans hv)) hne
  | strings _ hr =>
    cases h' with
    | strings _ hr' => rw [Bool.eq_iff_iff, hr, hr']
    | unlike _ hu hv hne => exact absurd (Option.some.inj (hu.symm.trans hv)) hne
  | nones =>
    cases h' with
    | nones => rfl
    | unlike _ hu hv hne => exact absurd (Option.some.inj (hu.symm.trans hv)) hne
  | unlike _ hu hv hne =>
    cases h' with
    | unlike => rfl
    | _ => exact absurd (Option.some.inj (hu.symm.trans hv)) hne

end Thing

namespace Verdict

variable {v : Verdict} {r r' : Bool} {p : Prop}

theorem ofBool_injective (h : ofBool r = ofBool r') : r = r' := by
  cases r <;> cases r' <;> first | rfl | cases h

theorem ofBool_ne_maybe (r : Bool) : ofBool r ≠ .maybe := by
  cases r <;> exact Verdict.noConfusion

/-- A definite verdict that is not wrong about the truth of a proposition tells it. -/
theorem iff_of_agrees (hagrees : ∀ r', (r' = true ↔ p) → v.Agrees r') (h : v = ofBool r) : r = true ↔ p := by
  classical
  rcases hagrees (decide p) decide_eq_true_iff with hmaybe | hdecided
  · exact absurd (h.symm.trans hmaybe) (ofBool_ne_maybe r)
  · rw [ofBool_injective (h.symm.trans hdecided), decide_eq_true_iff]

theorem eq_of_unanimous {vs : List Verdict} (h : unanimous vs = ofBool r) {v : Verdict} (hv : v ∈ vs) :
    v = ofBool r := by
  rcases unanimous_eq hv with hmaybe | hcommon
  · exact absurd (h.symm.trans hmaybe) (ofBool_ne_maybe r)
  · exact hcommon.symm.trans h

end Verdict

open Verdict

theorem NumberSet.not_identity_of_compare {op : Comparator} {s t : NumberSet} {r : Bool}
    (h : s.compare op t = ofBool r) : op.isIdentity = false := by
  cases op with
  | is | isNot => exact absurd h.symm (ofBool_ne_maybe r)
  | _ => rfl

theorem StringSet.not_identity_of_compare {op : Comparator} {s t : StringSet} {r : Bool}
    (h : s.compare op t = ofBool r) : op.isIdentity = false := by
  cases op with
  | is | isNot => exact absurd h.symm (ofBool_ne_maybe r)
  | _ => rfl

namespace Constant

variable {op : Comparator} {c d : Constant} {u v : Thing} {r : Bool}

def kind : Constant → Thing.Kind
  | .number _ _ => .number
  | .string _ => .string
  | .none => .none

theorem exists_number_of_has {t : NumericType} {s : NumberSet} (h : (Constant.number t s).Has u) :
    ∃ x, u = .number t x ∧ s.contains x = true := by
  cases u with
  | number t' x => exact ⟨x, by rw [h.1], h.2⟩
  | _ => exact h.elim

theorem exists_string_of_has {s : StringSet} (h : (Constant.string s).Has u) :
    ∃ x, u = .string x ∧ s.contains x = true := by
  cases u with
  | string x => exact ⟨x, rfl, h⟩
  | _ => exact h.elim

theorem eq_none_of_has (h : Constant.none.Has u) : u = .none := by
  cases u with
  | none => rfl
  | _ => exact h.elim

theorem kind?_of_has (h : c.Has u) : u.kind? = some c.kind := by
  cases c <;> cases u <;> first | rfl | exact h.elim

section Unlike

variable (hkind : c.kind ≠ d.kind)
include hkind

theorem equals_of_unlike : c.equals d = ofBool false := by
  cases c <;> cases d <;> first | rfl | exact absurd rfl hkind

theorem is_of_unlike : c.is d = .maybe ∨ c.is d = ofBool false := by
  cases c <;> cases d <;> first | exact Or.inl rfl | exact Or.inr rfl | exact absurd rfl hkind

theorem order_of_unlike (hop : op.isOrder = true) : c.compare op d = .maybe := by
  cases op with
  | lt | le | gt | ge => cases c <;> cases d <;> first | rfl | exact absurd rfl hkind
  | _ => cases hop

/-- Constants of different kinds are told apart, unless it is asked for their order. -/
theorem negated_of_compare (h : c.compare op d = ofBool r) : op.isOrder = false ∧ r = op.isNegated := by
  have hno : Verdict.no = ofBool r → r = false := fun h => (ofBool_injective (r := false) h).symm
  have hyes : Verdict.yes = ofBool r → r = true := fun h => (ofBool_injective (r := true) h).symm
  cases op with
  | eq =>
    rw [compare, equals_of_unlike hkind] at h
    exact ⟨rfl, hno h⟩
  | ne =>
    rw [compare, equals_of_unlike hkind] at h
    exact ⟨rfl, hyes h⟩
  | is =>
    rcases is_of_unlike hkind with hmaybe | hfalse
    · exact absurd (h.symm.trans hmaybe) (ofBool_ne_maybe r)
    · rw [compare, hfalse] at h
      exact ⟨rfl, hno h⟩
  | isNot =>
    rcases is_of_unlike hkind with hmaybe | hfalse
    · rw [compare, hmaybe] at h
      exact absurd h.symm (ofBool_ne_maybe r)
    · rw [compare, hfalse] at h
      exact ⟨rfl, hyes h⟩
  | lt | le | gt | ge => exact absurd (h.symm.trans (order_of_unlike hkind rfl)) (ofBool_ne_maybe r)

end Unlike

theorem compares_of_nones (h : Constant.none.compare op .none = ofBool r) : Thing.Compares op .none .none r := by
  have hresult : ∀ r', Verdict.ofBool r' = ofBool r → r = r' := fun _ h => (ofBool_injective h).symm
  cases op with
  | eq | is =>
    rw [hresult true h]
    exact .nones rfl
  | ne | isNot =>
    rw [hresult false h]
    exact .nones rfl
  | lt | le | gt | ge => exact absurd h.symm (ofBool_ne_maybe r)

theorem compares_of_compare (hc : c.Tidy) (hd : d.Tidy) (hu : c.Has u) (hv : d.Has v)
    (h : c.compare op d = ofBool r) : u.Compares op v r := by
  by_cases hkind : c.kind = d.kind
  · rcases c with ⟨t, s⟩ | s | _ <;> rcases d with ⟨t', s'⟩ | s' | _ <;> cases hkind
    · obtain ⟨x, rfl, hx⟩ := exists_number_of_has hu
      obtain ⟨y, rfl, hy⟩ := exists_number_of_has hv
      rw [compare_numbers] at h
      refine .numbers (NumberSet.not_identity_of_compare h) (iff_of_agrees (fun r' hr' => ?_) h)
      rw [Comparator.holds_quantity (NumberSet.isNaN_of_contains hx) (NumberSet.isNaN_of_contains hy)] at hr'
      exact NumberSet.agrees_compare hc hd hx hy hr'
    · obtain ⟨x, rfl, hx⟩ := exists_string_of_has hu
      obtain ⟨y, rfl, hy⟩ := exists_string_of_has hv
      rw [compare_strings] at h
      exact .strings (StringSet.not_identity_of_compare h)
        (iff_of_agrees (fun r' hr' => StringSet.agrees_compare hx hy hr') h)
    · rw [eq_none_of_has hu, eq_none_of_has hv]
      exact compares_of_nones h
  · obtain ⟨horder, rfl⟩ := negated_of_compare hkind h
    exact .unlike horder (kind?_of_has hu) (kind?_of_has hv) hkind

/-- The truth of a constant, if it is decided, is that of all that it has. -/
theorem truth_of_has (hc : c.Tidy) (hu : c.Has u) (h : (Object.constant c).truth = ofBool r) : u.Truth r := by
  rcases c with ⟨t, s⟩ | s | _
  · obtain ⟨x, rfl, hx⟩ := exists_number_of_has hu
    have hzero : x.quantity = 0 ↔ x.key = 0 := Number.quantity_eq_iff (y := .zero) (NumberSet.isNaN_of_contains hx) rfl
    refine iff_of_agrees (fun r' hr' => NumberSet.agrees_truth hc hx ?_) h
    rw [hr', ne_eq, hzero]
  · obtain ⟨x, rfl, hx⟩ := exists_string_of_has hu
    refine iff_of_agrees (fun r' hr' => StringSet.agrees_truth hc hx ?_) h
    rw [hr', Nat.pos_iff_ne_zero]
  · rw [eq_none_of_has hu]
    exact (ofBool_injective (r := false) h).symm

end Constant

namespace Object

variable {op : Comparator} {x y : Object} {r : Bool}

/-- Only comparisons of constants are decided. -/
theorem exists_constants_of_compare (h : x.compare op y = ofBool r) :
    ∃ c d, x = .constant c ∧ y = .constant d ∧ c.compare op d = ofBool r := by
  cases x with
  | constant c =>
    cases y with
    | constant d => exact ⟨c, d, rfl, rfl, h⟩
    | _ => exact absurd h.symm (ofBool_ne_maybe r)
  | _ => exact absurd h.symm (ofBool_ne_maybe r)

theorem truth_of_fits {c : Container Value} {n : Nat} (hn : c.Fits n) (h : (container c).truth = ofBool r) :
    r = true ↔ 0 < n := by
  refine iff_of_agrees (fun r' hr' => ?_) h
  have hleast := hn.1
  unfold truth
  dsimp only
  split
  · exact agrees_yes (hr'.mpr (by omega))
  split
  · rename_i hmost
    have := hn.2 0 hmost
    refine agrees_no ?_
    rw [← Bool.not_eq_true, hr']
    omega
  · exact agrees_maybe

end Object

namespace Value

variable {a b : Value} {op : Comparator} {r : Bool}

theorem compare_of_compareBy (h : compareBy op a b = ofBool r) {x y : Object} (hx : x ∈ a) (hy : y ∈ b) :
    x.compare op y = ofBool r :=
  eq_of_unanimous h (List.mem_flatMap.mpr ⟨x, hx, List.mem_map_of_mem hy⟩)

theorem ne_nil_of_compareBy (h : compareBy op a b = ofBool r) : a ≠ [] ∧ b ≠ [] := by
  have hmaybe : unanimous [] ≠ ofBool r := (ofBool_ne_maybe r).symm
  constructor
  · rintro rfl
    exact hmaybe h
  · rintro rfl
    have hnil : compareBy op a [] = unanimous [] := congrArg unanimous (List.flatMap_eq_nil_iff.mpr fun _ _ => rfl)
    exact hmaybe (hnil.symm.trans h)

theorem exists_constant_of_compareBy (h : compareBy op a b = ofBool r) {o : Object} (ho : o ∈ a ∨ o ∈ b) :
    ∃ c, o = .constant c := by
  obtain ⟨ha, hb⟩ := ne_nil_of_compareBy h
  obtain ⟨x, hx⟩ := List.exists_mem_of_ne_nil a ha
  obtain ⟨y, hy⟩ := List.exists_mem_of_ne_nil b hb
  rcases ho with ho | ho
  · obtain ⟨c, -, hc, -⟩ := Object.exists_constants_of_compare (compare_of_compareBy h ho hy)
    exact ⟨c, hc⟩
  · obtain ⟨-, d, -, hd, -⟩ := Object.exists_constants_of_compare (compare_of_compareBy h hx ho)
    exact ⟨d, hd⟩

/-- Definite answers are right: only constants are compared, the answer is the one result that comparing any
two things that they have can give, and what constants have and the sizes that containers may have are as
true as answered. -/
theorem definite_answers_right (ha : a.Canonical) (hb : b.Canonical) (op : Comparator) (r : Bool) :
    (compare op.text a b = ofBool r →
      (∀ o, o ∈ a ∨ o ∈ b → ∃ c, o = .constant c) ∧
        ∀ c d, .constant c ∈ a → .constant d ∈ b → ∀ u v, c.Has u → d.Has v →
          ∀ r', u.Compares op v r' ↔ r' = r) ∧
      (a.truth = ofBool r →
        (∀ c, .constant c ∈ a → ∀ u, c.Has u → u.Truth r) ∧
          ∀ c, .container c ∈ a → ∀ n, c.Fits n → (r = true ↔ 0 < n)) := by
  constructor
  · intro h
    rw [compare_text] at h
    refine ⟨fun o ho => exists_constant_of_compareBy h ho, fun c d hc hd u v hu hv r' => ?_⟩
    have hcompare : c.compare op d = ofBool r := compare_of_compareBy h hc hd
    have hresult := Constant.compares_of_compare (ha.constant hc) (hb.constant hd) hu hv hcompare
    exact ⟨fun hr' => hr'.unique hresult, fun hr' => hr' ▸ hresult⟩
  · intro h
    refine ⟨fun c hc u hu => ?_, fun c hc n hn => ?_⟩
    · exact Constant.truth_of_has (ha.constant hc) hu (eq_of_unanimous h (List.mem_map_of_mem hc))
    · exact Object.truth_of_fits hn (eq_of_unanimous h (List.mem_map_of_mem hc))

/-- `True`, or one of two integers. -/
def trueOrUnit : Value :=
  [.constant (.number .bool (.ofList [.one])), .constant (.number .int (.ofList [.ofInt (-1), .one]))]

theorem canonical_trueOrUnit : trueOrUnit.Canonical := by
  have htidy : ∀ xs, (NumberSet.ofList xs).Tidy := fun xs => NumberSet.tidy_normalize _
  have hobjects : ∀ o ∈ trueOrUnit, o.Tidy := by
    intro o ho
    rcases List.mem_pair.mp ho with rfl | rfl <;> exact htidy _
  have hinside : trueOrUnit.Inside (Everywhere Tidy) := by
    intro o ho
    rcases List.mem_pair.mp ho with rfl | rfl <;> exact Object.inside_constant _
  have hsorted : Dict.Sorted trueOrUnit.keyed :=
    List.pairwise_pair.mpr (by decide : "const:bool" < "const:int")
  exact everywhere_iff.mpr ⟨⟨hsorted, by decide, fun h => absurd h Bool.false_ne_true, hobjects⟩, hinside⟩

theorem definite_answers_right_trueOrUnit :
    trueOrUnit.Canonical ∧ (floats [.ofInt 2, .posInf]).Canonical ∧
      (compare "<" trueOrUnit (floats [.ofInt 2, .posInf]) = .yes ∧
        Thing.Compares .lt (.number .bool .one) (.number .float .posInf) true) ∧
      (trueOrUnit.truth = .yes ∧ Thing.Truth (.number .int (.ofInt (-1))) true) := by
  have hfloats : (floats [.ofInt 2, .posInf]).Canonical := Built.canonical (.number _ _)
  have hless : compare "<" trueOrUnit (floats [.ofInt 2, .posInf]) = .yes := by decide +kernel
  have htruth : trueOrUnit.truth = .yes := by decide +kernel
  have hone : (Constant.number .bool (.ofList [.one])).Has (.number .bool .one) := ⟨rfl, by decide +kernel⟩
  have hinfinite : (Constant.number .float (.ofList [.ofInt 2, .posInf])).Has (.number .float .posInf) :=
    ⟨rfl, by decide +kernel⟩
  have hunit : (Constant.number .int (.ofList [.ofInt (-1), .one])).Has (.number .int (.ofInt (-1))) :=
    ⟨rfl, by decide +kernel⟩
  obtain ⟨hcompares, htruths⟩ := definite_answers_right canonical_trueOrUnit hfloats .lt true
  refine ⟨canonical_trueOrUnit, hfloats, ⟨hless, ?_⟩, htruth, ?_⟩
  · exact ((hcompares hless).2 _ _ List.mem_cons_self List.mem_cons_self _ _ hone hinfinite true).mpr rfl
  · exact (htruths htruth).1 _ (List.mem_cons_of_mem _ List.mem_cons_self) _ hunit

end Value

end AbstractFlow
