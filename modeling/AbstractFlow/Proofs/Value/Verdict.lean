import AbstractFlow.Proofs.Value.Concrete

/-! # Verdicts are right

A definite answer about abstract values is the answer that all concrete values give which they admit: of
their truth, and of the comparison of two of them.
-/
namespace AbstractFlow

namespace Verdict

/-- A verdict that is not wrong about a result. -/
def Agrees (v : Verdict) (r : Bool) : Prop := v = .maybe ∨ v = .ofBool r

variable {v : Verdict} {r : Bool}

theorem agrees_maybe : Verdict.maybe.Agrees r := Or.inl rfl

theorem agrees_yes (h : r = true) : Verdict.yes.Agrees r := Or.inr (by rw [h]; rfl)

theorem agrees_no (h : r = false) : Verdict.no.Agrees r := Or.inr (by rw [h]; rfl)

theorem Agrees.not (h : v.Agrees r) : v.not.Agrees (!r) := by
  rcases h with rfl | rfl
  · exact agrees_maybe
  · cases r
    · exact agrees_yes rfl
    · exact agrees_no rfl

/-- A definite common answer is the answer of each. -/
theorem unanimous_eq {vs : List Verdict} (h : v ∈ vs) : unanimous vs = .maybe ∨ unanimous vs = v := by
  cases vs with
  | nil => simp at h
  | cons w rest =>
    simp only [unanimous]
    split
    · rename_i hall
      rcases List.mem_cons.mp h with rfl | h
      · exact Or.inr rfl
      · exact Or.inr (beq_iff_eq.mp (List.all_eq_true.mp hall v h)).symm
    · exact Or.inl rfl

theorem agrees_unanimous {vs : List Verdict} (h : v ∈ vs) (hv : v.Agrees r) : (unanimous vs).Agrees r := by
  rcases unanimous_eq h with h | h
  · exact Or.inl h
  · rw [h]
    exact hv

end Verdict

open Verdict

namespace NumberSet

variable {x y : Number} {s t : NumberSet} {r : Bool}

theorem key_of_single (hs : s.Tidy) (h : s.contains x = true) {u : Number} (hu : s.single? = some u) :
    u.isNaN = false ∧ u.key = x.key := by
  have hx := isNaN_of_contains h
  unfold single? at hu
  split at hu
  · rename_i z hexact
    obtain rfl := Option.some.inj hu
    obtain ⟨y, hy, hkey⟩ := (contains_of_exact hs (by simp [hexact]) hx).mp h
    rw [hexact, List.mem_singleton] at hy
    exact ⟨hs.increasing.numbers z (by simp [hexact]), hy ▸ hkey⟩
  · split at hu
    · rename_i hsame
      obtain rfl := Option.some.inj hu
      rw [Bool.and_eq_true, Number.same_iff hs.lower hs.upper] at hsame
      have := bounds_of_contains hs h
      exact ⟨hs.lower, by omega⟩
    · simp at hu

theorem agrees_truth (hs : s.Tidy) (h : s.contains x = true) (hr : r = true ↔ x.key ≠ 0) :
    s.truth.Agrees r := by
  have hx := isNaN_of_contains h
  have hbounds := bounds_of_contains hs h
  have hzero : Number.zero.isNaN = false ∧ Number.zero.key = 0 := ⟨rfl, rfl⟩
  -- In turn: zero is out of bounds, is the only member, is missing among exact members, or none of these.
  unfold truth
  split
  · rename_i hmay
    simp only [mayBeZero, Number.le_iff hs.lower hzero.1, Number.le_iff hzero.1 hs.upper, hzero.2] at hmay
    refine agrees_yes (hr.mpr fun hkey => ?_)
    simp only [Bool.not_eq_true', Bool.and_eq_false_iff, decide_eq_false_iff_not] at hmay
    omega
  split
  · rename_i hsingle
    cases hu : s.single? with
    | none => simp [hu] at hsingle
    | some u =>
      obtain ⟨hnumber, hkey⟩ := key_of_single hs h hu
      rw [hu, Option.any_some, Number.same_iff hnumber hzero.1, hzero.2] at hsingle
      refine agrees_no ?_
      rw [← Bool.not_eq_true, hr, ← hkey]
      exact not_not_intro hsingle
  split
  · rename_i hexact
    rw [Bool.and_eq_true, Bool.not_eq_true', Bool.not_eq_true'] at hexact
    have hne : s.exact ≠ [] := by simpa using hexact.1
    refine agrees_yes (hr.mpr fun hkey => ?_)
    obtain ⟨y, hy, hyx⟩ := (contains_of_exact hs hne hx).mp h
    have : s.contains .zero = true := (contains_of_exact hs hne hzero.1).mpr ⟨y, hy, by rw [hyx, hkey, hzero.2]⟩
    rw [hexact.2] at this
    exact Bool.false_ne_true this
  · exact agrees_maybe

section Compare

variable (hs : s.Tidy) (ht : t.Tidy) (hx : s.contains x = true) (hy : t.contains y = true)

include hs ht hx hy

theorem agrees_equals (hr : r = true ↔ x.key = y.key) : (s.equals t).Agrees r := by
  have hsx := bounds_of_contains hs hx
  have hty := bounds_of_contains ht hy
  unfold equals
  split
  · rename_i u w hu hw
    obtain ⟨hnu, hku⟩ := key_of_single hs hx hu
    obtain ⟨hnw, hkw⟩ := key_of_single ht hy hw
    have hsame : u.same w = r := by
      rw [Bool.eq_iff_iff, Number.same_iff hnu hnw, hku, hkw, hr]
    exact Or.inr (by rw [hsame])
  · split
    · rename_i hapart
      simp only [Bool.or_eq_true, decide_eq_true_eq, Number.lt_iff hs.upper ht.lower,
        Number.lt_iff ht.upper hs.lower] at hapart
      refine agrees_no ?_
      rw [← Bool.not_eq_true, hr]
      omega
    · exact agrees_maybe

theorem agrees_less (hr : r = true ↔ x.key < y.key) : (s.less t).Agrees r := by
  have hsx := bounds_of_contains hs hx
  have hty := bounds_of_contains ht hy
  unfold less
  simp only [Number.lt_iff hs.upper ht.lower, Number.le_iff ht.upper hs.lower]
  split
  · exact agrees_yes (hr.mpr (by omega))
  split
  · refine agrees_no ?_
    rw [← Bool.not_eq_true, hr]
    omega
  · exact agrees_maybe

theorem agrees_atMost (hr : r = true ↔ x.key ≤ y.key) : (s.atMost t).Agrees r := by
  have hsx := bounds_of_contains hs hx
  have hty := bounds_of_contains ht hy
  unfold atMost
  simp only [Number.le_iff hs.upper ht.lower, Number.lt_iff ht.upper hs.lower]
  split
  · exact agrees_yes (hr.mpr (by omega))
  split
  · refine agrees_no ?_
    rw [← Bool.not_eq_true, hr]
    omega
  · exact agrees_maybe

theorem agrees_compare {op : Comparator} (hr : r = true ↔ op.Holds x.key y.key) :
    (s.compare op t).Agrees r := by
  cases op <;> simp only [compare] <;> simp only [Comparator.Holds] at hr
  case eq => exact agrees_equals hs ht hx hy hr
  case ne =>
    have hnot : (!r) = true ↔ x.key = y.key := by
      rw [Bool.not_eq_true', ← Bool.not_eq_true, hr]
      exact not_not
    simpa using (agrees_equals hs ht hx hy hnot).not
  case lt => exact agrees_less hs ht hx hy hr
  case le => exact agrees_atMost hs ht hx hy (hr.trans Int.not_lt)
  case gt => exact agrees_less ht hs hy hx hr
  case ge => exact agrees_atMost ht hs hy hx (hr.trans Int.not_lt)
  all_goals exact agrees_maybe

end Compare

end NumberSet

namespace StringSet

variable {x y : ByteString} {s t : StringSet} {r : Bool}

theorem eq_of_single (h : s.contains x = true) {u : ByteString} (hu : s.single? = some u) : u = x := by
  unfold single? at hu
  split at hu
  · rename_i z hexact
    have hx := (contains_of_exact (by simp [hexact])).mp h
    rw [hexact, List.mem_singleton] at hx
    rw [hx]
    exact (Option.some.inj hu).symm
  · simp at hu

theorem agrees_truth (hs : s.Tidy) (h : s.contains x = true) (hr : r = true ↔ x.size ≠ 0) :
    s.truth.Agrees r := by
  have hlengths := lengths_of_contains hs h
  unfold truth
  split
  · exact agrees_yes (hr.mpr (by omega))
  split
  · refine agrees_no ?_
    rw [← Bool.not_eq_true, hr]
    omega
  · exact agrees_maybe

theorem agrees_equals (hx : s.contains x = true) (hy : t.contains y = true) (hr : r = true ↔ x = y) :
    (s.equals t).Agrees r := by
  unfold equals
  split
  · rename_i u w hu hw
    have hsame : (u == w) = r := by
      rw [eq_of_single hx hu, eq_of_single hy hw, Bool.eq_iff_iff, beq_iff_eq, hr]
    exact Or.inr (by rw [hsame])
  split
  · exact agrees_maybe
  split
  · exact agrees_maybe
  · rename_i hempty hany
    refine agrees_no ?_
    rw [← Bool.not_eq_true, hr]
    rintro rfl
    have hne : s.exact ≠ [] := by
      intro h
      simp [h] at hempty
    exact hany (List.any_eq_true.mpr ⟨x, (contains_of_exact hne).mp hx, hy⟩)

theorem agrees_decided (hx : s.contains x = true) (hy : t.contains y = true)
    {question : ByteString → ByteString → Bool} (hr : r = question x y) : (s.decided t question).Agrees r := by
  unfold decided
  split
  · rename_i u w hu hw
    rw [hr, eq_of_single hx hu, eq_of_single hy hw]
    exact Or.inr rfl
  · exact agrees_maybe

theorem agrees_compare (hx : s.contains x = true) (hy : t.contains y = true) {op : Comparator}
    (hr : r = true ↔ op.Holds x y) : (s.compare op t).Agrees r := by
  cases op <;> simp only [compare] <;> simp only [Comparator.Holds] at hr
  case eq => exact agrees_equals hx hy hr
  case ne =>
    have hnot : (!r) = true ↔ x = y := by
      rw [Bool.not_eq_true', ← Bool.not_eq_true, hr]
      exact not_not
    simpa using (agrees_equals hx hy hnot).not
  case lt => exact agrees_decided hx hy (by rw [Bool.eq_iff_iff, hr, decide_eq_true_iff])
  case le => exact agrees_decided hx hy (by rw [Bool.eq_iff_iff, hr, Bool.not_eq_true', decide_eq_false_iff_not])
  case gt => exact agrees_decided hx hy (by rw [Bool.eq_iff_iff, hr, decide_eq_true_iff])
  case ge => exact agrees_decided hx hy (by rw [Bool.eq_iff_iff, hr, Bool.not_eq_true', decide_eq_false_iff_not])
  all_goals exact agrees_maybe

end StringSet

theorem Comparator.holds_quantity {op : Comparator} {x y : Number} (hx : x.isNaN = false)
    (hy : y.isNaN = false) : op.Holds x.quantity y.quantity ↔ op.Holds x.key y.key := by
  cases op <;>
    simp only [Holds, ne_eq, Number.quantity_eq_iff hx hy, Number.quantity_lt_iff hx hy,
      Number.quantity_lt_iff hy hx]

namespace Constant

variable {c d : Constant} {a b : Concrete} {r : Bool}

theorem not_admits_other (h : c.Admits .other) : False := by
  rcases c with ⟨_ | _ | _, s⟩ | s | _ <;> exact h

theorem exists_number (h : c.Admits a) (ha : a.isNumber = true) :
    ∃ t s x, c = .number t s ∧ s.contains x = true ∧ a.quantity? = some x.quantity := by
  rcases c with ⟨_ | _ | _, s⟩ | s | _ <;> cases a <;>
    simp only [Admits, Concrete.isNumber, Bool.false_eq_true] at h ha
  case number.int.int n =>
    refine ⟨.int, s, .ofInt n, rfl, h.2, ?_⟩
    rw [Concrete.quantity?, (Number.quantity_ofInt h.1).2]
  case number.float.float x =>
    refine ⟨.float, s, x, rfl, h, ?_⟩
    rw [Concrete.quantity?, NumberSet.isNaN_of_contains h, if_neg Bool.false_ne_true]
  case number.bool.bool b =>
    refine ⟨.bool, s, _, rfl, h, ?_⟩
    rw [Concrete.quantity?, Number.quantity_bool]

theorem shape_of_admits (h : c.Admits a) :
    (a.isNumber = true ∧ ∃ t s, c = .number t s) ∨
      (∃ s x, c = .string s ∧ a = .str x ∧ s.contains x = true) ∨ (c = .none ∧ a = .none) := by
  rcases c with ⟨_ | _ | _, s⟩ | s | _ <;> cases a <;> simp only [Admits] at h
  case string.str x => exact Or.inr (Or.inl ⟨s, x, rfl, rfl, h⟩)
  case none.none => exact Or.inr (Or.inr ⟨rfl, rfl⟩)
  all_goals exact Or.inl ⟨rfl, _, _, rfl⟩

theorem isNumber_of_quantity? {p : WithBot (WithTop Int)} (h : a.quantity? = some p) : a.isNumber = true := by
  cases a with
  | bool | int | float => rfl
  | _ => cases h

theorem truth_of_quantity {x : Number} (hx : x.isNaN = false) (hq : a.quantity? = some x.quantity)
    (hr : a.Truth r) : r = true ↔ x.key ≠ 0 := by
  have hunit : Number.unit ≠ 0 := by
    have hpos : Number.multiple 0 < Number.unit := Number.strictMono_multiple (by decide)
    omega
  have hzero : x.key = 0 ↔ x.quantity = (((0 : Int) : WithTop Int) : WithBot (WithTop Int)) :=
    (Number.quantity_eq_iff (y := .zero) hx rfl).symm
  have hmultiple : ∀ n : Int,
      (((n * Number.unit : Int) : WithTop Int) : WithBot (WithTop Int)) = ((0 : Int) : WithTop Int) ↔ n = 0 := by
    intro n
    rw [WithBot.coe_inj, WithTop.coe_inj, Int.mul_eq_zero]
    exact or_iff_left fun hzero => hunit (Int.natCast_eq_zero.mp hzero)
  cases a with
  | bool b =>
    rw [Concrete.quantity?, Option.some.injEq] at hq
    obtain rfl : r = b := hr
    rw [ne_eq, hzero, ← hq, hmultiple]
    cases r <;> decide
  | int n =>
    rw [Concrete.quantity?, Option.some.injEq] at hq
    have hr : r = true ↔ n ≠ 0 := hr
    rw [hr, ne_eq, ne_eq, hzero, ← hq, hmultiple]
  | float y =>
    simp only [Concrete.quantity?] at hq
    split at hq
    · simp at hq
    · rename_i hy
      have hkey := (Number.quantity_eq_iff (Bool.eq_false_of_not_eq_true hy) hx).mp (Option.some.inj hq)
      have hr : r = true ↔ y.magnitude ≠ 0 := hr
      rw [hr, ← hkey]
      unfold Number.key
      split <;> omega
  | _ => simp [Concrete.quantity?] at hq

theorem agrees_truth (hc : c.Normal) (h : c.Admits a) (hr : a.Truth r) :
    (Object.constant c).truth.Agrees r := by
  obtain ⟨ha, -⟩ | ⟨s, x, rfl, rfl, hx⟩ | ⟨rfl, rfl⟩ := shape_of_admits h
  · obtain ⟨t, s, x, rfl, hx, hq⟩ := exists_number h ha
    exact NumberSet.agrees_truth (NumberSet.Normal.tidy hc) hx (truth_of_quantity (NumberSet.isNaN_of_contains hx) hq hr)
  · exact StringSet.agrees_truth (StringSet.Normal.tidy hc) hx hr
  · exact agrees_no hr

theorem agrees_equals (ha : c.Admits a) (hb : d.Admits b) (hab : (a.isNumber && b.isNumber) = false)
    (hr : r = true ↔ a = b) : (c.equals d).Agrees r := by
  have hno : a ≠ b → Verdict.no.Agrees r := fun h => agrees_no (by rw [← Bool.not_eq_true, hr]; exact h)
  obtain ⟨hna, t, s, rfl⟩ | ⟨s, x, rfl, rfl, hx⟩ | ⟨rfl, rfl⟩ := shape_of_admits ha <;>
    obtain ⟨hnb, t', s', rfl⟩ | ⟨s', y, rfl, rfl, hy⟩ | ⟨rfl, rfl⟩ := shape_of_admits hb
  · simp [hna, hnb] at hab
  · exact hno (by rintro rfl; simp [Concrete.isNumber] at hna)
  · exact hno (by rintro rfl; simp [Concrete.isNumber] at hna)
  · exact hno (by rintro rfl; simp [Concrete.isNumber] at hnb)
  · exact StringSet.agrees_equals hx hy (by rw [hr, Concrete.str.injEq])
  · exact hno (by simp)
  · exact hno (by rintro rfl; simp [Concrete.isNumber] at hnb)
  · exact hno (by simp)
  · exact agrees_yes (hr.mpr rfl)

theorem agrees_is (ha : c.Admits a) (hb : d.Admits b) (h : r = true → a = b)
    (hnone : a = .none → b = .none → r = true) : (c.is d).Agrees r := by
  have hno : a ≠ b → Verdict.no.Agrees r := fun hne => agrees_no (by rw [← Bool.not_eq_true]; exact mt h hne)
  obtain ⟨hna, t, s, rfl⟩ | ⟨s, x, rfl, rfl, hx⟩ | ⟨rfl, rfl⟩ := shape_of_admits ha <;>
    obtain ⟨hnb, t', s', rfl⟩ | ⟨s', y, rfl, rfl, hy⟩ | ⟨rfl, rfl⟩ := shape_of_admits hb
  · exact agrees_maybe
  · exact agrees_maybe
  · exact hno (by rintro rfl; simp [Concrete.isNumber] at hna)
  · exact agrees_maybe
  · exact agrees_maybe
  · exact hno (by simp)
  · exact hno (by rintro rfl; simp [Concrete.isNumber] at hnb)
  · exact hno (by simp)
  · exact agrees_yes (hnone rfl rfl)

theorem compare_numbers (op : Comparator) (t t' : NumericType) (s s' : NumberSet) :
    (Constant.number t s).compare op (.number t' s') = s.compare op s' := by
  cases op <;> rfl

theorem compare_strings (op : Comparator) (s s' : StringSet) :
    (Constant.string s).compare op (.string s') = s.compare op s' := by
  cases op <;> rfl

theorem agrees_compare {op : Comparator} (hc : c.Normal) (hd : d.Normal) (ha : c.Admits a)
    (hb : d.Admits b) (h : Concrete.Compares op a b r) : (c.compare op d).Agrees r := by
  -- How the result came about tells of which types both sides are, and so which sets are compared.
  cases h with
  | numbers hop hqa hqb hr =>
    obtain ⟨t, s, x, rfl, hx, hqx⟩ := exists_number ha (isNumber_of_quantity? hqa)
    obtain ⟨t', s', y, rfl, hy, hqy⟩ := exists_number hb (isNumber_of_quantity? hqb)
    rw [Option.some.inj (hqa.symm.trans hqx), Option.some.inj (hqb.symm.trans hqy),
      Comparator.holds_quantity (NumberSet.isNaN_of_contains hx) (NumberSet.isNaN_of_contains hy)] at hr
    rw [compare_numbers]
    exact NumberSet.agrees_compare (NumberSet.Normal.tidy hc) (NumberSet.Normal.tidy hd) hx hy hr
  | nan hop hna hnb hnan =>
    obtain ⟨t, s, x, rfl, hx, hqx⟩ := exists_number ha hna
    obtain ⟨t', s', y, rfl, hy, hqy⟩ := exists_number hb hnb
    simp [hqx, hqy] at hnan
  | strings hop hr =>
    obtain ⟨hna, -⟩ | ⟨s, x, rfl, hsx, hx⟩ | ⟨-, hna⟩ := shape_of_admits ha
    · simp [Concrete.isNumber] at hna
    · obtain ⟨hnb, -⟩ | ⟨s', y, rfl, hsy, hy⟩ | ⟨-, hnb⟩ := shape_of_admits hb
      · simp [Concrete.isNumber] at hnb
      · rw [Concrete.str.inj hsx, Concrete.str.inj hsy] at hr
        rw [compare_strings]
        exact StringSet.agrees_compare hx hy hr
      · simp at hnb
    · simp at hna
  | equal hab hr => exact agrees_equals ha hb hab hr
  | differ hab hr =>
    have hnot : (!r) = true ↔ a = b := by
      rw [Bool.not_eq_true', ← Bool.not_eq_true, hr]
      exact not_not
    have hnegated := (agrees_equals ha hb hab hnot).not
    rw [Bool.not_not] at hnegated
    exact hnegated
  | same hr hnone => exact agrees_is ha hb hr hnone
  | distinct hr hnone =>
    have hnegated := (agrees_is (r := !r) ha hb (by simpa using hr) (by simpa using hnone)).not
    rw [Bool.not_not] at hnegated
    exact hnegated
  | other hother =>
    rcases hother with rfl | rfl
    · exact (not_admits_other ha).elim
    · exact (not_admits_other hb).elim

end Constant

namespace Value

variable {v w : Value} {a b : Concrete} {r : Bool}

theorem exists_unknown (h : v.hasUnknown = true) : ∃ o ∈ v, ∃ as, o = .unknown as := by
  obtain ⟨o, ho, hunknown⟩ := List.any_eq_true.mp h
  cases o with
  | unknown as => exact ⟨_, ho, as, rfl⟩
  | _ => simp [Object.isUnknown] at hunknown

theorem Plain.normal (h : v.Plain Constant.Normal) {c : Constant} (hc : .constant c ∈ v) : c.Normal := by
  rcases h with rfl | ⟨-, hall⟩
  · simp [unknown] at hc
  · obtain ⟨d, hd, hnormal⟩ := hall _ hc
    exact Object.constant.inj hd ▸ hnormal

theorem agrees_truth (hv : v.Plain Constant.Normal) (h : v.Admits a) (hr : a.Truth r) :
    v.truth.Agrees r := by
  rcases h with h | ⟨c, hc, hadmits⟩
  · obtain ⟨o, ho, as, rfl⟩ := exists_unknown h
    exact agrees_unanimous (List.mem_map_of_mem ho) agrees_maybe
  · exact agrees_unanimous (List.mem_map_of_mem hc) (Constant.agrees_truth (hv.normal hc) hadmits hr)

theorem exists_mem_of_admits (h : v.Admits a) : ∃ o, o ∈ v := by
  rcases h with h | ⟨c, hc, -⟩
  · obtain ⟨o, ho, -⟩ := exists_unknown h
    exact ⟨o, ho⟩
  · exact ⟨_, hc⟩

theorem agrees_compareBy {op : Comparator} (hv : v.Plain Constant.Normal) (hw : w.Plain Constant.Normal)
    (ha : v.Admits a) (hb : w.Admits b) (h : Concrete.Compares op a b r) : (compareBy op v w).Agrees r := by
  have hpair : ∀ x ∈ v, ∀ y ∈ w, (x.compare op y).Agrees r → (compareBy op v w).Agrees r :=
    fun x hx y hy => agrees_unanimous (List.mem_flatMap.mpr ⟨x, hx, List.mem_map_of_mem hy⟩)
  obtain ⟨x, hx⟩ := exists_mem_of_admits ha
  obtain ⟨y, hy⟩ := exists_mem_of_admits hb
  rcases ha with ha | ⟨c, hc, hca⟩
  · obtain ⟨o, ho, as, rfl⟩ := exists_unknown ha
    exact hpair _ ho y hy agrees_maybe
  rcases hb with hb | ⟨d, hd, hdb⟩
  · obtain ⟨o, ho, as, rfl⟩ := exists_unknown hb
    exact hpair x hx _ ho (by cases x <;> exact agrees_maybe)
  · exact hpair _ hc _ hd (Constant.agrees_compare (hv.normal hc) (hw.normal hd) hca hdb h)

theorem agrees_compare {op : String} (hv : v.Plain Constant.Normal) (hw : w.Plain Constant.Normal)
    (ha : v.Admits a) (hb : w.Admits b)
    (h : ∀ op', Comparator.ofText? op = some op' → Concrete.Compares op' a b r) :
    (Value.compare op v w).Agrees r := by
  unfold Value.compare
  split
  · rename_i op' hop
    exact agrees_compareBy hv hw ha hb (h op' hop)
  · exact agrees_maybe

end Value

end AbstractFlow
