import AbstractFlow.Proofs.Scalar.Convergence
import AbstractFlow.Proofs.Value.Verdict

/-! # Executions of scalar bodies

A moment of an execution is a position in the body and a store of the variables assigned so far. A
snapshot admits a store if it admits what every assigned variable holds; what a statement reads and
tests in such a store is admitted by what the analysis finds in the snapshot.
-/
namespace AbstractFlow

abbrev Store := String → Option Concrete

structure Moment where
  position : Nat
  store : Store

namespace Store

variable (σ : Store)

def set (t : String) (a : Concrete) : Store := if t = "" then σ else Function.update σ t (some a)

/-- What reading a name can give: anything if there is no name, and nothing if it is not assigned. -/
def Reads (x : String) (a : Concrete) : Prop := x = "" ∨ σ x = some a

def Holds : Operand → Concrete → Prop
  | .variable x, a => σ.Reads x a
  | .literal l, a => a = l.concrete

/-- The results that a test can have. -/
def Evaluates : Test → Bool → Prop
  | .name x, r => ∃ a, σ.Reads x a ∧ a.Truth r
  | .literal l, r => l.concrete.Truth r
  | .compare left op right, r => ∃ a b, σ.Holds left a ∧ σ.Holds right b ∧
      ∀ op', Comparator.ofText? op = some op' → Concrete.Compares op' a b r

end Store

/-- One statement is executed. Whatever raises leads nowhere. -/
inductive Moment.Leads (body : List Stmt) : Moment → Moment → Prop where
  | const {i σ t l} (h : body[i]? = some (.const t l)) : Leads body ⟨i, σ⟩ ⟨i + 1, σ.set t l.concrete⟩
  | assign {i σ t x a} (h : body[i]? = some (.assign t x)) (hx : σ.Reads x a) :
      Leads body ⟨i, σ⟩ ⟨i + 1, σ.set t a⟩
  | unknown {i σ t xs} (a : Concrete) (h : body[i]? = some (.expr t xs)) :
      Leads body ⟨i, σ⟩ ⟨i + 1, σ.set t a⟩
  | taken {i j σ sense test l} (h : body[i]? = some (.jump sense test l)) (ht : σ.Evaluates test sense)
      (hj : IsTarget body l j) : Leads body ⟨i, σ⟩ ⟨j, σ⟩
  | passed {i σ sense test l} (h : body[i]? = some (.jump sense test l))
      (ht : σ.Evaluates test (!sense)) : Leads body ⟨i, σ⟩ ⟨i + 1, σ⟩
  | goto {i j σ l} (h : body[i]? = some (.goto l)) (hj : IsTarget body l j) : Leads body ⟨i, σ⟩ ⟨j, σ⟩
  | label {i σ l} (h : body[i]? = some (.label l)) : Leads body ⟨i, σ⟩ ⟨i + 1, σ⟩

theorem Moment.Leads.lt {body : List Stmt} {p q : Moment} (h : Leads body p q) :
    p.position < body.length := by
  cases h <;> exact (List.getElem?_eq_some_iff.mp ‹_›).1

/-- An execution leads from one moment to another. -/
def Scope.LeadsTo (s : Scope) : Moment → Moment → Prop := Relation.ReflTransGen (Moment.Leads s.body)

/-- The moments of all executions, which start at the first statement with nothing assigned. -/
def Scope.Reaches (s : Scope) : Moment → Prop := s.LeadsTo ⟨0, fun _ => none⟩

def Operand.literals : Operand → List Literal
  | .literal l => [l]
  | _ => []

def Test.literals : Test → List Literal
  | .name _ => []
  | .literal l => [l]
  | .compare left _ right => left.literals ++ right.literals

def Stmt.literals : Stmt → List Literal
  | .const _ l => [l]
  | .jump _ test _ => test.literals
  | _ => []

namespace Snapshot

variable {s t u : Snapshot} {σ : Store} {x : String} {a : Concrete}

/-- A snapshot binds a variable to a value that admits a concrete one. -/
def Allows (s : Snapshot) (x : String) (a : Concrete) : Prop := ∃ v, Dict.get? s x = some v ∧ v.Admits a

/-- A snapshot allows what every assigned variable of a store holds. -/
def Admits (s : Snapshot) (σ : Store) : Prop := ∀ x a, σ x = some a → s.Allows x a

/-- Whatever one snapshot allows, the other allows too. -/
def Below (s t : Snapshot) : Prop := ∀ x a, s.Allows x a → t.Allows x a

theorem Below.refl (s : Snapshot) : s.Below s := fun _ _ h => h

theorem Below.trans (h : s.Below t) (h' : t.Below u) : s.Below u := fun x a ha => h' x a (h x a ha)

theorem Admits.mono (h : s.Admits σ) (hst : s.Below t) : t.Admits σ := fun x a hx => hst x a (h x a hx)

theorem nil_below (s : Snapshot) : Below [] s := by
  rintro x a ⟨v, hv, -⟩
  simp [Dict.get?] at hv

theorem admits_unassigned (s : Snapshot) : s.Admits fun _ => none := fun _ _ h => nomatch h

theorem Admits.set (h : s.Admits σ) (ha : x ≠ "" → s.Allows x a) : s.Admits (σ.set x a) := by
  intro y b hy
  unfold Store.set at hy
  split at hy
  · exact h y b hy
  · rename_i hx
    by_cases hyx : y = x
    · subst hyx
      rw [Function.update_self, Option.some.injEq] at hy
      exact hy ▸ ha hx
    · rw [Function.update_of_ne hyx] at hy
      exact h y b hy

/-- Plain values under increasing names. -/
def Plain (s : Snapshot) : Prop := Dict.Sorted s ∧ Dict.Each (fun _ v => v.Plain Constant.Normal) s

theorem Within.plain {e : Extent} (h : s.Within e) : s.Plain := by
  refine ⟨h.1, fun b hb => (h.2 b hb).2.mono fun c hc => ?_⟩
  cases c with
  | number _ n => exact NumberSet.Within.toNormal hc
  | string n => exact StringSet.Within.toNormal hc
  | none => trivial

theorem Plain.get? (h : s.Plain) {v : Value} (hv : Dict.get? s x = some v) : v.Plain Constant.Normal :=
  h.2.get? hv

theorem below_merge (hs : s.Plain) (ht : t.Plain) : s.Below (s.merge t) ∧ t.Below (s.merge t) := by
  have hget := fun x => Dict.get?_mergeWith Value.merge x hs.1 ht.1
  refine ⟨?_, ?_⟩
  · rintro x a ⟨v, hv, ha⟩
    cases hw : Dict.get? t x with
    | none => exact ⟨v, (hget x).trans (by rw [hv, hw]; rfl), ha⟩
    | some w =>
      refine ⟨v.merge w, (hget x).trans (by rw [hv, hw]; rfl), ?_⟩
      exact Value.admits_merge (hs.get? hv) (ht.get? hw) (Or.inl ha)
  · rintro x a ⟨w, hw, ha⟩
    cases hv : Dict.get? s x with
    | none => exact ⟨w, (hget x).trans (by rw [hv, hw]; rfl), ha⟩
    | some v =>
      refine ⟨v.merge w, (hget x).trans (by rw [hv, hw]; rfl), ?_⟩
      exact Value.admits_merge (hs.get? hv) (ht.get? hw) (Or.inr ha)

end Snapshot

namespace Sweep

variable {m : Sweep} {frame snap : Snapshot} {σ : Store} {x t : String} {a : Concrete} {r : Bool}

theorem plain_lookup (h : m.frame.Plain) (x : String) : (m.lookup x).Plain Constant.Normal := by
  unfold lookup
  split
  · exact Value.plain_unknown
  · cases hx : Dict.get? m.frame x with
    | none => exact Value.plain_unknown
    | some v => exact h.get? hx

theorem admits_lookup (h : m.frame.Admits σ) (hx : σ.Reads x a) : (m.lookup x).Admits a := by
  unfold lookup
  split
  · exact Value.admits_unknown
  · rename_i hne
    obtain ⟨v, hv, ha⟩ := h x a (hx.resolve_left hne)
    rw [hv]
    exact ha

theorem plain_operand (h : m.frame.Plain) (o : Operand) : (m.operand o).Plain Constant.Normal := by
  rcases o with x | l
  · exact plain_lookup h x
  · exact l.plain_value

theorem admits_operand (h : m.frame.Admits σ) {o : Operand} (hl : ∀ l ∈ o.literals, l.isExact = true)
    (ho : σ.Holds o a) : (m.operand o).Admits a := by
  rcases o with x | l
  · exact admits_lookup h ho
  · have ho : a = l.concrete := ho
    rw [ho]
    exact l.admits_value (hl l (List.mem_singleton_self l))

/-- A test that is decided has the result that it was decided to have. -/
theorem agrees_evaluate (hplain : m.frame.Plain) (h : m.frame.Admits σ) {test : Test}
    (hl : ∀ l ∈ test.literals, l.isExact = true) (ht : σ.Evaluates test r) : (m.evaluate test).Agrees r := by
  rcases test with x | l | ⟨left, op, right⟩
  · obtain ⟨a, hx, ha⟩ := ht
    exact Value.agrees_truth (plain_lookup hplain x) (admits_lookup h hx) ha
  · exact Value.agrees_truth l.plain_value (l.admits_value (hl l (List.mem_singleton_self l))) ht
  · obtain ⟨a, b, ha, hb, hr⟩ := ht
    exact Value.agrees_compare (plain_operand hplain left) (plain_operand hplain right)
      (admits_operand h (fun l hmem => hl l (List.mem_append_left _ hmem)) ha)
      (admits_operand h (fun l hmem => hl l (List.mem_append_right _ hmem)) hb) hr

theorem allows_bound (h : frame.Plain) {v : Value} (hv : v.Plain Constant.Normal) (t : String) :
    frame.Below (bound frame t v) ∧ (t ≠ "" → ∀ a, v.Admits a → (bound frame t v).Allows t a) := by
  unfold bound
  split
  · rename_i ht
    exact ⟨Snapshot.Below.refl frame, fun hne => absurd ht hne⟩
  · have hget := fun x => Dict.get?_insert t x (((Dict.get? frame t).getD []).merge v) frame
    have hold : ((Dict.get? frame t).getD []).Plain Constant.Normal := by
      cases ht : Dict.get? frame t with
      | none => exact Value.plain_nil
      | some w => exact h.get? ht
    refine ⟨?_, fun _ a ha => ?_⟩
    · rintro x a ⟨w, hw, ha⟩
      by_cases hxt : x = t
      · subst hxt
        refine ⟨_, (hget x).trans (if_pos rfl), Value.admits_merge hold hv (Or.inl ?_)⟩
        rw [hw]
        exact ha
      · exact ⟨w, (hget x).trans ((if_neg hxt).trans hw), ha⟩
    · exact ⟨_, (hget t).trans (if_pos rfl), Value.admits_merge hold hv (Or.inr ha)⟩

theorem below_restored (hframe : Dict.Sorted frame) (hsnap : Dict.Sorted snap) (h : frame.Below snap) :
    frame.Below (restored frame snap) := by
  intro x a ha
  obtain ⟨v, hv, hadmits⟩ := h x a ha
  exact ⟨v, by rw [get?_restored hframe hsnap, hv]; rfl, hadmits⟩

/-- What is kept for a merge point after a visit covers the frame and what was kept before. -/
theorem below_arriving (h : m.frame.Plain) (hsaved : ∀ i s, m.saved i = some s → s.Plain) (i : Nat) :
    m.frame.Below (m.arriving i) ∧ ∀ s, m.saved i = some s → s.Below (m.arriving i) := by
  unfold arriving
  cases hs : m.saved i with
  | none => exact ⟨Snapshot.Below.refl _, fun _ hs => nomatch hs⟩
  | some s =>
    have hmerge := Snapshot.below_merge (hsaved i s hs) h
    exact ⟨hmerge.2, fun s' hs' => Option.some.inj hs' ▸ hmerge.1⟩

end Sweep

end AbstractFlow
