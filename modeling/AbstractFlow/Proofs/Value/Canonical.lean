import AbstractFlow.Proofs.Collection.Semilattice
import AbstractFlow.Proofs.Value.Concrete
import AbstractFlow.Proofs.Value.Nesting

/-! # Canonical values

The values that constructors and merges build are in canonical form at every depth: at most 25 objects of
strictly increasing keys, what is unknown stands alone, and every object is tidy. The merge of two such
values either has absorbed everything into one unknown object, or it merges the objects key by key.
-/
namespace AbstractFlow

def Constant.Tidy : Constant → Prop
  | .number _ s => s.Tidy
  | .string s => s.Tidy
  | .none => True

/-- The names of types are sorted and up to date, and the bounds are in order. -/
structure Container.Tidy (c : Container Value) : Prop where
  elemTypes : c.elemTypes.Pairwise (· < ·)
  elemNames : c.elem.typeNames ⊆ c.elemTypes
  keyTypes : c.keyTypes.Pairwise (· < ·)
  keyNames : c.key.typeNames ⊆ c.keyTypes
  sizes : ∀ n, c.maxSize = some n → c.minSize ≤ n

def Object.Tidy : Object → Prop
  | .constant c => c.Tidy
  | .container c => c.Tidy
  | .classObject c => Dict.Sorted c.methods ∧ Dict.Sorted c.attrs
  | o => Dict.Sorted o.attrs

structure Value.Tidy (v : Value) : Prop where
  sorted : Dict.Sorted v.keyed
  few : v.length ≤ Value.objectLimit
  alone : v.hasUnknown = true → ∃ as, v = [.unknown as]
  objects : ∀ o ∈ v, o.Tidy

/-- A property that a value and all values nested in it have, however deep. -/
inductive Value.Everywhere (q : Value → Prop) : Value → Prop where
  | intro {v : Value} (here : q v) (inside : ∀ o ∈ v, ∀ w ∈ o.inner, Everywhere q w) : Everywhere q v

/-- In canonical form at every depth. -/
def Value.Canonical (v : Value) : Prop := v.Everywhere Value.Tidy

/-- What the constructors and merges give. The attributes of an object are given under sorted names. -/
inductive Value.Built : Value → Prop where
  | empty : Built []
  | number (type : NumericType) (s : NumberSet) : Built [.constant (.number type s.normalize)]
  | string (s : StringSet) : Built [.constant (.string s.normalize)]
  | none : Built [.constant .none]
  | container (type : ContainerType) {elem key : Value} (minSize maxSize : Int) (helem : Built elem)
      (hkey : Built key) : Built [.container (.ofBounds type elem key minSize maxSize)]
  | set {elems : List Value} (helems : ∀ v ∈ elems, Built v) : Built [.container (.setOf elems)]
  | unknown {as : Attrs} (hsorted : Dict.Sorted as) (has : ∀ e ∈ as, Built e.2) : Built [.unknown as]
  | function {f : Function Value} (hsorted : Dict.Sorted f.attrs) (has : ∀ e ∈ f.attrs, Built e.2) :
      Built [.function f]
  | classObject {c : Class Value} (hmethods : Dict.Sorted c.methods) (hattrs : Dict.Sorted c.attrs)
      (hms : ∀ e ∈ c.methods, Built e.2) (has : ∀ e ∈ c.attrs, Built e.2) : Built [.classObject c]
  | instanceObject {i : Instance Value} (hsorted : Dict.Sorted i.attrs) (has : ∀ e ∈ i.attrs, Built e.2) :
      Built [.instanceObject i]
  | external {x : External Value} (hsorted : Dict.Sorted x.attrs) (has : ∀ e ∈ x.attrs, Built e.2) :
      Built [.external x]
  | merge {a b : Value} (ha : Built a) (hb : Built b) : Built (a.merge b)

variable {m : Value → Value → Value} {q : Value → Prop} {a b : Value}

theorem Constant.tidy_join (c d : Constant) (hc : c.Tidy) : (c.join d).Tidy := by
  cases c <;> cases d <;> simp only [join]
  case number.number => exact NumberSet.tidy_join _ _
  case string.string => exact StringSet.tidy_join _ _
  all_goals exact hc

namespace Container

theorem tidy_normalize (c : Container Value) : c.normalize.Tidy := by
  refine ⟨Sorted.pairwise_ofList _, ?_, Sorted.pairwise_ofList _, ?_, ?_⟩
  · intro n hn
    exact Sorted.mem_union.mpr (Or.inr hn)
  · intro n hn
    exact Sorted.mem_union.mpr (Or.inr hn)
  · intro n hn
    obtain ⟨k, -, rfl⟩ := Option.map_eq_some_iff.mp hn
    exact Nat.le_max_left _ _

theorem tidy_setOf (elems : List Value) : (setOf elems).Tidy := by
  have h : (ofElems .set elems).Tidy := tidy_normalize _
  exact ⟨h.elemTypes, h.elemNames, h.keyTypes, h.keyNames, fun n hn =>
    (Nat.min_le_left _ _).trans (h.sizes n hn)⟩

end Container

namespace Object

theorem tidy_withAttrs {o : Object} {as : Attrs} (h : o.Tidy) (has : Dict.Sorted as) :
    (o.withAttrs as).Tidy := by
  cases o with
  | constant | container => exact h
  | classObject => exact ⟨h.1, has⟩
  | _ => exact has

theorem Tidy.attrs {o : Object} (h : o.Tidy) : Dict.Sorted o.attrs := by
  cases o with
  | constant | container => exact Dict.sorted_nil
  | classObject => exact h.2
  | _ => exact h

theorem tidy_mergeWith {x y : Object} (hx : x.Tidy) : (x.mergeWith m y).Tidy := by
  have hattrs := Dict.sorted_mergeWith m (e := y.attrs) hx.attrs
  unfold mergeWith
  split
  · exact hattrs
  · split
    · exact Constant.tidy_join _ _ hx
    · exact Container.tidy_normalize _
    · exact hattrs
    · exact ⟨Dict.sorted_mergeWith m hx.1, hattrs⟩
    · exact tidy_withAttrs hx hattrs

theorem isUnknown_mergeWith {x y : Object} (hx : x.isUnknown = false) (hkey : x.key = y.key) :
    (x.mergeWith m y).isUnknown = false := by
  unfold mergeWith
  rw [if_neg (not_not_intro hkey)]
  split
  · rfl
  · rfl
  · rfl
  · rfl
  · cases x with
    | unknown => cases hx
    | _ => rfl

end Object

namespace Value

theorem hasUnknown_eq_false {v : Value} : v.hasUnknown = false ↔ ∀ o ∈ v, o.isUnknown = false := by
  simp [hasUnknown]

/-- What merging objects of one key keeps is kept by absorbing objects. -/
theorem forall_absorbWith {P : Object → Prop} {objs : List Object} {o : Object}
    (hmerge : ∀ x, P x → x.key = o.key → P (x.mergeWith m o)) (hobjs : ∀ x ∈ objs, P x) (ho : P o) :
    ∀ x ∈ absorbWith m objs o, P x := by
  induction objs with
  | nil => exact List.forall_mem_singleton.mpr ho
  | cons y rest ih =>
    obtain ⟨hy, hrest⟩ := List.forall_mem_cons.mp hobjs
    unfold absorbWith
    split
    · rename_i hsame
      exact List.forall_mem_cons.mpr ⟨hmerge y hy hsame.1, hrest⟩
    · exact List.forall_mem_cons.mpr ⟨hy, ih hrest⟩

theorem forall_foldl_absorbWith {P : Object → Prop}
    (hmerge : ∀ x y, P x → P y → x.key = y.key → P (x.mergeWith m y)) (ha : ∀ x ∈ a, P x)
    (hb : ∀ y ∈ b, P y) : ∀ x ∈ b.foldl (absorbWith m) a, P x := by
  induction b generalizing a with
  | nil => exact ha
  | cons o rest ih =>
    obtain ⟨ho, hrest⟩ := List.forall_mem_cons.mp hb
    exact ih (forall_absorbWith (fun x hx => hmerge x o hx ho) ha ho) hrest

theorem nodup_keys_foldl_absorbWith (ha : (a.map Object.key).Nodup) :
    ((b.foldl (absorbWith m) a).map Object.key).Nodup := by
  induction b generalizing a with
  | nil => exact ha
  | cons o rest ih => exact ih (nodup_keys_absorbWith ha o)

/-- The attributes of objects, united from the first to the last. -/
def absorbed (m : Value → Value → Value) (objs : List Object) : Attrs :=
  objs.foldl (fun as o => Dict.mergeWith m as o.attrs) []

theorem collapseWith_eq (objs : List Object) : collapseWith m objs = [.unknown (absorbed m objs)] := rfl

theorem sorted_absorbed (m : Value → Value → Value) (objs : List Object) : Dict.Sorted (absorbed m objs) := by
  have hfold : ∀ as : Attrs, Dict.Sorted as →
      Dict.Sorted (objs.foldl (fun as o => Dict.mergeWith m as o.attrs) as) := by
    induction objs with
    | nil => exact fun as has => has
    | cons o rest ih => exact fun as has => ih _ (Dict.sorted_mergeWith m has)
  exact hfold [] Dict.sorted_nil

theorem tidy_unknown {as : Attrs} (h : Dict.Sorted as) : Tidy [.unknown as] :=
  ⟨List.pairwise_singleton _ _, by simp [objectLimit], fun _ => ⟨as, rfl⟩, List.forall_mem_singleton.mpr h⟩

theorem tidy_singleton {o : Object} (h : o.Tidy) : Tidy [o] := by
  refine ⟨List.pairwise_singleton _ _, by simp [objectLimit], fun hunknown => ?_, List.forall_mem_singleton.mpr h⟩
  cases o with
  | unknown as => exact ⟨as, rfl⟩
  | _ => cases hunknown

/-- What merging objects of one key keeps, and absorbing objects, holds of the objects of a merge. -/
theorem forall_mergeWith {P : Object → Prop}
    (hmerge : ∀ x y, P x → P y → x.key = y.key → P (x.mergeWith m y))
    (hunknown : ∀ objs, (∀ x ∈ objs, P x) → P (.unknown (absorbed m objs))) (ha : ∀ x ∈ a, P x)
    (hb : ∀ y ∈ b, P y) : ∀ x ∈ mergeWith m a b, P x := by
  have hfold := forall_foldl_absorbWith hmerge ha hb
  unfold mergeWith
  split
  · exact hb
  split
  · exact ha
  split
  · exact List.forall_mem_singleton.mpr (hunknown _ (List.forall_mem_append.mpr ⟨ha, hb⟩))
  dsimp only
  split
  · exact List.forall_mem_singleton.mpr (hunknown _ hfold)
  · exact fun x hx => hfold x (mem_canonical.mp hx)

theorem tidy_mergeWith (ha : a.Tidy) (hb : b.Tidy) : (mergeWith m a b).Tidy := by
  unfold mergeWith
  split
  · exact hb
  split
  · exact ha
  split
  · exact tidy_unknown (sorted_absorbed m _)
  rename_i hknown
  simp only [Bool.or_eq_true, not_or, Bool.not_eq_true, hasUnknown_eq_false] at hknown
  have hobjects := forall_foldl_absorbWith (m := m) (P := Object.Tidy)
    (fun x y hx _ _ => Object.tidy_mergeWith hx) ha.objects hb.objects
  have hstill := forall_foldl_absorbWith (m := m) (P := fun o => o.isUnknown = false)
    (fun x y hx _ hkey => Object.isUnknown_mergeWith hx hkey) hknown.1 hknown.2
  have hnodup := nodup_keys_foldl_absorbWith (m := m) (b := b) (nodup_keys ha.sorted)
  dsimp only
  split
  · exact tidy_unknown (sorted_absorbed m _)
  · rename_i hfew
    refine ⟨(canonical_spec hnodup).1, ?_, fun hunknown => ?_, fun o ho => hobjects o (mem_canonical.mp ho)⟩
    · rw [length_canonical]
      omega
    · have hfalse : (canonical (b.foldl (absorbWith m) a)).hasUnknown = false :=
        hasUnknown_eq_false.mpr fun o ho => hstill o (mem_canonical.mp ho)
      rw [hfalse] at hunknown
      cases hunknown

/-- The objects of a value under their keys, unless it is unknown. -/
def known (v : Value) : Option (Dict Object) := if v.hasUnknown then none else some v.keyed

theorem known_eq_none {v : Value} : v.known = none ↔ v.hasUnknown = true := by
  cases h : v.hasUnknown <;> simp [known, h]

theorem known_eq_some {v : Value} (h : v.hasUnknown = false) : v.known = some v.keyed := by
  simp [known, h]

/-- What is known is merged key by key, and lost where there are too many objects. -/
theorem known_mergeWith (ha : a.Tidy) (hb : b.Tidy) :
    known (mergeWith m a b) =
      joinUpTo objectLimit List.length (Dict.mergeWith (Object.mergeWith m)) a.known b.known := by
  have hempty : ∀ v : Value, v.Tidy → v.keyed.length ≤ objectLimit := by
    intro v hv
    rw [length_keyed]
    exact hv.few
  -- In turn: an empty side, something unknown, too many objects, and objects that are merged by their keys.
  unfold mergeWith
  split
  · rename_i hnil
    rw [List.isEmpty_iff.mp hnil]
    cases hunknown : b.hasUnknown with
    | true => rw [known_eq_none.mpr hunknown, joinUpTo_none]
    | false =>
      rw [known_eq_some hunknown, known_eq_some rfl, joinUpTo, keyed_nil, Dict.nil_mergeWith _ hb.sorted,
        if_pos (hempty b hb)]
  split
  · rename_i hnil
    rw [List.isEmpty_iff.mp hnil]
    cases hunknown : a.hasUnknown with
    | true => rw [known_eq_none.mpr hunknown, none_joinUpTo]
    | false =>
      rw [known_eq_some hunknown, known_eq_some rfl, joinUpTo]
      exact (if_pos (hempty a ha)).symm
  split
  · rename_i hunknown
    rw [known_eq_none.mpr rfl]
    rcases Bool.or_eq_true_iff.mp hunknown with hunknown | hunknown
    · rw [known_eq_none.mpr hunknown, none_joinUpTo]
    · rw [known_eq_none.mpr hunknown, joinUpTo_none]
  rename_i hknown
  simp only [Bool.or_eq_true, not_or, Bool.not_eq_true] at hknown
  have hstill : (canonical (b.foldl (absorbWith m) a)).hasUnknown = false := by
    have hall := forall_foldl_absorbWith (m := m) (P := fun o => o.isUnknown = false)
      (fun x y hx _ hkey => Object.isUnknown_mergeWith hx hkey) (hasUnknown_eq_false.mp hknown.1)
      (hasUnknown_eq_false.mp hknown.2)
    exact hasUnknown_eq_false.mpr fun o ho => hall o (mem_canonical.mp ho)
  have hkeyed := keyed_canonical_absorb (m := m) (b := b) ha.sorted
  rw [known_eq_some hknown.1, known_eq_some hknown.2, joinUpTo, ← hkeyed, length_keyed, length_canonical]
  dsimp only
  split
  · rw [known_eq_none.mpr rfl, if_neg (by omega)]
  · rw [known_eq_some hstill, if_pos (by omega)]

theorem tidy_merge (ha : a.Tidy) (hb : b.Tidy) : (a.merge b).Tidy := by
  rw [merge_eq]
  exact tidy_mergeWith ha hb

theorem keyed_merge_of_known (ha : a.Tidy) (hb : b.Tidy) (h : (a.merge b).hasUnknown = false) :
    keyed (a.merge b) = Dict.mergeWith (Object.mergeWith merge) (keyed a) (keyed b) := by
  have hmerge := known_mergeWith (m := merge) ha hb
  rw [← merge_eq, known_eq_some h] at hmerge
  cases hunknown : a.hasUnknown with
  | true => simp [known_eq_none.mpr hunknown, none_joinUpTo] at hmerge
  | false =>
    cases hunknown' : b.hasUnknown with
    | true => simp [known_eq_none.mpr hunknown', joinUpTo_none] at hmerge
    | false =>
      rw [known_eq_some hunknown, known_eq_some hunknown', joinUpTo] at hmerge
      split at hmerge
      · exact Option.some.inj hmerge
      · cases hmerge

theorem everywhere_iff {v : Value} : v.Everywhere q ↔ q v ∧ v.Inside (Everywhere q) :=
  ⟨fun ⟨here, inside⟩ => ⟨here, inside⟩, fun h => ⟨h.1, h.2⟩⟩

/-- What holds at every depth of a value holds here, and at every depth of what is nested in it. -/
theorem everywhere_depth_succ (q : Value → Prop) (n : Nat) :
    (fun v : Value => v.depth ≤ n + 1 ∧ v.Everywhere q) =
      fun v => q v ∧ v.Inside fun w => w.depth ≤ n ∧ w.Everywhere q := by
  funext v
  rw [eq_iff_iff, depth_le_succ, everywhere_iff]
  constructor
  · rintro ⟨hdepth, here, hinside⟩
    exact ⟨here, fun o ho w hw => ⟨hdepth o ho w hw, hinside o ho w hw⟩⟩
  · rintro ⟨here, hinside⟩
    exact ⟨fun o ho w hw => (hinside o ho w hw).1, here, fun o ho w hw => (hinside o ho w hw).2⟩

theorem everywhere_nil (h : q []) : Everywhere q [] := ⟨h, by simp⟩

theorem everywhere_singleton {o : Object} (h : q [o]) (ho : o.Inside (Everywhere q)) : Everywhere q [o] :=
  ⟨h, List.forall_mem_singleton.mpr ho⟩

/-- What holds at every depth of two values holds at every depth of their merge, if merging keeps it. -/
theorem Everywhere.merge (hmerge : ∀ {a b : Value}, q a → q b → q (a.merge b)) (ha : a.Everywhere q)
    (hb : b.Everywhere q) : (a.merge b).Everywhere q := by
  suffices hdepth : ∀ n : Nat, ∀ {a b : Value}, a.depth ≤ n ∧ a.Everywhere q → b.depth ≤ n ∧ b.Everywhere q →
      (a.merge b).depth ≤ n ∧ (a.merge b).Everywhere q from
    (hdepth (max a.depth b.depth) ⟨Nat.le_max_left _ _, ha⟩ ⟨Nat.le_max_right _ _, hb⟩).2
  intro n
  induction n with
  | zero =>
    rintro a b ⟨hadepth, ha⟩ ⟨hbdepth, hb⟩
    rw [depth_eq_zero.mp (Nat.le_zero.mp hadepth)] at ha ⊢
    rw [depth_eq_zero.mp (Nat.le_zero.mp hbdepth)]
    exact ⟨Nat.le_refl 0, ha⟩
  | succ n ih =>
    rintro a b ⟨hadepth, ha⟩ ⟨hbdepth, hb⟩
    refine ⟨depth_merge_le hadepth hbdepth, ?_⟩
    obtain ⟨ha, hainside⟩ := everywhere_iff.mp ha
    obtain ⟨hb, hbinside⟩ := everywhere_iff.mp hb
    -- What is nested in the merge is nested in either value or merged of such values.
    have hinside := (mergeWith_agree (AgreeOn.refl (p := fun v => v.depth ≤ n ∧ v.Everywhere q) ih)
      (fun o ho w hw => ⟨depth_le_succ.mp hadepth o ho w hw, hainside o ho w hw⟩)
      (fun o ho w hw => ⟨depth_le_succ.mp hbdepth o ho w hw, hbinside o ho w hw⟩)).2
    rw [← merge_eq] at hinside
    exact ⟨hmerge ha hb, fun o ho w hw => (hinside o ho w hw).2⟩

theorem Canonical.merge (ha : a.Canonical) (hb : b.Canonical) : (a.merge b).Canonical :=
  Everywhere.merge tidy_merge ha hb

theorem canonical_nil : Canonical [] :=
  everywhere_nil ⟨Dict.sorted_nil, by simp, by simp [hasUnknown], by simp⟩

theorem canonical_mergeAll {vs : List Value} (h : ∀ v ∈ vs, v.Canonical) : (mergeAll vs).Canonical :=
  mergeAll_of_forall canonical_nil Canonical.merge h

theorem canonical_object {o : Object} (h : o.Tidy) (hinside : o.Inside Canonical) : Canonical [o] :=
  everywhere_singleton (tidy_singleton h) hinside

theorem Canonical.tidy (h : a.Canonical) : a.Tidy := (everywhere_iff.mp h).1

theorem Canonical.container (h : a.Canonical) {c : Container Value} (hc : .container c ∈ a) :
    c.elem.Canonical ∧ c.key.Canonical :=
  Object.inside_container.mp ((everywhere_iff.mp h).2 _ hc)

theorem Canonical.constant (h : a.Canonical) {c : Constant} (hc : .constant c ∈ a) : c.Tidy :=
  h.tidy.objects _ hc

theorem Built.canonical {v : Value} (h : v.Built) : v.Canonical := by
  induction h with
  | empty => exact canonical_nil
  | number type s => exact canonical_object (NumberSet.tidy_normalize s) (Object.inside_constant _)
  | string s => exact canonical_object (StringSet.tidy_normalize s) (Object.inside_constant _)
  | none => exact canonical_object trivial (Object.inside_constant _)
  | container type minSize maxSize _ _ helem hkey =>
    exact canonical_object (Container.tidy_normalize _) (Object.inside_container.mpr ⟨helem, hkey⟩)
  | set _ helems =>
    exact canonical_object (Container.tidy_setOf _)
      (Object.inside_container.mpr ⟨canonical_mergeAll helems, canonical_nil⟩)
  | unknown hsorted _ has => exact canonical_object hsorted (Object.inside_unknown.mpr has)
  | function hsorted _ has => exact canonical_object hsorted (Object.inside_function.mpr has)
  | classObject hmethods hattrs _ _ hms has =>
    exact canonical_object ⟨hmethods, hattrs⟩ (Object.inside_classObject.mpr ⟨hms, has⟩)
  | instanceObject hsorted _ has => exact canonical_object hsorted (Object.inside_instanceObject.mpr has)
  | external hsorted _ has => exact canonical_object hsorted (Object.inside_external.mpr has)
  | merge _ _ ha hb => exact Canonical.merge ha hb

end Value

end AbstractFlow
