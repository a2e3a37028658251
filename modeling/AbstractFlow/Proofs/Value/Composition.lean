import AbstractFlow.Proofs.Value.Closed

/-! # Well-formed values

A value is well formed if it is in canonical form at every depth, down to the bounds and members of the
sets of its constants. Everything that the constructors give is well formed, and so is what merging,
storing, replacing, converting and looking up make of it, in any order and number of steps.
-/
namespace AbstractFlow

/-- The set of a constant is well formed; other objects have none. -/
def Object.Proper : Object → Prop
  | .constant c => c.WellFormed
  | _ => True

namespace Object

theorem Proper.withAttrs {o : Object} (h : o.Proper) (as : Attrs) : (o.withAttrs as).Proper := by
  cases o with
  | constant => exact h
  | _ => trivial

theorem stable_proper : Stable Proper where
  unknown _ := trivial
  constant hc := hc
  container _ := trivial
  withAttrs ho as := ho.withAttrs as
  withMethod _ _ _ := trivial
  mergeWith {x y} hx _ _ := by
    unfold mergeWith
    split
    · trivial
    · split
      · exact Constant.wellFormed_join hx
      · trivial
      · trivial
      · trivial
      · exact hx.withAttrs _

end Object

namespace Value

/-- At every depth: at most 25 objects of strictly increasing keys, what is unknown alone, and tidy
objects whose constants are well formed. -/
def WellFormed (v : Value) : Prop := v.Comprises Object.Proper

theorem closed_wellFormed : Closed WellFormed := closed_comprises Object.stable_proper

/-- What finitely many constructions, merges, updates, conversions and lookups give. The attributes of an
object are given under sorted names. -/
inductive Composed : Value → Prop where
  | empty : Composed []
  | ints (xs : List Int) : Composed (ints xs)
  | intRange (lower upper : Number) : Composed (intRange lower upper)
  | anyInt : Composed anyInt
  | floats (xs : List Number) : Composed (floats xs)
  | anyFloat : Composed anyFloat
  | numeric (type : NumericType) {s : NumberSet} (h : s.lower ≤ s.upper) : Composed (numeric type s)
  | bool (b : Bool) : Composed (bool b)
  | anyBool : Composed anyBool
  | strings (ss : List ByteString) : Composed (strings ss)
  | constrained (exact beginnings endings : List ByteString) (minLen : Int) {maxLen : Int} (h : -1 ≤ maxLen) :
      Composed [.constant (.string (.constrained exact beginnings endings minLen maxLen))]
  | anyString : Composed anyString
  | noneConstant : Composed noneConstant
  | unknown {as : Attrs} (hsorted : Dict.Sorted as) (has : ∀ e ∈ as, Composed e.2) : Composed [.unknown as]
  | function {f : Function Value} (hsorted : Dict.Sorted f.attrs) (has : ∀ e ∈ f.attrs, Composed e.2) :
      Composed [.function f]
  | classObject {c : Class Value} (hmethods : Dict.Sorted c.methods) (hattrs : Dict.Sorted c.attrs)
      (hms : ∀ e ∈ c.methods, Composed e.2) (has : ∀ e ∈ c.attrs, Composed e.2) : Composed [.classObject c]
  | instanceObject {i : Instance Value} (hsorted : Dict.Sorted i.attrs) (has : ∀ e ∈ i.attrs, Composed e.2) :
      Composed [.instanceObject i]
  | external {x : External Value} (hsorted : Dict.Sorted x.attrs) (has : ∀ e ∈ x.attrs, Composed e.2) :
      Composed [.external x]
  | ofBounds (type : ContainerType) {elem key : Value} (minSize maxSize : Int) (helem : Composed elem)
      (hkey : Composed key) : Composed [.container (.ofBounds type elem key minSize maxSize)]
  | ofElems (type : ContainerType) {vs : List Value} (hvs : ∀ v ∈ vs, Composed v) :
      Composed [.container (.ofElems type vs)]
  | setOf {vs : List Value} (hvs : ∀ v ∈ vs, Composed v) : Composed [.container (.setOf vs)]
  | dictOf {keys vs : List Value} (hkeys : ∀ v ∈ keys, Composed v) (hvs : ∀ v ∈ vs, Composed v) :
      Composed [.container (.dictOf keys vs)]
  | ofObjects {objs : List Object} (hobjs : ∀ o ∈ objs, Composed [o]) : Composed (ofObjects objs)
  | merge {a b : Value} (ha : Composed a) (hb : Composed b) : Composed (a.merge b)
  | mergeAll {vs : List Value} (hvs : ∀ v ∈ vs, Composed v) : Composed (mergeAll vs)
  | object {v : Value} {o : Object} (hv : Composed v) (ho : o ∈ v) : Composed [o]
  | inner {v w : Value} {o : Object} (hv : Composed v) (ho : o ∈ v) (hw : w ∈ o.inner) : Composed w
  | withAttr {o : Object} {w : Value} (name : String) (ho : Composed [o]) (hw : Composed w) :
      Composed [o.withAttr name w]
  | withMethod {c : Class Value} {w : Value} (name : String) (hc : Composed [.classObject c])
      (hw : Composed w) : Composed [.classObject (c.withMethod name w)]
  | withStore {c : Container Value} {elem key : Value} (hc : Composed [.container c]) (helem : Composed elem)
      (hkey : Composed key) : Composed [.container (c.withStore elem key)]
  | replace {v : Value} {old new : Object} (hv : Composed v) (hnew : Composed [new])
      (hkey : new.key = old.key) : Composed (v.replace old new)
  | asLength {v : Value} (hv : Composed v) : Composed v.asLength
  | asInt {v : Value} (hv : Composed v) : Composed v.asInt
  | asString {v : Value} (hv : Composed v) : Composed v.asString
  | asBool {v : Value} (hv : Composed v) : Composed v.asBool
  | asSequence (type : ContainerType) {v : Value} (hv : Composed v) : Composed (v.asSequence type)
  | asDict {v : Value} (hv : Composed v) : Composed v.asDict
  | sum {v : Value} (hv : Composed v) : Composed v.sum
  | attrWith {resolve : ClassResolver} {v : Value} (name : String)
      (hresolve : ∀ cls w, resolve cls name = some w → Composed w) (hv : Composed v) :
      Composed (v.attrWith resolve name)

/-- Every composition of operations keeps the form. -/
theorem wellFormed_of_composed {v : Value} (h : v.Composed) : v.WellFormed := by
  have hclosed := closed_wellFormed
  induction h with
  | empty => exact hclosed.nil
  | ints xs => exact hclosed.numbers _ _
  | intRange lower upper => exact hclosed.range _ _ _
  | anyInt => exact hclosed.anyInt
  | floats xs => exact hclosed.numbers _ _
  | anyFloat => exact hclosed.number _ NumberSet.wellFormed_any
  | numeric type h => exact hclosed.numeric_of_ordered type h
  | bool b => exact hclosed.numbers _ _
  | anyBool => exact hclosed.numbers _ _
  | strings ss => exact hclosed.strings ss
  | constrained exact beginnings endings minLen h => exact hclosed.string (s := ⟨_, _, _, _, _⟩) h
  | anyString => exact hclosed.anyString
  | noneConstant => exact hclosed.noneConstant
  | unknown hsorted _ has =>
    exact comprises_singleton.mpr ⟨hsorted, trivial, Object.inside_unknown.mpr has⟩
  | function hsorted _ has =>
    exact comprises_singleton.mpr ⟨hsorted, trivial, Object.inside_function.mpr has⟩
  | classObject hmethods hattrs _ _ hms has =>
    exact comprises_singleton.mpr ⟨⟨hmethods, hattrs⟩, trivial, Object.inside_classObject.mpr ⟨hms, has⟩⟩
  | instanceObject hsorted _ has =>
    exact comprises_singleton.mpr ⟨hsorted, trivial, Object.inside_instanceObject.mpr has⟩
  | external hsorted _ has =>
    exact comprises_singleton.mpr ⟨hsorted, trivial, Object.inside_external.mpr has⟩
  | ofBounds type minSize maxSize _ _ helem hkey => exact hclosed.ofBounds helem hkey _ _ _
  | ofElems type _ hvs => exact hclosed.ofElems hvs type
  | setOf _ hvs => exact hclosed.setOf hvs
  | dictOf _ _ hkeys hvs => exact hclosed.dictOf hkeys hvs
  | ofObjects _ hobjs => exact hclosed.ofObjects hobjs
  | merge _ _ ha hb => exact hclosed.merge ha hb
  | mergeAll _ hvs => exact hclosed.mergeAll hvs
  | object _ ho hv => exact hclosed.object hv ho
  | inner _ ho hw hv => exact hclosed.inner hv ho hw
  | withAttr name _ _ ho hw => exact hclosed.withAttr ho hw name
  | withMethod name _ _ hc hw => exact hclosed.withMethod hc hw name
  | withStore _ _ _ hc helem hkey => exact hclosed.withStore hc helem hkey
  | replace _ _ hkey hv hnew => exact hclosed.replace hv hnew hkey
  | asLength _ _ => exact hclosed.asLength _
  | asInt _ _ => exact hclosed.asInt _
  | asString _ hv => exact hclosed.asString hv
  | asBool _ _ => exact hclosed.asBool _
  | asSequence type _ hv => exact hclosed.asSequence type hv
  | asDict _ hv => exact hclosed.asDict hv
  | sum _ _ => exact hclosed.sum _
  | attrWith name _ _ hresolve hv => exact hclosed.attrWith (hresolve _ _) hv

/-- A list after a store, or the sum over it. -/
def storedList : Value :=
  let stored : Value := [.container ((Container.ofElems .list [ints [3, 1], anyFloat]).withStore noneConstant [])]
  stored.merge stored.sum

theorem wellFormed_of_composed_storedList : storedList.Composed ∧ storedList.WellFormed := by
  have helems : ∀ v ∈ [ints [3, 1], anyFloat], Composed v := by
    intro v hv
    rcases List.mem_pair.mp hv with rfl | rfl
    · exact .ints _
    · exact .anyFloat
  have hstored := Composed.withStore (.ofElems .list helems) .noneConstant .empty
  have hcomposed : storedList.Composed := .merge hstored (.sum hstored)
  exact ⟨hcomposed, wellFormed_of_composed hcomposed⟩

end Value

end AbstractFlow
