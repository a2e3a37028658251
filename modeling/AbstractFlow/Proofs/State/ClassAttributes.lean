import AbstractFlow.Proofs.Hierarchy.Walk
import AbstractFlow.State.Objects

/-! # Attributes of classes and of their instances

An attribute of a class object is looked up in the object and then through the bases that it lists; an attribute of
an instance is looked up class by class in resolution order, where a class has besides the members of its object
what is bound in its body and what is stored on it. Beyond the class itself both ways find the same, but what is
bound in its body is found through an instance only.
-/
namespace AbstractFlow

def Class.member? (c : Class Value) (name : String) : Option Value :=
  (Dict.get? c.attrs name).or (Dict.get? c.methods name)

/-- Only the first place of a name on a list counts for what is found. -/
theorem List.findSome?_eraseDups {α : Type} (f : String → Option α) (names : List String) :
    names.eraseDups.findSome? f = names.findSome? f := by
  induction hn : names.length using Nat.strongRecOn generalizing names with
  | _ n ih =>
    cases names with
    | nil => rfl
    | cons name rest =>
      rw [List.eraseDups_cons, List.findSome?_cons, List.findSome?_cons]
      cases hfound : f name with
      | some v => rfl
      | none =>
        have hlt : (rest.filter fun x => !x == name).length < n := by
          have hle := rest.length_filter_le fun x => !x == name
          simp only [List.length_cons] at hn
          omega
        have hskip : (rest.filter fun x => !x == name).findSome? f = rest.findSome? f :=
          Hierarchy.Visits.findSome?_filter_of_none fun x hx => by
            simp only [Bool.not_eq_eq_eq_not, Bool.not_false, beq_iff_eq] at hx
            rw [hx, hfound]
        simp only [ih _ hlt _ rfl, hskip]

namespace State

variable {s : State} {cls name site : String} {c : Class Value}

/-- What is bound in the body of a class under a name, or else stored on the class. -/
def bound? (s : State) (cls name : String) : Option Value :=
  (Memory.get? s.memory ⟨cls, .root⟩ name).or (s.heapAttr? ("class:" ++ cls) name)

/-- What a class inherits under a name: what is found from the first of its bases from which anything is. -/
def inherited? (s : State) (cls name : String) : Option Value :=
  (s.hierarchy.directSupers cls).findSome? fun base => s.lookupAttr? base name

theorem ownClassAttr?_eq (hc : s.hierarchy.class? cls = some c) :
    s.ownClassAttr? cls name = (c.member? name).or (s.bound? cls name) := by
  rw [ownClassAttr?, hc, Option.or_assoc]
  rfl

/-- A member is found in the class itself or else inherited, unless the class inherits from itself. -/
theorem lookupAttr?_eq (hc : s.hierarchy.class? cls = some c) (hwalk : (s.hierarchy.walk cls).stopped = false)
    (hwalks : ∀ base ∈ s.hierarchy.directSupers cls, (s.hierarchy.walk base).stopped = false)
    (hacyclic : ¬ Relation.TransGen s.hierarchy.Inherits cls cls) :
    s.lookupAttr? cls name = (c.member? name).or ((s.bound? cls name).or (s.inherited? cls name)) := by
  have hbases : ∀ base ∈ s.hierarchy.directSupers cls, (s.hierarchy.walk base).stopped = false ∧
      cls ∉ s.hierarchy.mro base := by
    refine fun base hbase => ⟨hwalks base hbase, fun hmem => hacyclic (.head' hbase ?_)⟩
    exact Hierarchy.inherits_of_isSubclass (Hierarchy.isSubclass_iff_mem.mpr hmem)
  rw [← Option.or_assoc, ← ownClassAttr?_eq hc, lookupAttr?, Hierarchy.mro, List.findSome?_cons,
    Hierarchy.findSome?_superclasses _ hwalk hbases]
  cases s.ownClassAttr? cls name <;> rfl

/-- A class object has its own members, and else what is inherited through the bases that it lists. -/
theorem attr?_classObject (hbases : s.hierarchy.directSupers cls = c.bases.eraseDups) :
    (Object.classObject c).attr? s.resolver name = (c.member? name).or (s.inherited? cls name) := by
  rw [inherited?, hbases, List.findSome?_eraseDups, Object.attr?, ← Option.or_assoc]
  rfl

/-- A class and its instances agree on an attribute exactly if the class object itself holds it, or nothing is bound
to the name in its body or stored on it, or what is so bound is what the class inherits. -/
theorem attr?_classObject_eq_instance_iff (hc : s.hierarchy.class? cls = some c)
    (hbases : s.hierarchy.directSupers cls = c.bases.eraseDups) (hwalk : (s.hierarchy.walk cls).stopped = false)
    (hwalks : ∀ base ∈ s.hierarchy.directSupers cls, (s.hierarchy.walk base).stopped = false)
    (hacyclic : ¬ Relation.TransGen s.hierarchy.Inherits cls cls) :
    (Object.classObject c).attr? s.resolver name = (Object.instanceObject ⟨cls, site, []⟩).attr? s.resolver name ↔
      (c.member? name).isSome = true ∨ s.bound? cls name = none ∨ s.bound? cls name = s.inherited? cls name := by
  have hinstance : (Object.instanceObject ⟨cls, site, []⟩).attr? s.resolver name = s.lookupAttr? cls name := rfl
  rw [hinstance, lookupAttr?_eq hc hwalk hwalks hacyclic, attr?_classObject hbases]
  cases c.member? name with
  | some v => simp
  | none =>
    cases hbound : s.bound? cls name with
    | none => simp
    | some v => simp [eq_comm]

theorem not_inherits_self {h : Hierarchy} (hbases : ∀ base ∈ h.directSupers cls,
    (h.walk base).stopped = false ∧ cls ∉ h.mro base) : ¬ Relation.TransGen h.Inherits cls cls := by
  intro hself
  obtain ⟨base, hbase, hreach⟩ := Relation.TransGen.head'_iff.mp hself
  exact (hbases base hbase).2 (Hierarchy.mem_mro_of_inherits (hbases base hbase).1 hreach)

def fresh : State := .new ⟨.callSite, 1, true⟩

/-- A class with a method, and one that inherits it and has another attribute stored on it. -/
def derivedClass : State :=
  (((fresh.registerClass "A" []).registerClass "B" ["A"]).addMethod "A" "x" Value.noneConstant).storeHeapAttr
    "class:B" "y" Value.noneConstant true

theorem attr?_classObject_eq_instance_derived :
    (Object.classObject ⟨"B", ["A"], [], []⟩).attr? derivedClass.resolver "x" =
      (Object.instanceObject ⟨"B", "", []⟩).attr? derivedClass.resolver "x" := by
  have hbases : ∀ base ∈ derivedClass.hierarchy.directSupers "B",
      (derivedClass.hierarchy.walk base).stopped = false ∧ "B" ∉ derivedClass.hierarchy.mro base := by
    decide +kernel
  exact (attr?_classObject_eq_instance_iff (by rfl) (by decide +kernel) (by decide +kernel)
    (fun base hbase => (hbases base hbase).1) (not_inherits_self hbases)).mpr (.inr (.inl (by rfl)))

/-- No walk is given up from a class that is registered. -/
def Walked (s : State) : Bool := s.hierarchy.classNames.all fun name => !(s.hierarchy.walk name).stopped

/-- A class whose two definitions name different bases: its object lists them sorted. -/
def redefinedClass : State :=
  (((((fresh.registerClass "A" []).registerClass "B" []).registerClass "C" ["B"]).registerClass "C" ["A"]).addMethod
    "A" "x" Value.anyBool).addMethod "B" "x" Value.noneConstant

/-- A class that inherits from itself through its first base. -/
def circularClass : State :=
  ((((fresh.registerClass "C" ["B", "D"]).registerClass "B" ["C", "E"]).registerClass "D" []).addMethod
    "D" "x" Value.anyBool).addMethod "E" "x" Value.noneConstant

/-- What is bound in the body of a class is found through its instances, but the class has what it inherits in its
place. They also differ where bases are asked in another order, or one of them inherits from the class. -/
theorem class_misses_body :
    (∃ s c, (((fresh.registerClass "A" []).addMethod "A" "x" Value.anyBool).registerClass "B" ["A"]).setVariableIn
        "B" "x" Value.noneConstant = .ok s ∧ s.Walked = true ∧ s.hierarchy.class? "B" = some c ∧
      (Object.classObject c).attr? s.resolver "x" = some Value.anyBool ∧
      (Object.instanceObject ⟨"B", "", []⟩).attr? s.resolver "x" = some Value.noneConstant) ∧
    ∀ s ∈ [redefinedClass, circularClass], s.Walked = true ∧ ∃ c, s.hierarchy.class? "C" = some c ∧
      (Object.classObject c).attr? s.resolver "x" = some Value.anyBool ∧
      (Object.instanceObject ⟨"C", "", []⟩).attr? s.resolver "x" = some Value.noneConstant := by
  refine ⟨⟨_, _, rfl, by decide +kernel, by rfl, by rfl, by rfl⟩, fun s hs => ?_⟩
  obtain rfl | rfl : s = redefinedClass ∨ s = circularClass := by simpa using hs
  · exact ⟨by decide +kernel, _, by rfl, by rfl, by rfl⟩
  · exact ⟨by decide +kernel, _, by rfl, by rfl, by rfl⟩

end State

end AbstractFlow
