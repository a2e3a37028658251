import AbstractFlow.Value.Merge

/-!
# Attributes

Looking an attribute up in a value merges what its objects give. What an object does not hold
itself may be inherited through its class.
-/
namespace AbstractFlow

/-- Finds an attribute by class name and attribute name. -/
abbrev ClassResolver := String → String → Option Value

def ClassResolver.nothing : ClassResolver := fun _ _ => none

namespace Object

def attr? (resolve : ClassResolver) (name : String) (o : Object) : Option Value :=
  (Dict.get? o.attrs name).or <|
    match o with
    | .classObject c =>
      (Dict.get? c.methods name).or (c.bases.findSome? fun base => resolve base name)
    | .instanceObject i => resolve i.className name
    | _ => none

end Object

namespace Value

/-- The attribute of all objects that have it; empty if none has, which says nothing. -/
def attrWith (resolve : ClassResolver) (v : Value) (name : String) : Value :=
  mergeAll (v.filterMap (Object.attr? resolve name))

def attr (v : Value) (name : String) : Value := v.attrWith .nothing name

end Value

def Class.withMethod (c : Class Value) (name : String) (v : Value) : Class Value :=
  { c with methods := Dict.insert c.methods name v }

end AbstractFlow
