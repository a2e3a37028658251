import AbstractFlow.Describe.Basic
import AbstractFlow.Flow.Snapshot
import AbstractFlow.Value.Compare
import AbstractFlow.Value.Text

/-!
# Descriptions of values

An object is described by its kind and its text, and then by what belongs to its kind.
-/
namespace AbstractFlow

def NumberSet.describe (s : NumberSet) : Description :=
  let number (x : Number) : Description := .text (numberText x)
  .record
    [("exact", .orNull (s.exact.map number)), ("lower", number s.lower), ("upper", number s.upper),
      ("zero", s.mayBeZero), ("neg", s.mayBeNegative), ("pos", s.mayBePositive)]

def StringSet.describe (s : StringSet) : Description :=
  let texts (ss : List ByteString) : List Description := ss.map fun s => .text s.text
  .record
    [("exact", .orNull (texts s.exact)), ("prefixes", .orNull (texts s.beginnings)),
      ("suffixes", .orNull (texts s.endings)), ("min", s.minLen), ("max", s.maxLen)]

def Constant.details (c : Constant) : Fields :=
  ("type", .text c.typeName) :: match c with
    | .number _ s => [("num", s.describe)]
    | .string s => [("str", s.describe)]
    | .none => []

/-- The size of a container; no bound is written as a negative one. -/
def sizeBound : Option Nat → Description
  | some n => .int n
  | none => .int (-1)

namespace Object

def described (o : Object) (details : Fields) : Description :=
  .record (("kind", .text o.kind.name) :: ("s", .text o.text) :: details)

mutual

def describe : Object → Description
  | .constant c => described (.constant c) c.details
  | .container ⟨type, elemTypes, elem, keyTypes, key, minSize, maxSize⟩ =>
    described (.container ⟨type, elemTypes, elem, keyTypes, key, minSize, maxSize⟩)
      [("type", type.name), ("elem_types", .texts elemTypes), ("elem", .list (describeAll elem)),
        ("key_types", .texts keyTypes), ("key", .list (describeAll key)), ("min", minSize),
        ("max", sizeBound maxSize)]
  | .classObject ⟨name, bases, methods, attrs⟩ =>
    described (.classObject ⟨name, bases, methods, attrs⟩)
      (("methods", .record (describeEntries methods)) :: attrsField attrs)
  | .unknown attrs => described (.unknown attrs) (attrsField attrs)
  | .function ⟨name, params, async, binding, getter, setter, attrs⟩ =>
    described (.function ⟨name, params, async, binding, getter, setter, attrs⟩) (attrsField attrs)
  | .instanceObject ⟨className, site, attrs⟩ =>
    described (.instanceObject ⟨className, site, attrs⟩) (attrsField attrs)
  | .external ⟨kind, module, name, attrs⟩ =>
    described (.external ⟨kind, module, name, attrs⟩) (attrsField attrs)

def describeAll : List Object → List Description
  | [] => []
  | o :: rest => o.describe :: describeAll rest

def attrsField : List (String × List Object) → Fields
  | [] => []
  | (name, v) :: rest =>
    [("attrs", .record ((name, .list (describeAll v)) :: describeEntries rest))]

def describeEntries : List (String × List Object) → Fields
  | [] => []
  | (name, v) :: rest => (name, .list (describeAll v)) :: describeEntries rest

end

end Object

namespace Value

def describe (v : Value) : Description := .list (Object.describeAll v)

def describeLookup (v : Option Value) : Description :=
  .record [("ok", v.isSome), ("v", describe (v.getD []))]

def describeFully (v : Value) : Description :=
  .record
    [("v", v.describe), ("s", v.text), ("len", v.length), ("empty", v.isEmpty),
      ("unknown", v.isUnknown),
      ("kinds", .texts ((Object.Kind.all.filter v.has).map Object.Kind.name)),
      ("identities", .texts (v.map Object.identity)), ("type_name", .texts (v.map Object.typeName)),
      ("type_names", .texts v.typeNames), ("definitely_constant", v.isDefinitelyConstant),
      ("possibly_constant", v.isPossiblyConstant),
      ("counts", .ints [v.constants.length, v.containers.length, v.functions.length,
        v.classes.length]),
      ("truthiness", v.truth.text), ("or_unknown", v.orUnknown.text)]

end Value

def Attrs.describe (as : Attrs) : Description := .record (Object.describeEntries as)

def Snapshot.describeTexts (s : Snapshot) : Description :=
  .record (s.map fun e => (e.1, .text (Value.text e.2)))

end AbstractFlow
