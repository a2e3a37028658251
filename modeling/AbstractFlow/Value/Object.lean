import AbstractFlow.Collection.Dict
import AbstractFlow.Value.NumberSet
import AbstractFlow.Value.StringSet

/-!
# Objects and values

An object describes one kind of thing a program location may hold. A value is everything the
location may hold: a list of objects in increasing order of their keys. The empty value means that
nothing has reached the location yet, which differs from a value holding an unknown object.
-/
namespace AbstractFlow

inductive NumericType where
  | int
  | float
  | bool
deriving DecidableEq

inductive ContainerType where
  | list
  | tuple
  | set
  | dict
deriving DecidableEq

/-- How a function found in a class binds the object it was loaded from. -/
inductive Binding where
  | plain
  | onInstance
  | static
  | onClass
deriving DecidableEq, Inhabited

inductive ExternalKind where
  | function
  | classObject
  | instanceObject
deriving DecidableEq

inductive Constant where
  | number (type : NumericType) (set : NumberSet)
  | string (set : StringSet)
  | none
deriving DecidableEq

/-- A built-in container. Its elements are described together, and so are the keys of a `dict`;
the lists of type names also remember what an unknown element has absorbed. -/
structure Container (V : Type) where
  type : ContainerType
  elemTypes : List String
  elem : V
  keyTypes : List String
  key : V
  minSize : Nat
  maxSize : Option Nat

structure Function (V : Type) where
  name : String
  params : List String
  async : Bool
  binding : Binding
  getter : Bool
  setter : Bool
  attrs : List (String × V)
deriving Inhabited

structure Class (V : Type) where
  name : String
  bases : List String
  methods : List (String × V)
  attrs : List (String × V)
deriving Inhabited

/-- An instance of a class; instances created at different places stay apart. -/
structure Instance (V : Type) where
  className : String
  site : String
  attrs : List (String × V)

structure External (V : Type) where
  kind : ExternalKind
  module : String
  name : String
  attrs : List (String × V)

inductive Object where
  | unknown (attrs : List (String × List Object))
  | constant (c : Constant)
  | container (c : Container (List Object))
  | function (f : Function (List Object))
  | classObject (c : Class (List Object))
  | instanceObject (i : Instance (List Object))
  | external (e : External (List Object))

abbrev Value := List Object

abbrev Attrs := Dict Value

def NumericType.name : NumericType → String
  | .int => "int"
  | .float => "float"
  | .bool => "bool"

def ContainerType.name : ContainerType → String
  | .list => "list"
  | .tuple => "tuple"
  | .set => "set"
  | .dict => "dict"

def Binding.name : Binding → String
  | .plain => "function"
  | .onInstance => "method"
  | .static => "staticmethod"
  | .onClass => "classmethod"

def Binding.rank : Binding → Nat
  | .plain => 0
  | .onInstance => 1
  | .static => 2
  | .onClass => 3

def Constant.typeName : Constant → String
  | .number t _ => t.name
  | .string _ => "str"
  | .none => "NoneType"

namespace Object

inductive Kind where
  | unknown
  | constant
  | container
  | function
  | classObject
  | instanceObject
  | externalFunction
  | externalClass
  | externalInstance
deriving DecidableEq

def Kind.name : Kind → String
  | .unknown => "unknown"
  | .constant => "constant"
  | .container => "container"
  | .function => "function"
  | .classObject => "class"
  | .instanceObject => "instance"
  | .externalFunction => "external-function"
  | .externalClass => "external-class"
  | .externalInstance => "external-instance"

def Kind.all : List Kind :=
  [.unknown, .constant, .container, .function, .classObject, .instanceObject, .externalFunction,
    .externalClass, .externalInstance]

def kind : Object → Kind
  | .unknown _ => .unknown
  | .constant _ => .constant
  | .container _ => .container
  | .function _ => .function
  | .classObject _ => .classObject
  | .instanceObject _ => .instanceObject
  | .external e => match e.kind with
    | .function => .externalFunction
    | .classObject => .externalClass
    | .instanceObject => .externalInstance

/-- Objects with the same key describe the same thing and are merged into one. -/
def key : Object → String
  | .unknown _ => "~unknown"
  | .constant c => "const:" ++ c.typeName
  | .container c => "container:" ++ c.type.name
  | .function f => "func:" ++ f.name
  | .classObject c => "class:" ++ c.name
  | .instanceObject i => "instance:" ++ i.className ++ "@" ++ i.site
  | .external e => match e.kind with
    | .function => "extfunc:" ++ e.module ++ "." ++ e.name
    | .classObject => "extclass:" ++ e.module ++ "." ++ e.name
    | .instanceObject => "extinstance:" ++ e.module ++ "." ++ e.name

def isUnknown : Object → Bool
  | .unknown _ => true
  | _ => false

/-- Constants and containers have no attributes. -/
def attrs : Object → Attrs
  | .unknown as => as
  | .constant _ | .container _ => []
  | .function f => f.attrs
  | .classObject c => c.attrs
  | .instanceObject i => i.attrs
  | .external e => e.attrs

def withAttrs (as : Attrs) : Object → Object
  | .unknown _ => .unknown as
  | .constant c => .constant c
  | .container c => .container c
  | .function f => .function { f with attrs := as }
  | .classObject c => .classObject { c with attrs := as }
  | .instanceObject i => .instanceObject { i with attrs := as }
  | .external e => .external { e with attrs := as }

def withAttr (o : Object) (name : String) (v : Value) : Object :=
  o.withAttrs (o.attrs.insert name v)

/-- The identity of objects that live on the heap; constants, containers and the unknown object
have none. -/
def identity (o : Object) : String :=
  match o with
  | .unknown _ | .constant _ | .container _ => ""
  | _ => o.key

/-- The name of the object's type at run time; the unknown object has none. -/
def typeName : Object → String
  | .unknown _ => ""
  | .constant c => c.typeName
  | .container c => c.type.name
  | .function _ => "function"
  | .classObject _ => "type"
  | .instanceObject i => i.className
  | .external e => match e.kind with
    | .function => "function"
    | .classObject => "type"
    | .instanceObject => e.module ++ "." ++ e.name

end Object

mutual

def Object.depth : Object → Nat
  | .unknown as => attrsDepth as + 1
  | .constant _ => 1
  | .container ⟨_, _, elem, _, key, _, _⟩ => max (valueDepth elem) (valueDepth key) + 1
  | .function ⟨_, _, _, _, _, _, as⟩ => attrsDepth as + 1
  | .classObject ⟨_, _, ms, as⟩ => max (attrsDepth ms) (attrsDepth as) + 1
  | .instanceObject ⟨_, _, as⟩ => attrsDepth as + 1
  | .external ⟨_, _, _, as⟩ => attrsDepth as + 1

def valueDepth : List Object → Nat
  | [] => 0
  | o :: os => max o.depth (valueDepth os)

def attrsDepth : List (String × List Object) → Nat
  | [] => 0
  | (_, v) :: rest => max (valueDepth v) (attrsDepth rest)

end

namespace Value

def depth (v : Value) : Nat := valueDepth v

def unknown : Value := [.unknown []]

def isUnknown : Value → Bool
  | [o] => o.isUnknown
  | _ => false

def hasUnknown (v : Value) : Bool := v.any Object.isUnknown

def has (v : Value) (k : Object.Kind) : Bool := v.any fun o => o.kind == k

def orUnknown (v : Value) : Value := if v.isEmpty then unknown else v

def constants (v : Value) : List Constant :=
  v.filterMap fun | .constant c => some c | _ => none

def containers (v : Value) : List (Container Value) :=
  v.filterMap fun | .container c => some c | _ => none

def functions (v : Value) : List (Function Value) :=
  v.filterMap fun | .function f => some f | _ => none

def classes (v : Value) : List (Class Value) :=
  v.filterMap fun | .classObject c => some c | _ => none

def isDefinitelyConstant (v : Value) : Bool :=
  !v.isEmpty && v.all fun o => o.kind == .constant

def isPossiblyConstant (v : Value) : Bool :=
  v.any fun o => o.kind == .constant || o.kind == .unknown

def typeNames (v : Value) : List String :=
  Sorted.ofList ((v.map Object.typeName).filter (· != ""))

/-- Places an object before those of a larger or equal key. -/
def place (o : Object) : List Object → List Object
  | [] => [o]
  | x :: rest => if x.key < o.key then x :: place o rest else o :: x :: rest

/-- Sorts objects by key; objects of the same key keep their order. -/
def canonical (objs : List Object) : Value := objs.foldr place []

/-- Puts another object in the place of those with the key of `old`. -/
def replace (v : Value) (old new : Object) : Value :=
  canonical (v.map fun o => if o.key = old.key then new else o)

end Value

end AbstractFlow
