import AbstractFlow.State.Variables
import AbstractFlow.Value.Attribute

/-!
# Classes, functions and the heap

Classes and functions by name, and the attributes stored on objects that have an identity.
-/
namespace AbstractFlow

namespace State

def registerClass (s : State) (name : String) (bases : List String) : State :=
  let s := s.registerScope name .classBody s.scopeName
  { s with hierarchy := s.hierarchy.register ⟨name, bases, [], []⟩ }

/-- Makes a value a member of a class, which is registered if need be. -/
def addMethod (s : State) (className name : String) (v : Value) : State :=
  let h :=
    if s.hierarchy.classes.contains className then s.hierarchy
    else s.hierarchy.register ⟨className, [], [], []⟩
  match h.class? className with
  | some c => { s with hierarchy := h.update (c.withMethod name v) }
  | none => s

def registerFunction (s : State) (fn : Function Value) : State :=
  let fn := match Dict.get? s.functions fn.name with
    | some known => known.mergeWith Value.merge fn
    | none => fn
  { s with functions := Dict.insert s.functions fn.name fn }

def function? (s : State) (name : String) : Option (Function Value) := Dict.get? s.functions name

def functionNames (s : State) : List String := Dict.keys s.functions

def heapAttrs (s : State) (identity : String) : Attrs := (s.heap.get? identity).getD []

def heapAttr? (s : State) (identity name : String) : Option Value :=
  Dict.get? (s.heapAttrs identity) name

/-- Stores an attribute of an object; a weak store joins with what is there. -/
def storeHeapAttr (s : State) (identity name : String) (v : Value) (strong : Bool) : State :=
  if identity = "" then s
  else
    let known := s.heapAttrs identity
    let v := match Dict.get? known name with
      | some old => if strong then v else old.merge v
      | none => v
    { s with heap := s.heap.insert identity (Dict.insert known name v) }

/-- A member of one class: of the class object, bound in its body, or stored on it. -/
def ownClassAttr? (s : State) (className name : String) : Option Value :=
  let declared := (s.hierarchy.class? className).bind fun c =>
    (Dict.get? c.attrs name).or (Dict.get? c.methods name)
  (declared.or (Memory.get? s.memory ⟨className, .root⟩ name)).or
    (s.heapAttr? ("class:" ++ className) name)

/-- A member of a class or of the first superclass that has it. -/
def lookupAttr? (s : State) (className name : String) : Option Value :=
  (s.hierarchy.mro className).findSome? fun c => s.ownClassAttr? c name

def resolver (s : State) : ClassResolver := s.lookupAttr?

end State

end AbstractFlow
