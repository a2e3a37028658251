import AbstractFlow.Analysis.Run

/-!
# Attributes and elements

Attributes are stored both on the objects that a variable holds and on what identifies them.
Elements are stored into every container that a variable may hold, whatever the index.
-/
namespace AbstractFlow

/-- How an oracle knows an object. -/
def Object.heapObject (o : Object) : HeapObject :=
  match o with
  | .instanceObject i => ⟨i.site, i.className⟩
  | .function f => ⟨f.name, "function"⟩
  | .classObject c => ⟨c.name, "type"⟩
  | .external e =>
    let name := e.module ++ "." ++ e.name
    match e.kind with
    | .instanceObject => ⟨name, name⟩
    | .function => ⟨name, "function"⟩
    | .classObject => ⟨name, "type"⟩
  | o => ⟨"", o.typeName⟩

def splitQualified (s : String) : String × String :=
  let reversed := s.toList.reverse
  let last := reversed.takeWhile (· ≠ '.')
  if last.length = reversed.length then ("", s)
  else (String.ofList (reversed.drop (last.length + 1)).reverse, String.ofList last.reverse)

def externalObject (kind : ExternalKind) (qualified : String) : Object :=
  let (module, name) := splitQualified qualified
  .external ⟨kind, module, name, []⟩

namespace State

/-- The object that an oracle means. -/
def materialize (s : State) (h : HeapObject) : Object :=
  match h.type with
  | "function" =>
    match s.function? h.site with
    | some f => .function f
    | none => externalObject .function h.site
  | "type" =>
    match s.hierarchy.class? h.site with
    | some c => .classObject c
    | none => externalObject .classObject h.site
  | type =>
    if (s.hierarchy.class? type).isSome then .instanceObject ⟨type, h.site, []⟩
    else if type.toList.contains '.' then externalObject .instanceObject type
    else .unknown []

def materializeAll (s : State) (hs : List HeapObject) : Value :=
  Value.ofObjects (hs.map s.materialize)

/-- An attribute of an object: its own together with what is stored on its identity, or else what
its class has. -/
def objectAttr? (s : State) (o : Object) (name : String) : Option Value :=
  let own := Dict.get? o.attrs name
  let stored := if o.identity = "" then none else s.heapAttr? o.identity name
  match own, stored with
  | none, none => o.attr? s.resolver name
  | some v, none => some v
  | own, some w => some ((own.getD []).merge w)

end State

namespace Run

variable {σ : Type}

/-- Whether an attribute of an object is a single location; only an oracle can tell. -/
def isSingleField (r : Run σ) (o : Object) (attr : String) : Bool × Run σ :=
  if r.oracle.isAvailable then
    let (answer, r) := r.ask (.isSingleton (.field o.heapObject (.attribute attr)) r.contextKey)
    (answer.asTruth, r)
  else (false, r)

/-- Stores an attribute on one object of a base, in the base and on the identity of the object. -/
def storeOn (attr : String) (v : Value) (acc : Value × Run σ) (o : Object) : Value × Run σ :=
  let (base, r) := acc
  let (strong, r) := r.isSingleField o attr
  let new := match Dict.get? o.attrs attr with
    | some old => if strong then v else old.merge v
    | none => v
  (base.replace o (o.withAttr attr new),
    { r with state := r.state.storeHeapAttr o.identity attr v strong })

def attrStore (r : Run σ) (object attr value : String) : Run σ :=
  let base := r.lookup object
  let (updated, r) := base.foldl (storeOn attr (r.lookup value)) (base, r)
  r.rebind object updated

/-- Loads an attribute from one object; the oracle is asked first. -/
def loadFrom (attr : String) (acc : Value × Run σ) (o : Object) : Value × Run σ :=
  let (out, r) := acc
  let (found, r) :=
    if r.oracle.isAvailable then
      let (answer, r) := r.ask (.fieldPointsTo o.heapObject (.attribute attr))
      (answer.asObjects, r)
    else ([], r)
  let v :=
    if found.isEmpty then (r.state.objectAttr? o attr).getD []
    else r.state.materializeAll found
  (out.merge v, r)

/-- The attribute of every object a base may hold; nothing found may be anything. -/
def attrLoad (r : Run σ) (object attr : String) : Value × Run σ :=
  let (out, r) := (r.lookup object).foldl (loadFrom attr) ([], r)
  (out.orUnknown, r)

def subscriptStore (r : Run σ) (object index value : String) : Run σ :=
  r.rebind object ((r.lookup object).store (r.lookup value) (r.lookup index))

end Run

def Object.element : Object → Value
  | .container c => c.elem
  | .constant (.string _) => Value.anyString
  | _ => Value.unknown

def Value.elements (v : Value) : Value := (Value.mergeAll (v.map Object.element)).orUnknown

end AbstractFlow
