import AbstractFlow.Number.Word
import AbstractFlow.Value.Object

/-!
# Merging values

Merging joins two values into one that describes everything either of them may be. Objects of the
same key are merged pairwise, others stand side by side. The unknown object absorbs all others and
keeps the union of their attributes, and so does a value that holds too many objects.
-/
namespace AbstractFlow

namespace Container

def normalize (c : Container Value) : Container Value :=
  { c with
    elemTypes := Sorted.union c.elemTypes c.elem.typeNames
    keyTypes := Sorted.union c.keyTypes c.key.typeNames
    maxSize := c.maxSize.map (max c.minSize) }

/-- A container with sizes between the bounds; a negative upper bound is none at all. -/
def ofBounds (type : ContainerType) (elem key : Value) (minSize maxSize : Int) : Container Value :=
  normalize
    { type, elem, key
      elemTypes := []
      keyTypes := []
      minSize := minSize.toNat
      maxSize := if maxSize < 0 then none else some maxSize.toNat }

/-- The larger of two upper bounds. -/
def looserSize : Option Nat → Option Nat → Option Nat
  | some m, some n => some (max m n)
  | _, _ => none

def mergeWith (merge : Value → Value → Value) (c d : Container Value) : Container Value :=
  normalize
    { type := c.type
      elemTypes := Sorted.union c.elemTypes d.elemTypes
      elem := merge c.elem d.elem
      keyTypes := Sorted.union c.keyTypes d.keyTypes
      key := merge c.key d.key
      minSize := min c.minSize d.minSize
      maxSize := looserSize c.maxSize d.maxSize }

end Container

def Constant.join : Constant → Constant → Constant
  | .number t s, .number _ s' => .number t (s.join s')
  | .string s, .string s' => .string (s.join s')
  | c, _ => c

def Binding.join (a b : Binding) : Binding := if b.rank ≤ a.rank then a else b

namespace Function

/-- The longer parameter list, or of two equally long ones the smaller. -/
def widerParams (ps qs : List String) : List String :=
  if ps.length < qs.length ∨ (qs.length = ps.length ∧ ",".intercalate qs < ",".intercalate ps)
  then qs else ps

def mergeWith (merge : Value → Value → Value) (f g : Function Value) : Function Value :=
  { name := f.name
    params := widerParams f.params g.params
    async := f.async || g.async
    binding := f.binding.join g.binding
    getter := f.getter || g.getter
    setter := f.setter || g.setter
    attrs := Dict.mergeWith merge f.attrs g.attrs }

end Function

namespace Class

/-- Equal lists of bases stay as they are; different ones become their sorted union, which does
not depend on their order. -/
def joinBases (bs cs : List String) : List String :=
  if ",".intercalate bs = ",".intercalate cs then bs
  else Names.sort (cs.foldl (fun acc b => if b ∈ acc then acc else acc ++ [b]) bs)

def mergeWith (merge : Value → Value → Value) (c d : Class Value) : Class Value :=
  { name := c.name
    bases := joinBases c.bases d.bases
    methods := Dict.mergeWith merge c.methods d.methods
    attrs := Dict.mergeWith merge c.attrs d.attrs }

end Class

namespace Object

/-- Merges two objects, given how nested values are merged. Objects of different keys have
nothing in common but their attributes. -/
def mergeWith (merge : Value → Value → Value) (x y : Object) : Object :=
  if x.key ≠ y.key then .unknown (Dict.mergeWith merge x.attrs y.attrs)
  else match x, y with
    | .constant c, .constant d => .constant (c.join d)
    | .container c, .container d => .container (c.mergeWith merge d)
    | .function f, .function g => .function (f.mergeWith merge g)
    | .classObject c, .classObject d => .classObject (c.mergeWith merge d)
    | x, y => x.withAttrs (Dict.mergeWith merge x.attrs y.attrs)

end Object

namespace Value

/-- Values of more objects than this collapse. -/
def objectLimit : Nat := 25

/-- Everything absorbed into one unknown object. -/
def collapseWith (merge : Value → Value → Value) (objs : List Object) : Value :=
  [.unknown (objs.foldl (fun as o => Dict.mergeWith merge as o.attrs) [])]

/-- Merges an object into the last one of its key, or adds it at the end. -/
def absorbWith (merge : Value → Value → Value) (objs : List Object) (o : Object) : List Object :=
  match objs with
  | [] => [o]
  | x :: rest =>
    if x.key = o.key ∧ rest.all (·.key != o.key) then x.mergeWith merge o :: rest
    else x :: absorbWith merge rest o

/-- Merges two values, given how the values nested in them are merged. -/
def mergeWith (merge : Value → Value → Value) (a b : Value) : Value :=
  if a.isEmpty then b
  else if b.isEmpty then a
  else if a.hasUnknown || b.hasUnknown then collapseWith merge (a ++ b)
  else
    let objs := b.foldl (absorbWith merge) a
    if objectLimit < objs.length then collapseWith merge objs else canonical objs

/-- Merges values nested at most `n` deep. -/
def mergeAt : Nat → Value → Value → Value
  | 0, a, _ => a
  | n + 1, a, b => mergeWith (mergeAt n) a b

def merge (a b : Value) : Value := mergeAt (max a.depth b.depth) a b

def mergeAll (vs : List Value) : Value := vs.foldl merge []

def ofObjects (objs : List Object) : Value := mergeAll (objs.map fun o => [o])

end Value

/-- Key-wise union; what stands in both is merged. -/
def Attrs.merge (a b : Attrs) : Attrs := Dict.mergeWith Value.merge a b

def Object.merge (x y : Object) : Object := x.mergeWith Value.merge y

namespace Container

def ofElems (type : ContainerType) (elems : List Value) : Container Value :=
  ofBounds type (Value.mergeAll elems) [] elems.length elems.length

/-- A set of the given elements, some of which may be equal. -/
def setOf (elems : List Value) : Container Value :=
  let c := ofElems .set elems
  { c with minSize := min c.minSize 1 }

/-- A dictionary of the given keys, some of which may be equal, and their values. -/
def dictOf (keys values : List Value) : Container Value :=
  ofBounds .dict (Value.mergeAll (values.take keys.length)) (Value.mergeAll keys)
    (min keys.length 1) keys.length

/-- Sizes are counted in 64 bits; past the largest count a bound is lost. -/
def nextSize (n : Nat) : Option Nat := if n + 1 < Word.half then some (n + 1) else none

/-- The container after one store: it is not empty, and may have grown by one. -/
def withStore (c : Container Value) (elem key : Value) : Container Value :=
  normalize
    { c with
      elem := c.elem.merge elem
      key := if c.type = .dict then c.key.merge key else c.key
      minSize := max c.minSize 1
      maxSize := c.maxSize.bind nextSize }

end Container

/-- The value after a store into every container that it may be. -/
def Value.store (v : Value) (elem key : Value) : Value :=
  v.containers.foldl (fun w c => w.replace (.container c) (.container (c.withStore elem key))) v

end AbstractFlow
