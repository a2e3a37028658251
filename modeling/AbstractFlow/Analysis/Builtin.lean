import AbstractFlow.Analysis.Run
import AbstractFlow.Value.Convert

/-!
# Built-in functions

The built-in functions whose results are known. A program that binds one of their names hides it.
-/
namespace AbstractFlow

inductive Builtin where
  | len
  | isinstance
  | int
  | str
  | bool
  | list
  | tuple
  | set
  | dict
  | sum
deriving DecidableEq

namespace Builtin

def ofName? : String → Option Builtin
  | "len" => some len
  | "isinstance" => some isinstance
  | "int" => some int
  | "str" => some str
  | "bool" => some bool
  | "list" => some list
  | "tuple" => some tuple
  | "set" => some set
  | "dict" => some dict
  | "sum" => some sum
  | _ => none

/-- The classes that an object stands for as the second argument of `isinstance`, if it is a class
or holds nothing but classes. -/
def classesOf? : Object → Option (List String)
  | .classObject c => some [c.name]
  | .container c =>
    let classes := Value.classes c.elem
    if classes.length = c.elem.length then some (classes.map (·.name)) else none
  | _ => none

/-- Whether an object is an instance of one of the classes, if its class is known. -/
def isInstanceOf? (h : Hierarchy) (classes : List String) : Object → Option Bool
  | .instanceObject i => some (classes.any fun c => h.isSubclass i.className c)
  | _ => none

def agreed? : List (Option Bool) → Option Bool
  | [] => none
  | [x] => x
  | x :: rest => if rest.all (· == x) then x else none

/-- Definite only if every object is an instance of an analysed class, every class argument is an
analysed class, and all objects agree. -/
def isInstance (h : Hierarchy) (v cls : Value) : Value :=
  match cls.mapM classesOf? with
  | none => Value.anyBool
  | some classes =>
    match agreed? (v.map (isInstanceOf? h classes.flatten)) with
    | some b => Value.bool b
    | none => Value.anyBool

def emptyContainer (type : ContainerType) : Value := [.container (.ofBounds type [] [] 0 0)]

def apply (h : Hierarchy) : Builtin → List Value → Value
  | len, [] => Value.unknown
  | len, v :: _ => v.asLength
  | isinstance, v :: cls :: _ => isInstance h v cls
  | isinstance, _ => Value.anyBool
  | int, [] => Value.ints [0]
  | int, v :: _ => v.asInt
  | str, [] => Value.texts [""]
  | str, v :: _ => v.asString
  | bool, [] => Value.bool false
  | bool, v :: _ => v.asBool
  | list, [] => emptyContainer .list
  | list, v :: _ => v.asSequence .list
  | tuple, [] => emptyContainer .tuple
  | tuple, v :: _ => v.asSequence .tuple
  | set, [] => emptyContainer .set
  | set, v :: _ => v.asSequence .set
  | dict, [] => [.container (.dictOf [] [])]
  | dict, v :: _ => v.asDict
  | sum, [] => Value.unknown
  | sum, v :: _ => v.sum

end Builtin

end AbstractFlow
