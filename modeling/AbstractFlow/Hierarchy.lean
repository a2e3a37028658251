import AbstractFlow.Collection.Table
import AbstractFlow.Value.Merge

/-!
# Class hierarchies

The classes of the analysed program with their direct superclasses and subclasses. Superclasses
are found depth first from left to right; the walk is given up altogether when it goes too deep.
-/
namespace AbstractFlow

structure Hierarchy where
  classes : Table String (Class Value)
  supers : Table String (List String)
  subs : Table String (List String)
  /-- The classes from which a walk was given up. -/
  truncated : List String

namespace Hierarchy

def empty : Hierarchy := ⟨[], [], [], []⟩

def class? (h : Hierarchy) (name : String) : Option (Class Value) := h.classes.get? name

def classNames (h : Hierarchy) : List String := h.classes.keys

/-- The declared bases, in the order in which they became known. -/
def directSupers (h : Hierarchy) (name : String) : List String := (h.supers.get? name).getD []

/-- The classes that declare the class as a base, sorted. -/
def directSubs (h : Hierarchy) (name : String) : List String :=
  Names.sort ((h.subs.get? name).getD [])

def addBase (h : Hierarchy) (name base : String) : Hierarchy :=
  let known := h.directSupers name
  if base ∈ known then h
  else
    { h with
      supers := h.supers.insert name (known ++ [base])
      subs := h.subs.insert base ((h.subs.get? base).getD [] ++ [name]) }

def joinClasses (c d : Class Value) : Class Value := c.mergeWith Value.merge d

def register (h : Hierarchy) (c : Class Value) : Hierarchy :=
  let c := match h.class? c.name with
    | some known => joinClasses known c
    | none => c
  c.bases.foldl (fun h b => h.addBase c.name b)
    { h with classes := h.classes.insert c.name c }

/-- Puts another object in the place of a class; its bases are entered only if it is new. -/
def update (h : Hierarchy) (c : Class Value) : Hierarchy :=
  if h.classes.contains c.name then { h with classes := h.classes.insert c.name c }
  else h.register c

/-- What a walk has found so far, and whether it was given up. -/
structure Walk where
  found : List String
  stopped : Bool

def depthLimit : Nat := 64

/-- Visits names and all that is reached from them, going at most `depth` levels deeper. -/
def visit (edges : String → List String) (start : String) : Nat → List String → Walk → Walk
  | depth, names, w =>
    names.foldl
      (fun w next =>
        if w.stopped || next = start || next ∈ w.found then w
        else
          let w := { w with found := w.found ++ [next] }
          match depth with
          | 0 => { w with stopped := true }
          | depth + 1 => visit edges start depth (edges next) w)
      w

def walk (h : Hierarchy) (name : String) : Walk :=
  visit h.directSupers name depthLimit (h.directSupers name) ⟨[], false⟩

/-- All superclasses in resolution order, without the class itself. -/
def superclasses (h : Hierarchy) (name : String) : List String := (h.walk name).found

def afterWalk (h : Hierarchy) (name : String) : Hierarchy :=
  if (h.walk name).stopped && !h.truncated.contains name then
    { h with truncated := name :: h.truncated }
  else h

def isTruncated (h : Hierarchy) (name : String) : Bool := h.truncated.contains name

def mro (h : Hierarchy) (name : String) : List String := name :: h.superclasses name

/-- Breadth first through the queue; every step takes a name off and at most once puts its
subclasses on. -/
def reach (h : Hierarchy) : Nat → List String → List String → List String → List String
  | 0, _, _, out => out
  | _, [], _, out => out
  | fuel + 1, next :: queue, seen, out =>
    if next ∈ seen then reach h fuel queue seen out
    else reach h fuel (queue ++ h.directSubs next) (next :: seen) (out ++ [next])

def subclasses (h : Hierarchy) (name : String) : List String :=
  let fuel := (h.subs.flatMap (·.2)).length + 1
  reach h fuel (h.directSubs name) [name] []

def isSubclass (h : Hierarchy) (sub super : String) : Bool :=
  sub = super || super ∈ h.superclasses sub

/-- A member of the class itself, or else of the first superclass that has it. -/
def lookup (h : Hierarchy) (name attr : String) : Option Value :=
  (h.mro name).findSome? fun n =>
    (h.class? n).bind fun c => (Dict.get? c.attrs attr).or (Dict.get? c.methods attr)

end Hierarchy

end AbstractFlow
