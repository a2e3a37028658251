import AbstractFlow.Collection.Dict
import AbstractFlow.Collection.Table
import AbstractFlow.Oracle.Basic

/-!
# Recorded oracles

An oracle that answers from tables, gives the safe answer where nothing is recorded, and counts
what it is asked. It can be told to fail or to break down.
-/
namespace AbstractFlow

structure Recorded where
  callees : Table CallSite (List String) := []
  names : Table ScopedName (List HeapObject) := []
  /-- By the texts of an object and a field. -/
  fields : Table String (List HeapObject) := []
  /-- By the text of a target. -/
  singletons : Table String Bool := []
  apart : List (ScopedName × ScopedName) := []
  successors : Table String (List String) := []
  digest : String := "mock"
  /-- Why every query fails, if it does. -/
  fault : Option String := none
  /-- Whether every query breaks down. -/
  breaks : Bool := false
  /-- Whether the version is always given, and not counted. -/
  steady : Bool := false
  calls : Dict Nat := []

namespace Recorded

def recorded (r : Recorded) : Query → Answer
  | .possibleCallees site _ => .functions ((r.callees.get? site).getD [])
  | .pointsTo v _ => .objects ((r.names.get? v).getD [])
  | .fieldPointsTo obj f => .objects ((r.fields.get? (obj.text ++ f.text)).getD [])
  | .mayAlias a b _ => .truth (!r.apart.contains (a, b) && !r.apart.contains (b, a))
  | .isSingleton t _ => .truth ((r.singletons.get? t.text).getD false)
  | .successors f => .functions ((r.successors.get? f).getD [])
  | .version => .version r.digest

def count (r : Recorded) (q : Query) : Recorded :=
  { r with calls := Dict.insertWith (fun old _ => old + 1) q.method 1 r.calls }

def oracle : Oracle Recorded where
  ask q r :=
    if r.steady && q = .version then (.answered (.version r.digest), r)
    else
      let outcome :=
        if r.breaks then .broken ("mock oracle panic in " ++ q.method)
        else match r.fault with
          | some reason => .failed q.conservative ("mock " ++ q.method ++ ": " ++ reason)
          | none => .answered (r.recorded q)
      (outcome, r.count q)

end Recorded

end AbstractFlow
