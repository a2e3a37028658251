import AbstractFlow.Program.Statement

/-!
# Control-flow graphs

Statements of a body by their place. Control falls through to the next statement unless it goes
elsewhere, and a jump may also go to its label. Where several statements lead to one, their
effects are merged.
-/
namespace AbstractFlow

structure Graph where
  function : String
  length : Nat
  succs : List (List Nat)
  preds : List (List Nat)
  labels : Dict Nat

namespace Graph

/-- The place of each label, the last one of a name. -/
def labelsOf (body : List Stmt) : Dict Nat :=
  body.zipIdx.foldl
    (fun d e => match e.1 with
      | .label name => d.insert name e.2
      | _ => d)
    []

def succsOf (labels : Dict Nat) (length i : Nat) (s : Stmt) : List Nat :=
  let next := if i + 1 < length then [i + 1] else []
  match s with
  | .goto l => (Dict.get? labels l).toList
  | .jump _ _ l =>
    match Dict.get? labels l with
    | some t => if t ∈ next then next else next ++ [t]
    | none => next
  | _ => next

def build (function : String) (body : List Stmt) : Graph :=
  let labels := labelsOf body
  let succs := body.zipIdx.map fun (s, i) => succsOf labels body.length i s
  let edges := succs.zipIdx
  { function
    length := body.length
    succs
    preds := (List.range body.length).map fun j =>
      edges.filterMap fun (ts, i) => if j ∈ ts then some i else none
    labels }

def succsAt (g : Graph) (i : Int) : List Nat :=
  if 0 ≤ i then g.succs.getD i.toNat [] else []

def predsAt (g : Graph) (i : Nat) : List Nat := g.preds.getD i []

def isMergePoint (g : Graph) (i : Nat) : Bool := 1 < (g.predsAt i).length

def mergePoints (g : Graph) : List Nat := (List.range g.length).filter g.isMergePoint

def label? (g : Graph) (name : String) : Option Nat := Dict.get? g.labels name

end Graph

end AbstractFlow
