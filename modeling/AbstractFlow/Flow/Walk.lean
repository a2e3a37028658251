import AbstractFlow.Collection.Sorted
import AbstractFlow.Flow.Graph

/-!
# Walks through control flow

A depth-first walk from a statement, not past statements that were interpreted before. It finds the
points ahead where control flow joins.
-/
namespace AbstractFlow.Graph

/-- Where a walk stands: the statements to look at next, those seen, and the merge points among
these, the latest first. -/
structure Walk where
  stack : List Nat
  seen : List Int
  found : List Nat

namespace Walk

/-- A walk from statement `i`, which counts as seen itself. -/
def start (g : Graph) (i : Int) : Walk := ⟨g.succsAt i, [i], []⟩

/-- Looks at the statement on top of the stack, and goes on from it unless it was visited. -/
def step (g : Graph) (visited : Nat → Bool) (w : Walk) : Walk :=
  match w.stack with
  | [] => w
  | n :: stack =>
    if (n : Int) ∈ w.seen then { w with stack }
    else
      { stack := if visited n then stack else g.succsAt n ++ stack
        seen := n :: w.seen
        found := if g.isMergePoint n then n :: w.found else w.found }

/-- The walk after so many steps, or fewer if nothing is left to look at. -/
def run (g : Graph) (visited : Nat → Bool) : Nat → Walk → Walk
  | 0, w => w
  | n + 1, w => if w.stack.isEmpty then w else run g visited n (w.step g visited)

end Walk

/-- As many steps as a walk from statement `i` can take: one for each time that an edge puts a statement on
the stack. -/
def walkLength (g : Graph) (i : Int) : Nat := g.succs.flatten.length + (g.succsAt i).length

/-- The merge points that control reaches from statement `i` through statements that were not
visited, in increasing order. -/
def mergePointsAhead (g : Graph) (visited : Nat → Bool) (i : Int) : List Nat :=
  Sorted.sort ((Walk.start g i).run g visited (g.walkLength i)).found

end AbstractFlow.Graph
