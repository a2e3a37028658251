import AbstractFlow.Collection.OrderedMap
import AbstractFlow.Context
import AbstractFlow.Flow.Snapshot
import AbstractFlow.Flow.Walk

/-!
# Tracking control flow

The statements still to be interpreted wait in queues, one for each nested analysis of a callee.
In one queue a statement waits at most once. The tracker also counts how often a statement was
interpreted under a context, and keeps what arrives at merge points.
-/
namespace AbstractFlow

structure WorkItem where
  function : String
  index : Int
deriving DecidableEq, Inhabited

structure Point where
  function : String
  index : Int
  context : Context
deriving DecidableEq

structure Tracker where
  graphs : Table String Graph
  /-- The innermost queue. -/
  segment : OrderedMap WorkItem Unit
  /-- The queues around it, from the inside out. -/
  suspended : List (OrderedMap WorkItem Unit)
  visits : Table Point Nat
  snapshots : Table Point Snapshot
  current : WorkItem

namespace Tracker

def empty : Tracker := ⟨[], .empty, [], [], [], ⟨"", 0⟩⟩

def build (t : Tracker) (function : String) (body : List Stmt) : Tracker :=
  { t with graphs := t.graphs.insert function (.build function body) }

def graph? (t : Tracker) (function : String) : Option Graph := t.graphs.get? function

def queue (t : Tracker) : List WorkItem := t.segment.keys

def outer (t : Tracker) : List (List WorkItem) := t.suspended.map OrderedMap.keys

/-- Whether a statement is one of a body whose graph is known. -/
def inRange (t : Tracker) (function : String) (index : Int) : Bool :=
  match t.graph? function with
  | some g => 0 ≤ index && index < g.length
  | none => false

def accepts (t : Tracker) (function : String) (index : Int) : Bool :=
  t.inRange function index && (t.segment.insert ⟨function, index⟩ ()).2

def enqueue (t : Tracker) (function : String) (index : Int) : Tracker :=
  if t.inRange function index then
    { t with segment := (t.segment.insert ⟨function, index⟩ ()).1 }
  else t

def enqueueSuccessors (t : Tracker) (function : String) (index : Int) : Tracker :=
  match t.graph? function with
  | some g => (g.succsAt index).foldl (fun t (s : Nat) => t.enqueue function s) t
  | none => t

/-- Takes the oldest statement of the innermost queue and makes it the current one. -/
def dequeue? (t : Tracker) : Option (WorkItem × Tracker) :=
  match t.segment.pop? with
  | none => none
  | some ((item, _), segment) => some (item, { t with segment, current := item })

def pending (t : Tracker) : Nat := t.segment.size

def clear (t : Tracker) : Tracker := { t with segment := .empty }

def push (t : Tracker) : Tracker := { t with segment := .empty, suspended := t.segment :: t.suspended }

/-- Drops the innermost queue and goes back to a statement; the outermost queue stays. -/
def pop? (t : Tracker) (current : WorkItem) : Option Tracker :=
  match t.suspended with
  | [] => none
  | segment :: suspended => some { t with segment, suspended, current }

def depth (t : Tracker) : Nat := t.suspended.length + 1

def visitCount (t : Tracker) (p : Point) : Nat := (t.visits.get? p).getD 0

def visit (t : Tracker) (p : Point) : Tracker :=
  { t with visits := t.visits.insert p (t.visitCount p + 1) }

def snapshot? (t : Tracker) (p : Point) : Option Snapshot := t.snapshots.get? p

def setSnapshot (t : Tracker) (p : Point) (s : Snapshot) : Tracker :=
  { t with snapshots := t.snapshots.insert p s }

def saveSnapshot (t : Tracker) (p : Point) (s : Snapshot) : Tracker :=
  match t.snapshot? p with
  | some known => t.setSnapshot p (Snapshot.merge known s)
  | none => t.setSnapshot p s

/-- The merge points that control reaches from a statement through statements not interpreted
yet, in increasing order. -/
def mergePointsFrom (t : Tracker) (p : Point) : List Nat :=
  match t.graph? p.function with
  | none => []
  | some g => g.mergePointsAhead (fun n => 0 < t.visitCount { p with index := n }) p.index

end Tracker

end AbstractFlow
