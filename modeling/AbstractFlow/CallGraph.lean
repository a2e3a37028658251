import AbstractFlow.Collection.Sorted
import AbstractFlow.Collection.Table
import AbstractFlow.Context
import AbstractFlow.Program.Statement

/-!
# Call graphs

The calls found by an analysis, in the order of their discovery. Two calls are the same if they
lead from the same statement to the same function under contexts with the same keys.
Registers beside the list lead from a call, from its caller and from its callee to the places where it stands.
-/
namespace AbstractFlow

/-- The name of a call site: its function and the place of the statement. -/
def callSiteText (function : String) (index : Int) : String := function ++ ":" ++ toString index

structure Edge where
  caller : String
  callee : String
  stmt : Option Stmt
  index : Int
  callerContext : Context
  calleeContext : Context
deriving Inhabited

namespace Edge

def callSite (e : Edge) : String := callSiteText e.caller e.index

def text (e : Edge) : String :=
  e.callSite ++ e.callerContext.text ++ " -> " ++ e.callee ++ e.calleeContext.text

/-- What tells calls apart. -/
structure Identity where
  caller : String
  callee : String
  index : Int
  source : UInt64 × Nat
  target : UInt64 × Nat

/-- The stamps are compared last. -/
instance : DecidableEq Identity := fun i j =>
  decidable_of_iff
    (i.caller = j.caller ∧ i.callee = j.callee ∧ i.index = j.index ∧ i.source = j.source ∧ i.target = j.target)
    (by cases i; cases j; simp)

def identity (e : Edge) : Identity :=
  ⟨e.caller, e.callee, e.index, e.callerContext.stamp, e.calleeContext.stamp⟩

def same (e f : Edge) : Bool := e.identity == f.identity

end Edge

/-- Files the places of edges under names. -/
abbrev Register := Table String (List Nat)

namespace Register

def under (r : Register) (name : String) : List Nat := (r.get? name).getD []

def file (r : Register) (name : String) (place : Nat) : Register :=
  r.insert name (r.under name ++ [place])

/-- The places of the edges that a test picks. -/
def placesOf (picks : Edge → Bool) (edges : List Edge) : List Nat :=
  (edges.zipIdx.filter fun e => picks e.1).map Prod.snd

/-- Whether every edge is filed under its name at its place, and nothing else is filed. -/
def Files (r : Register) (name : Edge → String) (edges : List Edge) : Prop :=
  ∀ n, r.under n = placesOf (name · = n) edges

theorem placesOf_append_singleton (picks : Edge → Bool) (edges : List Edge) (e : Edge) :
    placesOf picks (edges ++ [e]) =
      placesOf picks edges ++ if picks e then [edges.length] else [] := by
  simp only [placesOf, List.zipIdx_append, List.filter_append, List.map_append, Nat.zero_add]
  cases hpicks : picks e <;> simp [hpicks]

theorem Files.file {r : Register} {name : Edge → String} {edges : List Edge}
    (h : r.Files name edges) (e : Edge) :
    (r.file (name e) edges.length).Files name (edges ++ [e]) := by
  intro n
  rw [placesOf_append_singleton, ← h n, under, Register.file, Table.get?_insert]
  by_cases hn : name e = n
  · simp [hn]
  · simp [hn, under]

end Register

/-- The calls with their registers: where each one stands, and which ones lead from and to each
function. -/
structure CallGraph where
  edges : List Edge
  places : Table Edge.Identity Nat
  byCaller : Register
  byCallee : Register
  placed : ∀ i, places.get? i = edges.findIdx? (·.identity = i)
  filedByCaller : byCaller.Files Edge.caller edges
  filedByCallee : byCallee.Files Edge.callee edges

namespace CallGraph

def empty : CallGraph := ⟨[], [], [], [], fun _ => rfl, fun _ => rfl, fun _ => rfl⟩

def contains (g : CallGraph) (e : Edge) : Bool := g.places.contains e.identity

def record (g : CallGraph) (e : Edge) (hnew : g.contains e = false) : CallGraph :=
  { edges := g.edges ++ [e]
    places := g.places.insert e.identity g.edges.length
    byCaller := g.byCaller.file e.caller g.edges.length
    byCallee := g.byCallee.file e.callee g.edges.length
    placed := by
      intro i
      rw [Table.get?_insert, List.findIdx?_append, ← g.placed i]
      by_cases hi : e.identity = i
      · subst hi
        simp [Option.isSome_eq_false_iff.mp hnew |> Option.isNone_iff_eq_none.mp]
      · simp [hi]
    filedByCaller := g.filedByCaller.file e
    filedByCallee := g.filedByCallee.file e }

/-- Enters a call, and tells whether it is new. -/
def insert (g : CallGraph) (e : Edge) : CallGraph × Bool :=
  if h : g.contains e then (g, false) else (g.record e (Bool.eq_false_iff.mpr h), true)

def add (g : CallGraph) (e : Edge) : CallGraph := (g.insert e).1

def size (g : CallGraph) : Nat := g.edges.length

def collect (g : CallGraph) (places : List Nat) (keeps : Edge → Bool) : List Edge :=
  (places.filterMap (g.edges[·]?)).filter keeps

def callers (g : CallGraph) (callee : String) : List Edge :=
  g.collect (g.byCallee.under callee) fun _ => true

def callersIn (g : CallGraph) (callee : String) (ctx : Context) : List Edge :=
  g.collect (g.byCallee.under callee) (·.calleeContext.key = ctx.key)

def callees (g : CallGraph) (caller : String) : List Edge :=
  g.collect (g.byCaller.under caller) fun _ => true

def calleesIn (g : CallGraph) (caller : String) (ctx : Context) : List Edge :=
  g.collect (g.byCaller.under caller) (·.callerContext.key = ctx.key)

def calleeNames (g : CallGraph) (caller : String) : List String :=
  Sorted.ofList ((g.callees caller).map (·.callee))

end CallGraph

end AbstractFlow
