import AbstractFlow.Options
import AbstractFlow.Oracle.Basic
import AbstractFlow.State.Calls
import AbstractFlow.State.Objects

/-!
# Runs

An analyser holds what is to be analysed, and a run what an analysis has found out so far: the
state of the analysed program, the calls that wait to be propagated, and a record of the work.
-/
namespace AbstractFlow

/-- A variable with the value it has before the analysis starts. -/
structure Prebinding where
  scope : String
  name : String
  value : Value

structure Analyzer where
  options : Options
  /-- The bodies to analyse, in the order in which they were added. -/
  scopes : Table String Scope := []
  bindings : List Prebinding := []
  tracing : Bool := false

structure Stats where
  statements : Nat := 0
  /-- Analyses of a body that were stopped at the iteration limit. -/
  iterationCapHit : Nat := 0
  /-- Calls that were not analysed because of the recursion limit. -/
  recursionCutoffs : Nat := 0
  edgesProcessed : Nat := 0
  edgesSkipped : Nat := 0
  /-- The largest number of times one function was on the call stack. -/
  deepestRecursion : Nat := 0
deriving DecidableEq, Inhabited

/-- A call edge with what is needed to make the call again. -/
structure CallRecord where
  edge : Edge
  receiver : Option Receiver
  /-- Whether the call initialises an instance, so that its result is of no interest. -/
  constructs : Bool

/-- A recorded call that waits: to be made, or to have its result propagated. -/
structure PendingCall where
  index : Nat
  propagates : Bool
deriving DecidableEq

structure Run (σ : Type) where
  state : State
  oracle : Guarded σ
  analyzed : List String := []
  /-- Functions with the contexts under which they were called. -/
  memo : List FrameKey := []
  calls : List CallRecord := []
  queue : List PendingCall := []
  requeued : List Nat := []
  stats : Stats := {}
  log : List String := []
  trace : Array String := #[]

/-- A statement being interpreted. -/
structure Step where
  function : String
  index : Nat
  /-- How often it was interpreted before under the current context. -/
  revisits : Nat

def Literal.value : Literal → Value
  | .none => Value.noneConstant
  | .int n => Value.ints [n]
  | .float x => Value.floats [x]
  | .str s => Value.strings [s]
  | .bool b => Value.bool b

def Scope.binds (s : Scope) (name : String) : Bool :=
  s.params.contains name || s.body.any fun stmt => stmt.defs.contains name

namespace Analyzer

def scope? (a : Analyzer) (name : String) : Option Scope := a.scopes.get? name

def maxIterations (a : Analyzer) : Nat := a.options.maxIterations.toNat

def maxRecursionDepth (a : Analyzer) : Nat := a.options.maxRecursionDepth.toNat

end Analyzer

namespace Run

variable {σ : Type}

def note (r : Run σ) (a : Analyzer) (line : Unit → String) : Run σ :=
  if a.tracing then { r with trace := r.trace.push (line ()) } else r

def report (r : Run σ) (line : String) : Run σ := { r with log := r.log ++ [line] }

/-- Asks the oracle; a failure is reported and answered safely. -/
def ask (r : Run σ) (q : Query) : Answer × Run σ :=
  let (answer, failure, oracle) := r.oracle.ask q
  (answer, { r with oracle, log := r.log ++ (failure.map Failure.notice).toList })

/-- The value of a variable; one that is not bound may be anything. -/
def lookup (r : Run σ) (name : String) : Value :=
  if name = "" then Value.unknown else (r.state.getVariable? name).getD Value.unknown

def operand (r : Run σ) : Operand → Value
  | .variable name => r.lookup name
  | .literal l => l.value

def contextKey (r : Run σ) : String := r.state.context.key

/-- Whether a variable is a single location: by the oracle, or else if its scope binds it. -/
def isSingleton (r : Run σ) (a : Analyzer) (function name : String) : Bool × Run σ :=
  if r.oracle.isAvailable then
    let (answer, r) := r.ask (.isSingleton (.variable ⟨function, name⟩) r.contextKey)
    (answer.asTruth, r)
  else ((a.scope? function).any (·.binds name), r)

def predecessors (r : Run σ) (s : Step) : Nat :=
  match r.state.flow.graph? s.function with
  | some g => (g.predsAt s.index).length
  | none => 0

/-- Whether an assignment overwrites its target. A statement interpreted again never does. If the
order of statements does not count, single locations are overwritten; otherwise only a statement
where control flow joins overwrites, so that values of another branch survive. -/
def overwrites (r : Run σ) (a : Analyzer) (s : Step) (target : String) : Bool × Run σ :=
  if 0 < s.revisits then (false, r)
  else if !a.options.flowSensitive then r.isSingleton a s.function target
  else (1 < r.predecessors s, r)

def assign (r : Run σ) (a : Analyzer) (s : Step) (target : String) (v : Value) :
    Except Violation (Run σ) :=
  if target = "" then .ok r
  else
    let (strong, r) := r.overwrites a s target
    if strong then (r.state.setVariable target v).map fun state => { r with state }
    else (r.state.mergeVariable target v).map fun (_, state) => { r with state }

/-- Rebinds a variable where it is found, if it is bound. -/
def rebind (r : Run σ) (name : String) (v : Value) : Run σ :=
  match r.state.updateVariable? name v with
  | some state => { r with state }
  | none => r

def advance (r : Run σ) (a : Analyzer) (s : Step) : Run σ :=
  if a.options.flowSensitive then
    { r with state.flow := r.state.flow.enqueueSuccessors s.function s.index }
  else r

end Run

end AbstractFlow
