import AbstractFlow.Analysis.Solver
import AbstractFlow.Fault
import AbstractFlow.Interruption
import AbstractFlow.Oracle.Cache

/-!
# Analyses

An analysis first runs through the bodies of all modules, and then through those of classes and
functions that nothing has reached. After that the recorded calls are propagated until none waits.
-/
namespace AbstractFlow

inductive ScopeFault where
  | missing
  | unnamed
  | repeated (name : String)
deriving DecidableEq

def ScopeFault.message : ScopeFault → String
  | .missing => "nil scope"
  | .unnamed => "scope without a name"
  | .repeated name => "scope " ++ name ++ " added twice"

inductive AnalysisFault where
  | interrupted (reason : Interruption)
  | options (fault : OptionsFault)
  | violation (v : Violation)
deriving DecidableEq

def AnalysisFault.message : AnalysisFault → String
  | .interrupted reason => (RunFault.interrupted reason).message
  | .options f => "invalid options: " ++ f.message
  | .violation v => v.message

namespace Analyzer

variable {σ : Type}

def addScope (a : Analyzer) : Option Scope → Except ScopeFault Analyzer
  | none => .error .missing
  | some s =>
    if s.name = "" then .error .unnamed
    else if a.scopes.contains s.name then .error (.repeated s.name)
    else .ok { a with scopes := a.scopes.insert s.name s }

/-- Adds what can be added of a program, and tells what could not. -/
def addProgram (a : Analyzer) (p : Program) : Analyzer × Option Fault :=
  let (a, faults) := p.scopes.foldl
    (fun (a, faults) s => match a.addScope (some s) with
      | .ok a => (a, faults)
      | .error f => (a, Fault.append faults (some (.plain f.message))))
    (a, [])
  (a, Fault.ofList faults)

/-- Binds a variable before the analysis starts, under the root context. -/
def bind (a : Analyzer) (scope name : String) (v : Value) : Analyzer :=
  { a with bindings := a.bindings ++ [⟨scope, name, v⟩] }

/-- How a function is bound: by its decorators if it stands in the body of a class. -/
def bindingOf (a : Analyzer) (s : Scope) : Binding :=
  if (a.scope? s.parent).any (·.kind = .classBody) then
    if s.hasDecorator "staticmethod" then .static
    else if s.hasDecorator "classmethod" then .onClass
    else .onInstance
  else .plain

def functionOf (a : Analyzer) (s : Scope) : Function Value :=
  { name := s.name
    params := s.params
    async := s.async
    binding := a.bindingOf s
    getter := s.decorators.contains "property"
    setter := s.decorators.any fun d => Names.endsWith d ".setter"
    attrs := [] }

def registerKind (a : Analyzer) (kind : ScopeKind) (s : State) : State :=
  (a.scopes.filter fun e => e.2.kind = kind).foldl
    (fun s e => s.registerScope e.2.name e.2.kind e.2.parent) s

/-- Builds the control flow of a scope and registers what it defines. -/
def registerScope (a : Analyzer) (s : State) (scope : Scope) : State :=
  let s := { s with flow := s.flow.build scope.name scope.body }
  match scope.kind with
  | .function => s.registerFunction (a.functionOf scope)
  | .classBody => (s.setCurrent scope.parent .root).registerClass scope.name scope.bases
  | .module => s

/-- The state before the analysis. Modules come first, so that the first of them is the global
scope. -/
def startState (a : Analyzer) (policy : Policy) : Except Violation State :=
  let s := State.new (a.options.config policy)
  let s := [ScopeKind.module, .classBody, .function].foldl (fun s kind => a.registerKind kind s) s
  let s := a.scopes.foldl (fun s e => a.registerScope s e.2) s
  a.bindings.foldlM (fun s b => (s.setCurrent b.scope .root).setVariableIn b.scope b.name b.value) s

/-- What a method may be called on: the class and its subclasses, or their instances. -/
def receivers (s : State) (className : String) (binding : Binding) : Value :=
  let classes := className :: s.hierarchy.subclasses className
  Value.ofObjects (classes.filterMap fun c => match binding with
    | .onInstance => some (.instanceObject ⟨c, "", []⟩)
    | .onClass => (s.hierarchy.class? c).map .classObject
    | _ => none)

/-- Binds the parameters that are not bound yet. They may be anything, but the first one of a
method is what the method may be called on. -/
def bindParameters (scope : Scope) (binding : Binding) (s : State) : Except Violation State :=
  scope.params.zipIdx.foldlM
    (fun s (p, i) =>
      if s.isLocal p then .ok s
      else
        let recv := if i = 0 then receivers s scope.parent binding else []
        s.setVariable p recv.orUnknown)
    s

/-- Analyses a function that nothing has called. -/
def analyzeFunction (a : Analyzer) (r : Run σ) (scope : Scope) : Except Violation (Run σ) := do
  let binding := ((r.state.function? scope.name).getD default).binding
  let state := r.state.pushCall "" scope.name 0 r.state.context r.state.scope
  let state ← bindParameters scope binding (state.setCurrent scope.name .root)
  let r ← a.body scope.name 0 { r with state }
  let r := { r with analyzed := scope.name :: r.analyzed }
  let (_, state) ← r.state.exitFunction (some (r.state.returnValue?.getD Value.noneConstant))
  .ok { r with state }

def analyzeModule (a : Analyzer) (r : Run σ) (scope : Scope) : Except Violation (Run σ) :=
  if scope.kind = .module then
    (r.note a fun _ => "\n### ANALYZING MODULE " ++ scope.name ++ " ###").runScope a.body scope.name
      .root
  else .ok r

/-- Analyses a class or a function that nothing has reached. -/
def analyzeRest (a : Analyzer) (r : Run σ) (scope : Scope) : Except Violation (Run σ) :=
  if r.analyzed.contains scope.name then .ok r
  else
    match scope.kind with
    | .classBody =>
      (r.note a fun _ => "\n### ANALYZING CLASS " ++ scope.name ++ " ###").runClassBody a a.body
        scope.name
    | .function =>
      a.analyzeFunction (r.note a fun _ => "\n### ANALYZING FUNCTION " ++ scope.name ++ " ###") scope
    | .module => .ok r

/-- More calls than any analysis can ever propagate. -/
def callBound : Nat := Word.size

/-- Runs through all bodies and propagates all calls. -/
def run (a : Analyzer) (r : Run σ) : Except Violation (Run σ) := do
  let scopes := a.scopes.map (·.2)
  let r ← scopes.foldlM a.analyzeModule r
  let r ← scopes.foldlM a.analyzeRest r
  r.solve a callBound

end Analyzer

structure Result (σ : Type) where
  options : Options
  state : State
  stats : Stats
  failures : List Failure
  log : List String
  trace : List String
  /-- The state in which the oracle was left. -/
  oracle : σ

namespace Result

variable {σ τ : Type}

def ofRun (options : Options) (r : Run σ) : Result σ :=
  ⟨options, r.state, r.stats, r.oracle.failures, r.log, r.trace.toList, r.oracle.state⟩

def mapOracle (f : σ → τ) (res : Result σ) : Result τ := { res with oracle := f res.oracle }

/-- Whether no limit cut the analysis short. -/
def isComplete (res : Result σ) : Bool :=
  res.stats.iterationCapHit = 0 && res.stats.recursionCutoffs = 0

def phases : List String := ["intraprocedural", "interprocedural"]

def lookupIn (res : Result σ) (scope : String) (c : Context) (name : String) : Option Value :=
  Dict.get? (res.state.frameAt scope c) name

def contexts (res : Result σ) (scope : String) : List Context :=
  (res.state.frameKeys.filter (·.scope = scope)).map (·.context)

/-- What a variable of a scope may be under any context. -/
def merged (res : Result σ) (scope name : String) : Value :=
  Value.mergeAll ((res.contexts scope).filterMap fun c => res.lookupIn scope c name)

def traceText (res : Result σ) : String := "\n".intercalate res.trace

def cutoffText (res : Result σ) : String :=
  toString res.stats.iterationCapHit ++ " iteration cutoffs, " ++
    toString res.stats.recursionCutoffs ++ " recursion cutoffs"

end Result

namespace Analyzer

variable {σ : Type}

def finish (res : Result σ) : Result σ :=
  if res.isComplete then res
  else { res with log := res.log ++ ["analysis incomplete: " ++ res.cutoffText] }

def analyzeWith (a : Analyzer) (oracle : Option (Oracle σ)) (start : σ) :
    Except AnalysisFault (Result σ) :=
  match a.options.validate with
  | .error f => .error (.options f)
  | .ok policy =>
    let outcome := do
      let state ← a.startState policy
      a.run { state, oracle := ⟨oracle, start, []⟩ }
    match outcome with
    | .error v => .error (.violation v)
    | .ok r => .ok (finish (.ofRun a.options r))

/-- Analyses unless interrupted before. The oracle's answers are remembered as far as the options
say. -/
def analyze (a : Analyzer) (interruption : Option Interruption) (oracle : Option (Oracle σ))
    (start : σ) : Except AnalysisFault (Result σ) :=
  match interruption with
  | some reason => .error (.interrupted reason)
  | none =>
    match oracle, Cached.start start a.options.oracleCacheSize with
    | some o, some s => (a.analyzeWith (some o.cached) s).map (Result.mapOracle (·.inner))
    | oracle, _ => a.analyzeWith oracle start

end Analyzer

end AbstractFlow
