import AbstractFlow.CallGraph
import AbstractFlow.Flow.Tracker
import AbstractFlow.Hierarchy
import AbstractFlow.Program.Scope
import AbstractFlow.Value.Build

/-!
# Analysis states

Everything an analysis knows: variables in frames, one for each scope and context, the scopes with
their parents, classes, functions and what is stored on objects, the calls found so far, and the
stack of calls being analysed.
-/
namespace AbstractFlow

structure Config where
  policy : Policy
  /-- How many call sites or receivers a context remembers. -/
  depth : Int
  flowSensitive : Bool

/-- A scope known to the state; its parent is named. -/
structure ScopeEntry where
  kind : ScopeKind
  parent : Option String

structure FrameKey where
  scope : String
  context : Context
deriving DecidableEq

abbrev Memory := Table FrameKey Snapshot

/-- A caller that waits for a callee, with all that is needed to go on with it. -/
structure CallFrame where
  caller : String
  callee : String
  index : Int
  context : Context
  scope : Option String
  cursor : WorkItem
  /-- What the callee returned so far, if it did. -/
  returned : Option Value
  exception : Value
  calleeKey : FrameKey
  /-- The parameters of the callee with what they were bound to before the call. -/
  saved : Dict (Option Value)

structure State where
  config : Config
  hierarchy : Hierarchy
  callGraph : CallGraph
  flow : Tracker
  frames : List CallFrame
  scopes : Table String ScopeEntry
  global : Option String
  memory : Memory
  contexts : List Context
  functions : Dict (Function Value)
  heap : Table String Attrs
  summaries : Table FrameKey Value
  context : Context
  scope : Option String
  returned : Option Value
  exception : Value

/-- Misuse that ends an analysis. -/
inductive Violation where
  | setWithoutScope (name : String)
  | mergeWithoutScope (name : String)
  | exitWithoutFrame (scope : String)
  | missingFrame
  | unknownPolicy (name : String)
  | popOutermost
  | noStatement (index : Int) (function : String)
  /-- Bodies were nested, or calls propagated, beyond every bound. -/
  | endless
deriving DecidableEq

namespace Violation

/-- Whether the misuse breaks an invariant of the state itself. -/
def isInvariant : Violation → Bool
  | .setWithoutScope _ | .mergeWithoutScope _ | .exitWithoutFrame _ | .noStatement .. => true
  | .missingFrame | .unknownPolicy _ | .popOutermost | .endless => false

def message : Violation → String
  | .setWithoutScope name =>
    "invariant violated: cannot set " ++ name ++ ": no current scope and no global scope"
  | .mergeWithoutScope name =>
    "invariant violated: cannot merge " ++ name ++ ": no current scope and no global scope"
  | .exitWithoutFrame scope =>
    "invariant violated: exit from " ++ scope ++ " without a call-stack frame"
  | .noStatement index function =>
    "invariant violated: no statement " ++ toString index ++ " in " ++ function
  | .missingFrame => "assignment to entry in nil map"
  | .unknownPolicy name => "unhandled context policy " ++ Text.quote name
  | .popOutermost => "pop of the outermost worklist segment"
  | .endless => "the analysis does not end"

end Violation

namespace State

def new (config : Config) : State :=
  { config
    hierarchy := .empty
    callGraph := .empty
    flow := .empty
    frames := []
    scopes := []
    global := none
    memory := []
    contexts := [.root]
    functions := []
    heap := []
    summaries := []
    context := .root
    scope := none
    returned := none
    exception := [] }

def noteContext (s : State) (c : Context) : State :=
  if s.contexts.contains c then s else { s with contexts := s.contexts ++ [c] }

/-- Registers a scope without a parent if there is none of its name. -/
def addScope (s : State) (name : String) (kind : ScopeKind) : State :=
  if s.scopes.contains name then s
  else { s with scopes := s.scopes.insert name ⟨kind, none⟩ }

/-- The first module becomes the global scope. -/
def noteGlobal (s : State) (name : String) (kind : ScopeKind) : State :=
  if s.global.isNone && kind = .module then { s with global := some name } else s

/-- Gives a scope a parent if it has none yet. -/
def adopt (s : State) (name parent : String) : State :=
  match s.scopes.get? name with
  | some entry =>
    if entry.parent.isNone then
      { s with scopes := s.scopes.insert name { entry with parent := some parent } }
    else s
  | none => s

def hasParent (s : State) (name : String) : Bool :=
  (s.scopes.get? name).any fun e => e.parent.isSome

def registerScope (s : State) (name : String) (kind : ScopeKind) (parent : String) : State :=
  let s := s.addScope name kind
  let s :=
    if !s.hasParent name && parent ≠ "" && parent ≠ name then
      let s :=
        if s.scopes.contains parent then s
        else (s.addScope parent .module).noteGlobal parent .module
      s.adopt name parent
    else s
  s.noteGlobal name kind

/-- Goes to a scope and a context; an unknown scope stands for the global one. -/
def setCurrent (s : State) (scope : String) (c : Context) : State :=
  noteContext
    { s with
      scope := if s.scopes.contains scope then some scope else s.global
      context := c } c

def writeScope (s : State) : Option String := s.scope.or s.global

def scopeName (s : State) : String := s.scope.getD ""

end State

end AbstractFlow
