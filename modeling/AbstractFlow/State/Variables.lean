import AbstractFlow.State.Basic

/-!
# Variables

A name is looked up in the current scope and then in the scopes around it, except in class
bodies; each scope is asked under the current context first and under the root context second.
Writing goes to the current frame.
-/
namespace AbstractFlow

namespace Memory

def frame (m : Memory) (k : FrameKey) : Snapshot := (m.get? k).getD []

def get? (m : Memory) (k : FrameKey) (name : String) : Option Value := Dict.get? (m.frame k) name

def set (m : Memory) (k : FrameKey) (name : String) (v : Value) : Memory :=
  m.insert k ((m.frame k).insert name v)

def delete (m : Memory) (k : FrameKey) (name : String) : Memory :=
  if m.contains k then m.insert k ((m.frame k).erase name) else m

end Memory

namespace State

/-- Under the insensitive policy all frames are those of the root context. -/
def frameKey (s : State) (scope : String) (c : Context) : FrameKey :=
  if s.config.policy = .insensitive then ⟨scope, .root⟩ else ⟨scope, c⟩

/-- The frame of a scope that binds a name, under the current or else the root context. -/
def find? (s : State) (scope name : String) : Option (FrameKey × Value) :=
  let here := s.frameKey scope s.context
  match Memory.get? s.memory here name with
  | some v => some (here, v)
  | none =>
    if s.context.isRoot then none
    else
      let root : FrameKey := ⟨scope, .root⟩
      (Memory.get? s.memory root name).map fun v => (root, v)

/-- A scope and the scopes around it, inside out. Where no scope stands inside itself, no chain is longer than there
are scopes. -/
def chain (s : State) : Nat → Option String → List String
  | 0, _ => []
  | _, none => []
  | fuel + 1, some name =>
    name :: chain s fuel ((s.scopes.get? name).bind (·.parent))

def isClassScope (s : State) (name : String) : Bool :=
  (s.scopes.get? name).any fun e => e.kind = .classBody

/-- The scopes in which a name is looked up. -/
def visibleScopes (s : State) : List String :=
  match chain s (s.scopes.length + 1) s.writeScope with
  | [] => []
  | here :: around => here :: around.filter fun n => !s.isClassScope n

def resolve? (s : State) (name : String) : Option (FrameKey × Value) :=
  s.visibleScopes.findSome? fun scope => s.find? scope name

def getVariable? (s : State) (name : String) : Option Value := (s.resolve? name).map Prod.snd

/-- Rebinds a name where it is found, or tells that it is unbound. -/
def updateVariable? (s : State) (name : String) (v : Value) : Option State :=
  (s.resolve? name).map fun (k, _) => { s with memory := s.memory.set k name v }

def getVariableIn? (s : State) (scope name : String) : Option Value :=
  if s.scopes.contains scope then (s.find? scope name).map Prod.snd else none

/-- The frame that is written to. -/
def currentKey? (s : State) : Option FrameKey :=
  s.writeScope.map fun scope => s.frameKey scope s.context

def currentFrame (s : State) : Snapshot :=
  match s.currentKey? with
  | some k => s.memory.frame k
  | none => []

def isLocal (s : State) (name : String) : Bool := Dict.contains s.currentFrame name

def setIn (s : State) (scope : Option String) (name : String) (v : Value) :
    Except Violation State :=
  match scope with
  | some scope => .ok { s with memory := s.memory.set (s.frameKey scope s.context) name v }
  | none => .error (.setWithoutScope name)

def setVariable (s : State) (name : String) (v : Value) : Except Violation State :=
  s.setIn s.writeScope name v

/-- Binds a name in another scope under the current context; an unknown scope stands for the
global one. -/
def setVariableIn (s : State) (scope name : String) (v : Value) : Except Violation State :=
  s.setIn (if s.scopes.contains scope then some scope else s.global) name v

/-- Joins a value into the binding of a name in the current scope. -/
def mergeVariable (s : State) (name : String) (v : Value) : Except Violation (Value × State) :=
  match s.writeScope with
  | none => .error (.mergeWithoutScope name)
  | some scope =>
    let known := ((s.find? scope name).map Prod.snd).getD []
    let merged := known.merge v
    (s.setIn (some scope) name merged).map fun s => (merged, s)

def deleteVariable (s : State) (name : String) : State :=
  match s.currentKey? with
  | some k => { s with memory := s.memory.delete k name }
  | none => s

def snapshot (s : State) : Snapshot := s.currentFrame

def restore (s : State) (snap : Snapshot) : Except Violation State :=
  snap.foldlM (fun s e => s.setVariable e.1 e.2) s

def frameAt (s : State) (scope : String) (c : Context) : Snapshot :=
  s.memory.frame (s.frameKey scope c)

def keyBefore (a b : FrameKey) : Bool :=
  a.scope < b.scope || (a.scope == b.scope && a.context.text < b.context.text)

def placeKey (k : FrameKey) : List FrameKey → List FrameKey
  | [] => [k]
  | x :: rest => if keyBefore x k then x :: placeKey k rest else k :: x :: rest

/-- The frames that bind anything, by scope and then context. A context that was never seen shows
as the root. -/
def frameKeys (s : State) : List FrameKey :=
  let keys := (s.memory.filter fun e => !e.2.isEmpty).map fun e =>
    if s.contexts.contains e.1.context then e.1 else { e.1 with context := .root }
  keys.foldr placeKey []

end State

end AbstractFlow
