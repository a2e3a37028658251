import AbstractFlow.State.Variables

/-!
# Calls

Entering a function binds its parameters in a frame of their own context, and leaving it records
what it returned, restores what the call had overwritten and goes back to the caller.
-/
namespace AbstractFlow

/-- The object a method is called on: what tells it apart, and its value. -/
structure Receiver where
  id : String
  value : Value

namespace State

def createContext (s : State) (callSite receiver : String) : Except Violation (Context × State) :=
  match s.context.derive s.config.policy s.config.depth callSite receiver with
  | .ok c => .ok (c, s.noteContext c)
  | .error name => .error (.unknownPolicy name)

def mapTop (s : State) (f : CallFrame → CallFrame) : State :=
  match s.frames with
  | [] => s
  | top :: rest => { s with frames := f top :: rest }

/-- Binds a parameter, and lets the innermost call remember what it was bound to. -/
def bindParameter (s : State) (key : FrameKey) (name : String) (v : Value) : State :=
  let known := Memory.get? s.memory key name
  let s := s.mapTop fun top =>
    if Dict.contains top.saved name then top
    else { top with saved := Dict.insert top.saved name known }
  { s with memory := s.memory.set key name v.orUnknown }

/-- The parameters with their arguments: the receiver first for a method that binds one, `None`
for what is missing. -/
def parameterBindings (fn : Function Value) (args : List Value) (recv : Option Receiver) :
    List (String × Value) :=
  let plain (params : List String) : List (String × Value) :=
    params.zipIdx.map fun (p, i) => (p, args.getD i Value.noneConstant)
  match recv, fn.params, fn.binding with
  | some r, p :: params, .onInstance | some r, p :: params, .onClass => (p, r.value) :: plain params
  | _, params, _ => plain params

/-- Goes to the frame of a function and binds its parameters. -/
def enterFunction (s : State) (fn : Function Value) (args : List Value) (callSite : String)
    (recv : Option Receiver) : Except Violation (Context × State) := do
  let (c, s) ← s.createContext callSite ((recv.map (·.id)).getD "")
  let s := s.registerScope fn.name .function (s.global.getD "")
  let s := { s with scope := some fn.name, context := c }
  let key := s.frameKey fn.name c
  let s := s.mapTop fun top => { top with calleeKey := key }
  .ok (c, (parameterBindings fn args recv).foldl (fun s b => s.bindParameter key b.1 b.2) s)

def pushCall (s : State) (caller callee : String) (index : Int) (c : Context)
    (scope : Option String) : State :=
  let frame : CallFrame :=
    { caller, callee, index
      context := c
      scope := scope.or s.scope
      cursor := s.flow.current
      returned := none
      exception := []
      calleeKey := ⟨"", .root⟩
      saved := [] }
  { s with frames := frame :: s.frames }

def addSummary (s : State) (key : FrameKey) (v : Value) : State :=
  { s with summaries := s.summaries.insert key (((s.summaries.get? key).getD []).merge v) }

/-- Leaves a function. Without a value given, it returns what was captured, or `None`. What the call had
overwritten is written back, so there has to be a frame for it. -/
def exitFunction (s : State) (value : Option Value) : Except Violation (CallFrame × State) :=
  match s.frames with
  | [] => .error (.exitWithoutFrame s.scopeName)
  | f :: rest =>
    if f.saved.any (·.2.isSome) && !s.memory.contains f.calleeKey then .error .missingFrame
    else
      let v := (value.or f.returned).getD Value.noneConstant
      -- The state still stands in the callee, so this is the summary of the callee.
      let s := s.addSummary ⟨s.scopeName, s.context⟩ v
      let memory := f.saved.foldl
        (fun (m : Memory) e => match e.2 with
          | some v => m.set f.calleeKey e.1 v
          | none => m)
        s.memory
      .ok (f, { s with
        frames := rest
        memory
        scope := f.scope
        context := f.context
        flow := { s.flow with current := f.cursor } })

def returnSummary? (s : State) (fn : String) (c : Context) : Option Value :=
  s.summaries.get? ⟨fn, c⟩

def setReturn (s : State) (v : Value) : State :=
  match s.frames with
  | [] => { s with returned := some ((s.returned.getD []).merge v) }
  | top :: rest =>
    { s with frames := { top with returned := some ((top.returned.getD []).merge v) } :: rest }

def returnValue? (s : State) : Option Value :=
  match s.frames with
  | [] => s.returned
  | top :: _ => top.returned

def resetReturn (s : State) : State :=
  match s.frames with
  | [] => { s with returned := none }
  | top :: rest => { s with frames := { top with returned := none } :: rest }

def addException (s : State) (v : Value) : State :=
  match s.frames with
  | [] => { s with exception := s.exception.merge v }
  | top :: rest => { s with frames := { top with exception := top.exception.merge v } :: rest }

def raised (s : State) : Value :=
  match s.frames with
  | [] => s.exception
  | top :: _ => top.exception

/-- How often a function waits on the stack. -/
def callDepth (s : State) (fn : String) : Nat := s.frames.countP (·.callee = fn)

def callStack (s : State) : List String := (s.frames.map (·.callee)).reverse

/-- Records a call. The caller's context is the current one unless given, and the callee's is
derived for the call site unless given. -/
def registerCall (s : State) (caller callee : String) (stmt : Option Stmt) (index : Int)
    (callerContext calleeContext : Option Context) : Except Violation (Edge × State) := do
  let source := callerContext.getD s.context
  let (target, s) ← (match calleeContext with
    | some c => .ok (c, s)
    | none => s.createContext (callSiteText caller index) "")
  let e : Edge := ⟨caller, callee, stmt, index, source, target⟩
  let s := (s.noteContext source).noteContext target
  .ok (e, { s with callGraph := s.callGraph.add e })

end State

end AbstractFlow
