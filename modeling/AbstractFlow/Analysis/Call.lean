import AbstractFlow.Analysis.Builtin
import AbstractFlow.Value.Text

/-!
# Calls

A call may lead to built-in functions, to functions and classes of the analysed program, and to
what an oracle adds. Every call is recorded; a callee is analysed at once if that is asked for and
the recursion limit allows it.
-/
namespace AbstractFlow

abbrev BodyAnalysis (σ : Type) := String → Int → Run σ → Except Violation (Run σ)

/-- Identifies a receiver by the objects it may be. -/
def Value.receiverId (v : Value) : String :=
  let id (o : Object) : String := if o.identity ≠ "" then o.identity else o.typeName
  "|".intercalate (Names.sort ((v.map id).filter (· ≠ "")))

def Binding.takesReceiver : Binding → Bool
  | .onInstance | .onClass => true
  | _ => false

/-- The callees of a call that were found so far, and what they return together. -/
structure Resolution where
  result : Value := []
  resolved : Bool := false
  called : List String := []

namespace Resolution

def add (n : Resolution) (v : Value) (called : List String) : Resolution :=
  ⟨n.result.merge v, true, n.called ++ called⟩

/-- A call that leads nowhere may return anything. -/
def value (n : Resolution) : Value := if n.resolved then n.result else Value.unknown

end Resolution

namespace Run

variable {σ : Type}

/-- Records a call, and lets it wait to be propagated if it is new, that is if the call graph has grown. -/
def registerCall (r : Run σ) (s : Step) (c : Call) (callee : String) (target : Context)
    (receiver : Option Receiver) (constructs : Bool) : Except Violation (Run σ) := do
  let (edge, state) ← r.state.registerCall s.function callee (some (.call c)) s.index none
    (some target)
  if state.callGraph.size ≤ r.state.callGraph.size then .ok { r with state }
  else
    .ok { r with
      state
      calls := r.calls ++ [⟨edge, receiver, constructs⟩]
      queue := r.queue ++ [⟨r.calls.length, false⟩] }

/-- What the parameters at the places of the arguments hold now. -/
def parameterValues (r : Run σ) (fn : Function Value) (receiver : Option Receiver) (n : Nat) :
    List Value :=
  let params :=
    if receiver.isSome && fn.binding.takesReceiver then fn.params.drop 1 else fn.params
  (params.take n).map fun p => (r.state.getVariable? p).getD []

/-- Joins the containers that a callee left in its parameters into the arguments of the caller. -/
def writeBack (r : Run σ) (argument : String) (v : Value) : Run σ :=
  let containers := v.containers
  if containers.isEmpty || argument = "" then r
  else
    match r.state.getVariable? argument with
    | none => r
    | some old =>
      if old.containers.isEmpty then r
      else r.rebind argument (old.merge (Value.ofObjects (containers.map .container)))

/-- Analyses a function on a frame of its own and gives what it returns. -/
def invoke (r : Run σ) (a : Analyzer) (body : BodyAnalysis σ) (fn : Function Value)
    (argNames : List String) (args : List Value) (receiver : Option Receiver) (caller : String)
    (index : Int) : Except Violation (Value × Run σ) := do
  let pushed := r.state.pushCall caller fn.name index r.state.context none
  let deepest := max r.stats.deepestRecursion (pushed.callDepth fn.name)
  let (context, state) ← pushed.enterFunction fn args (callSiteText caller index) receiver
  let r := { r with state, stats.deepestRecursion := deepest }
  let r := r.note a fun _ => "enter " ++ fn.name ++ context.text
  let r ← body fn.name 0 r
  let r := { r with analyzed := fn.name :: r.analyzed }
  let result := r.state.returnValue?.getD Value.noneConstant
  let params := r.parameterValues fn receiver argNames.length
  let (_, state) ← r.state.exitFunction (some result)
  let r := (argNames.zip params).foldl (fun r (name, v) => r.writeBack name v) { r with state }
  .ok (result, r.note a fun _ => "exit " ++ fn.name ++ context.text ++ " -> " ++ Value.text result)

/-- Records a call of a function and, if calls are direct, analyses it under its context. Beyond
the recursion limit, and if calls are not direct, what it is known to return has to do. -/
def callFunction (r : Run σ) (a : Analyzer) (body : BodyAnalysis σ) (s : Step) (c : Call)
    (args : List Value) (receiver : Option Receiver) (constructs : Bool) (fn : Function Value) :
    Except Violation (Value × Run σ) := do
  let site := callSiteText s.function s.index
  let receiver := if fn.binding.takesReceiver then receiver else none
  let (target, state) ← r.state.createContext site ((receiver.map (·.id)).getD "")
  let r ← { r with state }.registerCall s c fn.name target receiver constructs
  let summary := r.state.returnSummary? fn.name target
  if (a.scope? fn.name).isNone then .ok (Value.unknown, r)
  else if !a.options.directCalls then .ok (summary.getD [], r)
  else if a.maxRecursionDepth ≤ r.state.callDepth fn.name then
    let r := { r with stats.recursionCutoffs := r.stats.recursionCutoffs + 1 }
    .ok (summary.getD Value.unknown,
      r.note a fun _ => "recursion cutoff for " ++ fn.name ++ " at " ++ site)
  else
    -- The solver will not make a call again that is made here.
    let r := { r with memo := ⟨fn.name, target⟩ :: r.memo }
    r.invoke a body fn c.args args receiver s.function s.index

/-- Calls a class: the result is a new instance, initialised by what the class has for that. -/
def instantiate (r : Run σ) (a : Analyzer) (body : BodyAnalysis σ) (s : Step) (c : Call)
    (args : List Value) (cls : Class Value) : Except Violation (Value × Run σ) := do
  let instance_ : Object := .instanceObject ⟨cls.name, callSiteText s.function s.index, []⟩
  let receiver : Receiver := ⟨instance_.identity, [instance_]⟩
  let initializers := ((r.state.lookupAttr? cls.name "__init__").getD []).functions
  let r ← initializers.foldlM (fun r fn => do
    let (_, r) ← r.callFunction a body s c args (some receiver) true fn
    .ok r) r
  .ok ([instance_], r)

def callObject (a : Analyzer) (body : BodyAnalysis σ) (s : Step) (c : Call) (args : List Value)
    (receiver : Option Receiver) (acc : Resolution × Run σ) (o : Object) :
    Except Violation (Resolution × Run σ) := do
  let (n, r) := acc
  match o with
  | .function fn =>
    let (v, r) ← r.callFunction a body s c args receiver false fn
    .ok (n.add v [fn.name], r)
  | .classObject cls =>
    let (v, r) ← r.instantiate a body s c args cls
    .ok (n.add v [cls.name], r)
  | .external e =>
    if e.kind = .classObject then .ok (n.add [.external ⟨.instanceObject, e.module, e.name, []⟩] [], r)
    else .ok (n.add Value.unknown [], r)
  | _ => .ok (n.add Value.unknown [], r)

def builtinModule : String := "builtins."

/-- Calls a function that the oracle names, unless it was called already. -/
def callNamed (a : Analyzer) (body : BodyAnalysis σ) (s : Step) (c : Call) (args : List Value)
    (receiver : Option Receiver) (acc : Resolution × Run σ) (symbol : String) :
    Except Violation (Resolution × Run σ) := do
  let (n, r) := acc
  let name :=
    if Names.startsWith symbol builtinModule then
      String.ofList (symbol.toList.drop builtinModule.length)
    else symbol
  if n.called.contains name then .ok (n, r)
  else
    match Builtin.ofName? name, r.state.function? symbol with
    | some b, _ => .ok (n.add (b.apply r.state.hierarchy args) [name], r)
    | none, some fn =>
      let (v, r) ← r.callFunction a body s c args receiver false fn
      .ok (n.add v [name], r)
    -- What is neither built in nor known counts as called, but gives nothing.
    | none, none => .ok ({ n with called := n.called ++ [name] }, r)

/-- What a callee is: the value of its variable, or else a built-in function, a function or a class
of that name. -/
def resolveCallee (r : Run σ) (callee : String) (args : List Value) : Resolution × Value :=
  match r.state.getVariable? callee with
  | some v => ({}, v)
  | none =>
    match Builtin.ofName? callee, r.state.function? callee, r.state.hierarchy.class? callee with
    | some b, _, _ => (⟨b.apply r.state.hierarchy args, true, [callee]⟩, [])
    | none, some fn, _ => ({}, [.function fn])
    | none, none, some cls => ({}, [.classObject cls])
    | none, none, none => ({}, [])

def call (r : Run σ) (a : Analyzer) (body : BodyAnalysis σ) (s : Step) (c : Call) :
    Except Violation (Value × Run σ) := do
  let args := c.args.map r.lookup
  let receiver : Option Receiver :=
    if c.receiver = "" then none
    else
      let v := r.lookup c.receiver
      some ⟨v.receiverId, v⟩
  let (n, callee) := r.resolveCallee c.callee args
  let (n, r) ← callee.foldlM (callObject a body s c args receiver) (n, r)
  -- The oracle may name callees that the value does not show.
  if r.oracle.isAvailable then
    let (answer, r) := r.ask (.possibleCallees ⟨s.function, s.index⟩ r.contextKey)
    let (n, r) ← answer.asFunctions.foldlM (callNamed a body s c args receiver) (n, r)
    .ok (n.value, r)
  else .ok (n.value, r)

end Run

end AbstractFlow
