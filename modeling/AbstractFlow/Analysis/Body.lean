import AbstractFlow.Analysis.Access
import AbstractFlow.Analysis.Branch
import AbstractFlow.Analysis.Call

/-!
# Bodies

Statements are interpreted one at a time. If their order counts, they wait in a queue that control
flow fills; otherwise the whole body is interpreted again and again until its variables no longer
change. Either way the number of statements is limited.
-/
namespace AbstractFlow

namespace Run

variable {σ : Type}

def build (r : Run σ) (type : ContainerType) (elems keys : List String) : Value :=
  let values := elems.map r.lookup
  match type with
  | .set => [.container (.setOf values)]
  | .dict => [.container (.dictOf (keys.map r.lookup) values)]
  | type => [.container (.ofElems type values)]

/-- Binds a function; in the body of a class it becomes a member of the class. -/
def functionDef (r : Run σ) (a : Analyzer) (s : Step) (target name : String) :
    Except Violation (Run σ) := do
  let fn : Function Value := (r.state.function? name).getD ⟨name, [], false, .plain, false, false, []⟩
  let state := if (r.state.function? name).isSome then r.state else r.state.registerFunction fn
  let v : Value := [.function fn]
  let r ← { r with state }.assign a s target v
  match r.state.scope with
  | some scope =>
    if r.state.isClassScope scope && target ≠ "" then
      .ok { r with state := r.state.addMethod scope target v }
    else .ok r
  | none => .ok r

/-- Analyses a body under a context and comes back. -/
def runScope (r : Run σ) (body : BodyAnalysis σ) (name : String) (c : Context) :
    Except Violation (Run σ) := do
  let after ← body name 0 { r with state := r.state.setCurrent name c }
  let after := { after with analyzed := name :: after.analyzed }
  match r.state.scope with
  | some scope => .ok { after with state := after.state.setCurrent scope r.state.context }
  | none => .ok after

def runClassBody (r : Run σ) (a : Analyzer) (body : BodyAnalysis σ) (name : String) :
    Except Violation (Run σ) :=
  if (a.scope? name).isNone then .ok r else r.runScope body name .root

/-- Registers a class, analyses its body and binds it. Bases may also stand with its body. -/
def classDef (r : Run σ) (a : Analyzer) (body : BodyAnalysis σ) (s : Step) (target name : String)
    (bases : List String) : Except Violation (Run σ) := do
  let bases := if bases.isEmpty then ((a.scope? name).map (·.bases)).getD [] else bases
  let r ← { r with state := r.state.registerClass name bases }.runClassBody a body name
  let cls := (r.state.hierarchy.class? name).getD default
  r.assign a s target [.classObject cls]

/-- The value a statement yields, where nothing is called. -/
def interpretSimple (r : Run σ) (a : Analyzer) (s : Step) : Stmt → Except Violation (Run σ)
  | .assign target value => r.assign a s target (r.lookup value)
  | .const target l => r.assign a s target l.value
  | .build target type elems keys => r.assign a s target (r.build type elems keys)
  | .expr target _ | .yield target _ | .await target _ => r.assign a s target Value.unknown
  | .delete names => .ok { r with state := names.foldl State.deleteVariable r.state }
  | .attrStore object attr value => .ok (r.attrStore object attr value)
  | .attrLoad target object attr =>
    let (v, r) := r.attrLoad object attr
    r.assign a s target v
  | .subscriptStore object index value => .ok (r.subscriptStore object index value)
  | .subscriptLoad target object _ => r.assign a s target (Value.elements (r.lookup object))
  | .ret value =>
    let v := if value = "" then Value.noneConstant else r.lookup value
    .ok { r with state := r.state.setReturn v }
  | .raise value => .ok { r with state := r.state.addException (r.lookup value) }
  | .functionDef target name => r.functionDef a s target name
  | _ => .ok r

def interpretStmt (r : Run σ) (a : Analyzer) (body : BodyAnalysis σ) (s : Step) :
    Stmt → Except Violation (Run σ)
  | .call c => do
    let (v, r) ← r.call a body s c
    let r ← r.assign a s c.target v
    .ok (r.advance a s)
  | .classDef target name bases => do
    let r ← r.classDef a body s target name bases
    .ok (r.advance a s)
  | .jump sense test label => .ok (r.branch a s sense test label)
  | .goto label => .ok (r.jump a s label)
  | .label _ => r.label a s
  | stmt => do
    let r ← r.interpretSimple a s stmt
    .ok (r.advance a s)

def interpret (r : Run σ) (a : Analyzer) (body : BodyAnalysis σ) (item : WorkItem) :
    Except Violation (Run σ) :=
  match item.index, (a.scope? item.function).map (·.body) with
  | .ofNat i, some stmts =>
    match stmts[i]? with
    | none => .error (.noStatement i item.function)
    | some stmt =>
      let context := r.state.context
      let point : Point := ⟨item.function, i, context⟩
      -- The visits before this one.
      let s : Step := ⟨item.function, i, r.state.flow.visitCount point⟩
      let r := { r with
        state.flow := r.state.flow.visit point
        stats.statements := r.stats.statements + 1 }
      let r := r.note a fun _ =>
        item.function ++ ":" ++ toString i ++ context.text ++ " " ++ stmt.text
      r.interpretStmt a body s stmt
  | i, _ => .error (.noStatement i item.function)

/-- Counts and reports that the analysis of a body was stopped. -/
def capped (r : Run σ) (a : Analyzer) (function : String) : Run σ :=
  { r with stats.iterationCapHit := r.stats.iterationCapHit + 1 }.report
    ("iteration cap of " ++ toString a.options.maxIterations ++ " reached in " ++ function)

/-- Interprets what waits until nothing does, at most `left` statements more. -/
def drain (a : Analyzer) (body : BodyAnalysis σ) (function : String) :
    Nat → Run σ → Except Violation (Run σ)
  | left, r =>
    match r.state.flow.dequeue? with
    | none => .ok r
    | some (item, flow) =>
      let r := { r with state.flow := flow }
      match left with
      | 0 => .ok (r.capped a function)
      | left + 1 => do
        let r ← r.interpret a body item
        drain a body function left r

/-- Interprets a body along its control flow, in a queue of its own. -/
def runFlow (r : Run σ) (a : Analyzer) (body : BodyAnalysis σ) (function : String) (start : Int) :
    Except Violation (Run σ) := do
  let current := r.state.flow.current
  let r ← drain a body function a.maxIterations (r.mapFlow fun t => t.push.enqueue function start)
  match r.state.flow.pop? current with
  | some flow => .ok { r with state.flow := flow }
  | none => .error .popOutermost

/-- Interprets statements in their order, at most `left` of them; tells how many more there may be,
or nothing if they were too many. -/
def pass (a : Analyzer) (body : BodyAnalysis σ) (function : String) :
    List Nat → Nat → Run σ → Except Violation (Option Nat × Run σ)
  | [], left, r => .ok (some left, r)
  | _ :: _, 0, r => .ok (none, r.capped a function)
  | i :: rest, left + 1, r => do
    let item : WorkItem := ⟨function, i⟩
    let r ← { r with state.flow.current := item }.interpret a body item
    pass a body function rest left r

/-- Repeats passes until one changes nothing. Every pass but an empty one uses up statements, so
there are never more passes than statements allowed. -/
def passes (a : Analyzer) (body : BodyAnalysis σ) (function : String) (indices : List Nat) :
    Nat → Nat → Run σ → Except Violation (Run σ)
  | 0, _, r => .ok r
  | fuel + 1, left, r => do
    let before := r.state.snapshot
    let (left?, r) ← pass a body function indices left r
    match left? with
    | none => .ok r
    | some left =>
      if Snapshot.equal r.state.snapshot before then .ok r
      else passes a body function indices fuel left r

/-- Interprets a body without regard to its control flow. -/
def runPasses (r : Run σ) (a : Analyzer) (body : BodyAnalysis σ) (function : String) :
    Except Violation (Run σ) := do
  match a.scope? function with
  | none => .ok r
  | some scope =>
    let current := r.state.flow.current
    let limit := a.maxIterations
    let r ← passes a body function (List.range scope.body.length) (limit + 1) limit r
    .ok { r with state.flow.current := current }

end Run

namespace Analyzer

variable {σ : Type}

/-- Analyses a body; `depth` bounds how deep bodies may be nested. -/
def runBody (a : Analyzer) : Nat → BodyAnalysis σ
  | 0, _, _, _ => .error .endless
  | depth + 1, function, start, r =>
    if a.options.flowSensitive then r.runFlow a (a.runBody depth) function start
    else r.runPasses a (a.runBody depth) function

/-- No function is on the call stack more often than the recursion limit allows, and between two
calls no body of a class is entered twice. -/
def depthBound (a : Analyzer) : Nat :=
  (a.scopes.length * a.maxRecursionDepth + 1) * (a.scopes.length + 1)

def body (a : Analyzer) : BodyAnalysis σ := a.runBody a.depthBound

end Analyzer

end AbstractFlow
