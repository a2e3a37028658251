import AbstractFlow.Analysis.Body

/-!
# Propagation of calls

Recorded calls wait in a queue. A callee that was not yet analysed under its context is analysed
with the arguments its caller has now; what it returns is then propagated through the rest of the
caller.
-/
namespace AbstractFlow

namespace Run

variable {σ : Type}

def requeue (r : Run σ) (index : Nat) : Run σ :=
  if r.requeued.contains index then r
  else
    { r with
      requeued := index :: r.requeued
      queue := r.queue ++ [⟨index, true⟩] }

def skip (r : Run σ) : Run σ := { r with stats.edgesSkipped := r.stats.edgesSkipped + 1 }

/-- The call of an edge and its callee, if the callee can be analysed. -/
def callable? (r : Run σ) (a : Analyzer) (e : Edge) : Option (Call × Function Value) :=
  match e.stmt, r.state.function? e.callee, a.scope? e.callee with
  | some (.call c), some fn, some _ => some (c, fn)
  | _, _, _ => none

/-- Makes a recorded call, unless its callee was analysed under its context before. -/
def processCall (r : Run σ) (a : Analyzer) (index : Nat) (record : CallRecord) :
    Except Violation (Run σ) := do
  let e := record.edge
  let key : FrameKey := ⟨e.callee, e.calleeContext⟩
  match r.memo.contains key, r.callable? a e with
  | false, some (c, fn) =>
    let r := { r with memo := key :: r.memo }
    let r := r.note a fun _ => "\n### PROPAGATING EDGE " ++ e.text ++ " ###"
    let r := { r with state := r.state.setCurrent e.caller e.callerContext }
    -- The arguments are what the variables of the caller hold by now.
    let args := c.args.map r.lookup
    let (v, r) ← r.invoke a a.body fn c.args args record.receiver e.caller e.index
    if c.target = "" || record.constructs then .ok (r.requeue index)
    else
      let (_, state) ← r.state.mergeVariable c.target v
      .ok ({ r with state }.requeue index)
  | _, _ => .ok r.skip

/-- Analyses the caller again from behind the call; what it returns on the way is joined into what
it is known to return. -/
def propagate (r : Run σ) (a : Analyzer) (e : Edge) : Except Violation (Run σ) := do
  let r := r.note a fun _ =>
    "\n### REPROPAGATING " ++ e.caller ++ " AFTER " ++ toString e.index ++ " ###"
  let state := r.state.pushCall "" e.caller 0 r.state.context r.state.scope
  let r := { r with state := state.setCurrent e.caller e.callerContext }
  -- Without an order of statements nothing is behind the call, and the body starts anew.
  let r ← a.body e.caller (if a.options.flowSensitive then e.index + 1 else 0) r
  let (_, state) ← r.state.exitFunction (some (r.state.returnValue?.getD []))
  .ok { r with state }

def processPending (r : Run σ) (a : Analyzer) (item : PendingCall) : Except Violation (Run σ) :=
  let r := { r with stats.edgesProcessed := r.stats.edgesProcessed + 1 }
  match r.calls[item.index]? with
  | none => .ok r
  | some record =>
    if item.propagates then r.propagate a record.edge else r.processCall a item.index record

/-- Empties the queue of calls, the oldest first. -/
def solve (a : Analyzer) : Nat → Run σ → Except Violation (Run σ)
  | fuel, r =>
    match r.queue with
    | [] => .ok r
    | item :: rest =>
      match fuel with
      | 0 => .error .endless
      | fuel + 1 => do
        let r ← { r with queue := rest }.processPending a item
        solve a fuel r

end Run

end AbstractFlow
