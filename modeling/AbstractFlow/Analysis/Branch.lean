import AbstractFlow.Analysis.Run
import AbstractFlow.Value.Compare

/-!
# Branches

A branch whose test is decided goes one way. Otherwise both ways are taken, and what is known at
the branch is saved for every point where they may join again.
-/
namespace AbstractFlow

namespace Run

variable {σ : Type}

def evaluate (r : Run σ) : Test → Verdict
  | .name n => (r.lookup n).truth
  | .literal l => l.value.truth
  | .compare left op right => Value.compare op (r.operand left) (r.operand right)

def mapFlow (r : Run σ) (f : Tracker → Tracker) : Run σ := { r with state.flow := f r.state.flow }

def pointAt (r : Run σ) (s : Step) (index : Nat) : Point := ⟨s.function, index, r.state.context⟩

/-- Saves what is known for every merge point ahead, and lets both ways wait. -/
def fork (r : Run σ) (s : Step) : Run σ :=
  let snapshot := r.state.snapshot
  r.mapFlow fun t =>
    let ahead := t.mergePointsFrom (r.pointAt s s.index)
    let t := ahead.foldl (fun t i => t.saveSnapshot (r.pointAt s i) snapshot) t
    t.enqueueSuccessors s.function s.index

def branch (r : Run σ) (a : Analyzer) (s : Step) (sense : Bool) (test : Test) (label : String) :
    Run σ :=
  if !a.options.flowSensitive then r
  else
    let target := (r.state.flow.graph? s.function).bind fun g => g.label? label
    -- A jump to a label that is not there forks, even if its test is decided.
    match target, r.evaluate test with
    | none, _ | _, .maybe => r.fork s
    | some t, verdict =>
      if (verdict == .yes) == sense then
        (r.note a fun _ => "  branch to " ++ label ++ " is always taken").mapFlow
          (·.enqueue s.function t)
      else
        (r.note a fun _ => "  branch to " ++ label ++ " is never taken").mapFlow
          (·.enqueue s.function (s.index + 1))

def jump (r : Run σ) (a : Analyzer) (s : Step) (label : String) : Run σ :=
  if !a.options.flowSensitive then r
  else
    match (r.state.flow.graph? s.function).bind fun g => g.label? label with
    | some t => r.mapFlow (·.enqueue s.function t)
    | none => r

/-- Joins what arrives at a merge point with what was saved for it. If the point was reached before
and nothing is new, control flow goes no further, so that loops end. -/
def join (r : Run σ) (a : Analyzer) (s : Step) : Except Violation (Run σ) := do
  let point := r.pointAt s s.index
  let saved := r.state.flow.snapshot? point
  let merged := match saved with
    | some old => Snapshot.merge old r.state.snapshot
    | none => r.state.snapshot
  let state ← r.state.restore merged
  let r := { r with state }.mapFlow (·.setSnapshot point merged)
  if 0 < s.revisits && saved.any (Snapshot.equal merged) then
    .ok (r.note a fun _ => "  join at " ++ toString s.index ++ " is stable")
  else .ok (r.advance a s)

def label (r : Run σ) (a : Analyzer) (s : Step) : Except Violation (Run σ) :=
  if !a.options.flowSensitive then .ok r
  else if (r.state.flow.graph? s.function).any (·.isMergePoint s.index) then r.join a s
  else .ok (r.advance a s)

end Run

end AbstractFlow
