import AbstractFlow.Analysis.Analyzer
import AbstractFlow.Describe.Value

/-!
# Descriptions of results

Everything an analysis has found out: variables in their frames, calls, classes, functions and what
they return, and how much work it was.
-/
namespace AbstractFlow

def Context.describe (c : Context) : Description := .texts c.elems

def Edge.describe (e : Edge) : Description :=
  .record
    [("s", e.text), ("site", e.callSite), ("stmt", .optional (fun s => .text s.text) e.stmt)]

def Options.describe (o : Options) : Description :=
  .record
    [("context", o.context.text), ("context_depth", o.contextDepth),
      ("flow_sensitive", o.flowSensitive), ("max_iterations", o.maxIterations),
      ("max_recursion_depth", o.maxRecursionDepth), ("direct_calls", o.directCalls),
      ("oracle_cache_size", o.oracleCacheSize)]

def Stats.describe (s : Stats) : Description :=
  .record
    [("statements", s.statements), ("iteration_cap_hit", s.iterationCapHit),
      ("recursion_cutoffs", s.recursionCutoffs), ("edges_processed", s.edgesProcessed),
      ("edges_skipped", s.edgesSkipped), ("deepest_recursion", s.deepestRecursion)]

namespace State

def describeScope (s : State) (name : Option String) : Description :=
  .optional
    (fun (n, e) => .record
      [("name", n), ("kind", e.kind.name), ("parent", .optional .text e.parent)])
    (name.bind fun n => (s.scopes.get? n).map fun e => (n, e))

def describeFrame (s : State) (k : FrameKey) : Description :=
  .record
    [("scope", k.scope), ("context", k.context.describe),
      ("vars", Attrs.describe (s.frameAt k.scope k.context))]

def describeClass (s : State) (c : Class Value) : Description :=
  .record
    [("s", c.text), ("mro", .texts (s.hierarchy.mro c.name)),
      ("subs", .texts (s.hierarchy.subclasses c.name)),
      ("methods", Snapshot.describeTexts c.methods)]

def describeSummary (s : State) (k : FrameKey) : Description :=
  let v := s.returnSummary? k.scope k.context
  .list [k.scope, k.context.describe, v.isSome, Value.text (v.getD [])]

/-- The callees of all calls under their contexts, and then the functions that return something
under the root context. -/
def summaryKeys (s : State) : List FrameKey :=
  let called : List FrameKey := s.callGraph.edges.foldl
    (fun ks e =>
      let same (k : FrameKey) : Bool := k.scope = e.callee && k.context.text = e.calleeContext.text
      if ks.any same then ks else ks ++ [⟨e.callee, e.calleeContext⟩])
    []
  let rest := s.functionNames.filter fun f => (s.returnSummary? f .root).isSome
  called ++ rest.map fun f => ⟨f, .root⟩

end State

namespace Result

variable {σ : Type}

/-- A variable under the root context, under a given one, and under all of them. -/
def describeLookup (res : Result σ) (scope name : String) (c : Context) : Description :=
  .record
    [("root", Value.describeLookup (res.lookupIn scope .root name)),
      ("in", Value.describeLookup (res.lookupIn scope c name)),
      ("merged", (res.merged scope name).describe),
      ("contexts", .list ((res.contexts scope).map Context.describe))]

def details (res : Result σ) : Fields :=
  let s := res.state
  [("frames", .list (s.frameKeys.map s.describeFrame)),
    ("edges", .list (s.callGraph.edges.map Edge.describe)),
    ("classes", .list (s.hierarchy.classes.map fun e => s.describeClass e.2)),
    ("functions", .texts (s.functions.map fun e => e.2.text)),
    ("summaries", .list (s.summaryKeys.map s.describeSummary)),
    ("scopes", .texts s.scopes.keys), ("complete", res.isComplete),
    ("failures", .texts (res.failures.map Failure.text)), ("durations", .texts phases),
    ("exception", Value.text s.raised), ("options", res.options.describe),
    ("stats", res.stats.describe)]

end Result

end AbstractFlow
