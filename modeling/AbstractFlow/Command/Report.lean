import AbstractFlow.Analysis.Analyzer
import AbstractFlow.Command.Settings
import AbstractFlow.Text.Columns
import AbstractFlow.Text.Quoted

/-!
# Reports

What the command prints about a result: the variables of every frame in columns, the calls, the
classes, and how much work it was.
-/
namespace AbstractFlow.Command

/-- Digits in groups of three from the right. -/
def groupThousands (digits : List Char) : List Char :=
  let groups (c : Char) (acc : Nat × List Char) : Nat × List Char :=
    (acc.1 + 1, if acc.1 ≠ 0 && acc.1 % 3 = 0 then c :: ',' :: acc.2 else c :: acc.2)
  (digits.foldr groups (0, [])).2

def countText (n : Nat) : String := String.ofList (groupThousands (toString n).toList)

/-- Names with two underscores at both ends are not reported. -/
def isHidden (name : String) : Bool := name.startsWith "__" && name.endsWith "__"

/-- A frame with one line for each variable; a tab divides name and value. -/
def frameText (s : State) (k : FrameKey) : String :=
  let shown := (s.frameAt k.scope k.context).filter fun e => !isHidden e.1
  "\n" ++ k.scope ++ " " ++ k.context.text ++ "\n" ++
    String.join (shown.map fun e => "  " ++ e.1 ++ "\t:= " ++ e.2.text ++ "\n")

def variablesText (s : State) : String :=
  Columns.layout ⟨4, 2⟩ (String.join (s.frameKeys.map (frameText s)))

def callsText (s : State) : String :=
  "\nCall graph:\n" ++ String.join (s.callGraph.edges.map fun e => "  " ++ e.text ++ "\n")

def classesText (s : State) : String :=
  let line (name : String) : String :=
    "  " ++ name ++ "  mro: " ++ ", ".intercalate (s.hierarchy.mro name) ++ "\n"
  "\nClasses:\n" ++ String.join (s.hierarchy.classNames.map line)

def recordText (name : String) (fields : List (String × String)) : String :=
  name ++ "\x7b" ++ ", ".intercalate (fields.map fun f => f.1 ++ ":" ++ f.2) ++ "\x7d"

def flagText (b : Bool) : String := if b then "true" else "false"

def optionsText (o : Options) : String :=
  let fields : List (String × String) :=
    [("Context", o.context.quote), ("ContextDepth", toString o.contextDepth),
      ("FlowSensitive", flagText o.flowSensitive), ("MaxIterations", toString o.maxIterations),
      ("MaxRecursionDepth", toString o.maxRecursionDepth), ("DirectCalls", flagText o.directCalls),
      ("OracleCacheSize", toString o.oracleCacheSize)]
  recordText "pythonstatic.Options" fields

/-- The counts of an analysis, or no fields at all if nothing was done. -/
def statsText (s : Stats) : String :=
  let counts : List (String × Nat) :=
    [("Statements", s.statements), ("IterationCapHit", s.iterationCapHit),
      ("RecursionCutoffs", s.recursionCutoffs), ("EdgesProcessed", s.edgesProcessed),
      ("EdgesSkipped", s.edgesSkipped), ("DeepestRecursion", s.deepestRecursion)]
  let fields := if counts.all (·.2 = 0) then [] else counts.map fun c => (c.1, toString c.2)
  recordText "pythonstatic.Stats" fields

variable {σ : Type}

def summaryText (scopes : Nat) (res : Result σ) : String :=
  "\nAnalyzed " ++ countText scopes ++ " scopes: " ++ countText res.stats.statements ++
    " statements, " ++ countText res.state.callGraph.size ++ " call edges (" ++
    countText res.stats.edgesSkipped ++ " skipped)\n" ++
    (if res.isComplete then "" else "Incomplete: " ++ res.cutoffText ++ "\n") ++
    if res.failures.isEmpty then "" else toString res.failures.length ++ " oracle failures\n"

def reportText (s : Settings) (scopes : Nat) (res : Result σ) : String :=
  (if s.trace then String.join (res.trace.map (· ++ "\n")) ++ "\n" else "") ++
    variablesText res.state ++ callsText res.state ++ classesText res.state ++
    (if s.verbose then "\n" ++ optionsText res.options ++ "\n" ++ statsText res.stats ++ "\n"
      else "") ++
    summaryText scopes res

end AbstractFlow.Command
