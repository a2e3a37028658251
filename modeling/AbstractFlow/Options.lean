import AbstractFlow.State.Basic
import AbstractFlow.Yaml.Decode

/-!
# Options

How precise an analysis is and where it is cut off. Options are written as a document whose
fields replace the defaults, and are checked before they are used.
-/
namespace AbstractFlow

/-- Counts are words wherever options are read, but an analysis takes any integers. -/
structure Options where
  context : ByteString := .ofString "callsite"
  contextDepth : Int := 2
  flowSensitive : Bool := true
  /-- How many statements one analysis of a body may interpret. -/
  maxIterations : Int := 10000
  /-- How often one function may be on the call stack. -/
  maxRecursionDepth : Int := 3
  /-- Whether a callee is analysed at once where it is called. -/
  directCalls : Bool := true
  /-- How many answers of an oracle are remembered; none if zero. -/
  oracleCacheSize : Int := 4096
deriving DecidableEq

inductive OptionsFault where
  | unknownPolicy (name : ByteString)
  | negativeDepth (n : Int)
  | tooFewIterations (n : Int)
  | tooLittleRecursion (n : Int)
  | negativeCacheSize (n : Int)
deriving DecidableEq

def OptionsFault.message : OptionsFault → String
  | .unknownPolicy name => Policy.unknownMessage name
  | .negativeDepth n => "context depth must not be negative, got " ++ toString n
  | .tooFewIterations n => "max iterations must be at least 1, got " ++ toString n
  | .tooLittleRecursion n => "max recursion depth must be at least 1, got " ++ toString n
  | .negativeCacheSize n => "oracle cache size must not be negative, got " ++ toString n

namespace Options

/-- The first thing that is wrong with the options, if any; otherwise their policy. -/
def validate (o : Options) : Except OptionsFault Policy :=
  match Policy.parse o.context with
  | .error name => .error (.unknownPolicy name)
  | .ok policy =>
    if o.contextDepth < 0 then .error (.negativeDepth o.contextDepth)
    else if o.maxIterations < 1 then .error (.tooFewIterations o.maxIterations)
    else if o.maxRecursionDepth < 1 then .error (.tooLittleRecursion o.maxRecursionDepth)
    else if o.oracleCacheSize < 0 then .error (.negativeCacheSize o.oracleCacheSize)
    else .ok policy

def config (o : Options) (policy : Policy) : Config := ⟨policy, o.contextDepth, o.flowSensitive⟩

/-- The options of a document that leaves everything empty. -/
def blank : Options := ⟨.ofString "", 0, false, 0, 0, false, 0⟩

open Yaml in
def fields : Read.Fields Options
  | "context" =>
    some (Read.field (Read.bytesAs "pythonstate.Policy") fun o s => { o with context := s })
  | "context_depth" => some (Read.field Read.int fun o n => { o with contextDepth := n })
  | "flow_sensitive" => some (Read.field Read.bool fun o b => { o with flowSensitive := b })
  | "max_iterations" => some (Read.field Read.int fun o n => { o with maxIterations := n })
  | "max_recursion_depth" => some (Read.field Read.int fun o n => { o with maxRecursionDepth := n })
  | "direct_calls" => some (Read.field Read.bool fun o b => { o with directCalls := b })
  | "oracle_cache_size" => some (Read.field Read.int fun o n => { o with oracleCacheSize := n })
  | _ => none

end Options

inductive OptionsError where
  | document (fault : Yaml.ReadFault)
  | invalid (fault : OptionsFault)

def OptionsError.message : OptionsError → String
  | .document f => f.message "options"
  | .invalid f => f.message

/-- Reads options on top of the defaults and checks them. -/
def Options.load (text : String) : Except OptionsError Options :=
  let reader := Yaml.Read.record "pythonstatic.Options" Options.fields Options.blank {}
  match Yaml.readDocument reader {} text with
  | .error f => .error (.document f)
  | .ok o =>
    match o.validate with
    | .error f => .error (.invalid f)
    | .ok _ => .ok o

end AbstractFlow
