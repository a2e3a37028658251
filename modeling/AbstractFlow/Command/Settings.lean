import AbstractFlow.Duration
import AbstractFlow.Options

/-!
# Settings

What the arguments of a command ask for. A flag takes its value from behind an equals sign or from
the next argument; a switch needs none. The last of several values counts.
-/
namespace AbstractFlow.Command

structure Settings where
  /-- The file that holds the program; it has to be named. -/
  program : Option String := none
  /-- The file that holds options, or nothing for the defaults. -/
  options : String := ""
  policy : String := ""
  /-- The context depth, unless negative. -/
  depth : Int := -1
  flowInsensitive : Bool := false
  maxIterations : Int := 0
  maxRecursion : Int := 0
  /-- How long the analysis may take; without limit unless positive. -/
  timeout : Duration := ⟨0⟩
  trace : Bool := false
  verbose : Bool := false

inductive Flag where
  | program
  | options
  | policy
  | depth
  | flowInsensitive
  | maxIterations
  | maxRecursion
  | timeout
  | trace
  | verbose
deriving DecidableEq

inductive ValueKind where
  | text
  | number
  | switch
deriving DecidableEq

/-- A whole number of 64 bits with an optional sign. -/
def number? (s : String) : Option Int :=
  let digits? (cs : List Char) : Option Nat :=
    if cs.isEmpty || cs.any (!·.isDigit) then none else some (Duration.digitsValue cs)
  let value? : Option Int := match s.toList with
    | '-' :: cs => (digits? cs).map fun n => -n
    | '+' :: cs => (digits? cs).map fun n => n
    | cs => (digits? cs).map fun n => n
  value?.filter Word.fits

def truth? (s : String) : Option Bool :=
  if ["1", "t", "T", "TRUE", "true", "True"].contains s then some true
  else if ["0", "f", "F", "FALSE", "false", "False"].contains s then some false
  else none

namespace Flag

def all : List Flag :=
  [program, options, policy, depth, flowInsensitive, maxIterations, maxRecursion, timeout, trace,
    verbose]

def name : Flag → String
  | program => "program"
  | options => "options"
  | policy => "policy"
  | depth => "k"
  | flowInsensitive => "flowinsensitive"
  | maxIterations => "maxiterations"
  | maxRecursion => "maxrecursion"
  | timeout => "timeout"
  | trace => "trace"
  | verbose => "verbose"

/-- The flag of a name. No flag has a second, shorter name, so the empty name is that of the first
flag. -/
def ofName? (name : String) : Option Flag :=
  if name = "" then all.head? else all.find? (·.name = name)

def kind : Flag → ValueKind
  | program | options | policy => .text
  | depth | maxIterations | maxRecursion | timeout => .number
  | flowInsensitive | trace | verbose => .switch

def help : Flag → String
  | program => "YAML file holding the lowered program"
  | options => "YAML file holding analysis options"
  | policy => "context policy: insensitive, callsite, object, hybrid or kcfa"
  | depth => "context depth [default: -1]"
  | flowInsensitive => "analyze function bodies by repeated in-order passes"
  | maxIterations => "statements interpreted per analysis of a body"
  | maxRecursion => "occurrences of one function on the call stack"
  | timeout => "abort the analysis after this long (0 means no limit)"
  | trace => "print the analysis trace"
  | verbose => "dump the full result"

def set? (s : Settings) (value : String) : Flag → Option Settings
  | program => some { s with program := some value }
  | options => some { s with options := value }
  | policy => some { s with policy := value }
  | depth => (number? value).map fun n => { s with depth := n }
  | flowInsensitive => (truth? value).map fun b => { s with flowInsensitive := b }
  | maxIterations => (number? value).map fun n => { s with maxIterations := n }
  | maxRecursion => (number? value).map fun n => { s with maxRecursion := n }
  | timeout => (Duration.parse? value).map fun d => { s with timeout := d }
  | trace => (truth? value).map fun b => { s with trace := b }
  | verbose => (truth? value).map fun b => { s with verbose := b }

end Flag

inductive Refusal where
  | misuse
  | help
  | version
deriving DecidableEq

/-- An argument that starts with a dash and does not consist of dashes. -/
def isFlag (arg : String) : Bool :=
  arg.toList.head? = some '-' && arg.toList.any (· ≠ '-')

def isHelp (arg : String) : Bool := arg = "-h" || arg = "--help"

def splitFlag (arg : String) : String × String :=
  let cs := arg.toList.dropWhile (· = '-')
  (String.ofList (cs.takeWhile (· ≠ '=')), String.ofList ((cs.dropWhile (· ≠ '=')).drop 1))

structure Reading where
  settings : Settings := {}
  awaiting : Option Flag := none
  ended : Bool := false
  /-- Whether an argument belongs to no flag. -/
  stray : Bool := false

namespace Reading

def assign (r : Reading) (f : Flag) (value : String) : Except Refusal Reading :=
  match f.set? r.settings value with
  | some settings => .ok { r with settings, awaiting := none }
  | none => .error .misuse

/-- Whether an argument can be the value of the flag before it. What looks like a flag can only
if it reads as a number. -/
def takes (f : Flag) (arg : String) : Bool :=
  !isFlag arg || (f.kind = .number && (f.set? {} arg).isSome)

def flag (r : Reading) (arg : String) : Except Refusal Reading :=
  let (name, value) := splitFlag arg
  match Flag.ofName? name with
  | none => .error .misuse
  | some f =>
    if value ≠ "" then r.assign f value
    else if f.kind = .switch then r.assign f "true"
    else .ok { r with awaiting := some f }

def next (r : Reading) (arg : String) : Except Refusal Reading :=
  match r.awaiting with
  | some f => if takes f arg then r.assign f arg else .error .misuse
  | none =>
    if arg = "--" then .ok { r with ended := true }
    else if r.ended || !isFlag arg then .ok { r with stray := true }
    else if isHelp arg then .error .help
    else if arg = "--version" then .error .version
    else r.flag arg

/-- Every flag needs its value, the program has to be named, and nothing may be left over. -/
def finish (r : Reading) : Except Refusal Settings :=
  if r.awaiting.isSome || r.stray || r.settings.program.isNone then .error .misuse
  else .ok r.settings

end Reading

namespace Settings

def read (args : List String) : Except Refusal Settings :=
  args.foldlM Reading.next {} >>= Reading.finish

/-- Reads arguments. Who asks for help gets it in spite of other faults. -/
def parse (args : List String) : Except Refusal Settings :=
  match read args with
  | .ok s => .ok s
  | .error r => .error (if (args.takeWhile (· ≠ "--")).any isHelp then .help else r)

def override (s : Settings) (o : Options) : Options :=
  { o with
    context := if s.policy = "" then o.context else .ofString s.policy
    contextDepth := if s.depth < 0 then o.contextDepth else s.depth
    flowSensitive := o.flowSensitive && !s.flowInsensitive
    maxIterations := if 0 < s.maxIterations then s.maxIterations else o.maxIterations
    maxRecursionDepth := if 0 < s.maxRecursion then s.maxRecursion else o.maxRecursionDepth }

end Settings

end AbstractFlow.Command
