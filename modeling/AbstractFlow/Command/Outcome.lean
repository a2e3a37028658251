import AbstractFlow.Command.Files
import AbstractFlow.Command.Report
import AbstractFlow.Command.Usage
import AbstractFlow.Program.Decode

/-!
# Outcomes

The command reads options and a program from files, analyses the program and reports. The first
fault on the way ends it.
-/
namespace AbstractFlow.Command

inductive Outcome where
  | printed (text : String)
  | failed (message : String)
  | misused
  | broken (message : String)

namespace Outcome

def exitCode : Outcome → Nat
  | printed _ => 0
  | failed _ => 1
  | broken _ => 2
  | misused => 255

def message? : Outcome → Option String
  | failed m => some m
  | _ => none

def ofRefusal : Refusal → Outcome
  | .misuse => misused
  | .help => printed helpText
  | .version => printed "\n"

end Outcome

structure Task where
  settings : Settings
  scopes : Nat
  analyzer : Analyzer

namespace Task

def loadOptions (files : Files) (path : String) : Except Outcome Options :=
  if path = "" then .ok {}
  else
    match files.read "options" path with
    | .error f => .error (.failed f.message)
    | .ok text => (Options.load text).mapError fun f => .failed f.message

/-- A program that cannot be read is reported like one that cannot be understood, unless there is
no such file at all. -/
def loadProgram (files : Files) (path : String) : Except Outcome Program :=
  let undecodable (message : String) : Outcome := .failed ("error decoding program: " ++ message)
  match files.read "program" path with
  | .error (.missing path) => .error (.failed (FileFault.message (.missing path)))
  | .error f => .error (undecodable f.message)
  | .ok text => (Program.decode text).mapError fun f => undecodable f.message

/-- Options come first, so that their faults win over those of the program. -/
def prepare (files : Files) (s : Settings) : Except Outcome Task := do
  let options ← loadOptions files s.options
  let program ← loadProgram files (s.program.getD "")
  let analyzer : Analyzer := { options := s.override options, tracing := s.trace }
  match analyzer.addProgram program with
  | (analyzer, none) => .ok ⟨s, program.scopes.length, analyzer⟩
  | (_, some fault) => .error (.failed fault.text)

def analyze (t : Task) : Except AnalysisFault (Result Unit) := t.analyzer.analyze none none ()

def isLate (t : Task) (elapsed : Duration) : Bool :=
  0 < t.settings.timeout.nanoseconds && t.settings.timeout.nanoseconds ≤ elapsed.nanoseconds

/-- What comes of an analysis. One that is late has no result, whatever it would have been. -/
def conclude (t : Task) (elapsed : Duration) (result : Except AnalysisFault (Result Unit)) :
    Outcome :=
  if t.isLate elapsed then .failed ("analysis did not finish within " ++ t.settings.timeout.text)
  else
    match result with
    | .ok res => .printed (reportText t.settings t.scopes res)
    | .error (.violation v) => .broken v.message
    | .error f => .failed f.message

end Task

def run (files : Files) (elapsed : Duration) (args : List String) : Outcome :=
  match Settings.parse args with
  | .error r => .ofRefusal r
  | .ok s =>
    match Task.prepare files s with
    | .error o => o
    | .ok t => t.conclude elapsed t.analyze

end AbstractFlow.Command
