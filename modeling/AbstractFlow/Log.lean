import AbstractFlow.Collection.Dict
import AbstractFlow.Text.Template

/-!
# Logs

A logger writes entries with a level, a message and the named fields that it carries. Derived
loggers carry more fields.
-/
namespace AbstractFlow

inductive Log.Level where
  | debug
  | info
  | warn
  | misuse
deriving DecidableEq

def Log.Level.name : Log.Level → String
  | .debug => "debug"
  | .info => "info"
  | .warn => "warn"
  | .misuse => "dpanic"

inductive Log.FieldValue where
  | argument (a : Argument)
  /-- Pairs whose names are no texts, with their places. -/
  | refused (pairs : List (Nat × Argument × Argument))

structure Log.Entry where
  level : Log.Level
  message : String
  fields : Dict Log.FieldValue

structure Logger where
  fields : Dict Log.FieldValue := []
  silent : Bool := false

namespace Logger

def write (l : Logger) (level : Log.Level) (message : String) (more : Dict Log.FieldValue) :
    List Log.Entry :=
  if l.silent then []
  else [⟨level, message, Dict.mergeWith (fun _ new => new) l.fields more⟩]

def format (l : Logger) (level : Log.Level) (template : String) (args : List Argument) :
    List Log.Entry := l.write level (Template.message template args) []

def line (l : Logger) (args : List Argument) : List Log.Entry :=
  l.write .info (Argument.line args) []

/-- Names with their values; a name that is no text, and one without a value, are left over. -/
structure Pairing where
  fields : Dict Log.FieldValue := []
  refused : List (Nat × Argument × Argument) := []
  dangling : Option Argument := none

def pairing (place : Nat) : List Argument → Pairing → Pairing
  | name :: v :: rest, p =>
    match name with
    | .text n => pairing (place + 2) rest { p with fields := Dict.insert p.fields n (.argument v) }
    | a => pairing (place + 2) rest { p with refused := p.refused ++ [(place, a, v)] }
  | [a], p => { p with dangling := some a }
  | [], p => p

/-- A logger that carries more fields, and the entries that report what could not be carried. -/
def derive (l : Logger) (args : List Argument) : Logger × List Log.Entry :=
  let p := pairing 0 args {}
  let dangling := match p.dangling with
    | some a => l.write .misuse "Ignored key without a value." [("ignored", .argument a)]
    | none => []
  let refused :=
    if p.refused.isEmpty then []
    else l.write .misuse "Ignored key-value pairs with non-string keys."
      [("invalid", .refused p.refused)]
  ({ l with fields := Dict.mergeWith (fun _ new => new) l.fields p.fields }, dangling ++ refused)

end Logger

end AbstractFlow
