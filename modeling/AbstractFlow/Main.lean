import AbstractFlow.Command.Outcome

/-!
# The command

Reads the files that the arguments name, runs the analysis against the clock, and prints.
-/
namespace AbstractFlow.Command

def fileAt (path : String) : IO (Option File) := do
  try return some (.text (← IO.FS.readFile path))
  catch
    | .inappropriateType .. => return some .directory
    | _ => return none

def Outcome.emit (o : Outcome) : IO UInt32 := do
  match o with
  | .printed text => IO.print text
  | .misused => IO.eprint usageText
  | .failed message => IO.eprintln message
  | .broken message => IO.eprintln message
  return o.exitCode.toUInt32

def execute (args : List String) : IO Outcome := do
  match Settings.parse args with
  | .error r => return .ofRefusal r
  | .ok s =>
    let paths := [s.options, s.program.getD ""]
    let found ← paths.mapM fun path => return (path, ← fileAt path)
    let files : Files := fun path => (found.lookup path).join
    match Task.prepare files s with
    | .error o => return o
    | .ok t =>
      let start ← IO.monoNanosNow
      let result ← IO.lazyPure fun _ => t.analyze
      let stop ← IO.monoNanosNow
      return t.conclude ⟨(stop : Int) - start⟩ result

end AbstractFlow.Command

def main (args : List String) : IO UInt32 := do
  (← AbstractFlow.Command.execute args).emit
