import AbstractFlow.Command.Settings

/-!
# Usage

How the command is called: its flags on one line, and with their meanings on several.
-/
namespace AbstractFlow.Command

def programName : String := "analyze"

namespace Flag

def synopsis (f : Flag) : String :=
  "--" ++ f.name ++ if f.kind = .switch then "" else " " ++ String.ofList (f.name.toList.map Char.toUpper)

/-- Only the program has to be named. -/
def usage (f : Flag) : String :=
  if f = program then " " ++ f.synopsis else " [" ++ f.synopsis ++ "]"

end Flag

def helpColumn : Nat := 25

/-- A flag and its meaning, on two lines if one is too short. -/
def helpLine (left meaning : String) : String :=
  let lhs := "  " ++ left
  let blanks (n : Nat) := String.ofList (List.replicate n ' ')
  let gap :=
    if lhs.length + 2 < helpColumn then blanks (helpColumn - lhs.length)
    else "\n" ++ blanks helpColumn
  lhs ++ gap ++ meaning ++ "\n"

def usageText : String :=
  "Usage: " ++ programName ++ String.join (Flag.all.map Flag.usage) ++ "\n"

def helpText : String :=
  usageText ++ "\nOptions:\n" ++ String.join (Flag.all.map fun f => helpLine f.synopsis f.help) ++
    helpLine "--help, -h" "display this help and exit"

end AbstractFlow.Command
