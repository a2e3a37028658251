/-!
# Files

What the command finds under the paths that its arguments name.
-/
namespace AbstractFlow.Command

inductive File where
  | text (s : String)
  | directory

abbrev Files := String → Option File

inductive FileFault where
  | missing (path : String)
  /-- A directory stands where `what` was expected. -/
  | isDirectory (what path : String)
deriving DecidableEq

def FileFault.message : FileFault → String
  | missing path => "open " ++ path ++ ": no such file or directory"
  | isDirectory what path => "error reading " ++ what ++ ": read " ++ path ++ ": is a directory"

namespace Files

/-- The text under a path, from which `what` is to be read. -/
def read (files : Files) (what path : String) : Except FileFault String :=
  match files path with
  | some (.text s) => .ok s
  | some .directory => .error (.isDirectory what path)
  | none => .error (.missing path)

/-- What every system has: a few directories, and a file that is always empty. -/
def system : Files := fun path =>
  if path = "/dev/null" then some (.text "")
  else if ["/", ".", "..", "/tmp", "/tmp/", "/etc", "/dev", "/usr", "/bin"].contains path then
    some .directory
  else none

/-- Adds files with the given texts, which hide what stood there before. -/
def withTexts (files : Files) (texts : List (String × String)) : Files := fun path =>
  match texts.lookup path with
  | some s => some (.text s)
  | none => files path

end Files

end AbstractFlow.Command
