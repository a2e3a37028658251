/-!
# Faults

Reports of what went wrong: a message, a message about another fault, or several faults at once.
A list of faults that is extended by a list takes over its members.
-/
namespace AbstractFlow

inductive Fault where
  | plain (message : String)
  /-- A fault seen from further outside. -/
  | about (message : String) (cause : Fault)
  /-- A fault with the place where it was noticed. -/
  | located (fault : Fault)
  | several (faults : List Fault)
  /-- A broken invariant, which nothing may hide. -/
  | invariant (message : String)

namespace Fault

mutual

def text : Fault → String
  | plain m => m
  | about m f => m ++ ": " ++ f.text
  | located f => f.text
  | several fs => toString fs.length ++ " error(s):" ++ itemsText fs
  | invariant m => "invariant violated: " ++ m

def itemsText : List Fault → String
  | [] => ""
  | f :: fs => "\n\t" ++ f.text ++ itemsText fs

end

def root : Fault → Fault
  | about _ f => f.root
  | located f => f.root
  | invariant m => plain m
  | f => f

def members? : Fault → Option (List Fault)
  | several fs => some fs
  | _ => none

/-- A list has its members, and any other fault is its own only member. -/
def members (f : Fault) : List Fault := f.members?.getD [f]

/-- Adds a message to a fault, or makes it the fault if there is none. -/
def wrap (message : String) : Option Fault → Fault
  | some f => about message f
  | none => plain message

def append (fs : List Fault) : Option Fault → List Fault
  | some f => fs ++ f.members
  | none => fs

def ofList : List Fault → Option Fault
  | [] => none
  | fs => some (several fs)

/-- One fault for two; a single one stays as it is. -/
def combine : Option Fault → Option Fault → Option Fault
  | none, g => g
  | some f, none => some f
  | some f, some g => some (several (f.members ++ g.members))

inductive Raised where
  | nothing
  | fault (f : Fault)
  | text (message : String)

/-- Turns what was raised into a fault; a broken invariant is given back as an error instead. -/
def ofRaised : Raised → Except Fault (Option Fault)
  | .nothing => .ok none
  | .fault (invariant m) => .error (invariant m)
  | .fault f => .ok (some (located f))
  | .text m => .ok (some (plain ("panic: " ++ m)))

end Fault

end AbstractFlow
