/-!
# Descriptions

Trees of plain data that describe values, programs and results to other programs.
-/
namespace AbstractFlow

inductive Description where
  | null
  | bool (b : Bool)
  | int (n : Int)
  | text (s : String)
  | list (items : List Description)
  | record (fields : List (String × Description))

abbrev Fields := List (String × Description)

namespace Description

instance : Coe Bool Description := ⟨bool⟩

instance : Coe Int Description := ⟨int⟩

instance : Coe Nat Description := ⟨fun n => int n⟩

instance : Coe String Description := ⟨text⟩

def texts (ss : List String) : Description := list (ss.map text)

def ints (ns : List Nat) : Description := list (ns.map fun (n : Nat) => int n)

def orNull (items : List Description) : Description := if items.isEmpty then null else list items

def optional {α : Type} (describe : α → Description) : Option α → Description
  | some a => describe a
  | none => null

end Description

end AbstractFlow
