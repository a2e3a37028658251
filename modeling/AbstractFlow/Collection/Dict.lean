/-!
# Dictionaries and lists of names

A dictionary is a list of named entries in increasing order of their names, so that equal
dictionaries are equal lists.
-/
namespace AbstractFlow

abbrev Dict (α : Type) := List (String × α)

namespace Dict

variable {α : Type}

def get? (d : Dict α) (name : String) : Option α :=
  match d with
  | [] => none
  | (n, v) :: rest => if n = name then some v else get? rest name

def contains (d : Dict α) (name : String) : Bool := (get? d name).isSome

/-- Adds an entry; `f old new` settles what an entry already there becomes. -/
def insertWith (f : α → α → α) (name : String) (v : α) : Dict α → Dict α
  | [] => [(name, v)]
  | (n, w) :: rest =>
    if name < n then (name, v) :: (n, w) :: rest
    else if name = n then (n, f w v) :: rest
    else (n, w) :: insertWith f name v rest

def insert (d : Dict α) (name : String) (v : α) : Dict α := insertWith (fun _ new => new) name v d

def erase (d : Dict α) (name : String) : Dict α := d.filter fun e => e.1 != name

def keys (d : Dict α) : List String := d.map Prod.fst

/-- The entries of both dictionaries; `f` joins what stands in both. -/
def mergeWith (f : α → α → α) (a b : Dict α) : Dict α :=
  b.foldl (fun acc e => insertWith f e.1 e.2 acc) a

/-- A dictionary from entries in any order, the last one of a name winning. -/
def ofList (entries : List (String × α)) : Dict α :=
  entries.foldl (fun acc e => insert acc e.1 e.2) []

end Dict

namespace Names

/-- Keeps the first occurrence of each name and drops empty ones. -/
def distinct (names : List String) : List String :=
  names.foldl (fun acc n => if n = "" ∨ n ∈ acc then acc else acc ++ [n]) []

/-- Sorts names, keeping repetitions. -/
def sort (names : List String) : List String :=
  names.foldr place []
where
  place (name : String) : List String → List String
    | [] => [name]
    | n :: rest => if n < name then n :: place name rest else name :: n :: rest

def startsWith (name start : String) : Bool := start.toList.isPrefixOf name.toList

def endsWith (name ending : String) : Bool := ending.toList.isSuffixOf name.toList

end Names

end AbstractFlow
