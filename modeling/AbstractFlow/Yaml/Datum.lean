import AbstractFlow.Number.Decimal
import AbstractFlow.Text.ByteString

/-!
# Data without a fixed shape

What a node means when nothing is expected of it: scalars by their kind, sequences, and mappings,
which are either looked up by key or kept as pairs in their order.
-/
namespace AbstractFlow.Yaml

inductive Datum where
  | null
  | bool (b : Bool)
  | int (n : Int)
  | unsigned (n : Nat)
  | float (x : Number)
  | text (s : ByteString)
  | list (items : List Datum)
  | map (entries : List (Datum × Datum))
  | pairs (entries : List (Datum × Datum))
deriving Inhabited

namespace Datum

def typeName : Datum → String
  | .null => "<nil>"
  | .bool _ => "bool"
  | .int _ => "int"
  | .unsigned _ => "uint64"
  | .float _ => "float64"
  | .text _ => "string"
  | .list _ => "[]interface {}"
  | .map _ => "map[interface {}]interface {}"
  | .pairs _ => "yaml.MapSlice"

def sameKey : Datum → Datum → Bool
  | .null, .null => true
  | .bool a, .bool b => a == b
  | .int a, .int b => a == b
  | .unsigned a, .unsigned b => a == b
  | .float a, .float b => a.same b
  | .text a, .text b => a == b
  | _, _ => false

/-- The order in which the keys of a mapping are shown: keys of different kinds go by the names of
their kinds. -/
def keyLess (a b : Datum) : Bool :=
  match a, b with
  | .bool x, .bool y => !x && y
  | .int x, .int y => x < y
  | .unsigned x, .unsigned y => x < y
  | .float x, .float y => (x.isNaN && !y.isNaN) || x < y
  | .text x, .text y => x < y
  | a, b => a.typeName < b.typeName

def sortEntries {α : Type} (entries : List (Datum × α)) : List (Datum × α) :=
  entries.foldr place []
where
  place (e : Datum × α) : List (Datum × α) → List (Datum × α)
    | [] => [e]
    | x :: rest => if keyLess x.1 e.1 then x :: place e rest else e :: x :: rest

mutual

def shown : Datum → String
  | .null => "<nil>"
  | .bool b => if b then "true" else "false"
  | .int n => toString n
  | .unsigned n => toString n
  | .float x => x.text
  | .text s => s.text
  | .list items => "[" ++ " ".intercalate (showAll items) ++ "]"
  | .map entries =>
    let parts := sortEntries (showEntries entries)
    "map[" ++ " ".intercalate (parts.map fun e => e.2.1 ++ ":" ++ e.2.2) ++ "]"
  | .pairs entries =>
    let parts := (showEntries entries).map fun e => "\x7b" ++ e.2.1 ++ " " ++ e.2.2 ++ "\x7d"
    "[" ++ " ".intercalate parts ++ "]"

def showAll : List Datum → List String
  | [] => []
  | d :: ds => d.shown :: showAll ds

def showEntries : List (Datum × Datum) → List (Datum × String × String)
  | [] => []
  | (k, v) :: rest => (k, k.shown, v.shown) :: showEntries rest

end

/-- A scalar as it is named where it must be told apart from others. -/
def showKey : Datum → String
  | .text s => s.quote
  | .unsigned n => "0x" ++ String.ofList (Nat.toDigits 16 n)
  | d => d.shown

end Datum

end AbstractFlow.Yaml
