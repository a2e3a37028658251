import AbstractFlow.Text.Quoted

/-!
# Queries

What an analysis may ask a pointer analysis: who is called at a call site, what variables and
fields refer to, whether variables may be aliases, and whether something is a single location.
Every query has an answer that is safe when nothing is known.
-/
namespace AbstractFlow

structure CallSite where
  function : String
  index : Int
deriving DecidableEq

def CallSite.text (s : CallSite) : String := s.function ++ "#" ++ toString s.index

/-- A variable with the scope that binds it. -/
structure ScopedName where
  scope : String
  name : String
deriving DecidableEq

def ScopedName.text (v : ScopedName) : String := v.scope ++ ":" ++ v.name

/-- An allocation site with the type allocated there. -/
structure HeapObject where
  site : String
  type : String
deriving DecidableEq

def HeapObject.text (h : HeapObject) : String := h.site ++ "<" ++ h.type ++ ">"

inductive Field where
  | attribute (name : String)
  /-- An element of a sequence, at a place if it is known. -/
  | element (index : Option Int)
  /-- A value of a mapping, under a key if it is known. -/
  | value (key : Option String)
  | unknown
deriving DecidableEq

def Field.text : Field → String
  | .attribute name => "." ++ name
  | .element (some i) => "[" ++ toString i ++ "]"
  | .element none => "[*]"
  | .value (some k) => "[" ++ Text.quote k ++ "]"
  | .value none => "\x7b*\x7d"
  | .unknown => ".?"

inductive Target where
  | variable (v : ScopedName)
  | field (obj : HeapObject) (field : Field)
  | object (obj : HeapObject)
  | nothing
deriving DecidableEq

def Target.text : Target → String
  | .variable v => v.text
  | .field obj f => obj.text ++ f.text
  | .object obj => obj.text
  | .nothing => "<nil target>"

/-- A question, with the key of the context it is asked under where that may matter. -/
inductive Query where
  | possibleCallees (site : CallSite) (context : String)
  | pointsTo (v : ScopedName) (context : String)
  | fieldPointsTo (obj : HeapObject) (field : Field)
  | mayAlias (a b : ScopedName) (context : String)
  | isSingleton (target : Target) (context : String)
  | successors (function : String)
  | version
deriving DecidableEq

inductive Answer where
  | functions (names : List String)
  | objects (objs : List HeapObject)
  | truth (b : Bool)
  | version (digest : String)
deriving DecidableEq

namespace Answer

def asFunctions : Answer → List String
  | functions names => names
  | _ => []

def asObjects : Answer → List HeapObject
  | objects objs => objs
  | _ => []

def asTruth : Answer → Bool
  | truth b => b
  | _ => false

def asVersion : Answer → String
  | version d => d
  | _ => ""

end Answer

namespace Query

def method : Query → String
  | possibleCallees .. => "PossibleCallees"
  | pointsTo .. => "PointsTo"
  | fieldPointsTo .. => "FieldPointsTo"
  | mayAlias .. => "MayAlias"
  | isSingleton .. => "IsSingleton"
  | successors _ => "CallGraphSuccessors"
  | version => "DigestVersion"

def arguments : Query → List String
  | possibleCallees site c => [site.text, c]
  | pointsTo v c => [v.text, c]
  | fieldPointsTo obj f => [obj.text, f.text]
  | mayAlias a b c => [a.text, b.text, c]
  | isSingleton t c => [t.text, c]
  | successors f => [f]
  | version => []

def text (q : Query) : String := q.method ++ "(" ++ ", ".intercalate q.arguments ++ ")"

def conservative : Query → Answer
  | possibleCallees .. | successors _ => .functions []
  | pointsTo .. | fieldPointsTo .. => .objects []
  | mayAlias .. => .truth true
  | isSingleton .. => .truth false
  | version => .version ""

/-- Brings an answer into the form the query expects; one of another form says nothing. -/
def fit (q : Query) (a : Answer) : Answer :=
  match q with
  | possibleCallees .. | successors _ => .functions a.asFunctions
  | pointsTo .. | fieldPointsTo .. => .objects a.asObjects
  | mayAlias .. | isSingleton .. => .truth a.asTruth
  | version => .version a.asVersion

end Query

end AbstractFlow
