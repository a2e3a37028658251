import AbstractFlow.Digest.Spooky
import AbstractFlow.Text.Quoted

/-!
# Contexts

A context separates what is known of a function by how it was reached: by the last call sites, by
the last receiving objects, or by a mixture. A policy says which of them a context remembers, and
a bound says how many.
-/
namespace AbstractFlow

inductive Policy where
  | insensitive
  | callSite
  | object
  /-- By object for methods with a receiver, by call site otherwise. -/
  | hybrid
  | kcfa
  /-- No policy was named; contexts are derived as under `insensitive`. -/
  | unset
  | other (name : String)
deriving DecidableEq, Inhabited

namespace Policy

def name : Policy → String
  | .insensitive => "insensitive"
  | .callSite => "callsite"
  | .object => "object"
  | .hybrid => "hybrid"
  | .kcfa => "kcfa"
  | .unset => ""
  | .other n => n

def ofName : String → Policy
  | "insensitive" => .insensitive
  | "callsite" => .callSite
  | "object" => .object
  | "hybrid" => .hybrid
  | "kcfa" => .kcfa
  | "" => .unset
  | n => .other n

/-- Lower case, as far as it leads to ASCII letters: the capital letters, the Kelvin sign and the
dotted capital I. -/
def lower (c : Char) : Char :=
  if c.toNat = 0x212a then 'k' else if c.toNat = 0x130 then 'i' else c.toLower

/-- The policy of a name in any case, or the name back if there is none. -/
def parse (s : ByteString) : Except ByteString Policy :=
  match ofName (String.ofList (s.text.toList.map lower)) with
  | .unset => .ok .insensitive
  | .other _ => .error s
  | p => .ok p

def unknownMessage (s : ByteString) : String := "unknown context policy " ++ s.quote

end Policy

structure Context where
  elems : List String
deriving Inhabited

/-- Contexts of different depths are told apart without a look at their elements. -/
instance : DecidableEq Context := fun c d =>
  if h : c.elems.length = d.elems.length ∧ c.elems = d.elems then
    isTrue (by cases c; cases d; simp_all)
  else isFalse (by rintro rfl; simp at h)

namespace Context

def root : Context := ⟨[]⟩

def isRoot (c : Context) : Bool := c.elems.isEmpty

def depth (c : Context) : Nat := c.elems.length

def text (c : Context) : String :=
  if c.isRoot then "[]" else "[" ++ " > ".intercalate c.elems ++ "]"

def digest {D : Type} (H : Hasher D) (c : Context) : D := H.texts (H.ofWord 0) c.elems

def stamp (c : Context) : UInt64 × Nat := (c.digest .spooky, c.depth)

/-- A short text that identifies the context; the root has the empty one. -/
def key (c : Context) : String :=
  if c.isRoot then ""
  else String.ofList (Text.hexDigits 16 (c.digest .spooky).toNat) ++ ":" ++ toString c.depth

/-- Remembers one more element and forgets the oldest beyond `k`. -/
def push (c : Context) (elem : String) (k : Nat) : Context :=
  if elem = "" then c
  else
    let elems := c.elems ++ [elem]
    ⟨elems.drop (elems.length - k)⟩

/-- What a policy remembers of a call; the empty text if nothing. -/
def selected (p : Policy) (callSite receiver : String) : String :=
  match p with
  | .insensitive | .unset | .other _ => ""
  | .callSite | .kcfa => callSite
  | .object => receiver
  | .hybrid => if receiver ≠ "" then receiver else callSite

/-- The context of a callee; an unknown policy is given back as an error. -/
def derive (c : Context) (p : Policy) (k : Int) (callSite receiver : String) :
    Except String Context :=
  match p with
  | .insensitive | .unset => .ok root
  | .other name => .error name
  | p => .ok (c.push (selected p callSite receiver) k.toNat)

end Context

end AbstractFlow
