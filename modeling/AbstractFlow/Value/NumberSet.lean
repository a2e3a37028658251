import AbstractFlow.Number.Decimal
import AbstractFlow.Digest.Hasher

/-!
# Sets of numbers

What is known of a number: that it is one of a few exact values, or that it lies between two
bounds. Normalising drops what is not a number, sorts and bounds the exact values, and forgets
them when they are too many.
-/
namespace AbstractFlow

/-- Exact sets with more members than this are kept as their bounds. -/
def exactLimit : Nat := 32

/-- The members are the exact values; with none given, all numbers between the bounds. -/
structure NumberSet where
  exact : List Number
  lower : Number
  upper : Number
deriving DecidableEq

namespace NumberSet

/-- Inserts a number into a strictly increasing list; of two equal numbers the new one stays. -/
def insertSorted (x : Number) : List Number → List Number
  | [] => [x]
  | y :: rest =>
    if x < y then x :: y :: rest
    else if y < x then y :: insertSorted x rest
    else x :: rest

/-- The distinct numbers of a list in increasing order, the first one of equal numbers. -/
def sortedNumbers (xs : List Number) : List Number :=
  (xs.filter fun x => !x.isNaN).foldr insertSorted []

def normalize (s : NumberSet) : NumberSet :=
  let lower := if s.lower.isNaN then Number.negInf else s.lower
  let upper := if s.upper.isNaN then Number.posInf else s.upper
  let sorted := sortedNumbers s.exact
  let inside := sorted.filter fun x => lower ≤ x && x ≤ upper
  -- Members win over bounds between which none of them lies.
  let exact := if inside.isEmpty then sorted else inside
  -- Members set the bounds, also where they are too many to be kept.
  { exact := if exact.length ≤ exactLimit then exact else []
    lower := exact.headD lower
    upper := exact.getLastD upper }

def any : NumberSet := normalize ⟨[], .negInf, .posInf⟩

def ofList (xs : List Number) : NumberSet := normalize ⟨xs, .negInf, .posInf⟩

/-- All numbers between the bounds, given in either order. -/
def between (lower upper : Number) : NumberSet :=
  if upper < lower then normalize ⟨[], upper, lower⟩ else normalize ⟨[], lower, upper⟩

def mayBeZero (s : NumberSet) : Bool := s.lower ≤ .zero && .zero ≤ s.upper

def mayBeNegative (s : NumberSet) : Bool := s.lower < .zero

def mayBePositive (s : NumberSet) : Bool := .zero < s.upper

/-- The least set covering both. -/
def join (s t : NumberSet) : NumberSet :=
  normalize
    { exact := if s.exact.isEmpty || t.exact.isEmpty then [] else s.exact ++ t.exact
      lower := s.lower.min t.lower
      upper := s.upper.max t.upper }

/-- The only member, if there is exactly one. -/
def single? (s : NumberSet) : Option Number :=
  match s.exact with
  | [x] => some x
  -- Bounds that coincide leave one number, unless they are infinite.
  | _ => if s.lower.same s.upper && !s.lower.isInfinite then some s.lower else none

def contains (s : NumberSet) (x : Number) : Bool :=
  if s.exact.isEmpty then s.lower ≤ x && x ≤ s.upper else s.exact.any (·.same x)

/-- Whether both bounds are finite. -/
def isBounded (s : NumberSet) : Bool := !s.lower.isInfinite && !s.upper.isInfinite

def numberText (x : Number) : String :=
  if x.isInfinite then (if x.negative then "-inf" else "+inf") else x.text

def text (s : NumberSet) : String :=
  if !s.exact.isEmpty then "\x7b" ++ ",".intercalate (s.exact.map numberText) ++ "\x7d"
  else if s.lower == .negInf && s.upper == .posInf then ""
  else "[" ++ numberText s.lower ++ "," ++ numberText s.upper ++ "]"

def digest {D : Type} (H : Hasher D) (s : NumberSet) : D :=
  let d := H.words (H.ofWord 4663644334535) [s.lower.toBits, s.upper.toBits]
  if s.exact.isEmpty then d
  else H.words (H.combine [d, H.ofWord 1123535697898]) (s.exact.map Number.toBits)

end NumberSet

end AbstractFlow
