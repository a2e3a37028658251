import AbstractFlow.Collection.Sorted
import AbstractFlow.Digest.Hasher
import AbstractFlow.Number.Basic
import AbstractFlow.Text.ByteString
import AbstractFlow.Value.NumberSet

/-!
# Sets of strings

What is known of a string: that it is one of a few exact values, or which beginnings and endings
it may have and how long it is, in bytes. Exact values make the other constraints superfluous.
-/
namespace AbstractFlow

/-- An empty list puts no constraint; a negative `maxLen` leaves the length unbounded. -/
structure StringSet where
  exact : List ByteString
  beginnings : List ByteString
  endings : List ByteString
  minLen : Nat
  maxLen : Int
deriving DecidableEq

namespace StringSet

def any : StringSet := ⟨[], [], [], 0, -1⟩

/-- A set of constraints too large to be useful is dropped. -/
def capped (ss : List ByteString) : List ByteString := if ss.length ≤ exactLimit then ss else []

def minLength : List ByteString → Nat
  | [] => 0
  | [s] => s.size
  | s :: rest => min s.size (minLength rest)

def maxLength : List ByteString → Nat
  | [] => 0
  | s :: rest => max s.size (maxLength rest)

def normalize (s : StringSet) : StringSet :=
  let exact := Sorted.ofList s.exact
  let minLen := if exact.isEmpty then s.minLen else minLength exact
  let maxLen := if exact.isEmpty then s.maxLen else maxLength exact
  let kept := capped exact
  { exact := kept
    beginnings := if kept.isEmpty then capped (Sorted.ofList s.beginnings) else []
    endings := if kept.isEmpty then capped (Sorted.ofList s.endings) else []
    minLen := minLen
    maxLen := if 0 ≤ maxLen then max maxLen minLen else maxLen }

def ofList (ss : List ByteString) : StringSet := normalize { any with exact := ss }

/-- A set given by its constraints; a negative least length is none. -/
def constrained (exact beginnings endings : List ByteString) (minLen maxLen : Int) : StringSet :=
  normalize ⟨exact, beginnings, endings, minLen.toNat, maxLen⟩

/-- The strings one of which every member begins with. -/
def effectiveBeginnings (s : StringSet) : List ByteString :=
  if s.exact.isEmpty then s.beginnings else s.exact

def effectiveEndings (s : StringSet) : List ByteString :=
  if s.exact.isEmpty then s.endings else s.exact

/-- The union of two constraints, which exists only if both do. -/
def bothOrNone (a b : List ByteString) : List ByteString :=
  if a.isEmpty || b.isEmpty then [] else Sorted.union a b

/-- The larger of two upper bounds, of which a negative one is unbounded. -/
def looserBound (a b : Int) : Int := if a < 0 ∨ b < 0 then -1 else max a b

def join (s t : StringSet) : StringSet :=
  let exact := bothOrNone s.exact t.exact
  let kept := capped exact
  normalize
    { exact := kept
      beginnings :=
        if kept.isEmpty then bothOrNone s.effectiveBeginnings t.effectiveBeginnings else []
      endings := if kept.isEmpty then bothOrNone s.effectiveEndings t.effectiveEndings else []
      minLen := min s.minLen t.minLen
      maxLen := looserBound s.maxLen t.maxLen }

def single? (s : StringSet) : Option ByteString :=
  match s.exact with
  | [x] => some x
  | _ => none

def contains (s : StringSet) (x : ByteString) : Bool :=
  if !s.exact.isEmpty then x ∈ s.exact
  else
    s.minLen ≤ x.size && (s.maxLen < 0 || (x.size : Int) ≤ s.maxLen) &&
      (s.beginnings.isEmpty || s.beginnings.any x.startsWith) &&
      (s.endings.isEmpty || s.endings.any x.endsWith)

def text (s : StringSet) : String :=
  if !s.exact.isEmpty then "\x7b" ++ ",".intercalate (s.exact.map ByteString.quote) ++ "\x7d"
  else
    let parts :=
      (if s.beginnings.isEmpty then [] else ["prefix=" ++ "|".intercalate (s.beginnings.map ByteString.text)]) ++
      (if s.endings.isEmpty then [] else ["suffix=" ++ "|".intercalate (s.endings.map ByteString.text)]) ++
      (if 0 < s.minLen ∨ 0 ≤ s.maxLen then
        ["len=" ++ toString s.minLen ++ ".." ++
          (if 0 ≤ s.maxLen then toString s.maxLen else "inf")]
       else [])
    if parts.isEmpty then "" else "(" ++ " ".intercalate parts ++ ")"

def digest {D : Type} (H : Hasher D) (s : StringSet) : D :=
  let d := H.words (H.ofWord 6087650786584)
    [(Number.ofInt s.minLen).toBits, (Number.ofInt s.maxLen).toBits]
  let d := if s.exact.isEmpty then d
    else H.strings (H.combine [d, H.ofWord 1123535697898]) s.exact
  let d := H.strings (H.combine [d, H.ofWord 7451123546465]) s.beginnings
  H.strings (H.combine [d, H.ofWord 7451123546465]) s.endings

end StringSet

end AbstractFlow
