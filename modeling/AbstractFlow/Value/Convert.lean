import AbstractFlow.Number.Word
import AbstractFlow.Text.Blank
import AbstractFlow.Value.Build
import AbstractFlow.Value.Compare

/-!
# Conversions

What the built-in conversions make of a value: its length, its reading as another type, and the
sum of its elements. An object that the conversion would reject gives nothing to the result.
-/
namespace AbstractFlow

/-- Reads a signed decimal integer of 64 bits, with blanks around it. -/
def readInt? (s : String) : Option Int :=
  let (negative, ds) := match (Text.trimBlanks s).toList with
    | '-' :: cs => (true, cs)
    | '+' :: cs => (false, cs)
    | cs => (false, cs)
  if ds.isEmpty || !ds.all Char.isDigit then none
  else
    let n : Nat := ds.foldl (fun n c => n * 10 + (c.toNat - '0'.toNat)) 0
    let x : Int := if negative then -(n : Int) else n
    if Word.fits x then some x else none

namespace Value

/-- The merged contributions, or the fallback if there are none. -/
def collect (fallback : Value) (parts : List Value) : Value :=
  let out := mergeAll parts
  if out.isEmpty then fallback else out

def lengthBounds : Object → Number × Number
  | .container c =>
    (.ofInt c.minSize, match c.maxSize with
      | some n => .ofInt n
      | none => .posInf)
  | .constant (.string s) =>
    (.ofInt s.minLen, if 0 ≤ s.maxLen then .ofInt s.maxLen else .posInf)
  | _ => (.zero, .posInf)

def asLength (v : Value) : Value :=
  if v.isEmpty then intRange .zero .posInf
  else
    let bounds := v.map lengthBounds
    intRange (bounds.foldl (fun acc b => acc.min b.1) .posInf)
      (bounds.foldl (fun acc b => acc.max b.2) .negInf)

def intParts : Object → List Value
  | .constant (.number _ s) =>
    if s.exact.isEmpty then [numeric .int (.between s.lower.truncate s.upper.truncate)]
    else [numeric .int (.ofList (s.exact.map Number.truncate))]
  | .constant (.string s) =>
    if s.exact.isEmpty then [anyInt]
    else (s.exact.filterMap fun e => readInt? e.text).map fun n => ints [n]
  | _ => [anyInt]

def asInt (v : Value) : Value := collect anyInt (v.flatMap intParts)

/-- Text of a float: whole numbers keep one decimal place. -/
def floatText (x : Number) : String :=
  let s := x.text
  if s.toList.any fun c => c = '.' || c = 'e' || c = 'I' || c = 'N' then s else s ++ ".0"

def numberTexts (type : NumericType) (xs : List Number) : List String :=
  match type with
  | .int => xs.map Number.wholeText
  | .float => xs.map floatText
  | .bool => xs.map fun x => if x.same .zero then "False" else "True"

def stringParts : Object → List Value
  | .constant (.string s) => [[.constant (.string s)]]
  | .constant .none => [texts ["None"]]
  | .constant (.number type s) =>
    if s.exact.isEmpty then [ofStringSet { StringSet.any with minLen := 1 }]
    else (numberTexts type s.exact).map fun t => texts [t]
  | _ => [anyString]

def asString (v : Value) : Value := collect anyString (v.flatMap stringParts)

def asBool (v : Value) : Value :=
  match v.truth with
  | .yes => bool true
  | .no => bool false
  | .maybe => anyBool

def chars (s : StringSet) : Value :=
  if s.exact.isEmpty then ofStringSet { StringSet.any with minLen := 1, maxLen := 1 }
  else
    let cs := s.exact.flatMap fun e => e.text.toList.map fun c => String.singleton c
    if cs.isEmpty then [] else texts cs

/-- What iterating over an object yields: the element and the bounds of their number. Numbers
cannot be iterated over. -/
def iterated : Object → Option (Value × Nat × Int)
  | .container c =>
    some (if c.type = .dict then c.key else c.elem, c.minSize, match c.maxSize with
      | some n => n
      | none => -1)
  | .constant (.string s) => some (chars s, s.minLen, s.maxLen)
  | .constant _ => none
  | _ => some (unknown, 0, -1)

def asSequence (type : ContainerType) (v : Value) : Value :=
  collect [.container (.ofBounds type unknown [] 0 (-1))] <|
    (v.filterMap iterated).map fun (elem, least, most) =>
      -- Items may be equal, so a set has one of them at least and perhaps no more.
      [.container (.ofBounds type elem [] (if type = .set then min least 1 else least) most)]

def dictParts : Object → Value
  | .container c =>
    if c.type = .dict then [.container c] else [.container (.ofBounds .dict unknown unknown 0 (-1))]
  | _ => [.container (.ofBounds .dict unknown unknown 0 (-1))]

def asDict (v : Value) : Value :=
  collect [.container (.ofBounds .dict [] [] 0 0)] (v.map dictParts)

/-- The bounds of a sum of as many numbers of the set as the container may hold. -/
def sumBounds (s : NumberSet) (c : Container Value) : Number × Number :=
  let least := Number.ofInt c.minSize
  let most := c.maxSize.map fun n => Number.ofInt n
  -- Few items give the outermost bound if each of them moves it inwards, and many otherwise.
  let lower :=
    if Number.zero ≤ s.lower then least.mul s.lower
    else (most.map (·.mul s.lower)).getD .negInf
  let upper :=
    if s.upper ≤ Number.zero then least.mul s.upper
    else (most.map (·.mul s.upper)).getD .posInf
  (lower, upper)

def sumParts : Object → List Value
  | .container c =>
    if c.maxSize = some 0 || c.elem.isEmpty then [ints [0]]
    else c.elem.map fun
      | .constant (.number type s) =>
        let (lower, upper) := sumBounds s c
        numeric (if type = .float then .float else .int) (.between lower upper)
      | _ => anyInt
  | _ => [anyInt]

def sum (v : Value) : Value := collect anyInt (v.flatMap sumParts)

end Value

end AbstractFlow
