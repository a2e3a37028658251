import AbstractFlow.Number.Numeral
import AbstractFlow.Number.Word
import AbstractFlow.Yaml.Datum

/-!
# What a scalar means

A scalar without a tag is a null, a boolean, a number or a point in time if it looks like one, and
text otherwise. A tag says what it has to be.
-/
namespace AbstractFlow.Yaml

open Numeral (splitSign)

namespace Tag

def standard (name : String) : String := "tag:yaml.org,2002:" ++ name

def null : String := standard "null"
def bool : String := standard "bool"
def int : String := standard "int"
def float : String := standard "float"
def str : String := standard "str"
def timestamp : String := standard "timestamp"
def binary : String := standard "binary"
def merge : String := standard "merge"
def sequence : String := standard "seq"
def mapping : String := standard "map"

/-- Standard tags are shown by their short form. -/
def short (tag : String) : String :=
  let long := (standard "").toList
  if long.isPrefixOf tag.toList then "!!" ++ String.ofList (tag.toList.drop long.length) else tag

/-- The tags whose scalars are read by their text. -/
def isResolvable (tag : String) : Bool :=
  tag = "" || tag = str || tag = bool || tag = int || tag = float || tag = null ||
    tag = timestamp

end Tag

def word? (s : String) : Option (String × Datum) :=
  if s ∈ ["y", "Y", "yes", "Yes", "YES", "true", "True", "TRUE", "on", "On", "ON"] then
    some (Tag.bool, .bool true)
  else if s ∈ ["n", "N", "no", "No", "NO", "false", "False", "FALSE", "off", "Off", "OFF"] then
    some (Tag.bool, .bool false)
  else if s ∈ ["", "~", "null", "Null", "NULL"] then some (Tag.null, .null)
  else if s ∈ [".nan", ".NaN", ".NAN"] then some (Tag.float, .float .notANumber)
  else if s ∈ [".inf", ".Inf", ".INF", "+.inf", "+.Inf", "+.INF"] then
    some (Tag.float, .float .posInf)
  else if s ∈ ["-.inf", "-.Inf", "-.INF"] then some (Tag.float, .float .negInf)
  else none

private def digitValue (c : Char) : Nat :=
  if c.isDigit then c.toNat - '0'.toNat
  else if 'a' ≤ c.toLower ∧ c.toLower ≤ 'z' then c.toLower.toNat - 'a'.toNat + 10
  else 99

/-- A number in the given base, of which every character is a digit. -/
private def inBase (base : Nat) (cs : List Char) : Option Nat :=
  if cs.all fun c => digitValue c < base then
    some (cs.foldl (fun n c => n * base + digitValue c) 0)
  else none

/-- An unsigned number; what it starts with tells its base. -/
def magnitude? : List Char → Option Nat
  | [] => none
  | '0' :: b :: c :: rest =>
    if b.toLower = 'b' then inBase 2 (c :: rest)
    else if b.toLower = 'o' then inBase 8 (c :: rest)
    else if b.toLower = 'x' then inBase 16 (c :: rest)
    else inBase 8 (b :: c :: rest)
  | '0' :: rest => inBase 8 rest
  | cs => inBase 10 cs

private def signedWord? (negative : Bool) (n : Nat) : Option Int :=
  let x : Int := if negative then -(n : Int) else n
  if Word.fits x then some x else none

/-- An integer of 64 bits, signed or else unsigned. -/
def integer? (cs : List Char) : Option Datum :=
  let (negative, ds) := splitSign cs
  match (magnitude? ds).bind (signedWord? negative) with
  | some n => some (.int n)
  | none =>
    match magnitude? cs with
    | some n => if n < Word.size then some (.unsigned n) else none
    | none => none

/-- A sign may also stand behind the mark of a binary number. -/
def signedBinary? (cs : List Char) : Option Datum :=
  match cs with
  | '0' :: 'b' :: rest =>
    let (negative, ds) := splitSign rest
    if ds.isEmpty then none
    else ((inBase 2 ds).bind (signedWord? negative)).map .int
  | _ => none

private def looksDecimal (cs : List Char) : Bool :=
  let (_, cs) := splitSign cs
  let whole := cs.takeWhile Char.isDigit
  let rest := cs.dropWhile Char.isDigit
  let (fraction, rest) := match rest with
    | '.' :: rest => (rest.takeWhile Char.isDigit, rest.dropWhile Char.isDigit)
    | rest => ([], rest)
  let exponentOk := match rest with
    | [] => true
    | e :: rest =>
      let ds := (splitSign rest).2
      (e = 'e' || e = 'E') && !ds.isEmpty && ds.all Char.isDigit
  (!whole.isEmpty || !fraction.isEmpty) && exponentOk

def decimal? (s : String) : Option Number :=
  (Number.parse? s).filter Number.isFinite

private def shortNumber (limit : Nat) (cs : List Char) : Option (Nat × List Char) :=
  let ds := (cs.take 2).takeWhile Char.isDigit
  if ds.isEmpty then none
  else
    let n := ds.foldl (fun n d => n * 10 + (d.toNat - '0'.toNat)) 0
    if n < limit then some (n, cs.drop ds.length) else none

private def monthLength (year month : Nat) : Nat :=
  if month = 2 then
    (if year % 4 = 0 ∧ (year % 100 ≠ 0 ∨ year % 400 = 0) then 29 else 28)
  else if month ∈ [4, 6, 9, 11] then 30 else 31

private def date? (cs : List Char) : Option (List Char) := do
  let year := (cs.take 4).foldl (fun n d => n * 10 + (d.toNat - '0'.toNat)) 0
  let (month, rest) ← shortNumber 13 (cs.drop 5)
  if month = 0 then none
  else
    match rest with
    | '-' :: rest =>
      let (day, rest) ← shortNumber 32 rest
      if 1 ≤ day ∧ day ≤ monthLength year month then some rest else none
    | _ => none

private def clock? (cs : List Char) : Option (List Char) := do
  let (_, rest) ← shortNumber 24 cs
  match rest with
  | ':' :: rest =>
    let (_, rest) ← shortNumber 60 rest
    match rest with
    | ':' :: rest =>
      let (_, rest) ← shortNumber 60 rest
      match rest with
      | p :: d :: more =>
        if (p = '.' ∨ p = ',') ∧ d.isDigit then some (more.dropWhile Char.isDigit) else some rest
      | _ => some rest
    | _ => none
  | _ => none

/-- The offset of a time zone; as an exception, it may also be written as a whole day or hour. -/
private def zone? : List Char → Bool
  | ['Z'] => true
  | [sign, a, b, ':', c, d] =>
    (sign = '+' || sign = '-') && [a, b, c, d].all Char.isDigit &&
      (inBase 10 [a, b]).any (· ≤ 24) && (inBase 10 [c, d]).any (· ≤ 60)
  | _ => false

def isTimestamp (s : String) : Bool :=
  let cs := s.toList
  if (cs.takeWhile Char.isDigit).length = 4 && (cs.drop 4).head? = some '-' then
    match date? cs with
    | some [] => true
    | some (t :: rest) =>
      match clock? rest with
      | some rest => if t = ' ' then rest.isEmpty else (t = 'T' || t = 't') && zone? rest
      | none => false
    | none => false
  else false

def numeral? (tag s : String) : Option (String × Datum) :=
  let plain := s.toList.filter (· ≠ '_')
  if (tag = "" || tag = Tag.timestamp) && isTimestamp s then some (Tag.timestamp, .text (.ofString s))
  else
    match integer? plain with
    | some d => some (Tag.int, d)
    | none =>
      match (if looksDecimal plain then decimal? (String.ofList plain) else none) with
      | some x => some (Tag.float, .float x)
      | none => (signedBinary? plain).map fun d => (Tag.int, d)

def implicit? (tag s : String) : Option (String × Datum) :=
  match s.toList with
  | [] => word? s
  | c :: _ =>
    if c = '+' || c = '-' || c.isDigit then (word? s).or (numeral? tag s)
    else if c = '.' then (word? s).or ((decimal? s).map fun x => (Tag.float, .float x))
    else if "yYnNtTfFoO~".toList.contains c then word? s
    else none

/-- The tag and meaning of a scalar, or nothing if its text does not suit its tag. -/
def resolve (tag s : String) : Option (String × Datum) :=
  let whole : Datum := .text (.ofString s)
  if !Tag.isResolvable tag then some (tag, whole)
  else if tag = Tag.str then some (Tag.str, whole)
  else
    let (found, d) := (implicit? tag s).getD (Tag.str, whole)
    if tag = "" || tag = found then some (found, d)
    else
      match d with
      | .int n => if tag = Tag.float then some (Tag.float, .float (.ofInt n)) else none
      | _ => none

private def sextet? (c : Char) : Option Nat :=
  if 'A' ≤ c ∧ c ≤ 'Z' then some (c.toNat - 'A'.toNat)
  else if 'a' ≤ c ∧ c ≤ 'z' then some (c.toNat - 'a'.toNat + 26)
  else if c.isDigit then some (c.toNat - '0'.toNat + 52)
  else if c = '+' then some 62
  else if c = '/' then some 63
  else none

/-- Decodes groups of four characters; the last group may be padded. -/
private def base64? : List Char → Option (List UInt8)
  | [] => some []
  | [a, b, '=', '='] => do
    let n := (← sextet? a) * 64 + (← sextet? b)
    some [(n / 16).toUInt8]
  | [a, b, c, '='] => do
    let n := ((← sextet? a) * 64 + (← sextet? b)) * 64 + (← sextet? c)
    some [(n / 1024).toUInt8, (n / 4 % 256).toUInt8]
  | a :: b :: c :: d :: rest => do
    let n := (((← sextet? a) * 64 + (← sextet? b)) * 64 + (← sextet? c)) * 64 + (← sextet? d)
    let more ← base64? rest
    some ((n / 65536).toUInt8 :: (n / 256 % 256).toUInt8 :: (n % 256).toUInt8 :: more)
  | _ => none

/-- The bytes that a binary scalar encodes. -/
def binary? (s : String) : Option ByteString :=
  (base64? (s.toList.filter fun c => c ≠ '\n' && c ≠ '\r')).map ByteString.mk

end AbstractFlow.Yaml
