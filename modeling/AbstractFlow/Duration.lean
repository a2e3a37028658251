import AbstractFlow.Collection.Table
import AbstractFlow.Number.Word
import AbstractFlow.Text.Columns

/-!
# Durations

Lengths of time in nanoseconds, counted in 64 bits, and the durations of named phases.
-/
namespace AbstractFlow

structure Duration where
  nanoseconds : Int
deriving DecidableEq, Inhabited

namespace Duration

/-- Sums beyond 64 bits wrap around. -/
def add (a b : Duration) : Duration := ⟨Int.bmod (a.nanoseconds + b.nanoseconds) Word.size⟩

/-- A count of small units in larger ones of `10 ^ places`, without trailing zeros. -/
def decimalText (n places : Nat) : String :=
  let unit := Nat.pow 10 places
  let whole := toString (n / unit)
  let part := (toString (n % unit + unit)).toList.drop 1
  let digits := (part.reverse.dropWhile (· = '0')).reverse
  if digits.isEmpty then whole else whole ++ "." ++ String.ofList digits

def second : Nat := 1000000000

/-- Below a second in the largest unit that fits, otherwise in hours, minutes and seconds. -/
def magnitudeText (n : Nat) : String :=
  if n = 0 then "0s"
  else if n < 1000 then toString n ++ "ns"
  else if n < 1000000 then decimalText n 3 ++ "µs"
  else if n < second then decimalText n 6 ++ "ms"
  else
    let minutes := n / second / 60
    let hours := minutes / 60
    (if hours = 0 then "" else toString hours ++ "h") ++
      (if minutes = 0 then "" else toString (minutes % 60) ++ "m") ++
      decimalText (n % (60 * second)) 9 ++ "s"

def text (d : Duration) : String :=
  (if d.nanoseconds < 0 then "-" else "") ++ magnitudeText d.nanoseconds.natAbs

def unit? : String → Option Nat
  | "ns" => some 1
  | "us" | "µs" | "μs" => some 1000
  | "ms" => some 1000000
  | "s" => some second
  | "m" => some (60 * second)
  | "h" => some (3600 * second)
  | _ => none

def digitsValue (ds : List Char) : Nat := ds.foldl (fun n c => n * 10 + (c.toNat - '0'.toNat)) 0

def spanOf (p : Char → Bool) (cs : List Char) : List Char × List Char :=
  (cs.takeWhile p, cs.dropWhile p)

/-- Whether a character belongs to a number and so ends the unit before it. -/
def isNumeral (c : Char) : Bool := c = '.' || c.isDigit

/-- A number with an optional fraction, followed by a unit, in whole nanoseconds. -/
def term? (cs : List Char) : Option (Nat × List Char) :=
  let (whole, rest) := spanOf Char.isDigit cs
  let (part, rest) := match rest with
    | '.' :: rest => spanOf Char.isDigit rest
    | rest => ([], rest)
  let (name, rest) := spanOf (fun c => !isNumeral c) rest
  if whole.isEmpty && part.isEmpty then none
  else (unit? (String.ofList name)).map fun unit =>
    (digitsValue whole * unit + digitsValue part * unit / Nat.pow 10 part.length, rest)

/-- The sum of terms; each of them takes up characters, so that there are no more than these. -/
def terms? : Nat → List Char → Option Nat
  | _, [] => some 0
  | 0, _ :: _ => none
  | fuel + 1, c :: cs => do
    let (n, rest) ← term? (c :: cs)
    let m ← terms? fuel rest
    if Word.half < n + m then none else some (n + m)

/-- A length of time without its sign; only zero may be written without a unit. -/
def magnitude? (cs : List Char) : Option Nat :=
  if cs = ['0'] then some 0 else if cs.isEmpty then none else terms? cs.length cs

/-- Reads terms such as `1h30m` or `-1.5s`, unless 64 bits are too few for them. -/
def parse? (s : String) : Option Duration :=
  let negated (cs : List Char) := (magnitude? cs).map fun (n : Nat) => (⟨-n⟩ : Duration)
  let positive (cs : List Char) : Option Duration := do
    let n ← magnitude? cs
    if n = Word.half then none else some ⟨n⟩
  match s.toList with
  | '-' :: cs => negated cs
  | '+' :: cs => positive cs
  | cs => positive cs

end Duration

/-- Named phases in the order in which they were first recorded. -/
abbrev Durations := Table String Duration

namespace Durations

def record (t : Durations) (name : String) (d : Duration) : Durations :=
  Table.insert t name (match Table.get? t name with
    | some known => known.add d
    | none => d)

def text (t : Durations) : String :=
  Columns.layout ⟨4, 0⟩ (String.join (t.map fun e => "   " ++ e.1 ++ "\t" ++ e.2.text ++ "\n"))

end Durations

end AbstractFlow
