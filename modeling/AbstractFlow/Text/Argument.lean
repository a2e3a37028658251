import AbstractFlow.Number.Word
import AbstractFlow.Text.ByteString

/-!
# Arguments of templates

How a number, a text, a truth value or nothing is written for a verb. Marks before the verb set
the sign, the width and the precision. An argument that a verb cannot write is reported in its
place, written the plain way under the same marks.
-/
namespace AbstractFlow

inductive Argument where
  | int (n : Int)
  | text (s : String)
  | bool (b : Bool)
  | nothing
deriving DecidableEq

structure Argument.Marks where
  left : Bool := false
  zero : Bool := false
  plus : Bool := false
  blank : Bool := false
  sharp : Bool := false
  /-- Whether texts written the plain way are quoted. -/
  quoted : Bool := false
  width : Option Nat := none
  precision : Option Nat := none

namespace Argument.Marks

/-- Zeros may fill up only from the left. -/
def filler (m : Marks) : Char := if m.zero && !m.left then '0' else ' '

def fill (m : Marks) (n : Nat) : String := String.ofList (List.replicate n m.filler)

/-- Fills up to the width, which is counted in characters. -/
def pad (m : Marks) (s : String) : String :=
  let missing := m.width.getD 0 - s.length
  if m.left then s ++ m.fill missing else m.fill missing ++ s

def cut (m : Marks) (s : String) : String :=
  match m.precision with
  | some n => String.ofList (s.toList.take n)
  | none => s

def sign (m : Marks) (n : Int) : String :=
  if n < 0 then "-" else if m.plus then "+" else if m.blank then " " else ""

end Argument.Marks

structure Argument.Numeral where
  base : Nat := 10
  lead : String := ""
  /-- What the sharp mark puts in front; a lone zero only if the digits do not start with one. -/
  sharpLead : String := ""
  upper : Bool := false

namespace Argument

def upperCase (s : String) : String := String.ofList (s.toList.map Char.toUpper)

/-- The least number of digits: the precision, or else what zeros have to fill. -/
def leastDigits (m : Marks) (n : Int) : Nat :=
  match m.precision with
  | some p => p
  | none => if m.filler = '0' then m.width.getD 0 - (m.sign n).length else 0

/-- A number in digits. Zero with a precision of zero leaves only its width. -/
def integer (m : Marks) (f : Numeral) (n : Int) : String :=
  let plain := { m with zero := false }
  if m.precision = some 0 ∧ n = 0 then plain.fill (m.width.getD 0)
  else
    let ds := String.ofList (Nat.toDigits f.base n.natAbs)
    let ds := if f.upper then upperCase ds else ds
    let ds := String.ofList (List.replicate (leastDigits m n - ds.length) '0') ++ ds
    let leads := m.sharp && !(f.sharpLead = "0" && ds.toList.head? = some '0')
    plain.pad (m.sign n ++ f.lead ++ (if leads then f.sharpLead else "") ++ ds)

/-- The character with a number, if there is one, and else the replacement character. -/
def character (n : Int) : Char :=
  if 0 ≤ n ∧ n.toNat.isValidChar then Char.ofNat n.toNat else '\ufffd'

/-- The notation of code points, of at least four digits. The sharp mark adds the character. -/
def codePoint (m : Marks) (n : Int) : String :=
  let value := (n % (Word.size : Int)).toNat
  let least := max 4 (m.precision.getD 0)
  let shown := m.sharp && value.isValidChar && Text.isPrintable (character value)
  Marks.pad { m with zero := false }
    ("U+" ++ upperCase (String.ofList (Text.hexDigits least value)) ++
      (if shown then " '" ++ String.singleton (character value) ++ "'" else ""))

def integer? (m : Marks) (verb : Char) (n : Int) : Option String :=
  let octal : Numeral := { base := 8, sharpLead := "0" }
  match verb with
  | 'v' | 'd' => some (integer m {} n)
  | 'b' => some (integer m { base := 2, sharpLead := "0b" } n)
  | 'o' => some (integer m octal n)
  | 'x' => some (integer m { base := 16, sharpLead := "0x" } n)
  | 'X' => some (integer m { base := 16, sharpLead := "0X", upper := true } n)
  | 'O' => some (integer m { octal with lead := "0o" } n)
  | 'c' => some (m.pad (String.singleton (character n)))
  | 'q' => some (m.pad (Text.Quotation.quote ⟨'\'', m.plus⟩ (String.singleton (character n))))
  | 'U' => some (codePoint m n)
  | _ => none

/-- The bytes of a text in hexadecimal digits, as many as the precision allows. A blank separates
them, and the sharp mark leads the first one, or each of those that are separated. -/
def hexBytes (m : Marks) (upper : Bool) (s : String) : String :=
  let bytes := (ByteString.ofString s).bytes
  let bytes := bytes.take (m.precision.getD bytes.length)
  let digits (b : UInt8) : String := String.ofList (Text.hexDigits 2 b.toNat)
  let lead := if m.sharp then "0x" else ""
  let written :=
    if bytes.isEmpty then ""
    else if m.blank then " ".intercalate (bytes.map fun b => lead ++ digits b)
    else lead ++ String.join (bytes.map digits)
  m.pad (if upper then upperCase written else written)

def isRaw (s : String) : Bool :=
  s.toList.all fun c =>
    (0x20 ≤ c.toNat || c = '\t') && c.toNat ≠ 0x60 && c.toNat ≠ 0x7f && c ≠ '\ufeff'

def quotedText (m : Marks) (s : String) : String :=
  let s := m.cut s
  m.pad (if m.sharp && isRaw s then "`" ++ s ++ "`" else Text.Quotation.quote ⟨'"', m.plus⟩ s)

def text? (m : Marks) (verb : Char) (s : String) : Option String :=
  match verb with
  | 'v' => some (if m.quoted then quotedText m s else m.pad (m.cut s))
  | 's' => some (m.pad (m.cut s))
  | 'q' => some (quotedText m s)
  | 'x' => some (hexBytes m false s)
  | 'X' => some (hexBytes m true s)
  | _ => none

def typeName : Argument → String
  | int _ => "int"
  | text _ => "string"
  | bool _ => "bool"
  | nothing => "<nil>"

/-- How a verb writes an argument, if it can. -/
def written? (m : Marks) (verb : Char) (a : Argument) : Option String :=
  match a with
  | nothing => if verb = 'v' || verb = 'T' then some (m.pad "<nil>") else none
  | a =>
    if verb = 'T' then some (m.pad (m.cut a.typeName))
    else
      match a with
      | int n => integer? m verb n
      | text s => text? m verb s
      | bool b =>
        if verb = 'v' || verb = 't' then some (m.pad (if b then "true" else "false")) else none
      | nothing => none

def plain (m : Marks) (a : Argument) : String := (written? m 'v' a).getD ""

def described (m : Marks) : Argument → String
  | nothing => "<nil>"
  | a => a.typeName ++ "=" ++ a.plain m

/-- An argument as a verb writes it, or else a report. -/
def write (m : Marks) (verb : Char) (a : Argument) : String :=
  (a.written? m verb).getD ("%!" ++ String.singleton verb ++ "(" ++ a.described m ++ ")")

def isText : Argument → Bool
  | text _ => true
  | _ => false

/-- Arguments one after the other, with a blank between two of which none is a text. -/
def joined : List Argument → String
  | [] => ""
  | [a] => a.plain {}
  | a :: b :: rest =>
    a.plain {} ++ (if a.isText || b.isText then "" else " ") ++ joined (b :: rest)

def line (args : List Argument) : String := " ".intercalate (args.map (plain {}))

end Argument

end AbstractFlow
