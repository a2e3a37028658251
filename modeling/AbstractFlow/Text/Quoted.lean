import AbstractFlow.Text.Printable

/-!
# Quoted text

A text between quotation marks, with short escapes for the common control characters and
hexadecimal escapes for everything else that does not print. A `Quotation` says which mark is
used, and whether characters beyond ASCII are escaped as well.
-/
namespace AbstractFlow.Text

def hexDigits (width n : Nat) : List Char :=
  let ds := Nat.toDigits 16 n
  List.replicate (width - ds.length) '0' ++ ds

structure Quotation where
  mark : Char := '"'
  ascii : Bool := false

namespace Quotation

def shows (q : Quotation) (c : Char) : Bool := isPrintable c && (!q.ascii || c.toNat < 0x80)

def escape (q : Quotation) (c : Char) : List Char :=
  if c = q.mark || c = '\\' then ['\\', c]
  else
    match c.toNat with
    | 0x07 => ['\\', 'a']
    | 0x08 => ['\\', 'b']
    | 0x09 => ['\\', 't']
    | 0x0a => ['\\', 'n']
    | 0x0b => ['\\', 'v']
    | 0x0c => ['\\', 'f']
    | 0x0d => ['\\', 'r']
    | n =>
      if q.shows c then [c]
      else if n < 0x80 then '\\' :: 'x' :: hexDigits 2 n
      else if n < 0x10000 then '\\' :: 'u' :: hexDigits 4 n
      else '\\' :: 'U' :: hexDigits 8 n

def enclose (q : Quotation) (cs : List Char) : String := String.ofList (q.mark :: cs ++ [q.mark])

def quote (q : Quotation) (s : String) : String := q.enclose (s.toList.flatMap q.escape)

end Quotation

def quote (s : String) : String := Quotation.quote {} s

end AbstractFlow.Text
