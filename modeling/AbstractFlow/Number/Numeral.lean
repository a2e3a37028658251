import AbstractFlow.Number.Decimal

/-!
# Reading numbers

A numeral has digits, a point and an exponent. In a decimal numeral the exponent counts powers of
ten and may be left out; behind the mark `0x` the digits are hexadecimal, and an exponent is needed
that counts powers of two. The nearest number is what a numeral stands for.
-/
namespace AbstractFlow

structure Numeral.Form where
  base : Nat
  /-- The letter before the exponent, in lower case. -/
  mark : Char

/-- A numeral read as a whole number of its last place. -/
structure Numeral where
  digits : Nat
  /-- How many digits stand behind the point. -/
  places : Nat
  exponent : Option Int

namespace Numeral

def Form.decimal : Form := ⟨10, 'e'⟩

def Form.hexadecimal : Form := ⟨16, 'p'⟩

def Form.digit? (form : Form) (c : Char) : Option Nat :=
  let c := c.toLower
  let n :=
    if c.isDigit then c.toNat - '0'.toNat
    else if 'a' ≤ c ∧ c ≤ 'f' then c.toNat - 'a'.toNat + 10
    else form.base
  if n < form.base then some n else none

def Form.isDigit (form : Form) (c : Char) : Bool := (form.digit? c).isSome

def Form.value (form : Form) (cs : List Char) : Nat :=
  cs.foldl (fun n c => n * form.base + (form.digit? c).getD 0) 0

def splitSign : List Char → Bool × List Char
  | '-' :: cs => (true, cs)
  | '+' :: cs => (false, cs)
  | cs => (false, cs)

/-- An exponent takes decimal digits in every form. -/
def exponent? (cs : List Char) : Option Int :=
  let (negative, cs) := splitSign cs
  if cs.isEmpty || !cs.all Form.decimal.isDigit then none
  else some (if negative then -(Form.decimal.value cs : Int) else Form.decimal.value cs)

/-- Underscores may stand between two digits and say nothing there; `before` tells whether the last
character counts as a digit. -/
def dropSeparators (form : Form) : (before : Bool) → List Char → Option (List Char)
  | _, [] => some []
  | before, '_' :: rest =>
    if before && rest.head?.any form.isDigit then dropSeparators form false rest else none
  | _, c :: rest => (dropSeparators form (form.isDigit c) rest).map (c :: ·)

/-- Reads a numeral without a sign and without separators. -/
def read? (form : Form) (cs : List Char) : Option Numeral :=
  let whole := cs.takeWhile form.isDigit
  let rest := cs.dropWhile form.isDigit
  let (fraction, rest) := match rest with
    | '.' :: rest => (rest.takeWhile form.isDigit, rest.dropWhile form.isDigit)
    | rest => ([], rest)
  let digits := whole ++ fraction
  if digits.isEmpty then none
  else
    match rest with
    | [] => some ⟨form.value digits, fraction.length, none⟩
    | e :: cs =>
      if e.toLower = form.mark then
        (exponent? cs).map fun e => ⟨form.value digits, fraction.length, some e⟩
      else none

def ofDecimal (negative : Bool) (n : Numeral) : Number :=
  Decimal.toNumber negative ⟨n.digits, n.exponent.getD 0 - n.places⟩

/-- The number nearest to a hexadecimal numeral, which needs an exponent. Exponents of six digits
leave only zero and infinity. -/
def ofHexadecimal? (negative : Bool) (n : Numeral) : Option Number :=
  n.exponent.map fun e =>
    Number.ofScaled negative n.digits (max (-99999) (min 99999 e) - 4 * n.places)

end Numeral

namespace Number

/-- Reads a numeral with an optional sign, or the name of an infinity or of what is not a number, in
any case. The mark of hexadecimal digits counts as a digit for the underscore behind it. -/
def parse? (s : String) : Option Number :=
  let (negative, cs) := Numeral.splitSign s.toList
  let name := cs.map Char.toLower
  if name = "inf".toList ∨ name = "infinity".toList then some ⟨negative, infiniteMagnitude⟩
  -- What is not a number takes no sign.
  else if s.toList.map Char.toLower = "nan".toList then some notANumber
  else
    match cs with
    | '0' :: 'x' :: digits | '0' :: 'X' :: digits =>
      (Numeral.dropSeparators .hexadecimal true digits).bind fun cs =>
        (Numeral.read? .hexadecimal cs).bind (Numeral.ofHexadecimal? negative)
    | cs =>
      (Numeral.dropSeparators .decimal false cs).bind fun cs =>
        (Numeral.read? .decimal cs).map (Numeral.ofDecimal negative)

end Number

end AbstractFlow
