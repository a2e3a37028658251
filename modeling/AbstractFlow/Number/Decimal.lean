import AbstractFlow.Number.Basic

/-!
# Decimal text of numbers

Reading rounds the exact decimal fraction once. Writing takes the fewest digits that read back as
the same number; a `Style` says where the exponent form begins.
-/
namespace AbstractFlow

/-- A decimal fraction `digits * 10 ^ exponent`. -/
structure Decimal where
  digits : Nat
  exponent : Int
deriving DecidableEq

namespace Decimal

def digitText (n : Nat) : String := String.ofList (Nat.toDigits 10 n)

private def stripZeros (fuel : Nat) (d : Decimal) : Decimal :=
  match fuel with
  | 0 => d
  | fuel + 1 =>
    if d.digits ≠ 0 ∧ d.digits % 10 = 0 then stripZeros fuel ⟨d.digits / 10, d.exponent + 1⟩ else d

def ratio (d : Decimal) : Nat × Nat :=
  if 0 ≤ d.exponent then (d.digits * Nat.pow 10 d.exponent.toNat, 1)
  else (d.digits, Nat.pow 10 (-d.exponent).toNat)

/-- The nearest number. Beyond 400 places on either side of the point only zero and infinity are
left, so larger exponents need no arithmetic. -/
def toNumber (negative : Bool) (d : Decimal) : Number :=
  let places : Int := d.exponent + (digitText d.digits).length
  if d.digits = 0 then ⟨negative, 0⟩
  else if 400 < places then ⟨negative, Number.infiniteMagnitude⟩
  else if places < -400 then ⟨negative, 0⟩
  else
    let (num, den) := d.ratio
    Number.ofRatio negative num den

end Decimal

namespace Number

/-- The fractions that read back as the finite number `x` lie between these bounds, given as
numerators over the common denominator together with the numerator of `x` itself. -/
structure Neighbourhood where
  low : Nat
  value : Nat
  high : Nat
  den : Nat
  closed : Bool

def neighbourhood (x : Number) : Neighbourhood :=
  let m := x.significand
  let below := if x.magnitude % fractionSteps = 0 ∧ fractionSteps < x.magnitude then 1 else 2
  let q := x.exponent - 2
  let up := if 0 ≤ q then Nat.pow 2 q.toNat else 1
  let den := if 0 ≤ q then 1 else Nat.pow 2 (-q).toNat
  ⟨(4 * m - below) * up, 4 * m * up, (4 * m + 2) * up, den, m % 2 = 0⟩

namespace Neighbourhood

def admits (n : Neighbourhood) (d : Decimal) : Bool :=
  let (num, den) := d.ratio
  let scaled := num * n.den
  if n.closed then n.low * den ≤ scaled && scaled ≤ n.high * den
  else n.low * den < scaled && scaled < n.high * den

/-- The nearest grid point at `10 ^ exponent` that reads back, a tie going to the even digit. -/
def candidate? (n : Neighbourhood) (exponent : Int) : Option Decimal :=
  let up := if 0 ≤ exponent then Nat.pow 10 exponent.toNat else 1
  let down := if 0 ≤ exponent then 1 else Nat.pow 10 (-exponent).toNat
  let num := n.value * down
  let den := n.den * up
  let below : Decimal := ⟨num / den, exponent⟩
  let above : Decimal := ⟨num / den + 1, exponent⟩
  match n.admits below, n.admits above with
  | false, false => none
  | true, false => some below
  | false, true => some above
  | true, true => some ⟨roundHalfEven num den, exponent⟩

/-- One more than the exponent of the leading decimal digit. -/
def places (n : Neighbourhood) : Int :=
  let bits : Int := (Nat.log2 n.value : Int) - (Nat.log2 n.den : Int) - 1
  let estimate := Int.fdiv (bits * 30103) 100000
  let under (k : Int) : Bool :=
    if 0 ≤ k then n.value < n.den * Nat.pow 10 k.toNat
    else n.value * Nat.pow 10 (-k).toNat < n.den
  if under estimate then estimate
  else if under (estimate + 1) then estimate + 1
  else estimate + 2

end Neighbourhood

/-- The decimal of fewest digits that reads back as the finite number, and of those the nearest. -/
def shortest (x : Number) : Decimal :=
  if x.magnitude = 0 then ⟨0, 0⟩
  else
    let n := x.neighbourhood
    let k := n.places
    let grids := (List.range 17).map fun (i : Nat) => k - 1 - i
    match grids.findSome? n.candidate? with
    | some d => d.stripZeros 20
    | none => ⟨0, 0⟩

/-- From which exponent of the leading digit on the exponent form is used, and below which. -/
structure Style where
  least : Int
  most : Int

/-- Positional from `0.0001` up to six places before the point. -/
def Style.general : Style := ⟨-4, 6⟩

private def pad (n : Nat) : String := String.ofList (List.replicate n '0')

def positional (digits : List Char) (point : Int) : String :=
  if point ≤ 0 then "0." ++ pad (-point).toNat ++ String.ofList digits
  else if digits.length ≤ point.toNat then
    String.ofList digits ++ pad (point.toNat - digits.length)
  else
    String.ofList (digits.take point.toNat) ++ "." ++ String.ofList (digits.drop point.toNat)

/-- Exponent form: one digit before the point, a signed exponent of at least two digits. -/
def scientific (digits : List Char) (leading : Int) : String :=
  let mantissa := match digits with
    | [] => "0"
    | [d] => String.ofList [d]
    | d :: rest => String.ofList [d, '.'] ++ String.ofList rest
  let e := Decimal.digitText leading.natAbs
  let e := if e.length < 2 then "0" ++ e else e
  mantissa ++ "e" ++ (if leading < 0 then "-" else "+") ++ e

def render (style : Style) (x : Number) : String :=
  if x.isNaN then "NaN"
  else
    let sign := if x.negative then "-" else ""
    if x.isInfinite then (if x.negative then "-" else "+") ++ "Inf"
    else if x.magnitude = 0 then sign ++ "0"
    else
      let d := x.shortest
      let digits := Nat.toDigits 10 d.digits
      let point : Int := d.exponent + digits.length
      let leading := point - 1
      sign ++ (if leading < style.least ∨ style.most ≤ leading then scientific digits leading
        else positional digits point)

def text (x : Number) : String := x.render .general

def wholeText (x : Number) : String :=
  if x.isFinite then
    let n :=
      if 0 ≤ x.exponent then x.wholePart false
      else roundHalfEven x.significand (Nat.pow 2 (-x.exponent).toNat)
    (if x.negative then "-" else "") ++ Decimal.digitText n
  else x.render .general

end Number

end AbstractFlow
