/-!
# Binary floating-point numbers

A number is a sign and a magnitude. Magnitudes count the non-negative values of the 64-bit binary
format upwards from zero, so comparing numbers is comparing integers. Every operation rounds an
exact fraction to the nearest magnitude, and a tie goes to the even one.
-/
namespace AbstractFlow

structure Number where
  negative : Bool
  magnitude : Nat
deriving DecidableEq, Inhabited

namespace Number

/-- Every finite number counts less than this; whatever counts more is not a number. -/
def infiniteMagnitude : Nat := 0x7FF0000000000000

/-- The number of magnitudes between two powers of two. -/
def fractionSteps : Nat := 0x10000000000000

def zero : Number := ⟨false, 0⟩
def one : Number := ⟨false, 0x3FF0000000000000⟩
def posInf : Number := ⟨false, infiniteMagnitude⟩
def negInf : Number := ⟨true, infiniteMagnitude⟩
def notANumber : Number := ⟨false, infiniteMagnitude + 1⟩

def isNaN (x : Number) : Bool := infiniteMagnitude < x.magnitude

def isInfinite (x : Number) : Bool := x.magnitude == infiniteMagnitude

def isFinite (x : Number) : Bool := x.magnitude < infiniteMagnitude

/-- The place of a number in the order; both zeros stand at the same place. -/
def key (x : Number) : Int := if x.negative then -(x.magnitude : Int) else x.magnitude

instance : LE Number := ⟨fun x y => x.isNaN = false ∧ y.isNaN = false ∧ x.key ≤ y.key⟩

instance : LT Number := ⟨fun x y => x.isNaN = false ∧ y.isNaN = false ∧ x.key < y.key⟩

instance (x y : Number) : Decidable (x ≤ y) :=
  inferInstanceAs (Decidable (x.isNaN = false ∧ y.isNaN = false ∧ x.key ≤ y.key))

instance (x y : Number) : Decidable (x < y) :=
  inferInstanceAs (Decidable (x.isNaN = false ∧ y.isNaN = false ∧ x.key < y.key))

theorem le_def (x y : Number) :
    x ≤ y ↔ x.isNaN = false ∧ y.isNaN = false ∧ x.key ≤ y.key := Iff.rfl

theorem lt_def (x y : Number) :
    x < y ↔ x.isNaN = false ∧ y.isNaN = false ∧ x.key < y.key := Iff.rfl

/-- Numeric equality: the zeros are equal, and what is not a number equals nothing. -/
def same (x y : Number) : Bool := !x.isNaN && !y.isNaN && x.key == y.key

/-- The smaller of two numbers, the negative one of two zeros. -/
def min (x y : Number) : Number :=
  if x.key < y.key then x else if y.key < x.key then y else if x.negative then x else y

/-- The larger of two numbers, the positive one of two zeros. -/
def max (x y : Number) : Number :=
  if x.key < y.key then y else if y.key < x.key then x else if x.negative then y else x

def neg (x : Number) : Number := { x with negative := !x.negative }

/-- The integer factor of a finite number; see `exponent`. -/
def significand (x : Number) : Nat :=
  let field := x.magnitude / fractionSteps
  if field = 0 then x.magnitude else fractionSteps + x.magnitude % fractionSteps

/-- A finite number has the absolute value `significand * 2 ^ exponent`. -/
def exponent (x : Number) : Int :=
  let field := x.magnitude / fractionSteps
  if field = 0 then -1074 else (field : Int) - 1075

/-- The integer nearest to `num / den`, the even one of two. -/
def roundHalfEven (num den : Nat) : Nat :=
  let whole := num / den
  let rest := num % den
  if 2 * rest < den then whole
  else if den < 2 * rest then whole + 1
  else if whole % 2 = 0 then whole else whole + 1

/-- The magnitude nearest to the fraction `num / den`; beyond the last finite one it is infinite. -/
def roundRatio (num den : Nat) : Nat :=
  if num = 0 then 0
  else
    let estimate : Int := (Nat.log2 num : Int) - (Nat.log2 den : Int) - 52
    let scaled (q : Int) : Nat × Nat :=
      if 0 ≤ q then (num, den * Nat.pow 2 q.toNat) else (num * Nat.pow 2 (-q).toNat, den)
    let fits (q : Int) : Bool :=
      let (n, d) := scaled q
      fractionSteps * d ≤ n
    let q : Int := if fits estimate then estimate else estimate - 1
    let q : Int := if q < -1074 then -1074 else q
    let (n, d) := scaled q
    Nat.min ((q + 1074).toNat * fractionSteps + roundHalfEven n d) infiniteMagnitude

def ofRatio (negative : Bool) (num den : Nat) : Number := ⟨negative, roundRatio num den⟩

def ofScaled (negative : Bool) (m : Nat) (q : Int) : Number :=
  if 0 ≤ q then ofRatio negative (m * Nat.pow 2 q.toNat) 1
  else ofRatio negative m (Nat.pow 2 (-q).toNat)

def ofNat (n : Nat) : Number := ofRatio false n 1

def ofInt (n : Int) : Number := ofRatio (n < 0) n.natAbs 1

/-- The product, rounded once. Zero times infinity is not a number. -/
def mul (x y : Number) : Number :=
  let sign := x.negative != y.negative
  if x.isNaN || y.isNaN then notANumber
  else if x.isInfinite || y.isInfinite then
    if x.magnitude = 0 ∨ y.magnitude = 0 then notANumber else ⟨sign, infiniteMagnitude⟩
  else ofScaled sign (x.significand * y.significand) (x.exponent + y.exponent)

/-- The whole part of the absolute value, with one more if `up` and anything is left over. -/
def wholePart (x : Number) (up : Bool) : Nat :=
  if 0 ≤ x.exponent then x.significand * Nat.pow 2 x.exponent.toNat
  else
    let unit := Nat.pow 2 (-x.exponent).toNat
    x.significand / unit + (if up && x.significand % unit != 0 then 1 else 0)

private def roundedTo (x : Number) (up : Bool) : Number :=
  if x.isFinite then ⟨x.negative, roundRatio (x.wholePart up) 1⟩ else x

/-- Drops the fractional part; the sign stays, also on zero. -/
def truncate (x : Number) : Number := roundedTo x false

def floor (x : Number) : Number := roundedTo x x.negative

def ceil (x : Number) : Number := roundedTo x (!x.negative)

def toBits (x : Number) : UInt64 :=
  (if x.negative then 0x8000000000000000 else 0) + x.magnitude.toUInt64

end Number

end AbstractFlow
