import AbstractFlow.Text.Argument

/-!
# Templates

Messages with places for arguments. A place is a percent sign, marks, a width, a precision and a
verb; width and precision may be taken from arguments, and any argument may be chosen by its
number in brackets. What does not fit is reported within the message itself.
-/
namespace AbstractFlow.Template

open Argument (Marks)

/-- Widths and precisions beyond this are refused. -/
def sizeLimit : Nat := 1000000

/-- The number at the front, and the rest. Digits that go on beyond the limit spoil the whole
template from there on. -/
def numberFrom (n : Option Nat) : List Char → Option Nat × List Char
  | [] => (n, [])
  | c :: rest =>
    if c.isDigit then
      if sizeLimit < n.getD 0 then (none, [])
      else numberFrom (some (n.getD 0 * 10 + (c.toNat - '0'.toNat))) rest
    else (n, c :: rest)

/-- Reads the marks at the front. -/
def marksFrom (m : Marks) : List Char → Marks × List Char
  | [] => (m, [])
  | c :: rest =>
    match c with
    | '-' => marksFrom { m with left := true } rest
    | '0' => marksFrom { m with zero := true } rest
    | '+' => marksFrom { m with plus := true } rest
    | ' ' => marksFrom { m with blank := true } rest
    | '#' => marksFrom { m with sharp := true } rest
    | _ => (m, c :: rest)

structure Place where
  marks : Marks
  next : Nat
  /-- Whether an argument has been chosen by its number anywhere so far. -/
  reordered : Bool
  rest : List Char
  /-- Reports that stand before what is written. -/
  reports : String := ""
  /-- Whether all numbers in brackets can be followed. -/
  sound : Bool := true
  /-- Whether a number in brackets was read just before. -/
  numbered : Bool := false

namespace Place

/-- Chooses an argument by a number in brackets, if there is one here. -/
def readNumber (count : Nat) (p : Place) : Place :=
  match p.rest with
  | '[' :: cs =>
    let p := { p with reordered := true, sound := false, numbered := false }
    let inner := cs.takeWhile (· ≠ ']')
    match cs.dropWhile (· ≠ ']') with
    | _ :: rest =>
      -- Empty brackets at the end of the template: the closing one is left to be read as the verb.
      if cs = [']'] then { p with rest := cs }
      else
        match numberFrom none inner with
        | (some n, []) =>
          if 1 ≤ n ∧ n ≤ count then
            { p with rest, next := n - 1, sound := true, numbered := true }
          else { p with rest, numbered := true }
        | _ => { p with rest }
    | [] => { p with rest := cs }
  | _ => { p with numbered := false }

/-- A number in brackets leaves earlier misuse as it is. -/
def readIndex (count : Nat) (p : Place) : Place :=
  let q := p.readNumber count
  { q with sound := p.sound && q.sound }

/-- The next argument as a size, if it is a number that is not too large. -/
def sizeArgument (args : List Argument) (p : Place) : Option Int × Nat :=
  match args[p.next]? with
  | some (.int n) => (if n.natAbs ≤ sizeLimit then some n else none, p.next + 1)
  | some _ => (none, p.next + 1)
  | none => (none, p.next)

def readWidth (args : List Argument) (p : Place) : Place :=
  match p.rest with
  | '*' :: rest =>
    let (size, next) := p.sizeArgument args
    let p := { p with rest, next, numbered := false }
    match size with
    | some n =>
      -- A negative width aligns to the left, where zeros cannot fill up.
      let m := { p.marks with width := some n.natAbs }
      { p with marks := if n < 0 then { m with left := true, zero := false } else m }
    | none => { p with reports := p.reports ++ "%!(BADWIDTH)" }
  | cs =>
    let (width, rest) := numberFrom none cs
    { p with
      marks := { p.marks with width }
      rest
      sound := p.sound && !(p.numbered && width.isSome) }

def readPrecision (args : List Argument) (p : Place) : Place :=
  match p.rest with
  | '.' :: cs =>
    let p := readIndex args.length { p with rest := cs, sound := p.sound && !p.numbered }
    match p.rest with
    | '*' :: rest =>
      let (size, next) := p.sizeArgument args
      let p := { p with rest, next, numbered := false }
      match size with
      | some n =>
        if n < 0 then { p with reports := p.reports ++ "%!(BADPREC)" }
        else { p with marks := { p.marks with precision := some n.toNat } }
      | none => { p with reports := p.reports ++ "%!(BADPREC)" }
    | cs =>
      let (precision, rest) := numberFrom none cs
      { p with marks := { p.marks with precision := some (precision.getD 0) }, rest }
  | _ => p

/-- Reads all of a place up to its verb. -/
def read (args : List Argument) (next : Nat) (reordered : Bool) (cs : List Char) : Place :=
  let (marks, rest) := marksFrom {} cs
  let p := readIndex args.length { marks, next, reordered, rest }
  let p := (p.readWidth args).readPrecision args
  if p.numbered then p else p.readIndex args.length

/-- The marks for a verb; the plain verb gives some of them another meaning. -/
def marksFor (p : Place) (verb : Char) : Marks :=
  if verb = 'v' || verb = 'w' then
    { p.marks with quoted := p.marks.sharp, sharp := false, plus := false }
  else p.marks

def write (args : List Argument) (p : Place) (verb : Char) : String × Bool :=
  let report (what : String) : String := "%!" ++ String.singleton verb ++ what
  if verb = '%' then ("%", false)
  else if !p.sound then (report "(BADINDEX)", false)
  else
    match args[p.next]? with
    | some a => (a.write (p.marksFor verb) verb, true)
    | none => (report "(MISSING)", false)

end Place

/-- The arguments that are left over, unless some were chosen by number. -/
def leftOver (args : List Argument) (next : Nat) (reordered : Bool) : String :=
  let extra := args.drop next
  if reordered || extra.isEmpty then ""
  else "%!(EXTRA " ++ ", ".intercalate (extra.map (Argument.described {})) ++ ")"

/-- Fills the places from left to right. Every step takes up a character. -/
def fill (args : List Argument) : Nat → Nat → Bool → List Char → String
  | 0, next, reordered, _ => leftOver args next reordered
  | _, next, reordered, [] => leftOver args next reordered
  | fuel + 1, next, reordered, c :: cs =>
    if c ≠ '%' then String.singleton c ++ fill args fuel next reordered cs
    else
      let p := Place.read args next reordered cs
      match p.rest with
      | [] => p.reports ++ "%!(NOVERB)" ++ leftOver args p.next p.reordered
      | verb :: rest =>
        let (written, used) := p.write args verb
        p.reports ++ written ++ fill args fuel (if used then p.next + 1 else p.next) p.reordered rest

/-- A template without arguments stands for itself, and arguments without a template are joined. -/
def message (template : String) (args : List Argument) : String :=
  if args.isEmpty then template
  else if template = "" then Argument.joined args
  else fill args template.length 0 false template.toList

end AbstractFlow.Template
