import AbstractFlow.Value.Object

/-!
# Truth and comparison

Questions about values have the answers yes, no and maybe. An answer is definite only when every
object, or every pair of objects, gives it.
-/
namespace AbstractFlow

inductive Verdict where
  | maybe
  | yes
  | no
deriving DecidableEq

namespace Verdict

def ofBool (b : Bool) : Verdict := if b then .yes else .no

def isDefinite (v : Verdict) : Bool := v != .maybe

def not : Verdict → Verdict
  | .yes => .no
  | .no => .yes
  | .maybe => .maybe

def text : Verdict → String
  | .yes => "true"
  | .no => "false"
  | .maybe => "maybe"

/-- The common answer of all, if it is definite. -/
def unanimous : List Verdict → Verdict
  | [] => .maybe
  | v :: rest => if rest.all (· == v) then v else .maybe

end Verdict

inductive Comparator where
  | eq
  | ne
  | lt
  | le
  | gt
  | ge
  | is
  | isNot
deriving DecidableEq

def Comparator.ofText? : String → Option Comparator
  | "==" => some .eq
  | "!=" => some .ne
  | "<" => some .lt
  | "<=" => some .le
  | ">" => some .gt
  | ">=" => some .ge
  | "is" => some .is
  | "is not" => some .isNot
  | _ => none

namespace NumberSet

def truth (s : NumberSet) : Verdict :=
  if !s.mayBeZero then .yes
  else if s.single?.any (·.same .zero) then .no
  else if !s.exact.isEmpty && !s.contains .zero then .yes
  else .maybe

def equals (s t : NumberSet) : Verdict :=
  match s.single?, t.single? with
  | some x, some y => .ofBool (x.same y)
  | _, _ => if s.upper < t.lower || t.upper < s.lower then .no else .maybe

def less (s t : NumberSet) : Verdict :=
  if s.upper < t.lower then .yes else if t.upper ≤ s.lower then .no else .maybe

def atMost (s t : NumberSet) : Verdict :=
  if s.upper ≤ t.lower then .yes else if t.upper < s.lower then .no else .maybe

def compare (op : Comparator) (s t : NumberSet) : Verdict :=
  match op with
  | .eq => s.equals t
  | .ne => (s.equals t).not
  | .lt => s.less t
  | .le => s.atMost t
  | .gt => t.less s
  | .ge => t.atMost s
  | .is | .isNot => .maybe

end NumberSet

namespace StringSet

def truth (s : StringSet) : Verdict :=
  if 0 < s.minLen then .yes else if s.maxLen = 0 then .no else .maybe

def equals (s t : StringSet) : Verdict :=
  match s.single?, t.single? with
  | some x, some y => .ofBool (x == y)
  | _, _ =>
    if s.exact.isEmpty || t.exact.isEmpty then .maybe
    else if s.exact.any t.contains then .maybe else .no

/-- Decides an order question on the only members. -/
def decided (s t : StringSet) (question : ByteString → ByteString → Bool) : Verdict :=
  match s.single?, t.single? with
  | some x, some y => .ofBool (question x y)
  | _, _ => .maybe

def compare (op : Comparator) (s t : StringSet) : Verdict :=
  match op with
  | .eq => s.equals t
  | .ne => (s.equals t).not
  | .lt => decided s t fun x y => x < y
  | .le => decided s t fun x y => !(y < x)
  | .gt => decided s t fun x y => y < x
  | .ge => decided s t fun x y => !(x < y)
  | .is | .isNot => .maybe

end StringSet

namespace Constant

/-- Equality of constants of different types: only numbers can be equal across types. -/
def equals : Constant → Constant → Verdict
  | .number _ s, .number _ t => s.equals t
  | .string s, .string t => s.equals t
  | .none, .none => .yes
  | _, _ => .no

/-- Identity is decided only against `None`. -/
def is : Constant → Constant → Verdict
  | .none, .none => .yes
  | .none, _ => .no
  | _, .none => .no
  | _, _ => .maybe

def compare (op : Comparator) (c d : Constant) : Verdict :=
  match op with
  | .eq => c.equals d
  | .ne => (c.equals d).not
  | .is => c.is d
  | .isNot => (c.is d).not
  | op =>
    match c, d with
    | .number _ s, .number _ t => s.compare op t
    | .string s, .string t => s.compare op t
    | _, _ => .maybe

end Constant

namespace Object

def truth : Object → Verdict
  | .constant .none => .no
  | .constant (.string s) => s.truth
  | .constant (.number _ s) => s.truth
  | .container c => if 0 < c.minSize then .yes else if c.maxSize = some 0 then .no else .maybe
  | .function _ | .classObject _ => .yes
  | .external e => if e.kind = .instanceObject then .maybe else .yes
  | .unknown _ | .instanceObject _ => .maybe

def compare (op : Comparator) : Object → Object → Verdict
  | .constant c, .constant d => c.compare op d
  | _, _ => .maybe

end Object

namespace Value

def truth (v : Value) : Verdict := .unanimous (v.map Object.truth)

def compareBy (op : Comparator) (a b : Value) : Verdict :=
  .unanimous (a.flatMap fun x => b.map fun y => x.compare op y)

/-- Compares by the text of an operator; an operator that is none of the comparisons decides
nothing. -/
def compare (op : String) (a b : Value) : Verdict :=
  match Comparator.ofText? op with
  | some op => compareBy op a b
  | none => .maybe

end Value

end AbstractFlow
