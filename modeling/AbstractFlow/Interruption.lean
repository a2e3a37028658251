/-!
# Interrupted computations

A computation is interrupted when its context expires, by cancellation or at a deadline, or when
it nests too many calls. It then unwinds to the innermost place that watches over it, and further
as long as the context there has expired too.
-/
namespace AbstractFlow

inductive Interruption where
  | canceled
  | deadline
  | callLimit
deriving DecidableEq

def Interruption.text : Interruption → String
  | .canceled => "context canceled"
  | .deadline => "context deadline exceeded"
  | .callLimit => "call limit exceeded"

inductive RunFault where
  | interrupted (reason : Interruption)
  | own (message : String)
deriving DecidableEq

namespace RunFault

def message : RunFault → String
  | interrupted reason => "kitectx.Context expired: " ++ reason.text
  | own m => m

def isDeadline (f : RunFault) : Bool := f = interrupted .deadline

end RunFault

inductive Ending where
  | returned (fault : Option RunFault)
  | unwinding (reason : Interruption)
  | broken (message : String)
deriving DecidableEq

namespace Ending

/-- Stops an interruption, unless the surrounding context has expired as well. -/
def recover (around : Option Interruption) : Ending → Ending
  | unwinding reason =>
    match around with
    | some outer => unwinding outer
    | none => returned (some (.interrupted reason))
  | e => e

/-- Runs a computation under a source of cancellation that may have expired before. -/
def underSource (expired : Option Interruption) (body : Unit → Ending) : Ending :=
  match expired with
  | some reason => returned (some (.interrupted reason))
  | none => (body ()).recover none

def noSourceMessage : String := "kitectx.FromContext called on nil context.Context"

/-- Runs a computation that has to end at a deadline, inside a context that has not expired. -/
def underDeadline (passed : Bool) (body : Unit → Ending) : Ending :=
  if passed then returned (some (.interrupted .deadline)) else (body ()).recover none

end Ending

/-- Nested calls made so far, and how many there may be. -/
structure CallBudget where
  calls : Nat
  limit : Int
deriving DecidableEq

namespace CallBudget

def start (limit : Int) : CallBudget := ⟨0, limit⟩

def isSpent (b : CallBudget) : Bool := b.limit ≤ b.calls

def call (b : CallBudget) : Except Interruption CallBudget :=
  if b.isSpent then .error .callLimit else .ok { b with calls := b.calls + 1 }

/-- The budgets seen while making calls, and whether all calls could be made. -/
def chain (b : CallBudget) : Nat → List CallBudget × Bool
  | 0 => ([b], true)
  | n + 1 =>
    match b.call with
    | .error _ => ([b], false)
    | .ok c =>
      let (rest, done) := chain c n
      (b :: rest, done)

end CallBudget

end AbstractFlow
