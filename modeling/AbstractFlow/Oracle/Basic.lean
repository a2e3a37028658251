import AbstractFlow.Oracle.Query

/-!
# Oracles

An oracle answers queries one after the other and may change while it does. An answer may fail,
with a value that is then of no use, or the oracle may break down.
-/
namespace AbstractFlow

inductive Outcome where
  | answered (a : Answer)
  | failed (a : Answer) (reason : String)
  | broken (reason : String)
deriving DecidableEq

/-- An oracle whose state is of type `σ`. -/
structure Oracle (σ : Type) where
  ask : Query → σ → Outcome × σ

structure Failure where
  query : Query
  reason : String
deriving DecidableEq

def Failure.text (f : Failure) : String := "oracle query " ++ f.query.text ++ " failed: " ++ f.reason

def Failure.notice (f : Failure) : String := f.text ++ "; using conservative default"

/-- What an outcome comes to when nothing may fail: an answer, and a failure where the safe answer
had to stand in. -/
def Outcome.settle (q : Query) : Outcome → Answer × Option Failure
  | .answered a => (a, none)
  | .failed _ reason => (q.conservative, some ⟨q, reason⟩)
  | .broken reason => (q.conservative, some ⟨q, "panic: " ++ reason⟩)

/-- An oracle that may be absent and whose failures are recorded. -/
structure Guarded (σ : Type) where
  oracle : Option (Oracle σ)
  state : σ
  failures : List Failure

namespace Guarded

variable {σ : Type}

def isAvailable (g : Guarded σ) : Bool := g.oracle.isSome

/-- Always answers: with the safe answer if there is no oracle or if it fails. -/
def ask (g : Guarded σ) (q : Query) : Answer × Option Failure × Guarded σ :=
  match g.oracle with
  | none => (q.conservative, none, g)
  | some o =>
    let (outcome, state) := o.ask q g.state
    let (a, failure) := outcome.settle q
    (a, failure, { g with state, failures := g.failures ++ failure.toList })

end Guarded

end AbstractFlow
