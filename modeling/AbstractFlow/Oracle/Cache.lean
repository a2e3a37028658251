import AbstractFlow.Collection.Table
import AbstractFlow.Oracle.Basic

/-!
# Remembered answers

An oracle that remembers its most recently used answers under the version of the results that
they were given from, so that no answer outlives its version. Failures are not remembered, and
without a version nothing is.
-/
namespace AbstractFlow

/-- Answers by their keys, the most recently used first, at most `capacity` of them. -/
structure Cache where
  capacity : Nat
  entries : Table String Answer

namespace Cache

/-- The answer under a key, which becomes the most recently used one. -/
def get? (c : Cache) (key : String) : Option (Answer × Cache) :=
  (c.entries.get? key).map fun a => (a, { c with entries := (key, a) :: c.entries.erase key })

/-- Enters an answer and forgets the least recently used one if there are too many. -/
def add (c : Cache) (key : String) (a : Answer) : Cache :=
  { c with entries := ((key, a) :: c.entries.erase key).take c.capacity }

def key (version : String) (q : Query) : String := version ++ "_" ++ q.text

end Cache

structure Cached (σ : Type) where
  inner : σ
  cache : Cache

variable {σ : Type}

def Oracle.askInner (o : Oracle σ) (q : Query) (s : Cached σ) : Outcome × Cached σ :=
  let (outcome, inner) := o.ask q s.inner
  (outcome, { s with inner })

/-- Looks an answer up and asks only for those that are not there. -/
def Oracle.askRemembered (o : Oracle σ) (q : Query) (version : String) (s : Cached σ) :
    Outcome × Cached σ :=
  match s.cache.get? (Cache.key version q) with
  | some (a, cache) => (.answered (q.fit a), { s with cache })
  | none =>
    match o.askInner q s with
    | (.answered a, s) => (.answered a, { s with cache := s.cache.add (Cache.key version q) a })
    | r => r

/-- The oracle with a cache. Only a version is never remembered. -/
def Oracle.cached (o : Oracle σ) : Oracle (Cached σ) where
  ask q s :=
    match q with
    | .version => o.askInner .version s
    | q =>
      match o.askInner .version s with
      | (.answered a, s) => o.askRemembered q a.asVersion s
      | (.failed .., s) => o.askInner q s
      | (.broken reason, s) => (.broken reason, s)

def Cached.start (inner : σ) (size : Int) : Option (Cached σ) :=
  if size < 1 then none else some ⟨inner, ⟨size.toNat, []⟩⟩

def Cache.sizeMessage (size : Int) : String :=
  "error creating oracle cache of size " ++ toString size ++ ": Must provide a positive size"

end AbstractFlow
