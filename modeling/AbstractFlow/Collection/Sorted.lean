/-!
# Sorted sets

A set of comparable items as a list in strictly increasing order, so that equal sets are equal
lists.
-/
namespace AbstractFlow.Sorted

variable {α : Type} [LT α] [DecidableLT α] [DecidableEq α]

def insert (a : α) : List α → List α
  | [] => [a]
  | b :: rest =>
    if a < b then a :: b :: rest
    else if a = b then b :: rest
    else b :: insert a rest

def ofList (as : List α) : List α := as.foldr insert []

/-- The items in increasing order, with repetitions. -/
def sort (as : List α) : List α := as.foldr place []
where
  place (a : α) : List α → List α
    | [] => [a]
    | b :: rest => if b < a then b :: place a rest else a :: b :: rest

def union (as bs : List α) : List α := ofList (as ++ bs)

end AbstractFlow.Sorted
