import AbstractFlow.Value.Merge

/-!
# Building values

The values of constants.
-/
namespace AbstractFlow.Value

def numeric (type : NumericType) (s : NumberSet) : Value := [.constant (.number type s.normalize)]

def ints (xs : List Int) : Value := [.constant (.number .int (.ofList (xs.map Number.ofInt)))]

def intRange (lower upper : Number) : Value :=
  [.constant (.number .int (.between lower.ceil upper.floor))]

def anyInt : Value := [.constant (.number .int .any)]

def floats (xs : List Number) : Value := [.constant (.number .float (.ofList xs))]

def anyFloat : Value := [.constant (.number .float .any)]

def strings (ss : List ByteString) : Value := [.constant (.string (.ofList ss))]

def texts (ss : List String) : Value := strings (ss.map .ofString)

def ofStringSet (s : StringSet) : Value := [.constant (.string s.normalize)]

def anyString : Value := [.constant (.string .any)]

def bool (b : Bool) : Value :=
  [.constant (.number .bool (.ofList [if b then .one else .zero]))]

def anyBool : Value := [.constant (.number .bool (.ofList [.zero, .one]))]

def noneConstant : Value := [.constant .none]

end AbstractFlow.Value
