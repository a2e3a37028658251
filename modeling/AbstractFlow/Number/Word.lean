/-!
# Machine words

Counts and integers of the analysed program, and lengths of time, are kept in words of 64 bits.
-/
namespace AbstractFlow.Word

def size : Nat := 0x10000000000000000

/-- Signed words reach from the negative of this number up to it, without it. -/
def half : Nat := 0x8000000000000000

def fits (n : Int) : Bool := -(half : Int) ≤ n && n < (half : Int)

theorem fits_iff (n : Int) : fits n = true ↔ -(half : Int) ≤ n ∧ n < (half : Int) := by
  simp [fits]

end AbstractFlow.Word
