import AbstractFlow.Value.Digest
import AbstractFlow.Value.Merge

/-! # Values that cover others

A value covers another one if it may be all that the other may be.
-/
namespace AbstractFlow

namespace Value

/-- A value that says no less: it is unknown, or merging the other one into it adds nothing. -/
def Covers (b a : Value) : Prop := b.hasUnknown = true ∨ (b.merge a).equal b = true

instance (b a : Value) : Decidable (b.Covers a) :=
  inferInstanceAs (Decidable (b.hasUnknown = true ∨ (b.merge a).equal b = true))

theorem equal_refl (v : Value) : v.equal v = true := by
  simp [equal, equalBy]

theorem covers_of_merge_eq {a b : Value} (h : b.merge a = b) : b.Covers a := by
  refine Or.inr ?_
  rw [h]
  exact equal_refl b

end Value

end AbstractFlow
