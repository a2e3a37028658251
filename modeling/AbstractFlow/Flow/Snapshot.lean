import AbstractFlow.Value.Digest
import AbstractFlow.Value.Merge

/-!
# Snapshots

The variables of a frame with their values at one point of a program.
-/
namespace AbstractFlow

abbrev Snapshot := Dict Value

namespace Snapshot

def merge (s t : Snapshot) : Snapshot := Dict.mergeWith Value.merge s t

/-- Whether both bind the same variables to values that say the same. -/
def equal (s t : Snapshot) : Bool :=
  s.keys == t.keys && (s.zip t).all fun (a, b) => a.2.equal b.2

end Snapshot

end AbstractFlow
