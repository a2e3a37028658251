import AbstractFlow.Proofs.Analysis.Guide
import Mathlib.Data.List.Nodup
import Mathlib.Data.List.Perm.Subperm
import Mathlib.Logic.Relation

/-! # How deep bodies are nested

Bodies are nested by calls and by definitions of classes. No function is on the call stack more often than the
recursion limit allows; and if no chain of class definitions leads from a body back to itself, then between two
calls no body of a class is entered twice. So the bound on the depth of nested bodies is never reached.
-/
namespace AbstractFlow

namespace Analyzer

variable {a : Analyzer}

def DefinesClass (a : Analyzer) (name cls : String) : Prop :=
  ∃ index target bases, a.stmt? ⟨name, index⟩ = some (.classDef target cls bases)

/-- No chain of class definitions leads from a body back to itself. -/
def Acyclic (a : Analyzer) : Prop := ∀ name, ¬ Relation.TransGen a.DefinesClass name name

theorem mem_keys_of_scope? {name : String} (h : (a.scope? name).isSome = true) : name ∈ a.scopes.map (·.1) := by
  obtain ⟨scope, hscope⟩ := Option.isSome_iff_exists.mp h
  exact List.mem_map.mpr ⟨_, Table.mem_of_get? hscope, rfl⟩

/-- What may still be nested in a body: calls until every function is on the stack as often as it may be, and
between two calls the bodies of all classes. -/
def room (a : Analyzer) (calls classes : Nat) : Nat :=
  (a.scopes.length * a.maxRecursionDepth - calls) * (a.scopes.length + 1) + (a.scopes.length + 1 - classes)

/-- Bodies may be nested `depth` deep in the body of a scope, with a stack of callees. -/
structure Nests (a : Analyzer) (depth : Nat) (name : String) (cs : List String) : Prop where
  scopes : ∀ x ∈ cs, (a.scope? x).isSome = true
  counts : ∀ x, cs.count x ≤ a.maxRecursionDepth
  /-- The bodies that are nested in each other since the last call. -/
  chain : ∃ chain : List String, chain.Nodup ∧ chain ≠ [] ∧
    (∀ x ∈ chain, (a.scope? x).isSome = true ∧ Relation.ReflTransGen a.DefinesClass x name) ∧
    a.room cs.length chain.length ≤ depth

end Analyzer

theorem List.length_le_of_count_le {α : Type} [DecidableEq α] {keys l : List α} {n : Nat} (hmem : ∀ x ∈ l, x ∈ keys)
    (hcount : ∀ x, l.count x ≤ n) : l.length ≤ keys.length * n := by
  induction keys generalizing l with
  | nil =>
    cases l with
    | nil => simp
    | cons x l => simpa using hmem x List.mem_cons_self
  | cons k keys ih =>
    have hrest : (l.filter (· != k)).length ≤ keys.length * n := by
      refine ih (fun x hx => ?_) fun x => ?_
      · obtain ⟨hx, hne⟩ := List.mem_filter.mp hx
        exact (List.mem_cons.mp (hmem x hx)).resolve_left (by simpa using hne)
      · exact (List.filter_sublist.count_le x).trans (hcount x)
    have hsplit : l.length = l.count k + (l.filter (· != k)).length := by
      rw [List.count, ← List.countP_eq_length_filter, List.length_eq_countP_add_countP (· == k)]
      congr 2
      funext x
      simp [bne, beq_eq_decide]
    have hk := hcount k
    rw [List.length_cons, Nat.succ_mul]
    omega

namespace Analyzer

variable {a : Analyzer} {depth : Nat} {name : String} {cs : List String}

theorem length_le_of_counts (hscopes : ∀ x ∈ cs, (a.scope? x).isSome = true)
    (hcounts : ∀ x, cs.count x ≤ a.maxRecursionDepth) : cs.length ≤ a.scopes.length * a.maxRecursionDepth := by
  have hlength := List.length_le_of_count_le (fun x hx => mem_keys_of_scope? (hscopes x hx)) hcounts
  rwa [List.length_map] at hlength

theorem length_le_of_nodup {chain : List String} (hnodup : chain.Nodup)
    (hscopes : ∀ x ∈ chain, (a.scope? x).isSome = true) : chain.length ≤ a.scopes.length := by
  have hsub : chain ⊆ a.scopes.map (·.1) := fun x hx => mem_keys_of_scope? (hscopes x hx)
  have hlength := (hnodup.subperm hsub).length_le
  rwa [List.length_map] at hlength

theorem Nests.pos (h : a.Nests depth name cs) : 0 < depth := by
  obtain ⟨chain, hnodup, -, hchain, hroom⟩ := h.chain
  have hlength := length_le_of_nodup hnodup fun x hx => (hchain x hx).1
  unfold room at hroom
  omega

theorem Nests.call (h : a.Nests (depth + 1) name cs) {callee : String} (hscope : (a.scope? callee).isSome = true)
    (hcount : cs.count callee < a.maxRecursionDepth) : a.Nests depth callee (callee :: cs) := by
  have hscopes : ∀ x ∈ callee :: cs, (a.scope? x).isSome = true := List.forall_mem_cons.mpr ⟨hscope, h.scopes⟩
  have hcounts : ∀ x, (callee :: cs).count x ≤ a.maxRecursionDepth := by
    intro x
    have hold := h.counts x
    rw [List.count_cons]
    split
    · rename_i heq
      rw [← eq_of_beq heq]
      omega
    · omega
  have hstack := length_le_of_counts hscopes hcounts
  obtain ⟨chain, hnodup, -, hchain, hroom⟩ := h.chain
  have hlength := length_le_of_nodup hnodup fun x hx => (hchain x hx).1
  refine ⟨hscopes, hcounts, [callee], by simp, by simp, by simpa using ⟨hscope, .refl⟩, ?_⟩
  unfold room at hroom ⊢
  rw [List.length_cons] at hstack ⊢
  obtain ⟨left, hleft⟩ := Nat.exists_eq_add_of_le hstack
  rw [hleft, show cs.length + 1 + left - cs.length = left + 1 by omega, Nat.succ_mul] at hroom
  rw [hleft, show cs.length + 1 + left - (cs.length + 1) = left by omega, List.length_singleton]
  omega

theorem Nests.define (ha : a.Acyclic) (h : a.Nests (depth + 1) name cs) {cls : String}
    (hdefines : a.DefinesClass name cls) (hscope : (a.scope? cls).isSome = true) : a.Nests depth cls cs := by
  obtain ⟨chain, hnodup, hne, hchain, hroom⟩ := h.chain
  have hnew : cls ∉ chain := fun hmem => ha cls (.tail' (hchain cls hmem).2 hdefines)
  have hscopes : ∀ x ∈ cls :: chain, (a.scope? x).isSome = true :=
    List.forall_mem_cons.mpr ⟨hscope, fun x hx => (hchain x hx).1⟩
  have hlength := length_le_of_nodup (List.nodup_cons.mpr ⟨hnew, hnodup⟩) hscopes
  refine ⟨h.scopes, h.counts, cls :: chain, List.nodup_cons.mpr ⟨hnew, hnodup⟩, by simp,
    List.forall_mem_cons.mpr ⟨⟨hscope, .refl⟩, fun x hx => ⟨(hchain x hx).1, (hchain x hx).2.tail hdefines⟩⟩, ?_⟩
  unfold room at hroom ⊢
  rw [List.length_cons] at hlength ⊢
  omega

theorem nests_first (hmax : 0 < a.maxRecursionDepth) (hscope : (a.scope? name).isSome = true) :
    a.Nests a.depthBound name [] ∧ a.Nests a.depthBound name [name] := by
  have hroom : ∀ calls, a.room calls 1 ≤ a.depthBound := by
    intro calls
    unfold room depthBound
    rw [Nat.succ_mul]
    have hless := Nat.mul_le_mul_right (a.scopes.length + 1)
      (Nat.sub_le (a.scopes.length * a.maxRecursionDepth) calls)
    omega
  have hchain : ∃ chain : List String, chain.Nodup ∧ chain ≠ [] ∧
      (∀ x ∈ chain, (a.scope? x).isSome = true ∧ Relation.ReflTransGen a.DefinesClass x name) ∧
      ∀ calls, a.room calls chain.length ≤ a.depthBound :=
    ⟨[name], by simp, by simp, by simpa using ⟨hscope, .refl⟩, hroom⟩
  obtain ⟨chain, hnodup, hne, hlinked, hroom⟩ := hchain
  refine ⟨⟨by simp, by simp, chain, hnodup, hne, hlinked, hroom _⟩,
    ⟨by simpa using hscope, fun x => ?_, chain, hnodup, hne, hlinked, hroom _⟩⟩
  exact List.count_le_length.trans hmax

end Analyzer

end AbstractFlow
