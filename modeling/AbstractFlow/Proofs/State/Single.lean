import AbstractFlow.Analysis.Run
import AbstractFlow.Proofs.State.Frames
import AbstractFlow.Proofs.Value.Cover

/-! # States with a single frame

While one module is analysed under the root context, all variables stand in one frame. A name is found
there or not at all, and whatever is written changes that frame alone.
-/
namespace AbstractFlow

def Snapshot.lookup (frame : Snapshot) (name : String) : Value :=
  if name = "" then Value.unknown else (Dict.get? frame name).getD Value.unknown

theorem Snapshot.equal_refl (s : Snapshot) : s.equal s = true := by
  simp only [Snapshot.equal, BEq.rfl, Bool.true_and, List.all_eq_true]
  intro x hx
  obtain ⟨i, hlt, rfl⟩ := List.getElem_of_mem hx
  simp [Value.equal_refl]

/-- A state that analyses the module `f` and binds nothing outside of the given frame. -/
structure State.Single (f : String) (s : State) (frame : Snapshot) : Prop where
  scope : s.scope = some f
  context : s.context = .root
  frame : s.memory.frame ⟨f, .root⟩ = frame
  elsewhere : ∀ k, k ≠ ⟨f, .root⟩ → s.memory.frame k = []

namespace State.Single

variable {σ : Type} {f : String} {s : State} {frame : Snapshot}

theorem writeScope (h : s.Single f frame) : s.writeScope = some f := by
  simp [State.writeScope, h.scope]

theorem frameKey (h : s.Single f frame) (scope : String) :
    s.frameKey scope s.context = ⟨scope, .root⟩ := by
  unfold State.frameKey
  split <;> simp [h.context]

theorem snapshot (h : s.Single f frame) : s.snapshot = frame := by
  simp [State.snapshot, State.currentFrame, State.currentKey?, h.writeScope, h.frameKey, h.frame]

theorem find? (h : s.Single f frame) (scope name : String) :
    s.find? scope name =
      if scope = f then (Dict.get? frame name).map fun v => (⟨f, .root⟩, v) else none := by
  have hroot : s.context.isRoot = true := by rw [h.context]; rfl
  unfold State.find?
  simp only [h.frameKey, hroot, ↓reduceIte, Memory.get?]
  by_cases hs : scope = f
  · subst hs
    rw [h.frame, if_pos rfl]
    cases Dict.get? frame name <;> rfl
  · have hk : (⟨scope, .root⟩ : FrameKey) ≠ ⟨f, .root⟩ := by simp [hs]
    rw [h.elsewhere _ hk, if_neg hs]
    rfl

theorem resolve? (h : s.Single f frame) (name : String) :
    s.resolve? name = (Dict.get? frame name).map fun v => (⟨f, .root⟩, v) := by
  have hvisible : ∃ around, s.visibleScopes = f :: around := by
    simp [State.visibleScopes, State.chain, h.writeScope]
  obtain ⟨around, hvisible⟩ := hvisible
  unfold State.resolve?
  rw [hvisible, List.findSome?_cons, h.find?, if_pos rfl]
  cases hn : Dict.get? frame name with
  | some v => rfl
  | none =>
    have hnone : around.findSome? (fun scope => s.find? scope name) = none := by
      rw [List.findSome?_eq_none_iff]
      intro scope _
      rw [h.find?, hn]
      simp
    simp [hnone]

theorem getVariable? (h : s.Single f frame) (name : String) : s.getVariable? name = Dict.get? frame name := by
  rw [State.getVariable?, h.resolve?]
  cases Dict.get? frame name <;> rfl

theorem lookup {r : Run σ} (h : r.state.Single f frame) (name : String) : r.lookup name = frame.lookup name := by
  unfold Run.lookup Snapshot.lookup
  rw [h.getVariable?]

theorem write (h : s.Single f frame) (name : String) (v : Value) :
    State.Single f { s with memory := s.memory.set ⟨f, .root⟩ name v } (frame.insert name v) := by
  refine { h with frame := ?_, elsewhere := ?_ }
  · rw [Memory.frame_set, if_pos rfl, h.frame]
  · intro k hk
    rw [Memory.frame_set, if_neg (Ne.symm hk)]
    exact h.elsewhere k hk

theorem setIn (h : s.Single f frame) (name : String) (v : Value) :
    s.setIn (some f) name v = .ok { s with memory := s.memory.set ⟨f, .root⟩ name v } := by
  rw [State.setIn, h.frameKey]

theorem setVariable (h : s.Single f frame) (name : String) (v : Value) :
    s.setVariable name v = .ok { s with memory := s.memory.set ⟨f, .root⟩ name v } := by
  rw [State.setVariable, h.writeScope, h.setIn]

theorem mergeVariable (h : s.Single f frame) (name : String) (v : Value) :
    s.mergeVariable name v = .ok (((Dict.get? frame name).getD []).merge v,
      { s with memory := s.memory.set ⟨f, .root⟩ name (((Dict.get? frame name).getD []).merge v) }) := by
  have hknown : ((s.find? f name).map Prod.snd).getD [] = (Dict.get? frame name).getD [] := by
    rw [h.find?, if_pos rfl]
    cases Dict.get? frame name <;> rfl
  unfold State.mergeVariable
  rw [h.writeScope]
  simp only [hknown, h.setIn]
  rfl

theorem updateVariable? (h : s.Single f frame) (name : String) (v : Value) :
    s.updateVariable? name v =
      (Dict.get? frame name).map fun _ => { s with memory := s.memory.set ⟨f, .root⟩ name v } := by
  unfold State.updateVariable?
  rw [h.resolve?]
  cases Dict.get? frame name <;> rfl

end State.Single

end AbstractFlow
