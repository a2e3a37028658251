import AbstractFlow.Proofs.Collection.Table
import AbstractFlow.State.Basic

/-! # Registered scopes

Registering scopes adds to what a state knows of scopes and touches nothing that a run works on: its
variables, its control flow and the place where it stands.
-/
namespace AbstractFlow

namespace State

/-- A state that knows more scopes and is otherwise the same to a run. -/
structure Widens (s s' : State) : Prop where
  scopes : ∀ name, s.scopes.contains name = true → s'.scopes.contains name = true
  flow : s'.flow = s.flow
  memory : s'.memory = s.memory
  scope : s'.scope = s.scope
  context : s'.context = s.context
  functions : s'.functions = s.functions
  contexts : s'.contexts = s.contexts

theorem Widens.refl (s : State) : s.Widens s := ⟨fun _ h => h, rfl, rfl, rfl, rfl, rfl, rfl⟩

theorem Widens.trans {s t u : State} (h : s.Widens t) (h' : t.Widens u) : s.Widens u :=
  ⟨fun name hn => h'.scopes name (h.scopes name hn), h'.flow.trans h.flow, h'.memory.trans h.memory,
    h'.scope.trans h.scope, h'.context.trans h.context, h'.functions.trans h.functions,
    h'.contexts.trans h.contexts⟩

theorem widens_insert (s : State) (name : String) (e : ScopeEntry) :
    s.Widens { s with scopes := s.scopes.insert name e } := by
  refine ⟨fun n hn => ?_, rfl, rfl, rfl, rfl, rfl, rfl⟩
  rw [Table.contains_insert, hn, Bool.or_true]

theorem widens_addScope (s : State) (name : String) (kind : ScopeKind) : s.Widens (s.addScope name kind) := by
  unfold addScope
  split
  · exact Widens.refl s
  · exact s.widens_insert name _

theorem widens_noteGlobal (s : State) (name : String) (kind : ScopeKind) :
    s.Widens (s.noteGlobal name kind) := by
  unfold noteGlobal
  split
  · exact ⟨fun _ h => h, rfl, rfl, rfl, rfl, rfl, rfl⟩
  · exact Widens.refl s

theorem widens_adopt (s : State) (name parent : String) : s.Widens (s.adopt name parent) := by
  unfold adopt
  split
  · split
    · exact s.widens_insert name _
    · exact Widens.refl s
  · exact Widens.refl s

theorem contains_addScope (s : State) (name : String) (kind : ScopeKind) :
    (s.addScope name kind).scopes.contains name = true := by
  unfold addScope
  split
  · assumption
  · simp [Table.contains_insert]

/-- Everything registering does after the scope itself has been added. -/
private theorem widens_addScope_registerScope (s : State) (name : String) (kind : ScopeKind)
    (parent : String) : (s.addScope name kind).Widens (s.registerScope name kind parent) := by
  unfold registerScope
  generalize s.addScope name kind = s
  refine Widens.trans ?_ (widens_noteGlobal _ _ _)
  split
  · refine Widens.trans ?_ (widens_adopt _ _ _)
    split
    · exact Widens.refl s
    · exact (widens_addScope _ _ _).trans (widens_noteGlobal _ _ _)
  · exact Widens.refl s

theorem widens_registerScope (s : State) (name : String) (kind : ScopeKind) (parent : String) :
    s.Widens (s.registerScope name kind parent) :=
  (s.widens_addScope name kind).trans (s.widens_addScope_registerScope name kind parent)

theorem contains_registerScope (s : State) (name : String) (kind : ScopeKind) (parent : String) :
    (s.registerScope name kind parent).scopes.contains name = true :=
  (s.widens_addScope_registerScope name kind parent).scopes name (s.contains_addScope name kind)

section Current

variable (s : State) (name : String) (c : Context)

@[simp] theorem noteContext_flow : (s.noteContext c).flow = s.flow := by
  unfold noteContext; split <;> rfl

@[simp] theorem noteContext_memory : (s.noteContext c).memory = s.memory := by
  unfold noteContext; split <;> rfl

@[simp] theorem noteContext_scope : (s.noteContext c).scope = s.scope := by
  unfold noteContext; split <;> rfl

@[simp] theorem noteContext_scopes : (s.noteContext c).scopes = s.scopes := by
  unfold noteContext; split <;> rfl

@[simp] theorem noteContext_global : (s.noteContext c).global = s.global := by
  unfold noteContext; split <;> rfl

@[simp] theorem noteContext_context : (s.noteContext c).context = s.context := by
  unfold noteContext; split <;> rfl

@[simp] theorem noteContext_functions : (s.noteContext c).functions = s.functions := by
  unfold noteContext; split <;> rfl

theorem mem_contexts_noteContext {d : Context} : d ∈ (s.noteContext c).contexts ↔ d ∈ s.contexts ∨ d = c := by
  unfold noteContext
  split
  · rename_i hknown
    rw [List.contains_iff_mem] at hknown
    constructor
    · exact Or.inl
    · rintro (hd | rfl)
      · exact hd
      · exact hknown
  · rw [List.mem_append, List.mem_singleton]

@[simp] theorem setCurrent_functions : (s.setCurrent name c).functions = s.functions := by
  simp [setCurrent]

@[simp] theorem setCurrent_flow : (s.setCurrent name c).flow = s.flow := by simp [setCurrent]

@[simp] theorem setCurrent_memory : (s.setCurrent name c).memory = s.memory := by simp [setCurrent]

@[simp] theorem setCurrent_context : (s.setCurrent name c).context = c := by simp [setCurrent]

theorem setCurrent_scope {name : String} (h : s.scopes.contains name = true) :
    (s.setCurrent name c).scope = some name := by simp [setCurrent, h]

end Current

end State

end AbstractFlow
