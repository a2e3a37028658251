import AbstractFlow.Proofs.Analysis.Ledger

/-! # The beginning of an analysis

The scopes of a program have different names, and each stands under its name. Before anything is
analysed, every function scope is known as the function that it defines, the call graph is empty, and
all functions stand under their names.
-/
namespace AbstractFlow

namespace Analyzer

def ofProgram (o : Options) (bindings : List Prebinding) (tracing : Bool) (p : Program) : Analyzer :=
  (addProgram { options := o, bindings, tracing } p).1

/-- Every scope stands under its name, and no name stands twice. -/
structure Distinct (a : Analyzer) : Prop where
  named : ∀ e ∈ a.scopes, e.2.name = e.1
  nodup : (a.scopes.map (·.2.name)).Nodup

theorem distinct_addScope {a a' : Analyzer} {s : Option Scope} (ha : a.Distinct)
    (h : a.addScope s = .ok a') : a'.Distinct ∧ a'.options = a.options := by
  unfold addScope at h
  split at h
  · cases h
  · rename_i s
    split at h
    · cases h
    · split at h
      · cases h
      · rename_i hnew
        cases h
        rw [Bool.not_eq_true] at hnew
        refine ⟨⟨?_, ?_⟩, rfl⟩
        · intro e he
          simp only [Table.insert_of_not_contains hnew, List.mem_append, List.mem_singleton] at he
          rcases he with he | rfl
          · exact ha.named e he
          · rfl
        · simp only [Table.insert_of_not_contains hnew, List.map_append, List.map_cons, List.map_nil]
          refine List.nodup_append.mpr ⟨ha.nodup, by simp, ?_⟩
          rintro _ hname _ hadded rfl
          obtain ⟨e, he, rfl⟩ := List.mem_map.mp hname
          have hkey : e.1 = s.name := (ha.named e he).symm.trans (List.mem_singleton.mp hadded)
          have hold := Table.contains_of_mem (show (e.1, e.2) ∈ a.scopes from he)
          exact absurd (hkey ▸ hold) (by simp [hnew])

/-- Scopes are added one by one; those that cannot be added leave the analyser as it is. -/
theorem distinct_ofProgram (o : Options) (bindings : List Prebinding) (tracing : Bool) (p : Program) :
    (ofProgram o bindings tracing p).Distinct ∧ (ofProgram o bindings tracing p).options = o := by
  unfold ofProgram addProgram
  refine List.foldlRecOn p.scopes _
    (motive := fun acc : Analyzer × List Fault => acc.1.Distinct ∧ acc.1.options = o)
    ⟨⟨by simp, by simp⟩, rfl⟩ ?_
  intro acc hacc s _
  obtain ⟨h, ho⟩ := hacc
  simp only
  split
  · rename_i a' ha'
    obtain ⟨hdistinct, hoptions⟩ := distinct_addScope h ha'
    exact ⟨hdistinct, hoptions.trans ho⟩
  · exact ⟨h, ho⟩

end Analyzer

/-- Functions stand under their names. -/
def State.NamesFunctions (s : State) : Prop :=
  ∀ ⦃name : String⦄ ⦃f : Function Value⦄, s.function? name = some f → f.name = name

theorem State.Recalls.namesFunctions {s s' : State} (h : s.Recalls s') (hs : s.NamesFunctions) :
    s'.NamesFunctions := by
  intro name f hf
  rcases h.named hf with hf | hname
  · exact hs hf
  · exact hname

namespace Analyzer

theorem moves_registerKind (a : Analyzer) (kind : ScopeKind) (s : State) :
    s.Moves (a.registerKind kind s) ∧ (a.registerKind kind s).functions = s.functions := by
  unfold registerKind
  generalize a.scopes.filter (fun e => e.2.kind = kind) = scopes
  induction scopes generalizing s with
  | nil => exact ⟨.refl s, rfl⟩
  | cons e rest ih =>
    obtain ⟨hmoves, hfunctions⟩ := ih (s.registerScope e.2.name e.2.kind e.2.parent)
    refine ⟨(s.moves_registerScope _ _ _).trans hmoves, hfunctions.trans ?_⟩
    exact (s.widens_registerScope _ _ _).functions

theorem function?_registerScope (a : Analyzer) {s : State} {scope : Scope}
    (h : s.function? scope.name = none) (name : String) :
    (a.registerScope s scope).function? name =
      if scope.kind = .function ∧ name = scope.name then some (a.functionOf scope)
      else s.function? name := by
  unfold registerScope
  cases hkind : scope.kind with
  | function =>
    simp only [true_and]
    exact State.function?_registerFunction (f := a.functionOf scope) h name
  | classBody =>
    have hfunctions : ((State.setCurrent { s with flow := s.flow.build scope.name scope.body } scope.parent
        .root).registerClass scope.name scope.bases).functions = s.functions :=
      (State.widens_registerScope _ _ _ _).functions.trans (State.setCurrent_functions _ _ _)
    simp [State.function?, hfunctions]
  | module => simp [State.function?]

theorem callGraph_registerScope (a : Analyzer) (s : State) (scope : Scope) :
    (a.registerScope s scope).callGraph = s.callGraph := by
  unfold registerScope
  cases scope.kind with
  | function => rfl
  | classBody => exact ((State.moves_setCurrent _ _ _).trans (State.moves_registerClass _ _ _)).callGraph
  | module => rfl

theorem function?_registerScopes (a : Analyzer) {scopes : List (String × Scope)}
    (hnodup : (scopes.map (·.2.name)).Nodup) {s : State}
    (hnew : ∀ e ∈ scopes, s.function? e.2.name = none) (hs : s.NamesFunctions) :
    (scopes.foldl (fun s e => a.registerScope s e.2) s).NamesFunctions ∧
      (∀ name, name ∉ scopes.map (·.2.name) →
        (scopes.foldl (fun s e => a.registerScope s e.2) s).function? name = s.function? name) ∧
      ∀ e ∈ scopes, e.2.kind = .function →
        (scopes.foldl (fun s e => a.registerScope s e.2) s).function? e.2.name =
          some (a.functionOf e.2) := by
  induction scopes generalizing s with
  | nil => exact ⟨hs, fun _ _ => rfl, by simp⟩
  | cons e rest ih =>
    obtain ⟨hfirst, hrest⟩ := List.nodup_cons.mp hnodup
    have hget := a.function?_registerScope (hnew e List.mem_cons_self)
    have hnamed : (a.registerScope s e.2).NamesFunctions := by
      intro name f hf
      rw [hget] at hf
      split at hf
      · rename_i hname
        cases hf
        exact hname.2.symm
      · exact hs hf
    have hother : ∀ e' ∈ rest, (a.registerScope s e.2).function? e'.2.name = none := by
      intro e' he'
      have hne : e'.2.name ≠ e.2.name := fun heq => hfirst (List.mem_map.mpr ⟨e', he', heq⟩)
      rw [hget, if_neg fun h => hne h.2]
      exact hnew e' (List.mem_cons_of_mem _ he')
    -- The names are different, so what the first scope defines is not touched by the rest.
    obtain ⟨hnames, hsame, hknown⟩ := ih hrest hother hnamed
    refine ⟨hnames, ?_, ?_⟩
    · intro name hname
      rw [List.map_cons, List.mem_cons, not_or] at hname
      rw [List.foldl_cons, hsame name hname.2, hget, if_neg fun h => hname.1 h.2]
    · intro e' he' hkind
      rcases List.mem_cons.mp he' with rfl | he'
      · rw [List.foldl_cons, hsame _ hfirst, hget, if_pos ⟨hkind, rfl⟩]
      · exact hknown e' he' hkind

theorem callGraph_registerScopes (a : Analyzer) (scopes : List (String × Scope)) (s : State) :
    (scopes.foldl (fun s e => a.registerScope s e.2) s).callGraph = s.callGraph := by
  induction scopes generalizing s with
  | nil => rfl
  | cons e rest ih => exact (ih _).trans (a.callGraph_registerScope s e.2)

theorem moves_bindings {bindings : List Prebinding} {s s' : State}
    (h : bindings.foldlM (fun s b => (s.setCurrent b.scope .root).setVariableIn b.scope b.name b.value) s =
      .ok s') : s.Moves s' := by
  induction bindings generalizing s with
  | nil =>
    cases h
    exact .refl _
  | cons b rest ih =>
    rw [List.foldlM_cons] at h
    obtain ⟨t, ht, hrest⟩ := Except.bind_eq_ok.mp h
    have hset := (State.quiet_setIn ht).moves
    exact ((s.moves_setCurrent b.scope .root).trans hset).trans (ih hrest)

/-- What is known before anything is analysed. -/
structure Begins (a : Analyzer) (s : State) : Prop where
  callGraph : s.callGraph = .empty
  named : s.NamesFunctions
  known : ∀ {name : String} {scope : Scope}, a.scope? name = some scope → scope.kind = .function →
    s.function? name = some (a.functionOf scope)

theorem begins_startState {a : Analyzer} (ha : a.Distinct) {policy : Policy} {s : State}
    (h : a.startState policy = .ok s) : a.Begins s := by
  unfold startState at h
  simp only [List.foldl_cons, List.foldl_nil] at h
  have hbound := moves_bindings h
  generalize hkinds : a.registerKind .function
    (a.registerKind .classBody (a.registerKind .module (State.new (a.options.config policy)))) = s₁ at h hbound
  -- Registering scopes records no call, and no function is known before functions are registered.
  have hgraph : s₁.callGraph = .empty := by
    rw [← hkinds, (moves_registerKind _ _ _).1.callGraph, (moves_registerKind _ _ _).1.callGraph,
      (moves_registerKind _ _ _).1.callGraph]
    rfl
  have hnone : ∀ name, s₁.function? name = none := by
    intro name
    have hempty : s₁.functions = [] := by
      rw [← hkinds, (moves_registerKind _ _ _).2, (moves_registerKind _ _ _).2, (moves_registerKind _ _ _).2]
      rfl
    rw [State.function?, hempty]
    rfl
  have hnames : s₁.NamesFunctions := by
    intro name f hf
    simp [hnone] at hf
  obtain ⟨hnames', -, hknown⟩ := a.function?_registerScopes ha.nodup (fun e _ => hnone e.2.name) hnames
  refine ⟨?_, hbound.recalls.namesFunctions hnames', ?_⟩
  · exact hbound.callGraph.trans ((a.callGraph_registerScopes _ _).trans hgraph)
  · intro name scope hscope hkind
    have hmem := Table.mem_of_get? hscope
    have hname : scope.name = name := ha.named _ hmem
    exact hbound.recalls.kept (hname ▸ hknown _ hmem hkind)

end Analyzer

end AbstractFlow
