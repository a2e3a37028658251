import AbstractFlow.Proofs.Analysis.Beginning
import AbstractFlow.Proofs.Analysis.Upkeep

/-! # The outset of an analysis

Before anything is analysed, all scopes are registered with their control flow, nothing is on the call stack
and nothing waits. The values are those of the functions, of the classes and of the variables that are bound
before. So the conditions of an analysis hold at its start.
-/
namespace AbstractFlow

/-- A state in which nothing was analysed. -/
structure State.Fresh (s : State) : Prop where
  frames : s.frames = []
  queue : s.flow.queue = []
  outer : s.flow.outer = []
  summaries : s.summaries = []
  callGraph : s.callGraph = .empty
  root : s.context = .root

theorem State.Fresh.moves {s s' : State} (h : s.Fresh) (hmoves : s.Moves s') (hflow : s'.flow = s.flow)
    (hroot : s'.context = .root) : s'.Fresh := by
  have hsummaries : s'.summaries = s.summaries := (congrArg State.summaries hmoves.core :)
  exact ⟨hmoves.frames.trans h.frames, hflow ▸ h.queue, hflow ▸ h.outer, hsummaries.trans h.summaries,
    hmoves.callGraph.trans h.callGraph, hroot⟩

namespace Analyzer

variable {a : Analyzer} {V : Value → Prop} {U : HeapObject → Prop} {s : State}

theorem Distinct.keys (ha : a.Distinct) : (a.scopes.map (·.1)).Nodup := by
  rw [← List.map_congr_left ha.named]
  exact ha.nodup

theorem Distinct.scope?_of_mem (ha : a.Distinct) {e : String × Scope} (he : e ∈ a.scopes) :
    a.scope? e.2.name = some e.2 := by
  rw [ha.named e he]
  exact Table.get?_of_mem ha.keys he

theorem bindings_ofProgram (o : Options) (bindings : List Prebinding) (tracing : Bool) (p : Program) :
    (ofProgram o bindings tracing p).bindings = bindings := by
  unfold ofProgram addProgram
  refine List.foldlRecOn (motive := fun acc : Analyzer × List Fault => acc.1.bindings = bindings) _ _ rfl
    fun acc hacc s _ => ?_
  dsimp only
  split
  · rename_i a' hadded
    unfold addScope at hadded
    split at hadded
    · cases hadded
    · split at hadded
      · cases hadded
      · split at hadded <;> cases hadded
        exact hacc
  · exact hacc

/-- What the start of an analysis builds up. -/
structure Starts (V : Value → Prop) (config : Config) (s : State) : Prop where
  fresh : s.Fresh
  holds : s.Holds V
  config : s.config = config

variable {config : Config}

theorem Starts.registerScope (h : Starts V config s) {name : String} {kind : ScopeKind}
    (hname : kind = .classBody → ClassName V name) (parent : String) :
    Starts V config (s.registerScope name kind parent) := by
  have hmoves := s.moves_registerScope name kind parent
  have hwidens := s.widens_registerScope name kind parent
  exact ⟨h.fresh.moves hmoves hwidens.flow (hwidens.context.trans h.fresh.root), h.holds.registerScope hname parent,
    hmoves.config.trans h.config⟩

theorem Starts.setCurrent (h : Starts V config s) (name : String) : Starts V config (s.setCurrent name .root) :=
  have hmoves := s.moves_setCurrent name .root
  ⟨h.fresh.moves hmoves (State.setCurrent_flow _ _ _) (State.setCurrent_context _ _ _), h.holds.setCurrent name .root,
    hmoves.config.trans h.config⟩

theorem Starts.registerKind (ha : a.Distinct) (hV : a.Admits V U) (h : Starts V config s) (kind : ScopeKind) :
    Starts V config (a.registerKind kind s) := by
  unfold Analyzer.registerKind
  refine List.foldlRecOn _ _ h fun s hs e he => hs.registerScope (fun hclass => ?_) _
  have hmem : e ∈ a.scopes := (List.mem_filter.mp he).1
  exact hV.classScopes (ha.scope?_of_mem hmem) hclass

theorem Starts.registered (hV : a.Admits V U) (h : Starts V config s) {scope : Scope}
    (hscope : a.scope? scope.name = some scope) : Starts V config (a.registerScope s scope) := by
  have hbuilt : Starts V config { s with flow := s.flow.build scope.name scope.body } := by
    refine ⟨⟨h.fresh.frames, h.fresh.queue, h.fresh.outer, h.fresh.summaries, h.fresh.callGraph, h.fresh.root⟩,
      h.holds.withFlow h.holds.snapshots (.of_idle h.fresh.queue h.fresh.outer), h.config⟩
  unfold Analyzer.registerScope
  cases hkind : scope.kind with
  | function =>
    have hf := hV.functionScopes hscope hkind
    exact ⟨⟨hbuilt.fresh.frames, hbuilt.fresh.queue, hbuilt.fresh.outer, hbuilt.fresh.summaries,
      hbuilt.fresh.callGraph, hbuilt.fresh.root⟩, hbuilt.holds.registerFunction hV.toClosed hf, hbuilt.config⟩
  | classBody =>
    have hplaced := hbuilt.setCurrent scope.parent
    have hname := hV.classScopes hscope hkind
    have hmoves := State.moves_registerClass (State.setCurrent
      { s with flow := s.flow.build scope.name scope.body } scope.parent .root) scope.name scope.bases
    have hwidens := State.widens_registerScope (State.setCurrent
      { s with flow := s.flow.build scope.name scope.body } scope.parent .root) scope.name .classBody
      (State.setCurrent { s with flow := s.flow.build scope.name scope.body } scope.parent .root).scopeName
    exact ⟨hplaced.fresh.moves hmoves hwidens.flow (hwidens.context.trans hplaced.fresh.root),
      hplaced.holds.registerClass hV.toClosed hname scope.bases, hmoves.config.trans hplaced.config⟩
  | module => exact hbuilt

theorem flow_registerScope (a : Analyzer) (s : State) (scope : Scope) :
    (a.registerScope s scope).flow = s.flow.build scope.name scope.body := by
  unfold Analyzer.registerScope
  cases scope.kind with
  | classBody => exact (State.widens_registerScope _ _ _ _).flow.trans (State.setCurrent_flow _ _ _)
  | _ => rfl

theorem graph?_registerScopes (a : Analyzer) {scopes : Table String Scope} (hkeys : (scopes.map (·.1)).Nodup)
    (hnamed : ∀ e ∈ scopes, e.2.name = e.1) (s : State) (name : String) :
    (scopes.foldl (fun s e => a.registerScope s e.2) s).flow.graph? name =
      ((scopes.get? name).map fun scope => .build name scope.body).or (s.flow.graph? name) := by
  induction scopes generalizing s with
  | nil => rfl
  | cons e scopes ih =>
    obtain ⟨hfirst, hrest⟩ := List.nodup_cons.mp hkeys
    obtain ⟨hname, hnamed⟩ := List.forall_mem_cons.mp hnamed
    rw [List.foldl_cons, ih hrest hnamed, flow_registerScope, hname]
    have hbuilt : (s.flow.build e.1 e.2.body).graph? name =
        if e.1 = name then some (.build e.1 e.2.body) else s.flow.graph? name := Table.get?_insert _ _ _ _
    rw [hbuilt]
    by_cases heq : e.1 = name
    · have hnone : Table.get? scopes name = none := by
        cases hget : Table.get? scopes name with
        | none => rfl
        | some scope => exact absurd (List.mem_map.mpr ⟨_, Table.mem_of_get? hget, heq.symm⟩) hfirst
      simp [Table.get?, heq, hnone]
    · simp [Table.get?, heq]

theorem contains_registerKind (a : Analyzer) (kind : ScopeKind) (s : State) :
    (∀ name, s.scopes.contains name = true → (a.registerKind kind s).scopes.contains name = true) ∧
      ∀ e ∈ a.scopes, e.2.kind = kind → (a.registerKind kind s).scopes.contains e.2.name = true := by
  have hfold : ∀ (scopes : List (String × Scope)) (s : State),
      (∀ name, s.scopes.contains name = true →
        (scopes.foldl (fun s e => s.registerScope e.2.name e.2.kind e.2.parent) s).scopes.contains name = true) ∧
      ∀ e ∈ scopes,
        (scopes.foldl (fun s e => s.registerScope e.2.name e.2.kind e.2.parent) s).scopes.contains e.2.name = true := by
    intro scopes
    induction scopes with
    | nil => exact fun s => ⟨fun _ hname => hname, by simp⟩
    | cons e scopes ih =>
      intro s
      obtain ⟨hkept, hknown⟩ := ih (s.registerScope e.2.name e.2.kind e.2.parent)
      refine ⟨fun name hname => hkept name ((s.widens_registerScope _ _ _).scopes name hname), ?_⟩
      exact List.forall_mem_cons.mpr ⟨hkept _ (s.contains_registerScope _ _ _), hknown⟩
  obtain ⟨hkept, hknown⟩ := hfold (a.scopes.filter fun e => e.2.kind = kind) s
  refine ⟨hkept, fun e he hkind => hknown e (List.mem_filter.mpr ⟨he, ?_⟩)⟩
  simpa using hkind

theorem contains_registerScopes (a : Analyzer) (scopes : List (String × Scope)) (s : State) {name : String}
    (hname : s.scopes.contains name = true) :
    (scopes.foldl (fun s e => a.registerScope s e.2) s).scopes.contains name = true := by
  induction scopes generalizing s with
  | nil => exact hname
  | cons e scopes ih =>
    refine ih (a.registerScope s e.2) ?_
    unfold Analyzer.registerScope
    cases e.2.kind with
    | classBody =>
      refine (State.widens_registerScope _ _ _ _).scopes name ?_
      rw [State.scopes_setCurrent]
      exact hname
    | _ => exact hname

theorem Starts.bindings {bindings : List Prebinding} (hvalues : ∀ b ∈ bindings, V b.value) {s' : State}
    (h : Starts V config s)
    (hbound : bindings.foldlM (fun s b => (s.setCurrent b.scope .root).setVariableIn b.scope b.name b.value) s =
      .ok s') : Starts V config s' ∧ s'.scopes = s.scopes ∧ s'.flow = s.flow := by
  induction bindings generalizing s with
  | nil =>
    cases hbound
    exact ⟨h, rfl, rfl⟩
  | cons b rest ih =>
    obtain ⟨hb, hvalues⟩ := List.forall_mem_cons.mp hvalues
    rw [List.foldlM_cons] at hbound
    obtain ⟨t, ht, hrest⟩ := Except.bind_eq_ok.mp hbound
    have hplaced := h.setCurrent b.scope
    have hquiet := State.quiet_setIn ht
    have houtline : t.scopes = (s.setCurrent b.scope .root).scopes ∧ t.context = (s.setCurrent b.scope .root).context ∧
        t.flow = (s.setCurrent b.scope .root).flow := by
      unfold State.setVariableIn State.setIn at ht
      split at ht <;> cases ht
      exact ⟨rfl, rfl, rfl⟩
    obtain ⟨hscopes, hcontext, hflow⟩ := houtline
    have hset : Starts V config t :=
      ⟨hplaced.fresh.moves hquiet.moves hflow (hcontext.trans hplaced.fresh.root), hplaced.holds.setIn hb ht,
        hquiet.moves.config.trans hplaced.config⟩
    obtain ⟨hstarts, hscopes', hflow'⟩ := ih hvalues hset hrest
    exact ⟨hstarts, hscopes'.trans (hscopes.trans (State.scopes_setCurrent _ _ _)),
      hflow'.trans (hflow.trans (State.setCurrent_flow _ _ _))⟩

theorem starts_new (hV : Value.Closed V) (config : Config) : Starts V config (State.new config) := by
  refine ⟨⟨rfl, rfl, rfl, rfl, rfl, rfl⟩, ?_, rfl⟩
  refine ⟨?_, ?_, ?_, ⟨?_, ?_⟩, ?_, ?_, ?_, ?_, hV.nil, ?_, ?_, .of_idle rfl rfl⟩ <;>
    simp [State.new, Memory.Holds, Hierarchy.empty, Tracker.empty]

theorem sound_startState {σ : Type} (ha : a.Distinct) (hV : a.Admits V U)
    (hvalues : ∀ b ∈ a.bindings, V b.value) {policy : Policy} (hpolicy : ∀ name, policy ≠ .other name)
    (h : a.startState policy = .ok s) {oracle : Guarded σ} (horacle : oracle.Says U) :
    Run.Sound a V U { state := s, oracle } ∧ s.Fresh ∧ s.config = a.options.config policy := by
  unfold startState at h
  simp only [List.foldl_cons, List.foldl_nil] at h
  generalize hkinds : a.registerKind .function
    (a.registerKind .classBody (a.registerKind .module (State.new (a.options.config policy)))) = s₁ at h
  have hstarts : Starts V (a.options.config policy) s₁ := by
    rw [← hkinds]
    exact (((starts_new hV.toClosed _).registerKind ha hV _).registerKind ha hV _).registerKind ha hV _
  -- Scopes are registered kind by kind: each becomes known with its kind and stays known with the next ones.
  have hknown : ∀ e ∈ a.scopes, s₁.scopes.contains e.2.name = true := by
    intro e he
    rw [← hkinds]
    have hmodule := (a.contains_registerKind .module (State.new (a.options.config policy))).2 e he
    cases hkind : e.2.kind with
    | module => exact (a.contains_registerKind _ _).1 _ ((a.contains_registerKind _ _).1 _ (hmodule hkind))
    | classBody => exact (a.contains_registerKind _ _).1 _ ((a.contains_registerKind _ _).2 e he hkind)
    | function => exact (a.contains_registerKind _ _).2 e he hkind
  have hregistered : Starts V (a.options.config policy) (a.scopes.foldl (fun s e => a.registerScope s e.2) s₁) :=
    List.foldlRecOn _ _ hstarts fun s hs e he => hs.registered hV (ha.scope?_of_mem he)
  obtain ⟨hbound, hscopes, hflow⟩ := hregistered.bindings hvalues h
  refine ⟨⟨hbound.holds, fun name hname => ?_, fun name => ?_, ?_, horacle, by simp, by simp⟩, hbound.fresh,
    hbound.config⟩
  · obtain ⟨scope, hscope⟩ := Option.isSome_iff_exists.mp hname
    have hmem := Table.mem_of_get? hscope
    have hcontained := hknown _ hmem
    rw [ha.named _ hmem] at hcontained
    rw [hscopes]
    exact a.contains_registerScopes _ _ hcontained
  · rw [hbound.config]
    exact hpolicy name
  · intro name
    rw [hflow, a.graph?_registerScopes ha.keys ha.named]
    have hempty : s₁.flow.graph? name = none := by
      have hgraphs : ∀ kind s, (a.registerKind kind s).flow.graphs = s.flow.graphs := fun kind s =>
        (a.moves_registerKind kind s).1.graphs
      rw [Tracker.graph?, ← hkinds, hgraphs, hgraphs, hgraphs]
      rfl
    rw [hempty, Option.or_none]
    rfl

end Analyzer

end AbstractFlow
