import AbstractFlow.Proofs.Analysis.StackBound

/-! # The contexts of an analysis

A state knows the contexts that it has seen. The one it stands in, those that it comes back to, the ends of all
calls and the contexts of all frames are among them, and each frame is there once. A context that is derived is
no longer than its bound, and it is the root if contexts do not count. So the same holds of all contexts that an
analysis ever sees.
-/
namespace AbstractFlow

namespace Context

theorem depth_push_le {c : Context} {k : Nat} (h : c.depth ≤ k) (elem : String) : (c.push elem k).depth ≤ k := by
  unfold push
  split
  · exact h
  · simp only [depth, List.length_drop]
    omega

end Context

/-- A context that options allow under a policy. -/
structure Options.Allows (o : Options) (policy : Policy) (c : Context) : Prop where
  depth : c.depth ≤ o.contextDepth.toNat
  root : policy = .insensitive → c = .root

theorem Options.allows_root (o : Options) (policy : Policy) : o.Allows policy .root :=
  ⟨Nat.zero_le _, fun _ => rfl⟩

theorem Options.Allows.derive {o : Options} {policy : Policy} {c d : Context} (h : o.Allows policy c)
    {site receiver : String} (hd : c.derive policy o.contextDepth site receiver = .ok d) : o.Allows policy d := by
  unfold Context.derive at hd
  split at hd
  · cases hd
    exact o.allows_root _
  · cases hd
    exact o.allows_root _
  · cases hd
  · rename_i hinsensitive _ _
    cases hd
    exact ⟨Context.depth_push_le h.depth _, fun hpolicy => absurd hpolicy hinsensitive⟩

namespace State

theorem frameKey_of_config {s s' : State} (h : s'.config = s.config) : s'.frameKey = s.frameKey := by
  funext scope c
  rw [frameKey, frameKey, h]

/-- All contexts that a state has to do with are among those that it has seen, and no frame is there twice. -/
structure Filed (o : Options) (policy : Policy) (s : State) : Prop where
  config : s.config = o.config policy
  seen : ∀ c ∈ s.contexts, o.Allows policy c
  here : s.context ∈ s.contexts
  stack : ∀ f ∈ s.frames, f.context ∈ s.contexts
  edges : ∀ e ∈ s.callGraph.edges, e.callerContext ∈ s.contexts ∧ e.calleeContext ∈ s.contexts
  nodup : s.memory.keys.Nodup
  known : ∀ {key : FrameKey}, s.memory.contains key = true →
    key.context ∈ s.contexts ∧ s.frameKey key.scope key.context = key

namespace Filed

variable {o : Options} {policy : Policy} {s s' : State} {c : Context}

theorem frameKey (h : s.Filed o policy) (hc : c ∈ s.contexts) (scope : String) :
    (s.frameKey scope c).context ∈ s.contexts ∧
      s.frameKey (s.frameKey scope c).scope (s.frameKey scope c).context = s.frameKey scope c := by
  unfold State.frameKey
  split
  · rename_i hpolicy
    rw [h.config] at hpolicy
    rw [(h.seen c hc).root hpolicy] at hc
    exact ⟨hc, rfl⟩
  · exact ⟨hc, rfl⟩

theorem quiet (h : s.Filed o policy) (hquiet : s.Quiet s') : s'.Filed o policy := by
  have hconfig : s'.config = s.config := (congrArg State.config hquiet.outline :)
  have hcontexts : s'.contexts = s.contexts := (congrArg State.contexts hquiet.outline :)
  have hcontext : s'.context = s.context := (congrArg State.context hquiet.outline :)
  refine ⟨hconfig.trans h.config, ?_, ?_, ?_, ?_, hquiet.files.nodup h.nodup, ?_⟩
  · rw [hcontexts]
    exact h.seen
  · rw [hcontexts, hcontext]
    exact h.here
  · rw [hcontexts, hquiet.frames]
    exact h.stack
  · rw [hcontexts, hquiet.callGraph]
    exact h.edges
  · intro key hkey
    rw [hcontexts, frameKey_of_config hconfig]
    rcases hquiet.files.known hkey with hkey | ⟨scope, rfl⟩
    · exact h.known hkey
    · exact h.frameKey h.here scope

theorem of_same (h : s.Filed o policy) (hconfig : s'.config = s.config) (hcontexts : s'.contexts = s.contexts)
    (hcontext : s'.context ∈ s.contexts) (hframes : s'.frames.map (·.context) = s.frames.map (·.context))
    (hgraph : s'.callGraph = s.callGraph) (hmemory : s'.memory = s.memory) : s'.Filed o policy := by
  refine ⟨hconfig.trans h.config, ?_, ?_, ?_, ?_, ?_, ?_⟩
  · rw [hcontexts]
    exact h.seen
  · rw [hcontexts]
    exact hcontext
  · rw [hcontexts]
    intro f hf
    obtain ⟨g, hg, heq⟩ := List.mem_map.mp (hframes ▸ List.mem_map_of_mem hf)
    rw [← heq]
    exact h.stack g hg
  · rw [hcontexts, hgraph]
    exact h.edges
  · rw [hmemory]
    exact h.nodup
  · intro key hkey
    rw [hcontexts, frameKey_of_config hconfig]
    exact h.known (hmemory ▸ hkey)

theorem noteContext (h : s.Filed o policy) (hc : o.Allows policy c) : (s.noteContext c).Filed o policy := by
  have hmoves := s.moves_noteContext c
  have hmem : ∀ {d}, d ∈ s.contexts → d ∈ (s.noteContext c).contexts :=
    fun hd => (s.mem_contexts_noteContext c).mpr (Or.inl hd)
  refine ⟨hmoves.config.trans h.config, ?_, ?_, ?_, ?_, ?_, ?_⟩
  · intro d hd
    rcases (s.mem_contexts_noteContext c).mp hd with hd | rfl
    · exact h.seen d hd
    · exact hc
  · rw [noteContext_context]
    exact hmem h.here
  · rw [hmoves.frames]
    exact fun f hf => hmem (h.stack f hf)
  · rw [hmoves.callGraph]
    exact fun e he => ⟨hmem (h.edges e he).1, hmem (h.edges e he).2⟩
  · rw [noteContext_memory]
    exact h.nodup
  · rw [noteContext_memory]
    intro key hkey
    rw [frameKey_of_config hmoves.config]
    exact ⟨hmem (h.known hkey).1, (h.known hkey).2⟩

theorem setCurrent (h : s.Filed o policy) (hc : o.Allows policy c) (name : String) :
    (s.setCurrent name c).Filed o policy := by
  have hnoted := h.noteContext hc
  have hmoves := s.moves_noteContext c
  -- The place is set first, and the context is made known then.
  have hcontexts : (s.setCurrent name c).contexts = (s.noteContext c).contexts := by
    unfold State.setCurrent State.noteContext
    dsimp only
    split <;> rfl
  apply hnoted.of_same
  · exact (s.moves_setCurrent name c).config.trans hmoves.config.symm
  · exact hcontexts
  · rw [setCurrent_context]
    exact (s.mem_contexts_noteContext c).mpr (Or.inr rfl)
  · rw [(s.moves_setCurrent name c).frames, hmoves.frames]
  · exact (s.moves_setCurrent name c).callGraph.trans hmoves.callGraph.symm
  · rw [setCurrent_memory, noteContext_memory]

theorem widens (h : s.Filed o policy) (hwidens : s.Widens s') (hmoves : s.Moves s') : s'.Filed o policy :=
  h.of_same hmoves.config hwidens.contexts (hwidens.context ▸ h.here) (by rw [hmoves.frames]) hmoves.callGraph
    hwidens.memory

theorem registerClass (h : s.Filed o policy) (name : String) (bases : List String) :
    (s.registerClass name bases).Filed o policy := by
  have hscoped := h.widens (s.widens_registerScope name .classBody s.scopeName)
    (s.moves_registerScope name .classBody s.scopeName)
  exact hscoped.of_same rfl rfl hscoped.here rfl rfl rfl

theorem withCallGraph (h : s.Filed o policy) {e : Edge} (hcaller : e.callerContext ∈ s.contexts)
    (hcallee : e.calleeContext ∈ s.contexts) : Filed o policy { s with callGraph := s.callGraph.add e } := by
  refine ⟨h.config, h.seen, h.here, h.stack, ?_, h.nodup, h.known⟩
  intro f hf
  dsimp only at hf ⊢
  rw [CallGraph.edges_add] at hf
  split at hf
  · exact h.edges f hf
  · rcases List.mem_append.mp hf with hf | hf
    · exact h.edges f hf
    · rw [List.mem_singleton.mp hf]
      exact ⟨hcaller, hcallee⟩

theorem mapTop (h : s.Filed o policy) {g : CallFrame → CallFrame} (hg : ∀ f, (g f).context = f.context) :
    (s.mapTop g).Filed o policy ∧ (s.mapTop g).contexts = s.contexts ∧ (s.mapTop g).config = s.config := by
  unfold State.mapTop
  split
  · exact ⟨h, rfl, rfl⟩
  · rename_i top rest hframes
    refine ⟨h.of_same rfl rfl h.here ?_ rfl rfl, rfl, rfl⟩
    rw [hframes, List.map_cons, List.map_cons, hg]

theorem set (h : s.Filed o policy) {key : FrameKey}
    (hkey : key.context ∈ s.contexts ∧ s.frameKey key.scope key.context = key) (name : String) (v : Value) :
    Filed o policy { s with memory := s.memory.set key name v } := by
  refine ⟨h.config, h.seen, h.here, h.stack, h.edges, Table.nodup_insert h.nodup _ _, ?_⟩
  intro key' hkey'
  rw [Memory.set, Table.contains_insert, Bool.or_eq_true, decide_eq_true_eq] at hkey'
  rcases hkey' with rfl | hkey'
  · exact hkey
  · exact h.known hkey'

theorem bindParameters (h : s.Filed o policy) {key : FrameKey}
    (hkey : key.context ∈ s.contexts ∧ s.frameKey key.scope key.context = key) (bindings : List (String × Value)) :
    (bindings.foldl (fun s b => s.bindParameter key b.1 b.2) s).Filed o policy := by
  induction bindings generalizing s with
  | nil => exact h
  | cons b rest ih =>
    obtain ⟨htop, hcontexts, hconfig⟩ := h.mapTop (g := fun top =>
      if Dict.contains top.saved b.1 then top
      else { top with saved := Dict.insert top.saved b.1 (Memory.get? s.memory key b.1) })
      (fun f => by split <;> rfl)
    have hkey' : key.context ∈ (s.bindParameter key b.1 b.2).contexts ∧
        (s.bindParameter key b.1 b.2).frameKey key.scope key.context = key := by
      simp only [bindParameter, State.frameKey, hcontexts, hconfig]
      exact hkey
    exact ih (htop.set hkey' b.1 b.2.orUnknown) hkey'

theorem pushCall (h : s.Filed o policy) (caller callee : String) (index : Int) (scope : Option String) :
    (s.pushCall caller callee index s.context scope).Filed o policy :=
  ⟨h.config, h.seen, h.here, List.forall_mem_cons.mpr ⟨h.here, h.stack⟩, h.edges, h.nodup, h.known⟩

theorem enterFunction (h : s.Filed o policy) {fn : Function Value} {args : List Value} {site : String}
    {receiver : Option Receiver} (henter : s.enterFunction fn args site receiver = .ok (c, s')) :
    s'.Filed o policy := by
  unfold State.enterFunction at henter
  obtain ⟨⟨c, t⟩, hcontext, henter⟩ := Except.bind_eq_ok.mp henter
  cases henter
  obtain ⟨hderive, rfl⟩ := createContext_eq_ok.mp hcontext
  rw [h.config] at hderive
  have hnoted := h.noteContext ((h.seen _ h.here).derive hderive)
  have hscoped := hnoted.widens (widens_registerScope _ fn.name .function ((s.noteContext c).global.getD ""))
    (moves_registerScope _ fn.name .function ((s.noteContext c).global.getD ""))
  generalize hregistered : (s.noteContext c).registerScope fn.name .function ((s.noteContext c).global.getD "") = t
    at hscoped ⊢
  have hseen : c ∈ t.contexts := by
    rw [← hregistered, (widens_registerScope _ _ _ _).contexts]
    exact (s.mem_contexts_noteContext c).mpr (Or.inr rfl)
  have hplaced : Filed o policy { t with scope := some fn.name, context := c } :=
    hscoped.of_same rfl rfl hseen rfl rfl rfl
  obtain ⟨htop, hcontexts, hconfig⟩ := hplaced.mapTop
    (g := fun top => { top with calleeKey := State.frameKey t fn.name c }) fun _ => rfl
  obtain ⟨hknown, hkey⟩ := hscoped.frameKey hseen fn.name
  apply htop.bindParameters
  rw [frameKey_of_config hconfig, hcontexts]
  exact ⟨hknown, hkey⟩

theorem restore (h : s.Filed o policy) (key : FrameKey) (saved : Dict (Option Value))
    (hkept : saved.any (·.2.isSome) = true → s.memory.contains key = true) :
    Filed o policy { s with
      memory := saved.foldl
        (fun (m : Memory) e => match e.2 with
          | some v => m.set key e.1 v
          | none => m)
        s.memory } := by
  induction saved generalizing s with
  | nil => exact h
  | cons e rest ih =>
    rw [List.foldl_cons]
    cases hvalue : e.2 with
    | none => exact ih h fun hrest => hkept (by rw [List.any_cons, hrest, Bool.or_true])
    | some v =>
      have hkey := hkept (by rw [List.any_cons, hvalue]; rfl)
      exact ih (h.set (h.known hkey) e.1 v) fun _ => Memory.contains_set hkey e.1 v

theorem exitFunction (h : s.Filed o policy) {value : Option Value} {f : CallFrame}
    (hexit : s.exitFunction value = .ok (f, s')) : s'.Filed o policy := by
  unfold State.exitFunction at hexit
  split at hexit
  · cases hexit
  · rename_i top rest hframes
    split at hexit
    · cases hexit
    · rename_i hkept
      cases hexit
      have hstack := h.stack
      rw [hframes] at hstack
      obtain ⟨htop, hrest⟩ := List.forall_mem_cons.mp hstack
      have hrestored := h.restore f.calleeKey f.saved fun hany => by
        simpa [hany] using hkept
      exact ⟨h.config, h.seen, htop, hrest, h.edges, hrestored.nodup, hrestored.known⟩

end Filed

/-! ## The listing of frames -/

theorem perm_placeKey (key : FrameKey) (keys : List FrameKey) : (placeKey key keys).Perm (key :: keys) := by
  induction keys with
  | nil => exact .refl _
  | cons x rest ih =>
    unfold placeKey
    split
    · exact (ih.cons x).trans (.swap key x rest)
    · exact .refl _

theorem perm_foldr_placeKey (keys : List FrameKey) : (keys.foldr placeKey []).Perm keys := by
  induction keys with
  | nil => exact .refl _
  | cons key rest ih => exact (perm_placeKey key _).trans (ih.cons key)

variable {o : Options} {policy : Policy} {s : State}

/-- No context in the listing stands for one that was never seen. -/
theorem Filed.perm_frameKeys (h : s.Filed o policy) :
    s.frameKeys.Perm ((s.memory.filter fun e => !e.2.isEmpty).map (·.1)) := by
  have hkeys : ((s.memory.filter fun e => !e.2.isEmpty).map fun e =>
      if s.contexts.contains e.1.context then e.1 else { e.1 with context := .root }) =
      (s.memory.filter fun e => !e.2.isEmpty).map (·.1) := by
    refine List.map_congr_left fun e he => if_pos ?_
    exact List.contains_iff_mem.mpr (h.known (Table.contains_of_mem (List.mem_filter.mp he).1)).1
  unfold frameKeys
  rw [hkeys]
  exact perm_foldr_placeKey _

theorem Filed.nodup_frameKeys (h : s.Filed o policy) : s.frameKeys.Nodup :=
  h.perm_frameKeys.nodup_iff.mpr (h.nodup.sublist (List.filter_sublist.map _))

theorem Filed.mem_frameKeys (h : s.Filed o policy) {key : FrameKey} :
    key ∈ s.frameKeys ↔ s.memory.frame key ≠ [] := by
  rw [h.perm_frameKeys.mem_iff]
  constructor
  · intro hkey
    obtain ⟨e, he, rfl⟩ := List.mem_map.mp hkey
    obtain ⟨hmem, hbinds⟩ := List.mem_filter.mp he
    rw [Memory.frame, Table.get?_of_mem h.nodup hmem]
    simpa using hbinds
  · intro hframe
    unfold Memory.frame at hframe
    cases hget : Table.get? s.memory key with
    | none => simp [hget] at hframe
    | some frame =>
      rw [hget, Option.getD_some] at hframe
      exact List.mem_map.mpr ⟨(key, frame), List.mem_filter.mpr ⟨Table.mem_of_get? hget, by simpa using hframe⟩, rfl⟩

theorem Filed.known_of_mem_frameKeys (h : s.Filed o policy) {key : FrameKey} (hkey : key ∈ s.frameKeys) :
    key.context ∈ s.contexts ∧ s.frameKey key.scope key.context = key := by
  obtain ⟨e, he, rfl⟩ := List.mem_map.mp (h.perm_frameKeys.mem_iff.mp hkey)
  exact h.known (Table.contains_of_mem (List.mem_filter.mp he).1)

end State

namespace Analyzer

variable {σ : Type} {a : Analyzer} {policy : Policy} {r r' : Run σ}

/-- The contexts of a run are filed, and the contexts of callers that it may come back to are allowed. -/
structure Files (a : Analyzer) (policy : Policy) (r : Run σ) : Prop where
  state : r.state.Filed a.options policy
  calls : ∀ record ∈ r.calls, a.options.Allows policy record.edge.callerContext

theorem Files.quiet (h : a.Files policy r) (hquiet : r.Quiet r') : a.Files policy r' :=
  ⟨h.state.quiet hquiet.state, hquiet.calls ▸ h.calls⟩

theorem state_record {s : Step} {c : Call} {fn : Function Value} {receiver : Option Receiver} {constructs : Bool}
    {target : Context} (h : r.record s c fn receiver constructs = .ok (target, r')) :
    r'.state = { (((r.state.noteContext target).noteContext r.state.context).noteContext target) with
      callGraph := r.state.callGraph.add (r.edgeOf s c fn target) } := by
  unfold Run.record at h
  obtain ⟨⟨target', t⟩, hcontext, h⟩ := Except.bind_eq_ok.mp h
  obtain ⟨r₁, hregister, h⟩ := Except.bind_eq_ok.mp h
  cases h
  obtain ⟨-, rfl⟩ := State.createContext_eq_ok.mp hcontext
  have hgraph := ((r.state.moves_noteContext target).trans
    (State.moves_noteContext _ r.state.context)).trans (State.moves_noteContext _ target) |>.callGraph
  unfold Run.registerCall State.registerCall at hregister
  obtain ⟨⟨e, t'⟩, he, hregister⟩ := Except.bind_eq_ok.mp hregister
  cases he
  simp only [State.noteContext_context, Option.getD_none] at hregister hgraph ⊢
  split at hregister <;> cases hregister <;> simp only [hgraph, Run.edgeOf]

theorem Files.record (h : a.Files policy r) {s : Step} {c : Call} {fn : Function Value}
    {receiver : Option Receiver} {constructs : Bool} {target : Context}
    (hrecord : r.record s c fn receiver constructs = .ok (target, r')) : a.Files policy r' := by
  have hderive := Run.target_record hrecord
  rw [h.state.config] at hderive
  have hallowed := h.state.seen _ h.state.here
  have htarget := hallowed.derive hderive
  have hnoted := ((h.state.noteContext htarget).noteContext hallowed).noteContext htarget
  have hmem : ∀ d, d ∈ r.state.contexts ∨ d = target →
      d ∈ (((r.state.noteContext target).noteContext r.state.context).noteContext target).contexts := by
    intro d hd
    simp only [State.mem_contexts_noteContext]
    tauto
  have hgraph : (((r.state.noteContext target).noteContext r.state.context).noteContext target).callGraph =
      r.state.callGraph :=
    (((r.state.moves_noteContext target).trans (State.moves_noteContext _ _)).trans
      (State.moves_noteContext _ _)).callGraph
  have hfiled := hnoted.withCallGraph (e := r.edgeOf s c fn target) (hmem _ (Or.inl h.state.here))
    (hmem target (Or.inr rfl))
  rw [hgraph, ← state_record hrecord] at hfiled
  refine ⟨hfiled, ?_⟩
  obtain ⟨-, -, -, -, -, -, -, hcalls⟩ := Run.record_spec hrecord
  rcases hcalls with hcalls | hcalls
  · rw [hcalls]
    exact h.calls
  · rw [hcalls]
    exact List.forall_mem_append.mpr ⟨h.calls, List.forall_mem_singleton.mpr hallowed⟩

theorem Files.enter (h : a.Files policy r) {fn : Function Value} {args : List Value} {receiver : Option Receiver}
    {caller : String} {index : Int} (henter : r.enter a fn args receiver caller index = .ok r') :
    a.Files policy r' := by
  obtain ⟨d, hentered⟩ := Run.enterFunction_of_enter henter
  obtain ⟨-, hcalls, -⟩ := Run.ledger_enter henter
  exact ⟨(h.state.pushCall caller fn.name index none).enterFunction hentered, hcalls ▸ h.calls⟩

/-- Contexts as a guide of an analysis. -/
def contextGuide (a : Analyzer) (policy : Policy) (σ : Type) : Guide a σ where
  V _ := True
  U _ := True
  C := a.options.Allows policy
  J _ r := a.Files policy r
  Fits _ _ _ := True
  E v := v = .endless

theorem lawful_contextGuide (a : Analyzer) (policy : Policy) (σ : Type) : (a.contextGuide policy σ).Lawful where
  admits := a.admits_true
  quiet h hquiet := h.quiet hquiet
  books h hstate hcalls _ := ⟨hstate ▸ h.state, hcalls ▸ h.calls⟩
  flows h _ := ⟨h.state.of_same rfl rfl h.state.here rfl rfl rfl, h.calls⟩
  returns {h r} hr v := by
    have hframes := State.map_setReturn (g := CallFrame.context) (fun _ _ => rfl) r.state v
    refine ⟨?_, hr.calls⟩
    revert hframes
    unfold State.setReturn
    split <;> exact fun hframes => hr.state.of_same rfl rfl hr.state.here hframes rfl rfl
  raises {h r} hr v := by
    have hframes := State.map_addException (g := CallFrame.context) (fun _ _ => rfl) r.state v
    refine ⟨?_, hr.calls⟩
    revert hframes
    unfold State.addException
    split <;> exact fun hframes => hr.state.of_same rfl rfl hr.state.here hframes rfl rfl
  registers h name bases := ⟨h.state.registerClass name _, h.calls⟩
  places h hc name := ⟨h.state.setCurrent hc name, h.calls⟩
  root := a.options.allows_root policy
  here h := h.state.seen _ h.state.here
  callers h := h.calls
  records h _ _ _ hrecord := h.record hrecord
  enters h _ _ _ henter := h.enter henter
  pushes h _ name := ⟨h.state.pushCall "" name 0 _, h.calls⟩
  observes h _ _ := h
  leaves {h r r' key v f s m} hr _ _ hexit hquiet _ _ :=
    Files.quiet (r := { r with state := s }) ⟨hr.state.exitFunction hexit, hr.calls⟩ hquiet
  fitsCall _ _ _ := trivial
  fitsClass _ _ _ := trivial
  fitsFirst _ := ⟨trivial, trivial⟩
  exhausted _ := rfl

section Start

variable {s s' : State}

theorem filed_new (o : Options) (policy : Policy) : (State.new (o.config policy)).Filed o policy where
  config := rfl
  seen _ hc := List.mem_singleton.mp hc ▸ o.allows_root policy
  here := List.mem_singleton_self _
  stack _ hf := absurd hf List.not_mem_nil
  edges _ he := absurd he List.not_mem_nil
  nodup := List.nodup_nil
  known hkey := Bool.noConfusion hkey

theorem filed_registerKind (h : s.Filed a.options policy) (kind : ScopeKind) :
    (a.registerKind kind s).Filed a.options policy :=
  List.foldlRecOn _ _ h fun s hs _ _ => hs.widens (s.widens_registerScope _ _ _) (s.moves_registerScope _ _ _)

theorem filed_registerScope (h : s.Filed a.options policy) (scope : Scope) :
    (a.registerScope s scope).Filed a.options policy := by
  have hbuilt : State.Filed a.options policy { s with flow := s.flow.build scope.name scope.body } :=
    h.of_same rfl rfl h.here rfl rfl rfl
  unfold registerScope
  cases scope.kind with
  | function => exact hbuilt.of_same rfl rfl hbuilt.here rfl rfl rfl
  | classBody => exact (hbuilt.setCurrent (a.options.allows_root policy) scope.parent).registerClass _ _
  | module => exact hbuilt

theorem filed_bindings {o : Options} {bindings : List Prebinding} (h : s.Filed o policy)
    (hbound : bindings.foldlM (fun s b => (s.setCurrent b.scope .root).setVariableIn b.scope b.name b.value) s =
      .ok s') : s'.Filed o policy := by
  induction bindings generalizing s with
  | nil =>
    cases hbound
    exact h
  | cons b rest ih =>
    rw [List.foldlM_cons] at hbound
    obtain ⟨t, ht, hrest⟩ := Except.bind_eq_ok.mp hbound
    exact ih ((h.setCurrent (o.allows_root policy) b.scope).quiet (State.quiet_setIn ht)) hrest

theorem filed_startState (h : a.startState policy = .ok s) : s.Filed a.options policy := by
  unfold startState at h
  simp only [List.foldl_cons, List.foldl_nil] at h
  have hkinds := filed_registerKind (filed_registerKind (filed_registerKind (filed_new a.options policy) .module)
    .classBody) .function
  have hscopes := List.foldlRecOn a.scopes (fun s e => a.registerScope s e.2) hkinds
    fun s hs e _ => filed_registerScope hs e.2
  exact filed_bindings hscopes h

end Start

theorem files_analysis (ha : a.Distinct) (hpolicy : a.options.validate = .ok policy)
    {oracle : Option (Oracle σ)} {start : σ} {r₀ : Run σ} (hstarted : a.started oracle start = some r₀)
    (bound : Nat) :
    Follows (a.contextGuide policy σ).Holds (fun v => v = .endless ∨ v = .endless) []
      (a.momentsWith bound σ oracle start) (a.explore r₀ >>= fun r => Run.solve a bound r)
      (a.contextGuide policy σ).Idle := by
  have hidle : (a.contextGuide policy σ).Idle [] r₀ := by
    refine Guide.idle_started a.admits_true ha (fun _ _ => trivial) says_true hstarted fun _ _ hcalls _ => ?_
    obtain ⟨policy', state, hpolicy', hstate, rfl⟩ := started_eq_some hstarted
    cases hpolicy.symm.trans hpolicy'
    exact ⟨filed_startState hstate, by simp⟩
  unfold momentsWith
  rw [hstarted]
  exact hidle.analysis (a.lawful_contextGuide policy σ) ha (Options.recursion_of_validate hpolicy) bound

/-- The contexts of a result are filed, under the policy that the options name. -/
theorem filed_analyze {o : Options} (hpolicy : o.validate = .ok policy) (bindings : List Prebinding)
    (tracing : Bool) (p : Program) {oracle : Option (Oracle σ)} {start : σ} {res : Result σ}
    (h : (ofProgram o bindings tracing p).analyze none oracle start = .ok res) : res.state.Filed o policy := by
  obtain ⟨ha, hoptions⟩ := distinct_ofProgram o bindings tracing p
  generalize ofProgram o bindings tracing p = a at *
  subst hoptions
  obtain ⟨τ, oracle', start', r₀, r, r', hstarted, hexplore, hsolve, hstate, -⟩ := exists_solved h
  have hdone := (files_analysis ha hpolicy hstarted callBound).done r'
    (Except.bind_eq_ok.mpr ⟨r, hexplore, hsolve⟩)
  rw [hstate]
  exact (hdone.around "").keeps.state

end Analyzer

end AbstractFlow
