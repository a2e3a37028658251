import AbstractFlow.Proofs.CallGraph
import AbstractFlow.Analysis.Analyzer
import AbstractFlow.Proofs.Analysis.CallStack
import AbstractFlow.Proofs.State.Scopes

/-! # The ledger of calls

As long as callees are not analysed where they are called, the analysis of bodies only adds to the
ledger of calls: every new edge of the call graph comes with a record of the call, and the record waits
in the queue. What a function is known as never changes either.
-/
namespace AbstractFlow

def CallRecord.Derived (config : Config) (record : CallRecord) : Prop :=
  record.edge.callerContext.derive config.policy config.depth record.edge.callSite
    ((record.receiver.map (·.id)).getD "") = .ok record.edge.calleeContext

/-- Calls that wait to be made, by their places in the ledger. -/
def PendingCall.made (indices : List Nat) : List PendingCall := indices.map fun i => ⟨i, false⟩

namespace Run

variable {σ : Type} {a : Analyzer} {body : BodyAnalysis σ}

/-- Calls are recorded, and what was recorded before stays. -/
structure Records (new : List CallRecord) (r r' : Run σ) : Prop where
  config : r'.state.config = r.state.config
  recalls : r.state.Recalls r'.state
  memo : r'.memo = r.memo
  calls : r'.calls = r.calls ++ new
  edges : r'.state.callGraph.edges = r.state.callGraph.edges ++ new.map (·.edge)
  queue : r'.queue = r.queue ++ PendingCall.made (List.range' r.calls.length new.length)
  derived : ∀ record ∈ new, record.Derived r.state.config
  called : ∀ record ∈ new, ∃ c, record.edge.stmt = some (.call c)

def Grows (r r' : Run σ) : Prop := ∃ new, Records new r r'

theorem Grows.of_same {r r' : Run σ} (hconfig : r'.state.config = r.state.config)
    (hrecalls : r.state.Recalls r'.state) (hgraph : r'.state.callGraph = r.state.callGraph)
    (hmemo : r'.memo = r.memo) (hcalls : r'.calls = r.calls) (hqueue : r'.queue = r.queue) : r.Grows r' := by
  refine ⟨[], hconfig, hrecalls, hmemo, ?_, ?_, ?_, ?_, ?_⟩
  · rw [hcalls, List.append_nil]
  · rw [hgraph, List.map_nil, List.append_nil]
  · rw [hqueue]
    simp [PendingCall.made]
  · simp
  · simp

theorem Grows.of_moves {r r' : Run σ} (h : r.state.Moves r'.state) (hmemo : r'.memo = r.memo)
    (hcalls : r'.calls = r.calls) (hqueue : r'.queue = r.queue) : r.Grows r' :=
  .of_same h.config h.recalls h.callGraph hmemo hcalls hqueue

theorem Quiet.grows {r r' : Run σ} (h : r.Quiet r') : r.Grows r' :=
  .of_moves h.state.moves h.memo h.calls h.queue

theorem Grows.trans {r r' r'' : Run σ} (h : r.Grows r') (h' : r'.Grows r'') : r.Grows r'' := by
  obtain ⟨new, h⟩ := h
  obtain ⟨new', h'⟩ := h'
  refine ⟨new ++ new', h'.config.trans h.config, h.recalls.trans h'.recalls, h'.memo.trans h.memo, ?_, ?_,
    ?_, ?_, ?_⟩
  · rw [h'.calls, h.calls, List.append_assoc]
  · rw [h'.edges, h.edges, List.map_append, List.append_assoc]
  · have hplaces : List.range' r.calls.length (new ++ new').length =
        List.range' r.calls.length new.length ++ List.range' r'.calls.length new'.length := by
      rw [h.calls, List.length_append, List.length_append, List.range'_append_1]
    rw [h'.queue, h.queue, hplaces]
    simp [PendingCall.made]
  · intro record hrecord
    rcases List.mem_append.mp hrecord with hrecord | hrecord
    · exact h.derived record hrecord
    · exact h.config ▸ h'.derived record hrecord
  · intro record hrecord
    rcases List.mem_append.mp hrecord with hrecord | hrecord
    · exact h.called record hrecord
    · exact h'.called record hrecord

theorem grows_record {r r' : Run σ} {s : Step} {c : Call} {fn : Function Value}
    {receiver : Option Receiver} {constructs : Bool} {target : Context}
    (h : r.record s c fn receiver constructs = .ok (target, r')) : r.Grows r' := by
  unfold record at h
  obtain ⟨⟨target', t⟩, hcontext, h⟩ := Except.bind_eq_ok.mp h
  obtain ⟨r₁, hregister, h⟩ := Except.bind_eq_ok.mp h
  cases h
  obtain ⟨hderive, rfl⟩ := State.createContext_eq_ok.mp hcontext
  let t := r.state.noteContext target
  let e : Edge := ⟨s.function, fn.name, some (.call c), s.index, t.context, target⟩
  have hmoved : r.state.Moves ((t.noteContext t.context).noteContext target) :=
    (r.state.moves_noteContext target).trans
      ((t.moves_noteContext t.context).trans (State.moves_noteContext _ target))
  have hgraph : t.callGraph = r.state.callGraph := (r.state.moves_noteContext target).callGraph
  have hadd : ((t.noteContext t.context).noteContext target).callGraph.add e = r.state.callGraph.add e := by
    rw [hmoved.callGraph]
  unfold registerCall State.registerCall at hregister
  obtain ⟨⟨e', t'⟩, he, hregister⟩ := Except.bind_eq_ok.mp hregister
  cases he
  simp only at hregister
  -- The graph has grown just if the edge is new, and only then is the record entered.
  split at hregister
  · rename_i hold
    cases hregister
    have hknown : r.state.callGraph.contains e = true := by
      rw [← CallGraph.size_add_le_iff, ← hadd, ← hgraph]
      exact hold
    exact .of_same hmoved.config ⟨hmoved.recalls.kept, hmoved.recalls.named⟩
      (hadd.trans (r.state.callGraph.add_of_contains e hknown)) rfl rfl rfl
  · rename_i hnew
    cases hregister
    have hunknown : ¬ r.state.callGraph.contains e = true := by
      rw [← CallGraph.size_add_le_iff, ← hadd, ← hgraph]
      exact hnew
    refine ⟨[⟨e, receiver, constructs⟩], hmoved.config, ⟨hmoved.recalls.kept, hmoved.recalls.named⟩, rfl, rfl,
      (congrArg CallGraph.edges hadd).trans ((r.state.callGraph.edges_add e).trans (if_neg hunknown)), rfl, ?_, ?_⟩
    · intro record hrecord
      obtain rfl := List.mem_singleton.mp hrecord
      show t.context.derive _ _ _ _ = _
      rw [show t.context = r.state.context from State.noteContext_context _ _]
      exact hderive
    · intro record hrecord
      obtain rfl := List.mem_singleton.mp hrecord
      exact ⟨c, rfl⟩

theorem grows_enter {r r₁ : Run σ} {fn : Function Value} {args : List Value}
    {receiver : Option Receiver} {caller : String} {index : Int}
    (h : r.enter a fn args receiver caller index = .ok r₁) : r.Grows r₁ := by
  obtain ⟨c, henter⟩ := enterFunction_of_enter h
  obtain ⟨hmemo, hcalls, hqueue⟩ := ledger_enter h
  have hpushed : (r.state.pushCall caller fn.name index r.state.context none).frames =
      _ :: r.state.frames := rfl
  obtain ⟨key, saved, hmoves⟩ := State.moves_enterFunction hpushed henter
  exact .of_same hmoves.config ⟨hmoves.recalls.kept, hmoves.recalls.named⟩ hmoves.callGraph hmemo hcalls hqueue

theorem grows_exit {r r' : Run σ} {value : Option Value} {f : CallFrame} {s : State}
    (h : r.state.exitFunction value = .ok (f, s)) (hstate : r'.state = s) (hmemo : r'.memo = r.memo)
    (hcalls : r'.calls = r.calls) (hqueue : r'.queue = r.queue) : r.Grows r' := by
  obtain ⟨rest, summaries, -, hmoves⟩ := State.moves_exitFunction h
  subst hstate
  exact .of_same hmoves.config ⟨hmoves.recalls.kept, hmoves.recalls.named⟩ hmoves.callGraph hmemo hcalls hqueue

theorem grows_invoke (hbody : body.Keeps Grows) {r r' : Run σ} {fn : Function Value}
    {argNames : List String} {args : List Value} {receiver : Option Receiver} {caller : String}
    {index : Int} {v : Value}
    (h : r.invoke a body fn argNames args receiver caller index = .ok (v, r')) : r.Grows r' := by
  obtain ⟨r₁, r₂, f, s, henter, hrun, -, hexit, hrest⟩ := invoke_cases h
  refine (grows_enter henter).trans ((hbody hrun).trans (Grows.trans ?_ hrest.grows))
  exact grows_exit hexit rfl rfl rfl rfl

theorem grows_setCurrent (r : Run σ) (name : String) (c : Context) :
    r.Grows { r with state := r.state.setCurrent name c } :=
  .of_moves (r.state.moves_setCurrent name c) rfl rfl rfl

theorem grows_pushCall (r : Run σ) (caller callee : String) (index : Int) (c : Context)
    (scope : Option String) (name : String) (c' : Context) :
    r.Grows { r with state := (r.state.pushCall caller callee index c scope).setCurrent name c' } := by
  have hplaced := (r.state.pushCall caller callee index c scope).moves_setCurrent name c'
  exact .of_same hplaced.config ⟨hplaced.recalls.kept, hplaced.recalls.named⟩ hplaced.callGraph rfl rfl rfl

theorem grows_runScope (hbody : body.Keeps Grows) {r r' : Run σ} {name : String} {c : Context}
    (h : r.runScope body name c = .ok r') : r.Grows r' := by
  unfold runScope at h
  obtain ⟨r₁, hrun, hrest⟩ := Except.bind_eq_ok.mp h
  have hgrown := (r.grows_setCurrent name c).trans (hbody hrun)
  split at hrest
  · cases hrest
    exact hgrown.trans (.of_moves (State.moves_setCurrent _ _ _) rfl rfl rfl)
  · cases hrest
    exact hgrown.trans (.of_moves (.refl _) rfl rfl rfl)

theorem bodyRule_grows (hdirect : a.options.directCalls = false) (hbody : body.Keeps Grows) :
    BodyRule a body Grows where
  trans h h' := h.trans h'
  quiet h := h.grows
  records h := grows_record h
  cutoff _ := .of_moves (.refl _) rfl rfl rfl
  -- Callees are not analysed where they are called.
  memoizes h := absurd h (by simp [hdirect])
  invokes h := absurd h (by simp [hdirect])
  returns r v := by
    unfold State.setReturn
    split <;> exact .of_same rfl (.of_functions rfl) rfl rfl rfl rfl
  raises r v := by
    unfold State.addException
    split <;> exact .of_same rfl (.of_functions rfl) rfl rfl rfl rfl
  registers r name _ := .of_moves (r.state.moves_registerClass name _) rfl rfl rfl
  bodies h := grows_runScope hbody h
  dequeues h := .of_same rfl (.of_functions rfl) rfl rfl rfl rfl
  caps _ _ := .of_moves (.refl _) rfl rfl rfl
  segment h _ := by
    refine Grows.trans ?_ (h.trans ?_)
    · exact .of_same rfl (.of_functions rfl) rfl rfl rfl rfl
    · exact .of_same rfl (.of_functions rfl) rfl rfl rfl rfl

end Run

namespace Analyzer

variable {σ : Type} {a : Analyzer}

/-- Without direct calls the analysis of a body only adds to the ledger. -/
theorem grows_body (hdirect : a.options.directCalls = false) : (a.body : BodyAnalysis σ).Keeps Run.Grows :=
  runBody_keeps (fun _ hbody => Run.bodyRule_grows hdirect hbody) a.depthBound

theorem quiet_bindParameters {scope : Scope} {binding : Binding} {s s' : State}
    (h : bindParameters scope binding s = .ok s') : s.Quiet s' := by
  unfold bindParameters at h
  generalize scope.params.zipIdx = params at h
  induction params generalizing s with
  | nil =>
    cases h
    exact .refl _
  | cons p rest ih =>
    rw [List.foldlM_cons] at h
    obtain ⟨t, ht, hrest⟩ := Except.bind_eq_ok.mp h
    refine State.Quiet.trans ?_ (ih hrest)
    simp only at ht
    split at ht
    · cases ht
      exact .refl _
    · exact State.quiet_setVariable ht

theorem grows_analyzeFunction (hdirect : a.options.directCalls = false) {r r' : Run σ} {scope : Scope}
    (h : a.analyzeFunction r scope = .ok r') : r.Grows r' := by
  unfold analyzeFunction at h
  obtain ⟨s, hbound, h⟩ := Except.bind_eq_ok.mp h
  obtain ⟨r₁, hrun, h⟩ := Except.bind_eq_ok.mp h
  obtain ⟨⟨f, s'⟩, hexit, h⟩ := Except.bind_eq_ok.mp h
  cases h
  have hplaced : r.Grows { r with state := s } :=
    (r.grows_pushCall "" scope.name 0 r.state.context r.state.scope scope.name .root).trans
      (.of_moves (quiet_bindParameters hbound).moves rfl rfl rfl)
  exact hplaced.trans ((grows_body hdirect hrun).trans (Run.grows_exit hexit rfl rfl rfl rfl))

theorem grows_analyzeModule (hdirect : a.options.directCalls = false) {r r' : Run σ} {scope : Scope}
    (h : a.analyzeModule r scope = .ok r') : r.Grows r' := by
  unfold analyzeModule at h
  split at h
  · exact (r.quiet_note a _).grows.trans (Run.grows_runScope (grows_body hdirect) h)
  · cases h
    exact (Run.Quiet.refl _).grows

theorem grows_analyzeRest (hdirect : a.options.directCalls = false) {r r' : Run σ} {scope : Scope}
    (h : a.analyzeRest r scope = .ok r') : r.Grows r' := by
  have hrule := Run.bodyRule_grows (σ := σ) hdirect (grows_body hdirect)
  unfold analyzeRest at h
  split at h
  · cases h
    exact hrule.refl _
  · split at h
    · exact (r.quiet_note a _).grows.trans (hrule.classBody h)
    · exact (r.quiet_note a _).grows.trans (grows_analyzeFunction hdirect h)
    · cases h
      exact hrule.refl _

end Analyzer

end AbstractFlow
