import AbstractFlow.Proofs.Analysis.Asking
import Mathlib.Data.List.Nodup

/-! # The books of the solver

Whatever is analysed, directly or not and with whatever oracle, the ledger of calls only grows, and new
records wait behind those that wait already. So the items that the solver has taken, followed by those that
still wait, are all the items there ever were: one for each record, and one more for each record whose call
was made. Once nothing waits any more, the counters of the solver add up to twice the size of the call graph.
-/
namespace AbstractFlow

def CallGraph.Distinct (g : CallGraph) : Prop := g.edges.Pairwise fun e f => f.same e = false

theorem CallGraph.Distinct.add {g : CallGraph} (h : g.Distinct) (e : Edge) : (g.add e).Distinct := by
  unfold Distinct
  rw [edges_add]
  split
  · exact h
  · rename_i hnew
    simp only [contains_eq, List.any_eq_true, not_exists, not_and, Bool.not_eq_true] at hnew
    refine List.pairwise_append.mpr ⟨h, List.pairwise_singleton _ _, fun f hf e' he' => ?_⟩
    rw [List.mem_singleton.mp he']
    exact hnew f hf

/-- What the solver does with one item of its queue. -/
structure Turn where
  item : PendingCall
  edge : Option Edge
  made : Bool

/-- Whether a record is taken whose call is not made. -/
def Turn.skips (t : Turn) : Bool := !t.item.propagates && !t.made

namespace Run

variable {σ : Type} {a : Analyzer} {body : BodyAnalysis σ}

def turn (r : Run σ) (a : Analyzer) (item : PendingCall) : Turn :=
  ⟨item, r.calls[item.index]?.map (·.edge), (r.pendingDelivery? a item).isSome⟩

/-- The turns of the solver until its queue is empty, in their order. -/
def turns (a : Analyzer) : Nat → Run σ → List Turn
  | fuel, r =>
    match r.queue with
    | [] => []
    | item :: rest =>
      match fuel with
      | 0 => []
      | fuel + 1 =>
        let r := { r with queue := rest }
        r.turn a item ::
          match r.processPending a item with
          | .ok r => turns a fuel r
          | .error _ => []

/-- The items of records that wait to be taken. -/
def pending (r : Run σ) : List PendingCall := r.queue.filter fun p => !p.propagates

/-- The items of calls that wait to be propagated. -/
def returning (r : Run σ) : List PendingCall := r.queue.filter (·.propagates)

/-- Calls are recorded and wait, and others are remembered; what the solver did stays as it is. -/
structure Enters (new : List CallRecord) (r r' : Run σ) : Prop where
  calls : r'.calls = r.calls ++ new
  edges : r'.state.callGraph.edges = r.state.callGraph.edges ++ new.map (·.edge)
  distinct : r.state.callGraph.Distinct → r'.state.callGraph.Distinct
  pending : r'.pending = r.pending ++ PendingCall.made (List.range' r.calls.length new.length)
  returning : r'.returning = r.returning
  memo : r.memo ⊆ r'.memo
  requeued : r'.requeued = r.requeued
  processed : r'.stats.edgesProcessed = r.stats.edgesProcessed
  skipped : r'.stats.edgesSkipped = r.stats.edgesSkipped

def Extends (r r' : Run σ) : Prop := ∃ new, Enters new r r'

def booked (r : Run σ) : List CallRecord × List PendingCall × List Nat × Nat × Nat :=
  (r.calls, r.queue, r.requeued, r.stats.edgesProcessed, r.stats.edgesSkipped)

theorem Extends.of_same {r r' : Run σ} (hgraph : r'.state.callGraph = r.state.callGraph)
    (hmemo : r.memo ⊆ r'.memo) (hbooked : r'.booked = r.booked) : r.Extends r' := by
  simp only [booked, Prod.mk.injEq] at hbooked
  obtain ⟨hcalls, hqueue, hrequeued, hprocessed, hskipped⟩ := hbooked
  refine ⟨[], ?_, ?_, fun h => hgraph ▸ h, ?_, ?_, hmemo, hrequeued, hprocessed, hskipped⟩
  · rw [hcalls, List.append_nil]
  · rw [hgraph, List.map_nil, List.append_nil]
  · rw [pending, hqueue]
    simp [PendingCall.made, pending]
  · rw [returning, hqueue, returning]

theorem Extends.of_moves {r r' : Run σ} (h : r.state.Moves r'.state) (hmemo : r.memo ⊆ r'.memo)
    (hbooked : r'.booked = r.booked) : r.Extends r' := .of_same h.callGraph hmemo hbooked

theorem booked_of_ledger {r r' : Run σ} (h : r'.ledger = r.ledger) : r'.booked = r.booked := by
  simp only [ledger, Ledger.mk.injEq, Stats.mk.injEq] at h
  obtain ⟨-, -, hcalls, hqueue, hrequeued, -, -, -, hprocessed, hskipped, -⟩ := h
  rw [booked, hcalls, hqueue, hrequeued, hprocessed, hskipped, booked]

theorem Quiet.extends {r r' : Run σ} (h : r.Quiet r') : r.Extends r' :=
  .of_moves h.state.moves (h.memo ▸ List.Subset.refl _) (booked_of_ledger h.ledger)

theorem Extends.trans {r r' r'' : Run σ} (h : r.Extends r') (h' : r'.Extends r'') : r.Extends r'' := by
  obtain ⟨new, h⟩ := h
  obtain ⟨new', h'⟩ := h'
  refine ⟨new ++ new', ?_, ?_, fun hdistinct => h'.distinct (h.distinct hdistinct), ?_,
    h'.returning.trans h.returning, List.Subset.trans h.memo h'.memo, h'.requeued.trans h.requeued,
    h'.processed.trans h.processed, h'.skipped.trans h.skipped⟩
  · rw [h'.calls, h.calls, List.append_assoc]
  · rw [h'.edges, h.edges, List.map_append, List.append_assoc]
  · have hplaces : List.range' r.calls.length (new ++ new').length =
        List.range' r.calls.length new.length ++ List.range' r'.calls.length new'.length := by
      rw [h.calls, List.length_append, List.length_append, List.range'_append_1]
    rw [h'.pending, h.pending, hplaces]
    simp [PendingCall.made]

theorem stats_record {r r' : Run σ} {s : Step} {c : Call} {fn : Function Value}
    {receiver : Option Receiver} {constructs : Bool} {target : Context}
    (h : r.record s c fn receiver constructs = .ok (target, r')) :
    r'.requeued = r.requeued ∧ r'.stats = r.stats ∧ ∃ e, r'.state.callGraph = r.state.callGraph.add e := by
  unfold record at h
  obtain ⟨⟨target', t⟩, hcontext, h⟩ := Except.bind_eq_ok.mp h
  obtain ⟨r₁, hregister, h⟩ := Except.bind_eq_ok.mp h
  cases h
  have hnoted := (State.moves_createContext hcontext).trans
    ((t.moves_noteContext t.context).trans (State.moves_noteContext _ target))
  unfold registerCall State.registerCall at hregister
  obtain ⟨⟨e, t'⟩, he, hregister⟩ := Except.bind_eq_ok.mp hregister
  cases he
  simp only at hregister
  split at hregister <;> cases hregister <;>
    exact ⟨rfl, rfl, _, congrArg (fun g : CallGraph => g.add _) hnoted.callGraph⟩

theorem extends_record {r r' : Run σ} {s : Step} {c : Call} {fn : Function Value}
    {receiver : Option Receiver} {constructs : Bool} {target : Context}
    (h : r.record s c fn receiver constructs = .ok (target, r')) : r.Extends r' := by
  obtain ⟨new, hnew⟩ := grows_record h
  obtain ⟨hrequeued, hstats, e, hgraph⟩ := stats_record h
  refine ⟨new, hnew.calls, hnew.edges, fun hdistinct => ?_, ?_, ?_, hnew.memo ▸ List.Subset.refl _, hrequeued,
    by rw [hstats], by rw [hstats]⟩
  · rw [hgraph]
    exact hdistinct.add e
  · rw [pending, hnew.queue, List.filter_append, filter_made, pending]
  · rw [returning, hnew.queue, List.filter_append]
    simp [PendingCall.made, List.filter_map, Function.comp_def, returning]

theorem booked_enter {r r₁ : Run σ} {fn : Function Value} {args : List Value}
    {receiver : Option Receiver} {caller : String} {index : Int}
    (h : r.enter a fn args receiver caller index = .ok r₁) : r₁.booked = r.booked := by
  unfold enter at h
  obtain ⟨⟨c, s⟩, -, h⟩ := Except.bind_eq_ok.mp h
  cases h
  exact (booked_of_ledger (quiet_note _ a _).ledger).trans rfl

theorem extends_enter {r r₁ : Run σ} {fn : Function Value} {args : List Value}
    {receiver : Option Receiver} {caller : String} {index : Int}
    (h : r.enter a fn args receiver caller index = .ok r₁) : r.Extends r₁ := by
  obtain ⟨c, henter⟩ := enterFunction_of_enter h
  have hpushed : (r.state.pushCall caller fn.name index r.state.context none).frames =
      _ :: r.state.frames := rfl
  obtain ⟨key, saved, hmoves⟩ := State.moves_enterFunction hpushed henter
  exact .of_same hmoves.callGraph ((ledger_enter h).1 ▸ List.Subset.refl _) (booked_enter h)

theorem extends_exit {r r' : Run σ} {value : Option Value} {f : CallFrame} {s : State}
    (h : r.state.exitFunction value = .ok (f, s)) (hstate : r'.state = s) (hmemo : r.memo ⊆ r'.memo)
    (hbooked : r'.booked = r.booked) : r.Extends r' := by
  obtain ⟨rest, summaries, -, hmoves⟩ := State.moves_exitFunction h
  subst hstate
  exact .of_same hmoves.callGraph hmemo hbooked

theorem extends_invoke (hbody : body.Keeps Extends) {r r' : Run σ} {fn : Function Value}
    {argNames : List String} {args : List Value} {receiver : Option Receiver} {caller : String}
    {index : Int} {v : Value}
    (h : r.invoke a body fn argNames args receiver caller index = .ok (v, r')) : r.Extends r' := by
  obtain ⟨r₁, r₂, f, s, henter, hrun, -, hexit, hrest⟩ := invoke_cases h
  refine (extends_enter henter).trans ((hbody hrun).trans (Extends.trans ?_ hrest.extends))
  exact extends_exit hexit rfl (List.Subset.refl _) rfl

theorem extends_placed {r : Run σ} {s : State} (h : s.callGraph = r.state.callGraph) :
    r.Extends { r with state := s } := .of_same h (List.Subset.refl _) rfl

theorem extends_pushCall (r : Run σ) (caller callee : String) (index : Int) (c : Context)
    (scope : Option String) (name : String) (c' : Context) :
    r.Extends { r with state := (r.state.pushCall caller callee index c scope).setCurrent name c' } :=
  extends_placed ((r.state.pushCall caller callee index c scope).moves_setCurrent name c').callGraph

theorem extends_runScope (hbody : body.Keeps Extends) {r r' : Run σ} {name : String} {c : Context}
    (h : r.runScope body name c = .ok r') : r.Extends r' := by
  unfold runScope at h
  obtain ⟨r₁, hrun, hrest⟩ := Except.bind_eq_ok.mp h
  have hgrown := (extends_placed (r.state.moves_setCurrent name c).callGraph).trans (hbody hrun)
  split at hrest
  · cases hrest
    exact hgrown.trans (.of_moves (State.moves_setCurrent _ _ _) (List.Subset.refl _) rfl)
  · cases hrest
    exact hgrown.trans (.of_moves (.refl _) (List.Subset.refl _) rfl)

theorem bodyRule_extends (hbody : body.Keeps Extends) : BodyRule a body Extends where
  trans h h' := h.trans h'
  quiet h := h.extends
  records h := extends_record h
  cutoff _ := .of_moves (.refl _) (List.Subset.refl _) rfl
  memoizes _ _ _ := .of_moves (.refl _) (List.subset_cons_self _ _) rfl
  invokes _ _ _ _ _ _ _ _ _ _ _ _ h := extends_invoke hbody h
  returns r v := by
    unfold State.setReturn
    split <;> exact extends_placed rfl
  raises r v := by
    unfold State.addException
    split <;> exact extends_placed rfl
  registers r name _ := extends_placed (r.state.moves_registerClass name _).callGraph
  bodies h := extends_runScope hbody h
  dequeues _ := extends_placed rfl
  caps _ _ := .of_moves (.refl _) (List.Subset.refl _) rfl
  segment h _ := by
    refine Extends.trans ?_ (h.trans ?_)
    · exact extends_placed rfl
    · exact extends_placed rfl

end Run

namespace Analyzer

variable {σ : Type} {a : Analyzer}

theorem extends_body : (a.body : BodyAnalysis σ).Keeps Run.Extends :=
  runBody_keeps (fun _ hbody => Run.bodyRule_extends hbody) a.depthBound

theorem extends_analyzeFunction {r r' : Run σ} {scope : Scope} (h : a.analyzeFunction r scope = .ok r') :
    r.Extends r' := by
  unfold analyzeFunction at h
  obtain ⟨s, hbound, h⟩ := Except.bind_eq_ok.mp h
  obtain ⟨r₁, hrun, h⟩ := Except.bind_eq_ok.mp h
  obtain ⟨⟨f, s'⟩, hexit, h⟩ := Except.bind_eq_ok.mp h
  cases h
  have hplaced : r.Extends { r with state := s } :=
    (r.extends_pushCall "" scope.name 0 r.state.context r.state.scope scope.name .root).trans
      (Run.extends_placed (quiet_bindParameters hbound).callGraph)
  exact hplaced.trans ((extends_body hrun).trans (Run.extends_exit hexit rfl (List.Subset.refl _) rfl))

theorem extends_analyzeModule {r r' : Run σ} {scope : Scope} (h : a.analyzeModule r scope = .ok r') :
    r.Extends r' := by
  unfold analyzeModule at h
  split at h
  · exact (r.quiet_note a _).extends.trans (Run.extends_runScope extends_body h)
  · cases h
    exact (Run.Quiet.refl _).extends

theorem extends_analyzeRest {r r' : Run σ} {scope : Scope} (h : a.analyzeRest r scope = .ok r') :
    r.Extends r' := by
  have hrule : BodyRule a (a.body : BodyAnalysis σ) Run.Extends := Run.bodyRule_extends extends_body
  unfold analyzeRest at h
  split at h
  · cases h
    exact hrule.refl _
  · split at h
    · exact (r.quiet_note a _).extends.trans (hrule.classBody h)
    · exact (r.quiet_note a _).extends.trans (extends_analyzeFunction h)
    · cases h
      exact hrule.refl _

theorem extends_explore {r r' : Run σ} (h : a.explore r = .ok r') : r.Extends r' := by
  have hrule : BodyRule a (a.body : BodyAnalysis σ) Run.Extends := Run.bodyRule_extends extends_body
  obtain ⟨r₁, hmodules, hrest⟩ := Except.bind_eq_ok.mp h
  refine Run.Extends.trans ?_ (hrule.foldlM (g := id) (fun hscope => extends_analyzeRest hscope) hrest)
  exact hrule.foldlM (g := id) (fun hscope => extends_analyzeModule hscope) hmodules

end Analyzer

namespace Run

variable {σ : Type} {a : Analyzer} {r r' : Run σ} {taken : List Turn}

/-- Whether a call is propagated before or after others are recorded is of no account. -/
theorem Extends.requeue (h : r.Extends r') (index : Nat) : (r.requeue index).Extends (r'.requeue index) := by
  obtain ⟨new, h⟩ := h
  unfold Run.requeue
  rw [h.requeued]
  split
  · exact ⟨new, h⟩
  · refine ⟨new, h.calls, h.edges, h.distinct, ?_, ?_, h.memo, rfl, h.processed, h.skipped⟩
    · simpa [Run.pending] using h.pending
    · simpa [Run.returning] using h.returning

/-- Every record was taken once or waits, every call that was made is propagated once or waits for it, and
no callee was entered twice under one context. -/
structure Accounts (taken : List Turn) (r : Run σ) : Prop where
  edges : r.state.callGraph.edges = r.calls.map (·.edge)
  distinct : r.state.callGraph.Distinct
  processed : r.stats.edgesProcessed = taken.length
  skipped : r.stats.edgesSkipped = taken.countP Turn.skips
  known : ∀ t ∈ taken, t.edge = r.calls[t.item.index]?.map (·.edge) ∧ t.item.index < r.calls.length
  pending : (taken.map (·.item)).filter (fun p => !p.propagates) ++ r.pending =
    PendingCall.made (List.range r.calls.length)
  returning : (taken.map (·.item)).filter (·.propagates) ++ r.returning =
    (taken.filter (·.made)).map fun t => ⟨t.item.index, true⟩
  requeued : ∀ i, i ∈ r.requeued ↔ ∃ t ∈ taken, t.made = true ∧ t.item.index = i
  plain : ∀ t ∈ taken, t.made = true → t.item.propagates = false
  nodup : ((taken.filter (·.made)).filterMap fun t => t.edge.map Edge.key).Nodup
  memo : ∀ key ∈ (taken.filter (·.made)).filterMap fun t => t.edge.map Edge.key, key ∈ r.memo

/-- The run in which the item that waits longest was taken, with those that wait behind it. -/
def counted (r : Run σ) (rest : List PendingCall) : Run σ :=
  { r with queue := rest, stats.edgesProcessed := r.stats.edgesProcessed + 1 }

theorem turns_of_idle (hqueue : r.queue = []) (fuel : Nat) : r.turns a fuel = [] := by
  unfold turns
  rw [hqueue]

theorem turns_succ {item : PendingCall} {rest : List PendingCall} {r₁ : Run σ} {fuel : Nat}
    (hqueue : r.queue = item :: rest) (hstep : processPending { r with queue := rest } a item = .ok r₁) :
    r.turns a (fuel + 1) = turn { r with queue := rest } a item :: r₁.turns a fuel := by
  conv_lhs => unfold turns
  rw [hqueue]
  simp only [hstep]

theorem extends_propagate {e : Edge} (h : r.propagate a e = .ok r') : r.Extends r' := by
  unfold propagate at h
  obtain ⟨r₁, hrun, h⟩ := Except.bind_eq_ok.mp h
  obtain ⟨⟨f, s⟩, hexit, h⟩ := Except.bind_eq_ok.mp h
  cases h
  have hbody := (extends_pushCall _ _ _ _ _ _ _ _).trans (Analyzer.extends_body hrun)
  exact (r.quiet_note a _).extends.trans (hbody.trans (extends_exit hexit rfl (List.Subset.refl _) rfl))

theorem extends_atCaller (r : Run σ) (a : Analyzer) (e : Edge) :
    Extends { r with memo := e.key :: r.memo } (r.atCaller a e) :=
  (quiet_note _ a _).extends.trans (extends_placed (State.moves_setCurrent _ _ _).callGraph)

namespace Accounts

theorem extend (h : r.Accounts taken) (hextends : r.Extends r') : r'.Accounts taken := by
  obtain ⟨new, hnew⟩ := hextends
  refine ⟨?_, hnew.distinct h.distinct, hnew.processed.trans h.processed, hnew.skipped.trans h.skipped,
    fun t ht => ?_, ?_, ?_, ?_, h.plain, h.nodup, fun key hkey => hnew.memo (h.memo key hkey)⟩
  · rw [hnew.edges, hnew.calls, h.edges, List.map_append]
  · obtain ⟨hedge, hlt⟩ := h.known t ht
    rw [hnew.calls, List.getElem?_append_left hlt, List.length_append]
    exact ⟨hedge, by omega⟩
  · rw [hnew.pending, ← List.append_assoc, h.pending, hnew.calls, List.length_append, List.range_eq_range',
      List.range_eq_range', ← List.range'_append_1, Nat.zero_add]
    simp [PendingCall.made]
  · rw [hnew.returning, h.returning]
  · rw [hnew.requeued]
    exact h.requeued

variable {item : PendingCall} {rest : List PendingCall}

theorem index_lt (h : r.Accounts taken) (hitem : item ∈ r.queue) : item.index < r.calls.length := by
  cases hpropagates : item.propagates with
  | true =>
    have hmem : item ∈ (taken.map (·.item)).filter (·.propagates) ++ r.returning :=
      List.mem_append_right _ (List.mem_filter.mpr ⟨hitem, hpropagates⟩)
    rw [h.returning, List.mem_map] at hmem
    obtain ⟨t, ht, rfl⟩ := hmem
    exact (h.known t (List.mem_of_mem_filter ht)).2
  | false =>
    have hmem : item ∈ (taken.map (·.item)).filter (fun p => !p.propagates) ++ r.pending :=
      List.mem_append_right _ (List.mem_filter.mpr ⟨hitem, by simp [hpropagates]⟩)
    rw [h.pending] at hmem
    simp only [PendingCall.made, List.mem_map, List.mem_range] at hmem
    obtain ⟨i, hi, rfl⟩ := hmem
    exact hi

theorem not_requeued (h : r.Accounts taken) (hqueue : r.queue = item :: rest)
    (hplain : item.propagates = false) : item.index ∉ r.requeued := by
  intro hmem
  obtain ⟨t, ht, hmade, hindex⟩ := (h.requeued _).mp hmem
  have hitem : t.item = item := by
    have hpropagates := h.plain t ht hmade
    obtain ⟨⟨i, b⟩, e, m⟩ := t
    obtain ⟨j, c⟩ := item
    simp_all
  have hnodup : ((taken.map (·.item)).filter (fun p => !p.propagates) ++ r.pending).Nodup := by
    rw [h.pending]
    exact List.Nodup.map (fun i j hij => congrArg PendingCall.index hij) List.nodup_range
  refine (List.nodup_append.mp hnodup).2.2 item ?_ item ?_ rfl
  · rw [List.mem_filter]
    exact ⟨hitem ▸ List.mem_map_of_mem ht, by simp [hplain]⟩
  · rw [Run.pending, hqueue, List.mem_filter]
    exact ⟨List.mem_cons_self, by simp [hplain]⟩

theorem take_idle (h : r.Accounts taken) (hqueue : r.queue = item :: rest) {t : Turn}
    (hitem : t.item = item) (hedge : t.edge = r.calls[item.index]?.map (·.edge)) (hidle : t.made = false)
    {n : Nat} (hn : n = r.stats.edgesSkipped + if item.propagates then 0 else 1) :
    Accounts (taken ++ [t]) { counted r rest with stats.edgesSkipped := n } := by
  have hlt : item.index < r.calls.length := h.index_lt (by simp [hqueue])
  -- The turn makes no call, so the clauses about calls that were made say the same as before.
  refine ⟨h.edges, h.distinct, ?_, ?_, ?_, ?_, ?_, ?_, ?_, ?_, ?_⟩
  · simp [counted, h.processed]
  · cases hpropagates : item.propagates <;>
      simp [hn, h.skipped, Turn.skips, hitem, hidle, hpropagates]
  · intro u hu
    rcases List.mem_append.mp hu with hu | hu
    · exact h.known u hu
    · rw [List.mem_singleton.mp hu, hitem]
      exact ⟨hedge, hlt⟩
  · have hpending := h.pending
    cases hpropagates : item.propagates <;>
      simpa [Run.pending, counted, hqueue, hitem, hpropagates] using hpending
  · have hreturning := h.returning
    cases hpropagates : item.propagates <;>
      simpa [Run.returning, counted, hqueue, hitem, hidle, hpropagates] using hreturning
  · intro i
    refine (h.requeued i).trans ?_
    simp [or_and_right, exists_or, hidle]
  · intro u hu hmade
    rcases List.mem_append.mp hu with hu | hu
    · exact h.plain u hu hmade
    · simp [List.mem_singleton.mp hu, hidle] at hmade
  · simpa [hidle] using h.nodup
  · simpa [hidle, counted] using h.memo

/-- A turn that makes the call of a record remembers the callee and lets the call be propagated. -/
theorem take_made (h : r.Accounts taken) (hqueue : r.queue = item :: rest) {t : Turn} {record : CallRecord}
    (hplain : item.propagates = false) (hrecord : r.calls[item.index]? = some record)
    (hnew : record.edge.key ∉ r.memo) (hitem : t.item = item) (hedge : t.edge = some record.edge)
    (hmade : t.made = true) :
    Accounts (taken ++ [t]) (requeue { counted r rest with memo := record.edge.key :: r.memo } item.index) := by
  have hlt : item.index < r.calls.length := h.index_lt (by simp [hqueue])
  have hfresh := h.not_requeued hqueue hplain
  -- The record waited to be taken, so its call does not wait to be propagated yet and comes last in the queue.
  rw [show requeue { counted r rest with memo := record.edge.key :: r.memo } item.index =
      { counted r rest with
        memo := record.edge.key :: r.memo
        requeued := item.index :: r.requeued
        queue := rest ++ [⟨item.index, true⟩] } by simp [requeue, counted, hfresh]]
  refine ⟨h.edges, h.distinct, ?_, ?_, ?_, ?_, ?_, ?_, ?_, ?_, ?_⟩
  · simp [counted, h.processed]
  · simp [counted, h.skipped, Turn.skips, hmade]
  · intro u hu
    rcases List.mem_append.mp hu with hu | hu
    · exact h.known u hu
    · rw [List.mem_singleton.mp hu, hitem, hedge]
      exact ⟨by simp [counted, hrecord], hlt⟩
  · simpa [Run.pending, counted, hqueue, hitem, hplain] using h.pending
  · have hreturning := h.returning
    simp only [Run.returning, hqueue, hplain, Bool.false_eq_true, not_false_eq_true,
      List.filter_cons_of_neg] at hreturning
    simp [Run.returning, hitem, hplain, hmade, ← hreturning]
  · intro i
    rw [List.mem_cons, h.requeued i]
    constructor
    · rintro (rfl | ⟨u, hu, hu'⟩)
      · exact ⟨t, by simp, hmade, by rw [hitem]⟩
      · exact ⟨u, List.mem_append_left _ hu, hu'⟩
    · rintro ⟨u, hu, hu'⟩
      rcases List.mem_append.mp hu with hu | hu
      · exact Or.inr ⟨u, hu, hu'⟩
      · rw [List.mem_singleton.mp hu, hitem] at hu'
        exact Or.inl hu'.2.symm
  · intro u hu _
    rcases List.mem_append.mp hu with hu | hu
    · exact h.plain u hu ‹_›
    · rw [List.mem_singleton.mp hu, hitem, hplain]
  -- Every callee that was entered is remembered, and this one is not.
  · simp only [List.filter_append, List.filterMap_append, hmade, List.filter_cons_of_pos, List.filter_nil,
      List.filterMap_cons, List.filterMap_nil, hedge, Option.map_some]
    refine List.nodup_append.mpr ⟨h.nodup, by simp, fun key hkey key' hkey' => ?_⟩
    rw [List.mem_singleton.mp hkey']
    rintro rfl
    exact hnew (h.memo _ hkey)
  · intro key hkey
    simp only [List.filter_append, List.filterMap_append, hmade, List.filter_cons_of_pos, List.filter_nil,
      List.filterMap_cons, List.filterMap_nil, hedge, Option.map_some, List.mem_append,
      List.mem_singleton] at hkey
    rcases hkey with hkey | rfl
    · exact List.mem_cons_of_mem _ (h.memo key hkey)
    · exact List.mem_cons_self

theorem step (h : r.Accounts taken) (hqueue : r.queue = item :: rest)
    (hstep : processPending { r with queue := rest } a item = .ok r') :
    r'.Accounts (taken ++ [turn { r with queue := rest } a item]) := by
  have hlt : item.index < r.calls.length := h.index_lt (by simp [hqueue])
  have hrecord : r.calls[item.index]? = some r.calls[item.index] := List.getElem?_eq_getElem hlt
  generalize r.calls[item.index] = record at hrecord
  unfold processPending at hstep
  simp only [hrecord] at hstep
  -- A call that is propagated only takes its item; a record makes its call or is skipped.
  cases hpropagates : item.propagates with
  | true =>
    simp only [hpropagates, if_true] at hstep
    have hidle : pendingDelivery? { r with queue := rest } a item = none := by
      simp [pendingDelivery?, hrecord, hpropagates]
    have htaken := h.take_idle hqueue (t := turn { r with queue := rest } a item) rfl rfl
      (by simp [turn, hidle]) (n := r.stats.edgesSkipped) (by simp [hpropagates])
    exact htaken.extend (extends_propagate hstep)
  | false =>
    simp only [hpropagates, Bool.false_eq_true, if_false] at hstep
    have hdelivery : pendingDelivery? { r with queue := rest } a item =
        (counted r rest).delivery? a record := by
      simp [pendingDelivery?, hrecord, hpropagates, counted]
    rcases processCall_cases hstep with ⟨rfl, hnone, -⟩ | ⟨d, v, r₁, r₂, hsome, hinvoke, hquiet, rfl⟩
    · refine h.take_idle hqueue rfl rfl ?_ (by simp [hpropagates])
      rw [turn, hdelivery, show (counted r rest).delivery? a record = none from hnone]
      rfl
    · obtain ⟨rfl, hmemo, -, hsender, -⟩ := delivery?_eq_some hsome
      have htaken := h.take_made hqueue (t := turn { r with queue := rest } a item) hpropagates hrecord
        (by simpa using hmemo) rfl (by simp [turn, hrecord])
        (by rw [turn, hdelivery, show (counted r rest).delivery? a d.record = some d from hsome]; rfl)
      have hinvoked := extends_invoke Analyzer.extends_body hinvoke
      rw [hsender] at hinvoked
      refine htaken.extend (Extends.requeue ?_ _)
      exact (extends_atCaller _ a d.edge).trans (hinvoked.trans hquiet.extends)

theorem solve (h : r.Accounts taken) {fuel : Nat} (hsolve : r.solve a fuel = .ok r') :
    r'.Accounts (taken ++ r.turns a fuel) ∧ r'.queue = [] := by
  induction fuel generalizing r taken with
  | zero =>
    rcases solve_cases hsolve with ⟨hqueue, rfl⟩ | ⟨item, rest, left, r₁, -, hfuel, -⟩
    · rw [turns_of_idle hqueue, List.append_nil]
      exact ⟨h, hqueue⟩
    · exact absurd hfuel (by omega)
  | succ fuel ih =>
    rcases solve_cases hsolve with ⟨hqueue, rfl⟩ | ⟨item, rest, left, r₁, hqueue, hfuel, hstep, hrest⟩
    · rw [turns_of_idle hqueue, List.append_nil]
      exact ⟨h, hqueue⟩
    · obtain rfl : fuel = left := by omega
      rw [turns_succ hqueue hstep, ← List.singleton_append, ← List.append_assoc]
      exact ih (h.step hqueue hstep) hrest

end Accounts

end Run

/-- The turns of a solver account for every edge of a call graph: each edge is taken once, and once more if
its call was made. No callee is entered twice under one context. -/
structure Turn.Balance (turns : List Turn) (g : CallGraph) (stats : Stats) : Prop where
  processed : stats.edgesProcessed = turns.length
  skipped : stats.edgesSkipped = turns.countP skips
  total : stats.edgesProcessed + stats.edgesSkipped = 2 * g.size
  distinct : g.Distinct
  edge : ∀ t ∈ turns, t.edge = g.edges[t.item.index]? ∧ t.item.index < g.size
  once : ∀ i < g.size, ∃ t, turns.filter (·.item = ⟨i, false⟩) = [t] ∧
    turns.countP (·.item = ⟨i, true⟩) = if t.skips then 0 else 1
  entered : ((turns.filter (·.made)).filterMap fun t => t.edge.map Edge.key).Nodup

namespace Run.Accounts

variable {σ : Type} {r : Run σ} {turns : List Turn}

theorem map_item (h : r.Accounts turns) (hqueue : r.queue = []) :
    (turns.map (·.item)).filter (fun p => !p.propagates) = PendingCall.made (List.range r.calls.length) := by
  simpa [Run.pending, hqueue] using h.pending

theorem filter_plain (h : r.Accounts turns) (hqueue : r.queue = []) {i : Nat} (hi : i < r.calls.length) :
    ∃ t, turns.filter (·.item = ⟨i, false⟩) = [t] := by
  refine List.length_eq_one_iff.mp ?_
  calc (turns.filter (·.item = ⟨i, false⟩)).length
      = (turns.map (·.item)).count ⟨i, false⟩ := by
        rw [← List.countP_eq_length_filter, List.count, List.countP_map]
        rfl
    _ = ((turns.map (·.item)).filter fun p => !p.propagates).count ⟨i, false⟩ :=
        (List.count_filter rfl).symm
    _ = 1 := by
        rw [h.map_item hqueue]
        refine List.count_eq_one_of_mem ?_ (List.mem_map_of_mem (List.mem_range.mpr hi))
        exact List.Nodup.map (fun i j hij => congrArg PendingCall.index hij) List.nodup_range

theorem countP_returning (h : r.Accounts turns) (hqueue : r.queue = []) (i : Nat) :
    turns.countP (·.item = ⟨i, true⟩) = (turns.filter (·.item = ⟨i, false⟩)).countP (·.made) := by
  have hreturning : (turns.map (·.item)).filter (·.propagates) =
      (turns.filter (·.made)).map fun t => (⟨t.item.index, true⟩ : PendingCall) := by
    simpa [Run.returning, hqueue] using h.returning
  calc turns.countP (·.item = ⟨i, true⟩)
      = (turns.map (·.item)).count ⟨i, true⟩ := by
        rw [List.count, List.countP_map]
        rfl
    _ = ((turns.map (·.item)).filter (·.propagates)).count ⟨i, true⟩ := (List.count_filter rfl).symm
    _ = (turns.filter (·.made)).countP (·.item = ⟨i, false⟩) := by
        rw [hreturning, List.count, List.countP_map]
        refine List.countP_congr fun t ht => ?_
        have hplain := h.plain t (List.mem_of_mem_filter ht) (List.of_mem_filter ht)
        obtain ⟨⟨j, b⟩, e, m⟩ := t
        simp_all
    _ = (turns.filter (·.item = ⟨i, false⟩)).countP (·.made) := by
        rw [List.countP_filter, List.countP_filter]
        exact List.countP_congr fun t _ => by rw [Bool.and_comm]

theorem countP_propagates (h : r.Accounts turns) (hqueue : r.queue = []) :
    turns.countP (·.item.propagates) = turns.countP (·.made) := by
  have hlength := congrArg List.length h.returning
  simpa [Run.returning, hqueue, List.filter_map, Function.comp_def, ← List.countP_eq_length_filter]
    using hlength

theorem countP_plain (h : r.Accounts turns) :
    turns.countP (fun t => !t.item.propagates) = turns.countP (·.made) + turns.countP Turn.skips := by
  rw [List.countP_eq_countP_filter_add turns _ (·.made), List.countP_filter, List.countP_filter]
  refine congrArg₂ (· + ·) (List.countP_congr fun t ht => ?_) (List.countP_congr fun t _ => ?_)
  · have hplain := h.plain t ht
    cases hmade : t.made <;> simp_all
  · rw [Turn.skips]

theorem balance (h : r.Accounts turns) (hqueue : r.queue = []) :
    Turn.Balance turns r.state.callGraph r.stats := by
  have hsize : r.state.callGraph.size = r.calls.length := by
    rw [CallGraph.size, h.edges, List.length_map]
  refine ⟨h.processed, h.skipped, ?_, h.distinct, fun t ht => ?_, fun i hi => ?_, h.nodup⟩
  · have hlength : turns.length = turns.countP (·.item.propagates) +
        turns.countP fun t => !t.item.propagates := by
      simpa using List.length_eq_countP_add_countP (l := turns) (·.item.propagates)
    have hplain := congrArg List.length (h.map_item hqueue)
    simp only [List.filter_map, List.length_map, ← List.countP_eq_length_filter, PendingCall.made,
      List.length_range] at hplain
    have hmade := h.countP_propagates hqueue
    have hskipped := h.countP_plain
    simp only [Function.comp_def] at hplain
    rw [h.processed, h.skipped, hsize]
    omega
  · obtain ⟨hedge, hlt⟩ := h.known t ht
    rw [hsize, h.edges, List.getElem?_map]
    exact ⟨hedge, hlt⟩
  · obtain ⟨t, ht⟩ := h.filter_plain hqueue (hsize ▸ hi)
    refine ⟨t, ht, ?_⟩
    have hitem : t.item = ⟨i, false⟩ := by
      have hmem : t ∈ turns.filter (·.item = ⟨i, false⟩) := by simp [ht]
      simpa using List.of_mem_filter hmem
    rw [h.countP_returning hqueue, ht]
    cases hmade : t.made <;> simp [Turn.skips, hitem, hmade]

end Run.Accounts

namespace Analyzer

variable {σ : Type} {a : Analyzer}

def turnsWith (a : Analyzer) (τ : Type) (oracle : Option (Oracle τ)) (start : τ) : List Turn :=
  match a.started oracle start with
  | none => []
  | some r =>
    match a.explore r with
    | .ok r => r.turns a callBound
    | .error _ => []

/-- The turns of the solver in an analysis, in their order. -/
def turns (a : Analyzer) (oracle : Option (Oracle σ)) (start : σ) : List Turn :=
  a.asking a.turnsWith oracle start

theorem accounts_started (ha : a.Distinct) {oracle : Option (Oracle σ)} {start : σ} {r : Run σ}
    (h : a.started oracle start = some r) : r.Accounts [] := by
  obtain ⟨policy, state, -, hstate, rfl⟩ := started_eq_some h
  have hgraph := (begins_startState ha hstate).callGraph
  refine ⟨?_, ?_, rfl, rfl, by simp, rfl, rfl, by simp, by simp, by simp, by simp⟩
  · rw [hgraph]
    rfl
  · rw [hgraph]
    exact List.Pairwise.nil

/-- Whenever an analysis has a result, the turns of its solver account for every edge of the call graph. -/
theorem solver_balances {o : Options} {bindings : List Prebinding} {tracing : Bool} {p : Program}
    {oracle : Option (Oracle σ)} {start : σ} {res : Result σ}
    (h : (ofProgram o bindings tracing p).analyze none oracle start = .ok res) :
    Turn.Balance ((ofProgram o bindings tracing p).turns oracle start) res.state.callGraph res.stats := by
  obtain ⟨hdistinct, -⟩ := distinct_ofProgram o bindings tracing p
  generalize ofProgram o bindings tracing p = a at *
  obtain ⟨τ, oracle', start', r₀, r, r', hstarted, hexplore, hsolve, hstate, hstats, hasking⟩ := exists_solved h
  have hturns : a.turns oracle start = r.turns a callBound := by
    rw [turns, hasking]
    simp only [turnsWith, hstarted, hexplore]
  obtain ⟨haccounts, hqueue⟩ :=
    ((accounts_started hdistinct hstarted).extend (extends_explore hexplore)).solve hsolve
  rw [hturns, hstate, hstats, ← List.nil_append (r.turns a callBound)]
  exact haccounts.balance hqueue

/-- A loop in which a call is recorded, made and propagated. -/
theorem solver_balances_growingArgument :
    ∃ res : Result Unit,
      (ofProgram { directCalls := false } [] false growingArgument).analyze none none () = .ok res ∧
      res.state.callGraph.size = 2 ∧
      Turn.Balance ((ofProgram { directCalls := false } [] false growingArgument).turns none ())
        res.state.callGraph res.stats := by
  have htest : ((ofProgram { directCalls := false } [] false growingArgument).analyze none none ()).toOption.any
      (fun res => res.state.callGraph.size == 2) = true := by decide +kernel
  obtain ⟨res, hres, hsize⟩ := Except.exists_ok_of_any htest
  exact ⟨res, hres, by simpa using hsize, solver_balances hres⟩

end Analyzer

end AbstractFlow
