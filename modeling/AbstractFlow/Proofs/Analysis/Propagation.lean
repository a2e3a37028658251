import AbstractFlow.Proofs.Analysis.Beginning
import AbstractFlow.Proofs.State.Frames

/-! # Propagated calls

Without direct calls, callees are entered only when recorded calls are taken from the queue. The calls
are made in the order in which they were recorded, and only one for each callee under each context. So
of all edges that lead to one function under one context, the first one delivers its arguments, with
the values that they have at that moment, and no other edge ever does.
-/
namespace AbstractFlow

/-- The callee of an edge under the context that it leads to. -/
def Edge.key (e : Edge) : FrameKey := ⟨e.callee, e.calleeContext⟩

/-- A recorded call that is made. -/
structure Delivery (σ : Type) where
  record : CallRecord
  call : Call
  callee : Function Value
  /-- The run in which the arguments are looked up. -/
  sender : Run σ
  /-- The run in which the body of the callee starts. -/
  entered : Run σ

namespace Delivery

variable {σ : Type}

abbrev edge (d : Delivery σ) : Edge := d.record.edge

/-- The arguments of the call, as the caller sees them when the call is made, are what the parameters
of the callee hold when its body starts. A parameter that occurs twice is bound at its last place. -/
structure Binds (d : Delivery σ) : Prop where
  stmt : d.edge.stmt = some (.call d.call)
  sent : d.sender.state.place = (if d.sender.state.scopes.contains d.edge.caller then some d.edge.caller
    else d.sender.state.global, d.edge.callerContext)
  arrived : d.entered.state.place = (some d.edge.callee, d.edge.calleeContext)
  bound : ∀ {i : Nat} {x p : String}, d.call.args[i]? = some x →
    (d.callee.positional d.record.receiver)[i]? = some p →
    (∀ j, i < j → (d.callee.positional d.record.receiver)[j]? ≠ some p) →
    Dict.get? (d.entered.state.frameAt d.edge.callee d.edge.calleeContext) p =
      some (d.sender.lookup x).orUnknown

end Delivery

namespace Run

variable {σ : Type} {a : Analyzer}

def atCaller (r : Run σ) (a : Analyzer) (e : Edge) : Run σ :=
  let r := { r with memo := e.key :: r.memo }
  let r := r.note a fun _ => "\n### PROPAGATING EDGE " ++ e.text ++ " ###"
  { r with state := r.state.setCurrent e.caller e.callerContext }

/-- The call that is made for a record, if one is. -/
def delivery? (r : Run σ) (a : Analyzer) (record : CallRecord) : Option (Delivery σ) :=
  match r.memo.contains record.edge.key, r.callable? a record.edge with
  | false, some (c, fn) =>
    let sender := r.atCaller a record.edge
    match sender.enter a fn (c.args.map sender.lookup) record.receiver record.edge.caller
      record.edge.index with
    | .ok entered => some ⟨record, c, fn, sender, entered⟩
    | .error _ => none
  | _, _ => none

def pendingDelivery? (r : Run σ) (a : Analyzer) (item : PendingCall) : Option (Delivery σ) :=
  match r.calls[item.index]? with
  | none => none
  | some record =>
    if item.propagates then none
    else delivery? { r with stats.edgesProcessed := r.stats.edgesProcessed + 1 } a record

/-- The calls that are made until the queue is empty, in their order. -/
def deliveries (a : Analyzer) : Nat → Run σ → List (Delivery σ)
  | fuel, r =>
    match r.queue with
    | [] => []
    | item :: rest =>
      match fuel with
      | 0 => []
      | fuel + 1 =>
        let r := { r with queue := rest }
        (r.pendingDelivery? a item).toList ++
          match r.processPending a item with
          | .ok r => deliveries a fuel r
          | .error _ => []

theorem delivery?_eq_some {r : Run σ} {record : CallRecord} {d : Delivery σ}
    (h : r.delivery? a record = some d) :
    d.record = record ∧ r.memo.contains record.edge.key = false ∧
      r.callable? a record.edge = some (d.call, d.callee) ∧ d.sender = r.atCaller a record.edge ∧
      d.sender.enter a d.callee (d.call.args.map d.sender.lookup) record.receiver record.edge.caller
        record.edge.index = .ok d.entered := by
  unfold delivery? at h
  split at h
  · rename_i c fn hmemo hcallable
    simp only at h
    split at h
    · rename_i entered hentered
      cases h
      exact ⟨rfl, hmemo, hcallable, rfl, hentered⟩
    · cases h
  · cases h

/-- A record is skipped, or its call is made and waits to be propagated. -/
theorem processCall_cases {r r' : Run σ} {index : Nat} {record : CallRecord}
    (h : r.processCall a index record = .ok r') :
    r' = r.skip ∧ r.delivery? a record = none ∧
        (r.memo.contains record.edge.key = true ∨ r.callable? a record.edge = none) ∨
      ∃ d v r₁ r₂, r.delivery? a record = some d ∧
        d.sender.invoke a a.body d.callee d.call.args (d.call.args.map d.sender.lookup) record.receiver
          record.edge.caller record.edge.index = .ok (v, r₁) ∧
        r₁.Quiet r₂ ∧ r' = r₂.requeue index := by
  unfold processCall at h
  simp only at h
  -- The call is made if the callee can be analysed and is not remembered; otherwise the record is skipped.
  split at h
  · rename_i c fn hmemo hcallable
    obtain ⟨⟨v, r₁⟩, hinvoke, h⟩ := Except.bind_eq_ok.mp h
    obtain ⟨entered, -, -, -, henter, -⟩ := invoke_cases hinvoke
    refine Or.inr ⟨⟨record, c, fn, r.atCaller a record.edge, entered⟩, v, r₁, ?_⟩
    have hdelivery : r.delivery? a record = some ⟨record, c, fn, r.atCaller a record.edge, entered⟩ := by
      have henter' : (r.atCaller a record.edge).enter a fn
          (c.args.map (r.atCaller a record.edge).lookup) record.receiver record.edge.caller
          record.edge.index = .ok entered := henter
      unfold delivery?
      rw [show r.memo.contains record.edge.key = false from hmemo, hcallable]
      simp only [henter']
    split at h
    · cases h
      exact ⟨r₁, hdelivery, hinvoke, .refl r₁, rfl⟩
    · obtain ⟨⟨w, s⟩, hmerge, h⟩ := Except.bind_eq_ok.mp h
      cases h
      exact ⟨_, hdelivery, hinvoke, r₁.quiet_state (State.quiet_mergeVariable hmerge), rfl⟩
  · rename_i hskip
    cases h
    refine Or.inl ⟨rfl, ?_, ?_⟩
    · unfold delivery?
      split
      · rename_i c fn hmemo hcallable
        exact absurd hcallable (hskip c fn hmemo)
      · rfl
    · cases hmemo : r.memo.contains record.edge.key with
      | true => exact Or.inl rfl
      | false =>
        refine Or.inr (Option.eq_none_iff_forall_ne_some.mpr fun p hcallable => ?_)
        exact hskip p.1 p.2 hmemo hcallable

theorem callable?_eq_some {r : Run σ} {e : Edge} {c : Call} {fn : Function Value}
    (h : r.callable? a e = some (c, fn)) :
    e.stmt = some (.call c) ∧ r.state.function? e.callee = some fn := by
  unfold callable? at h
  split at h
  · rename_i hstmt hfn hscope
    cases h
    exact ⟨hstmt, hfn⟩
  · cases h

/-- A call that is made binds the parameters of its callee to its arguments. -/
theorem binds_of_delivery? {r : Run σ} {record : CallRecord} {d : Delivery σ}
    (hnamed : r.state.NamesFunctions) (hderived : record.Derived r.state.config)
    (h : r.delivery? a record = some d) : d.Binds := by
  obtain ⟨rfl, -, hcallable, hsender, henter⟩ := delivery?_eq_some h
  obtain ⟨hstmt, hfn⟩ := callable?_eq_some hcallable
  have hname : d.callee.name = d.edge.callee := hnamed hfn
  have hsent : d.sender.state.place = (if d.sender.state.scopes.contains d.edge.caller then
      some d.edge.caller else d.sender.state.global, d.edge.callerContext) := by
    rw [hsender]
    exact State.place_setCurrent _ _ _
  have hcontext : d.sender.state.context = d.edge.callerContext := congrArg Prod.snd hsent
  have hconfig : d.sender.state.config = r.state.config := by
    rw [hsender]
    exact (State.moves_setCurrent _ _ _).config.trans (congrArg State.config (note_state _ _ _))
  obtain ⟨c, hfunction⟩ := enterFunction_of_enter henter
  obtain ⟨hderive, hplace, hmemory⟩ := State.enterFunction_spec hfunction
  have hpushed : (d.sender.state.pushCall d.record.edge.caller d.callee.name d.record.edge.index
      d.sender.state.context none).frames = _ :: d.sender.state.frames := rfl
  obtain ⟨_, _, hmoves⟩ := State.moves_enterFunction hpushed hfunction
  -- The context was derived at the caller when the edge was recorded, and the state stands at the caller again.
  have htarget : c = d.edge.calleeContext := by
    have hsame : d.edge.callerContext.derive r.state.config.policy r.state.config.depth d.edge.callSite
        ((d.record.receiver.map (·.id)).getD "") = .ok c := by
      rw [← hcontext, ← hconfig]
      exact hderive
    exact Except.ok.inj (hsame.symm.trans hderived)
  refine ⟨hstmt, hsent, ?_, ?_⟩
  · rw [hplace, hname, htarget]
  · intro i x p hx hp hlast
    have hkey : d.entered.state.frameKey d.edge.callee d.edge.calleeContext =
        d.sender.state.frameKey d.callee.name c := by
      rw [hname, htarget]
      unfold State.frameKey
      rw [hmoves.config]
      rfl
    have harg : (d.call.args.map d.sender.lookup).getD i Value.noneConstant = d.sender.lookup x := by
      simp [List.getD, hx]
    unfold State.frameAt
    rw [hkey, hmemory, ← harg]
    exact State.get?_parameter _ _ hp hlast

theorem grows_propagate (hdirect : a.options.directCalls = false) {r r' : Run σ} {e : Edge}
    (h : r.propagate a e = .ok r') : r.Grows r' := by
  unfold propagate at h
  obtain ⟨r₁, hrun, h⟩ := Except.bind_eq_ok.mp h
  obtain ⟨⟨f, s⟩, hexit, h⟩ := Except.bind_eq_ok.mp h
  cases h
  have hbody := (grows_pushCall _ _ _ _ _ _ _ _).trans (Analyzer.grows_body hdirect hrun)
  exact (r.quiet_note a _).grows.trans (hbody.trans (grows_exit hexit rfl rfl rfl rfl))

theorem grows_atCaller (r : Run σ) (a : Analyzer) (e : Edge) :
    Grows { r with memo := e.key :: r.memo } (r.atCaller a e) :=
  (quiet_note _ a _).grows.trans (grows_setCurrent _ _ _)

/-- What is taken from the queue is propagated or skipped, which only adds to the ledger, or it is a
record whose call is made and remembered. -/
theorem processPending_cases (hdirect : a.options.directCalls = false) {r r' : Run σ} {item : PendingCall}
    (h : r.processPending a item = .ok r') :
    (r.pendingDelivery? a item = none ∧ r.Grows r' ∧
      (item.propagates = false → ∀ record, r.calls[item.index]? = some record →
        r.memo.contains record.edge.key = true ∨ r.callable? a record.edge = none)) ∨
    ∃ d r₁, r.pendingDelivery? a item = some d ∧ item.propagates = false ∧
      r.calls[item.index]? = some d.record ∧
      Run.delivery? { r with stats.edgesProcessed := r.stats.edgesProcessed + 1 } a d.record = some d ∧
      Grows { r with memo := d.edge.key :: r.memo } r₁ ∧ r' = r₁.requeue item.index := by
  -- Edges are counted before anything else, so a call is delivered in the run that has counted its edge.
  have hcounted : r.Grows { r with stats.edgesProcessed := r.stats.edgesProcessed + 1 } :=
    .of_moves (.refl _) rfl rfl rfl
  unfold processPending at h
  simp only at h
  unfold pendingDelivery?
  cases hrecord : r.calls[item.index]? with
  | none =>
    rw [hrecord] at h
    cases h
    exact Or.inl ⟨rfl, hcounted, fun _ record hsome => by simp at hsome⟩
  | some record =>
    rw [hrecord] at h
    simp only at h ⊢
    split at h
    · rename_i hpropagates
      rw [if_pos hpropagates]
      refine Or.inl ⟨rfl, hcounted.trans (grows_propagate hdirect h), fun hplain => ?_⟩
      simp [hplain] at hpropagates
    · rename_i hplain
      rw [if_neg hplain]
      rw [Bool.not_eq_true] at hplain
      rcases processCall_cases h with ⟨rfl, hnone, hskip⟩ | ⟨d, v, r₁, r₂, hdelivery, hinvoke, hquiet, rfl⟩
      · refine Or.inl ⟨hnone, hcounted.trans (.of_moves (.refl _) rfl rfl rfl), fun _ record' hsome => ?_⟩
        cases hsome
        exact hskip
      · obtain ⟨rfl, -, -, hsender, -⟩ := delivery?_eq_some hdelivery
        refine Or.inr ⟨d, r₂, hdelivery, hplain, rfl, hdelivery, ?_, rfl⟩
        have hinvoked := grows_invoke (Analyzer.grows_body hdirect) hinvoke
        rw [hsender] at hinvoked
        refine Grows.trans ?_ ((grows_atCaller _ a d.edge).trans (hinvoked.trans hquiet.grows))
        exact .of_moves (.refl _) rfl rfl rfl

end Run

end AbstractFlow
