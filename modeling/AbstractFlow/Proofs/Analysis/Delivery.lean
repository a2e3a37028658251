import AbstractFlow.Proofs.Analysis.Propagation
import AbstractFlow.Proofs.Value.Cover

/-! # One delivery for each callee and context

While recorded calls are taken from the queue, those that were not taken yet wait in the order of the
ledger. So the first record that leads to a function under a context is the first one to be taken, its
call is made, and from then on the pair is remembered and no call is made for it again.
-/
namespace AbstractFlow

namespace Run

variable {σ : Type} {a : Analyzer} {r r' : Run σ} {k : Nat}

/-- The ledger is in order: the first `k` records were taken from the queue, and the others wait in it
one after the other. -/
structure Balanced (r : Run σ) (k : Nat) : Prop where
  edges : r.state.callGraph.edges = r.calls.map (·.edge)
  derived : ∀ record ∈ r.calls, record.Derived r.state.config
  called : ∀ record ∈ r.calls, ∃ c, record.edge.stmt = some (.call c)
  named : r.state.NamesFunctions
  taken : k ≤ r.calls.length
  pending : r.queue.filter (fun p => !p.propagates) = PendingCall.made (List.range' k (r.calls.length - k))

theorem filter_made (indices : List Nat) :
    (PendingCall.made indices).filter (fun p => !p.propagates) = PendingCall.made indices := by
  unfold PendingCall.made
  rw [List.filter_map]
  simp [Function.comp_def]

theorem Balanced.grows (h : r.Balanced k) (hgrows : r.Grows r') : r'.Balanced k := by
  obtain ⟨new, hnew⟩ := hgrows
  refine ⟨?_, ?_, ?_, hnew.recalls.namesFunctions h.named, ?_, ?_⟩
  · rw [hnew.edges, hnew.calls, h.edges, List.map_append]
  · intro record hrecord
    rw [hnew.config]
    rcases List.mem_append.mp (hnew.calls ▸ hrecord) with hold | hadded
    · exact h.derived record hold
    · exact hnew.derived record hadded
  · intro record hrecord
    rcases List.mem_append.mp (hnew.calls ▸ hrecord) with hold | hadded
    · exact h.called record hold
    · exact hnew.called record hadded
  · have := h.taken
    rw [hnew.calls, List.length_append]
    omega
  · have htaken := h.taken
    -- What is new in the ledger stands at its end, and waits at the end of the queue.
    have hplaces : List.range' k (r'.calls.length - k) =
        List.range' k (r.calls.length - k) ++ List.range' r.calls.length new.length := by
      have hstart : k + (r.calls.length - k) = r.calls.length := by omega
      have hlength : r'.calls.length - k = r.calls.length - k + new.length := by
        rw [hnew.calls, List.length_append]
        omega
      rw [hlength, ← List.range'_append_1, hstart]
    rw [hnew.queue, List.filter_append, h.pending, filter_made, hplaces]
    simp [PendingCall.made]

theorem Balanced.requeue (h : r.Balanced k) (index : Nat) : (r.requeue index).Balanced k := by
  unfold Run.requeue
  split
  · exact h
  · refine ⟨h.edges, h.derived, h.called, h.named, h.taken, ?_⟩
    rw [List.filter_append, h.pending]
    simp

theorem Balanced.withMemo (h : r.Balanced k) (memo : List FrameKey) : Balanced { r with memo } k :=
  ⟨h.edges, h.derived, h.called, h.named, h.taken, h.pending⟩

theorem Balanced.drop (h : r.Balanced k) {item : PendingCall} {rest : List PendingCall}
    (hqueue : r.queue = item :: rest) (hpropagates : item.propagates = true) :
    Balanced { r with queue := rest } k := by
  refine ⟨h.edges, h.derived, h.called, h.named, h.taken, ?_⟩
  have hpending := h.pending
  rw [hqueue, List.filter_cons_of_neg (by simp [hpropagates])] at hpending
  exact hpending

theorem Balanced.take (h : r.Balanced k) {item : PendingCall} {rest : List PendingCall}
    (hqueue : r.queue = item :: rest) (hplain : item.propagates = false) :
    item.index = k ∧ k < r.calls.length ∧ Balanced { r with queue := rest } (k + 1) := by
  have htaken := h.taken
  have hpending := h.pending
  rw [hqueue, List.filter_cons_of_pos (by simp [hplain])] at hpending
  cases hleft : r.calls.length - k with
  | zero =>
    rw [hleft] at hpending
    simp [PendingCall.made] at hpending
  | succ left =>
    rw [hleft, List.range'_succ] at hpending
    obtain ⟨hitem, hrest⟩ := List.cons.inj hpending
    refine ⟨congrArg PendingCall.index hitem, by omega, h.edges, h.derived, h.called, h.named, ?_, ?_⟩
    · show k + 1 ≤ r.calls.length
      omega
    · have hsucc : r.calls.length - (k + 1) = left := by omega
      rw [hrest, hsucc]
      rfl

theorem calls_requeue (r : Run σ) (index : Nat) : (r.requeue index).calls = r.calls := by
  unfold Run.requeue
  split <;> rfl

theorem state_requeue (r : Run σ) (index : Nat) : (r.requeue index).state = r.state := by
  unfold Run.requeue
  split <;> rfl

theorem memo_requeue (r : Run σ) (index : Nat) : (r.requeue index).memo = r.memo := by
  unfold Run.requeue
  split <;> rfl

theorem processPending_extends (hdirect : a.options.directCalls = false) {item : PendingCall}
    (h : r.processPending a item = .ok r') : r.calls <+: r'.calls ∧ ∀ key ∈ r.memo, key ∈ r'.memo := by
  rcases processPending_cases hdirect h with ⟨-, ⟨new, hnew⟩, -⟩ | ⟨d, r₁, -, -, -, -, ⟨new, hnew⟩, rfl⟩
  · refine ⟨⟨new, hnew.calls.symm⟩, fun key hkey => ?_⟩
    rw [hnew.memo]
    exact hkey
  · rw [calls_requeue, memo_requeue]
    refine ⟨⟨new, hnew.calls.symm⟩, fun key hkey => ?_⟩
    rw [hnew.memo]
    exact List.mem_cons_of_mem _ hkey

theorem solve_cases {fuel : Nat} (h : r.solve a fuel = .ok r') :
    (r.queue = [] ∧ r = r') ∨ ∃ item rest left r₁, r.queue = item :: rest ∧ fuel = left + 1 ∧
      processPending { r with queue := rest } a item = .ok r₁ ∧ r₁.solve a left = .ok r' := by
  unfold solve at h
  split at h
  · rename_i hqueue
    cases h
    exact Or.inl ⟨hqueue, rfl⟩
  · rename_i item rest hqueue
    split at h
    · cases h
    · rename_i left
      obtain ⟨r₁, hstep, hrest⟩ := Except.bind_eq_ok.mp h
      exact Or.inr ⟨item, rest, left, r₁, hqueue, rfl, hstep, hrest⟩

/-- The ledger stays in order, one record further on if one was taken. -/
theorem Balanced.step (hdirect : a.options.directCalls = false) (h : r.Balanced k) {item : PendingCall}
    {rest : List PendingCall} {r₁ : Run σ} (hqueue : r.queue = item :: rest)
    (hstep : processPending { r with queue := rest } a item = .ok r₁) :
    r₁.Balanced (if item.propagates then k else k + 1) := by
  rcases processPending_cases hdirect hstep with ⟨-, hgrows, -⟩ | ⟨d, r₂, -, hplain, -, -, hgrows, rfl⟩
  · cases hpropagates : item.propagates with
    | true => exact (h.drop hqueue hpropagates).grows hgrows
    | false => exact (h.take hqueue hpropagates).2.2.grows hgrows
  · rw [hplain]
    exact (((h.take hqueue hplain).2.2.withMemo _).grows hgrows).requeue _

theorem Balanced.solve (hdirect : a.options.directCalls = false) (h : r.Balanced k) {fuel : Nat}
    (hsolve : r.solve a fuel = .ok r') : ∃ k', r'.Balanced k' := by
  induction fuel generalizing r k with
  | zero =>
    rcases solve_cases hsolve with ⟨-, rfl⟩ | ⟨item, rest, left, r₁, -, hfuel, -⟩
    · exact ⟨k, h⟩
    · exact absurd hfuel (by omega)
  | succ fuel ih =>
    rcases solve_cases hsolve with ⟨-, rfl⟩ | ⟨item, rest, left, r₁, hqueue, hfuel, hstep, hrest⟩
    · exact ⟨k, h⟩
    · obtain rfl : fuel = left := by omega
      exact ih (h.step hdirect hqueue hstep) hrest

theorem deliveries_of_idle (hqueue : r.queue = []) (fuel : Nat) : r.deliveries a fuel = [] := by
  unfold deliveries
  rw [hqueue]

theorem deliveries_succ {item : PendingCall} {rest : List PendingCall} {r₁ : Run σ} {fuel : Nat}
    (hqueue : r.queue = item :: rest) (hstep : processPending { r with queue := rest } a item = .ok r₁) :
    r.deliveries a (fuel + 1) =
      (pendingDelivery? { r with queue := rest } a item).toList ++ r₁.deliveries a fuel := by
  conv_lhs => unfold deliveries
  rw [hqueue]
  simp only [hstep]

theorem solve_extends (hdirect : a.options.directCalls = false) {fuel : Nat}
    (h : r.solve a fuel = .ok r') : r.calls <+: r'.calls := by
  induction fuel generalizing r with
  | zero =>
    rcases solve_cases h with ⟨-, rfl⟩ | ⟨item, rest, left, r₁, -, hfuel, -⟩
    · exact List.prefix_refl _
    · exact absurd hfuel (by omega)
  | succ fuel ih =>
    rcases solve_cases h with ⟨-, rfl⟩ | ⟨item, rest, left, r₁, -, hfuel, hstep, hrest⟩
    · exact List.prefix_refl _
    · obtain rfl : fuel = left := by omega
      exact (processPending_extends hdirect hstep).1.trans (ih hrest)

theorem deliveries_of_memo (hdirect : a.options.directCalls = false) {key : FrameKey} {fuel : Nat}
    (hkey : key ∈ r.memo) (h : r.solve a fuel = .ok r') :
    (r.deliveries a fuel).filter (fun d => d.edge.key = key) = [] := by
  induction fuel generalizing r with
  | zero =>
    rcases solve_cases h with ⟨hidle, -⟩ | ⟨item, rest, left, r₁, -, hfuel, -⟩
    · rw [deliveries_of_idle hidle, List.filter_nil]
    · exact absurd hfuel (by omega)
  | succ fuel ih =>
    rcases solve_cases h with ⟨hidle, -⟩ | ⟨item, rest, left, r₁, hqueue, hfuel, hstep, hrest⟩
    · rw [deliveries_of_idle hidle, List.filter_nil]
    · obtain rfl : fuel = left := by omega
      have hkept := (processPending_extends hdirect hstep).2 key hkey
      rw [deliveries_succ hqueue hstep, List.filter_append, ih hkept hrest, List.append_nil]
      rcases processPending_cases hdirect hstep with ⟨hnone, -⟩ | ⟨d, -, hsome, -, -, hdelivery, -⟩
      · rw [hnone]
        rfl
      · have hnew := (delivery?_eq_some hdelivery).2.1
        have hne : d.edge.key ≠ key := by
          rintro rfl
          exact absurd hkey (by simpa using hnew)
        rw [hsome]
        simp [hne]

theorem Balanced.take_of_idle (h : r.Balanced k) (hqueue : r.queue = []) : r.calls.take k = r.calls := by
  have hpending := h.pending
  rw [hqueue, List.filter_nil] at hpending
  have hnone : r.calls.length - k = 0 := by
    have hlength := congrArg List.length hpending
    simpa [PendingCall.made] using hlength.symm
  exact List.take_of_length_le (by omega)

theorem mem_memo_of_skipped {record : CallRecord} {c : Call} {fn : Function Value}
    (hstmt : record.edge.stmt = some (.call c)) (hfn : r.state.function? record.edge.callee = some fn)
    (hscope : (a.scope? record.edge.callee).isSome = true)
    (hskipped : r.memo.contains record.edge.key = true ∨ r.callable? a record.edge = none) :
    record.edge.key ∈ r.memo := by
  rcases hskipped with hmemo | hnone
  · simpa using hmemo
  · obtain ⟨scope, hscope⟩ := Option.isSome_iff_exists.mp hscope
    unfold callable? at hnone
    simp [hstmt, hfn, hscope] at hnone

theorem take_succ_of_extends {calls calls' : List CallRecord} (h : calls <+: calls') {record : CallRecord}
    (hk : calls[k]? = some record) : calls'.take (k + 1) = calls.take k ++ [record] := by
  obtain ⟨new, rfl⟩ := h
  obtain ⟨hlt, hget⟩ := List.getElem?_eq_some_iff.mp hk
  rw [List.take_append_of_le_length hlt, List.take_succ_eq_append_getElem hlt, hget]

/-- Of the records that were taken none leads to a callee under a context, so no call was made for the
two yet. -/
structure Awaits (key : FrameKey) (fn : Function Value) (k : Nat) (r : Run σ) : Prop where
  balanced : r.Balanced k
  known : r.state.function? key.scope = some fn
  new : key ∉ r.memo
  first : ∀ record ∈ r.calls.take k, record.edge.key ≠ key

namespace Awaits

variable {key : FrameKey} {fn : Function Value} {item : PendingCall} {rest : List PendingCall} {r₁ : Run σ}

theorem ne_of_idle (h : Awaits key fn k r) (hqueue : r.queue = []) {record : CallRecord}
    (hrecord : record ∈ r.calls) : record.edge.key ≠ key := by
  rw [← h.balanced.take_of_idle hqueue] at hrecord
  exact h.first record hrecord

theorem advance (h : Awaits key fn k r) {record : CallRecord} (hk : r.calls[k]? = some record)
    (hne : record.edge.key ≠ key) (hbalanced : r₁.Balanced (k + 1))
    (hrecalls : r.state.Recalls r₁.state) (hcalls : r.calls <+: r₁.calls) (hnew : key ∉ r₁.memo) :
    Awaits key fn (k + 1) r₁ := by
  refine ⟨hbalanced, hrecalls.kept h.known, hnew, fun other hother => ?_⟩
  rw [take_succ_of_extends hcalls hk] at hother
  rcases List.mem_append.mp hother with hother | hother
  · exact h.first other hother
  · exact List.mem_singleton.mp hother ▸ hne

/-- What is taken from the queue leaves everything as it was for the callee and the context, or it is
the first record that leads there and its call is made. -/
theorem step (hdirect : a.options.directCalls = false) (hscope : (a.scope? key.scope).isSome = true)
    (h : Awaits key fn k r) (hqueue : r.queue = item :: rest)
    (hstep : processPending { r with queue := rest } a item = .ok r₁) :
    ((pendingDelivery? { r with queue := rest } a item).toList.filter (fun d => d.edge.key = key) = [] ∧
      ∃ k', Awaits key fn k' r₁) ∨
    ∃ d, pendingDelivery? { r with queue := rest } a item = some d ∧ d.edge.key = key ∧
      key ∈ r₁.memo ∧ r₁.calls.take (k + 1) = r.calls.take k ++ [d.record] ∧ d.callee = fn ∧ d.Binds := by
  have hcalls : r.calls <+: r₁.calls := (processPending_extends hdirect hstep).1
  have hbalanced := h.balanced.step hdirect hqueue hstep
  rcases processPending_cases hdirect hstep with
    ⟨hnone, hgrows, hskipped⟩ | ⟨d, r₂, hsome, hplain, hplace, hdelivery, ⟨new, hnew⟩, rfl⟩
  · refine Or.inl ⟨by rw [hnone]; rfl, ?_⟩
    obtain ⟨new, hnew⟩ := hgrows
    have hmemo : key ∉ r₁.memo := fun hmem => h.new (hnew.memo ▸ hmem)
    cases hpropagates : item.propagates with
    | true =>
      rw [hpropagates, if_pos rfl] at hbalanced
      refine ⟨k, hbalanced, hnew.recalls.kept h.known, hmemo, fun record hmem => ?_⟩
      obtain ⟨added, hadded⟩ := hcalls
      rw [← hadded, List.take_append_of_le_length h.balanced.taken] at hmem
      exact h.first record hmem
    | false =>
      obtain ⟨hindex, hlt, -⟩ := h.balanced.take hqueue hpropagates
      rw [hpropagates] at hbalanced
      -- A record for `key` would not have been skipped: its callee can be analysed, and it is not remembered.
      have hk : r.calls[k]? = some r.calls[k] := List.getElem?_eq_getElem hlt
      refine ⟨k + 1, h.advance hk (fun hkey => ?_) hbalanced hnew.recalls hcalls hmemo⟩
      obtain ⟨c, hstmt⟩ := h.balanced.called _ (List.getElem_mem hlt)
      have hcallee : r.calls[k].edge.callee = key.scope := congrArg FrameKey.scope hkey
      have hfn : r.state.function? r.calls[k].edge.callee = some fn := hcallee ▸ h.known
      refine h.new (hkey ▸ mem_memo_of_skipped hstmt hfn ?_ (hskipped hpropagates _ (hindex ▸ hk)))
      rw [hcallee]
      exact hscope
  · obtain ⟨hindex, -⟩ := h.balanced.take hqueue hplain
    have hk : r.calls[k]? = some d.record := hindex ▸ hplace
    rw [hplain] at hbalanced
    by_cases hkey : d.edge.key = key
    · obtain ⟨-, -, hcallable, -, -⟩ := delivery?_eq_some hdelivery
      have hcallee : d.edge.callee = key.scope := congrArg FrameKey.scope hkey
      have hfn : r.state.function? d.edge.callee = some d.callee := (callable?_eq_some hcallable).2
      refine Or.inr ⟨d, hsome, hkey, ?_, take_succ_of_extends hcalls hk, ?_, ?_⟩
      · rw [memo_requeue, hnew.memo, ← hkey]
        exact List.mem_cons_self
      · rw [hcallee, h.known] at hfn
        exact (Option.some.inj hfn).symm
      · have hderived := h.balanced.derived _ (List.mem_of_getElem? hk)
        refine binds_of_delivery? ?_ ?_ hdelivery
        · exact h.balanced.named
        · exact hderived
    · refine Or.inl ⟨by rw [hsome]; simp [hkey], k + 1, ?_⟩
      refine h.advance hk hkey hbalanced ?_ hcalls ?_
      · rw [state_requeue]
        exact hnew.recalls
      · rw [memo_requeue, hnew.memo, List.mem_cons, not_or]
        exact ⟨Ne.symm hkey, h.new⟩

end Awaits

/-- The first record of a callee and a context delivers its arguments, and no other one does. -/
theorem deliveries_of_solve (hdirect : a.options.directCalls = false) {key : FrameKey}
    {fn : Function Value} {fuel : Nat} (hscope : (a.scope? key.scope).isSome = true)
    (hawaits : Awaits key fn k r) (h : r.solve a fuel = .ok r')
    (hrecord : ∃ record ∈ r'.calls, record.edge.key = key) :
    ∃ d, (r.deliveries a fuel).filter (fun d => d.edge.key = key) = [d] ∧
      r'.calls.find? (fun record => record.edge.key = key) = some d.record ∧ d.callee = fn ∧ d.Binds := by
  obtain ⟨record, hmem, hkey⟩ := hrecord
  -- `Awaits` is carried along until a call is made for `key`; from then on `key` is remembered.
  induction fuel generalizing r k with
  | zero =>
    rcases solve_cases h with ⟨hqueue, rfl⟩ | ⟨item, rest, left, r₁, -, hfuel, -⟩
    · exact absurd hkey (hawaits.ne_of_idle hqueue hmem)
    · exact absurd hfuel (by omega)
  | succ fuel ih =>
    rcases solve_cases h with ⟨hqueue, rfl⟩ | ⟨item, rest, left, r₁, hqueue, hfuel, hstep, hrest⟩
    · exact absurd hkey (hawaits.ne_of_idle hqueue hmem)
    · obtain rfl : fuel = left := by omega
      rw [deliveries_succ hqueue hstep, List.filter_append]
      rcases hawaits.step hdirect hscope hqueue hstep with
        ⟨hnone, k', hawaits'⟩ | ⟨d, hsome, hkey, hmemo, htake, hcallee, hbinds⟩
      · rw [hnone, List.nil_append]
        exact ih hawaits' hrest
      · refine ⟨d, ?_, ?_, hcallee, hbinds⟩
        · rw [hsome, deliveries_of_memo hdirect hmemo hrest]
          simp [hkey]
        · obtain ⟨added, hadded⟩ := solve_extends hdirect hrest
          have hsplit : r'.calls = r.calls.take k ++ d.record :: (r₁.calls.drop (k + 1) ++ added) :=
            calc r'.calls = r₁.calls ++ added := hadded.symm
              _ = r₁.calls.take (k + 1) ++ r₁.calls.drop (k + 1) ++ added := by
                rw [List.take_append_drop]
              _ = r.calls.take k ++ d.record :: (r₁.calls.drop (k + 1) ++ added) := by
                rw [htake]
                simp
          rw [hsplit]
          refine List.find?_eq_some_iff_append.mpr ⟨by simpa using hkey, _, _, rfl, fun other hother => ?_⟩
          simpa using hawaits.first other hother

end Run

namespace Analyzer

variable {σ : Type} {a : Analyzer}

/-- Runs through all bodies; the calls that are found on the way wait. -/
def explore (a : Analyzer) (r : Run σ) : Except Violation (Run σ) := do
  let scopes := a.scopes.map (·.2)
  let r ← scopes.foldlM a.analyzeModule r
  scopes.foldlM a.analyzeRest r

theorem run_eq (r : Run σ) : a.run r = a.explore r >>= fun r => r.solve a callBound := by
  simp only [run, explore, bind_assoc]

theorem grows_explore (hdirect : a.options.directCalls = false) {r r' : Run σ}
    (h : a.explore r = .ok r') : r.Grows r' := by
  have hrule := Run.bodyRule_grows (σ := σ) hdirect (grows_body hdirect)
  obtain ⟨r₁, hmodules, hrest⟩ := Except.bind_eq_ok.mp h
  refine Run.Grows.trans ?_ (hrule.foldlM (g := id) (fun hscope => grows_analyzeRest hdirect hscope) hrest)
  exact hrule.foldlM (g := id) (fun hscope => grows_analyzeModule hdirect hscope) hmodules

/-- The run in which an analysis without an oracle starts to propagate calls. -/
def explored (a : Analyzer) (start : σ) : Option (Run σ) :=
  match a.options.validate with
  | .error _ => none
  | .ok policy =>
    match a.startState policy with
    | .error _ => none
    | .ok state => (a.explore { state, oracle := ⟨none, start, []⟩ }).toOption

/-- The calls that an analysis without an oracle makes, in their order. -/
def deliveries (a : Analyzer) (start : σ) : List (Delivery σ) :=
  match a.explored start with
  | none => []
  | some r => r.deliveries a callBound

theorem explored_of_analyze {start : σ} {res : Result σ} (h : a.analyze none none start = .ok res) :
    ∃ policy state r r', a.startState policy = .ok state ∧
      a.explore { state, oracle := ⟨none, start, []⟩ } = .ok r ∧ a.explored start = some r ∧
      r.solve a callBound = .ok r' ∧ res.state = r'.state := by
  unfold analyze at h
  simp only at h
  unfold analyzeWith at h
  split at h
  · cases h
  · rename_i policy hpolicy
    simp only at h
    split at h
    · cases h
    · rename_i r' hrun
      obtain ⟨state, hstate, hrun⟩ := Except.bind_eq_ok.mp hrun
      rw [run_eq] at hrun
      obtain ⟨r, hexplore, hsolve⟩ := Except.bind_eq_ok.mp hrun
      refine ⟨policy, state, r, r', hstate, hexplore, ?_, hsolve, ?_⟩
      · simp only [explored, hpolicy, hstate, hexplore]
        rfl
      · cases h
        unfold finish
        split <;> rfl

theorem awaits_explored (ha : a.Distinct) (hdirect : a.options.directCalls = false) {policy : Policy}
    {state : State} {start : σ} {r : Run σ} {key : FrameKey} {scope : Scope}
    (hstate : a.startState policy = .ok state)
    (h : a.explore { state, oracle := ⟨none, start, []⟩ } = .ok r)
    (hscope : a.scope? key.scope = some scope) (hkind : scope.kind = .function) :
    Run.Awaits key (a.functionOf scope) 0 r := by
  have hbegins := begins_startState ha hstate
  have hgrows := grows_explore hdirect h
  have hempty : Run.Balanced (σ := σ) { state, oracle := ⟨none, start, []⟩ } 0 := by
    refine ⟨?_, by simp, by simp, hbegins.named, Nat.zero_le _, rfl⟩
    rw [hbegins.callGraph]
    rfl
  refine ⟨hempty.grows hgrows, ?_, ?_, by simp⟩
  · obtain ⟨new, hnew⟩ := hgrows
    exact hnew.recalls.kept (hbegins.known hscope hkind)
  · obtain ⟨new, hnew⟩ := hgrows
    rw [hnew.memo]
    simp

/-- Of all edges that lead to a function scope under one context, the first one is made, with the
arguments that its caller has at that moment. No other one is, and the first one is not made again. -/
theorem delivers_once {o : Options} {bindings : List Prebinding} {tracing : Bool} {p : Program}
    {start : σ} {res : Result σ} {e : Edge} {scope : Scope} (hdirect : o.directCalls = false)
    (h : (ofProgram o bindings tracing p).analyze none none start = .ok res)
    (he : e ∈ res.state.callGraph.edges)
    (hscope : (ofProgram o bindings tracing p).scope? e.callee = some scope)
    (hkind : scope.kind = .function) :
    ∃ d, ((ofProgram o bindings tracing p).deliveries start).filter (fun d => d.edge.key = e.key) = [d] ∧
      res.state.callGraph.edges.find? (fun e' => e'.key = e.key) = some d.edge ∧
      d.callee = (ofProgram o bindings tracing p).functionOf scope ∧ d.Binds := by
  obtain ⟨hdistinct, hoptions⟩ := distinct_ofProgram o bindings tracing p
  generalize ofProgram o bindings tracing p = a at *
  obtain ⟨policy, state, r, r', hstate, hexplore, hexplored, hsolve, hres⟩ := explored_of_analyze h
  have hdirect' : a.options.directCalls = false := by rw [hoptions, hdirect]
  have hawaits : Run.Awaits e.key (a.functionOf scope) 0 r :=
    awaits_explored hdistinct hdirect' hstate hexplore hscope hkind
  obtain ⟨k, hbalanced⟩ := hawaits.balanced.solve hdirect' hsolve
  rw [hres, hbalanced.edges] at he ⊢
  obtain ⟨record, hrecord, rfl⟩ := List.mem_map.mp he
  have hsome : (a.scope? record.edge.key.scope).isSome = true := Option.isSome_iff_exists.mpr ⟨scope, hscope⟩
  obtain ⟨d, honce, hfirst, hcallee, hbinds⟩ :=
    Run.deliveries_of_solve hdirect' hsome hawaits hsolve ⟨record, hrecord, rfl⟩
  refine ⟨d, ?_, ?_, hcallee, hbinds⟩
  · rw [deliveries, hexplored]
    exact honce
  · rw [List.find?_map]
    exact congrArg (Option.map CallRecord.edge) hfirst

def echo : Scope := ⟨"m.f", .function, "m", ["p"], [], [], false, [.ret "p"]⟩

/-- A loop whose argument for `f` becomes more when the call of `h` behind it is propagated. -/
def growingArgument : Program where
  scopes :=
    [{ Scope.emptyModule "m" with
        body := [.functionDef "f" "m.f", .functionDef "h" "m.h", .const "r" (.int 1), .label "L",
          .call ⟨"", "f", "", ["r"], []⟩, .call ⟨"r", "h", "", [], []⟩, .goto "L"] },
      echo, ⟨"m.h", .function, "m", [], [], [], false, [.const "v" (.str (.ofString "a")), .ret "v"]⟩]

theorem delivers_once_growingArgument :
    ∃ (res : Result Unit) (e : Edge),
      (ofProgram { directCalls := false } [] false growingArgument).analyze none none () = .ok res ∧
      e ∈ res.state.callGraph.edges ∧ e.callee = "m.f" ∧
      ∃ d : Delivery Unit, ((ofProgram { directCalls := false } [] false growingArgument).deliveries ()).filter
          (fun d => d.edge.key = e.key) = [d] ∧
        res.state.callGraph.edges.find? (fun e' => e'.key = e.key) = some d.edge ∧
        d.callee = (ofProgram { directCalls := false } [] false growingArgument).functionOf echo ∧ d.Binds := by
  have htest : ((ofProgram { directCalls := false } [] false growingArgument).analyze none none ()).toOption.any
      (fun res => res.state.callGraph.edges.any fun e => e.callee = "m.f") = true := by decide +kernel
  obtain ⟨res, hres, hedges⟩ := Except.exists_ok_of_any htest
  obtain ⟨e, he, hcallee⟩ := List.any_eq_true.mp hedges
  rw [decide_eq_true_eq] at hcallee
  have hscope : (ofProgram { directCalls := false } [] false growingArgument).scope? e.callee = some echo := by
    rw [hcallee]
    decide +kernel
  exact ⟨res, e, hres, he, hcallee, delivers_once rfl hres he hscope rfl⟩

/-- Whether in the end some argument of an edge is not covered by the parameter at its place. -/
def misses (p : Program) (res : Result σ) (e : Edge) : Bool :=
  match e.stmt, p.scope? e.callee with
  | some (.call c), some scope => (c.args.zip scope.params).any fun (x, param) =>
    match res.lookupIn e.caller e.callerContext x, res.lookupIn e.callee e.calleeContext param with
    | some v, some w => !decide (w.Covers v)
    | _, _ => false
  | _, _ => false

def Loses (o : Options) (p : Program) : Prop :=
  ∃ res : Result Unit, (ofProgram o [] false p).analyze none none () = .ok res ∧ res.isComplete = true ∧
    ∃ e ∈ res.state.callGraph.edges, misses p res e = true

theorem loses_of_any {o : Options} {p : Program}
    (h : ((ofProgram o [] false p).analyze none none ()).toOption.any (fun res =>
      res.isComplete && res.state.callGraph.edges.any (misses p res)) = true) : Loses o p := by
  obtain ⟨res, hres, hmisses⟩ := Except.exists_ok_of_any h
  rw [Bool.and_eq_true, List.any_eq_true] at hmisses
  exact ⟨res, hres, hmisses⟩

/-- A function that is handed on and called under one context with two arguments. -/
def sharedContext : Program where
  scopes :=
    [{ Scope.emptyModule "m" with
        body := [.functionDef "f" "m.f", .functionDef "g" "m.g", .const "r" (.int 1),
          .call ⟨"", "g", "", ["r", "f"], []⟩, .const "s" (.str (.ofString "a")),
          .call ⟨"", "g", "", ["s", "f"], []⟩] },
      echo, ⟨"m.g", .function, "m", ["q", "h"], [], [], false, [.call ⟨"", "h", "", ["q"], []⟩]⟩]

def overwrittenParameter : Program where
  scopes :=
    [{ Scope.emptyModule "m" with
        body := [.functionDef "f" "m.f", .const "r" (.int 1), .call ⟨"", "f", "", ["r"], []⟩] },
      { echo with body := [.const "p" (.str (.ofString "a")), .ret "p"] }]

/-- What grows in the caller behind its call, what a second call brings under the same context, and what
the callee overwrites is not covered in the end. -/
theorem loses_arguments :
    Loses { directCalls := false } growingArgument ∧
      Loses { directCalls := false, contextDepth := 1 } sharedContext ∧
      Loses { directCalls := false, flowSensitive := false } overwrittenParameter := by
  refine ⟨loses_of_any ?_, loses_of_any ?_, loses_of_any ?_⟩
  · decide +kernel
  · decide +kernel
  · decide +kernel

end Analyzer

end AbstractFlow
