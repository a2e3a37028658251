import AbstractFlow.Proofs.Analysis.Accounting
import AbstractFlow.Proofs.Analysis.Upkeep

/-! # An analysis after some rounds

The solver takes calls from its queue until none waits. Here it is stopped after some rounds, and an analysis
that is stopped has no result yet. This tells an analysis that goes on from one that is ended by a violation:
the result of an analysis is what it has after sufficiently many rounds.
-/
namespace AbstractFlow

namespace Run

variable {σ : Type} {a : Analyzer} {r r' : Run σ} {n : Nat}

/-- Takes at most `n` calls from the queue; there is no result as long as calls wait. -/
def solveWithin (a : Analyzer) : Nat → Run σ → Except Violation (Option (Run σ))
  | n, r =>
    match r.queue with
    | [] => .ok (some r)
    | item :: rest =>
      match n with
      | 0 => .ok none
      | n + 1 => do
        let r ← processPending { r with queue := rest } a item
        solveWithin a n r

theorem solveWithin_of_idle (hqueue : r.queue = []) (n : Nat) : r.solveWithin a n = .ok (some r) := by
  unfold solveWithin
  rw [hqueue]

theorem solveWithin_succ {item : PendingCall} {rest : List PendingCall} (hqueue : r.queue = item :: rest) (n : Nat) :
    r.solveWithin a (n + 1) =
      processPending { r with queue := rest } a item >>= fun r => r.solveWithin a n := by
  conv_lhs => unfold solveWithin
  rw [hqueue]

theorem solve_eq (n : Nat) (r : Run σ) :
    r.solve a n = r.solveWithin a n >>= fun x => x.elim (.error .endless) .ok := by
  induction n generalizing r with
  | zero =>
    unfold solve solveWithin
    cases r.queue <;> rfl
  | succ n ih =>
    unfold solve solveWithin
    cases r.queue with
    | nil => rfl
    | cons item rest =>
      simp only [bind_assoc]
      exact bind_congr fun r₁ => ih r₁

theorem solveWithin_mono (h : r.solveWithin a n = .ok (some r')) {m : Nat} (hm : n ≤ m) :
    r.solveWithin a m = .ok (some r') := by
  induction n generalizing r m with
  | zero =>
    cases hqueue : r.queue with
    | nil =>
      rw [solveWithin_of_idle hqueue] at h ⊢
      exact h
    | cons item rest =>
      unfold solveWithin at h
      rw [hqueue] at h
      cases h
  | succ n ih =>
    obtain ⟨m, rfl⟩ : ∃ k, m = k + 1 := ⟨m - 1, by omega⟩
    cases hqueue : r.queue with
    | nil =>
      rw [solveWithin_of_idle hqueue] at h ⊢
      exact h
    | cons item rest =>
      rw [solveWithin_succ hqueue] at h ⊢
      obtain ⟨r₁, hr₁, h⟩ := Except.bind_eq_ok.mp h
      rw [hr₁]
      exact ih h (by omega)

namespace Accounts

variable {taken : List Turn}

theorem length_le (h : r.Accounts taken) : taken.length + r.queue.length ≤ 2 * r.calls.length := by
  have hplain := congrArg List.length h.pending
  have hreturning := congrArg List.length h.returning
  have hmade : (taken.filter (·.made)).length ≤ ((taken.map (·.item)).filter fun p => !p.propagates).length := by
    rw [List.filter_map, List.length_map, ← List.countP_eq_length_filter, ← List.countP_eq_length_filter]
    refine List.countP_mono_left fun t ht hmade => ?_
    simp [h.plain t ht hmade]
  have htaken := List.length_eq_length_filter_add (l := taken.map (·.item)) (·.propagates)
  have hqueue := List.length_eq_length_filter_add (l := r.queue) (·.propagates)
  rw [List.length_append, Run.pending] at hplain
  rw [List.length_append, Run.returning, List.length_map] at hreturning
  rw [List.length_map] at htaken
  simp only [PendingCall.made, List.length_map, List.length_range] at hplain
  omega

end Accounts

end Run

/-- An oracle that remembers answers names no objects but those that the oracle itself names. -/
theorem Guarded.Says.cached {σ : Type} {U : HeapObject → Prop} {o : Oracle σ} {start : σ}
    (h : Guarded.Says U ⟨some o, start, []⟩) (capacity : Nat) :
    Guarded.Says U ⟨some o.cached, ⟨start, ⟨capacity, []⟩⟩, []⟩ := by
  obtain ⟨inv, hstart, hasked⟩ := h o rfl
  rintro _ ⟨⟩
  -- What is remembered was answered once.
  let inv' : Cached σ → Prop := fun s => inv s.inner ∧ ∀ e ∈ s.cache.entries, ∀ x ∈ e.2.asObjects, U x
  have hinner : ∀ q s, inv' s → inv' (o.askInner q s).2 ∧
      ∀ x ∈ ((o.askInner q s).1.settle q).1.asObjects, U x := fun q s hs =>
    ⟨⟨(hasked q s.inner hs.1).1, hs.2⟩, (hasked q s.inner hs.1).2⟩
  have hremembered : ∀ q version s, inv' s → inv' (o.askRemembered q version s).2 ∧
      ∀ x ∈ ((o.askRemembered q version s).1.settle q).1.asObjects, U x := by
    intro q version s hs
    have herase : ∀ key, ∀ e ∈ s.cache.entries.erase key, ∀ x ∈ e.2.asObjects, U x :=
      fun key e he => hs.2 e (Table.mem_of_mem_erase he)
    unfold Oracle.askRemembered
    split
    · rename_i answer cache hget
      obtain ⟨known, hknown, hcache⟩ := Option.map_eq_some_iff.mp hget
      cases hcache
      have hanswer := hs.2 _ (Table.mem_of_get? hknown)
      refine ⟨⟨hs.1, List.forall_mem_cons.mpr ⟨hanswer, herase _⟩⟩, fun x hx => hanswer x ?_⟩
      cases q <;> first | exact hx | simp [Outcome.settle, Query.fit, Answer.asObjects] at hx
    · have hasked := hinner q s hs
      split
      · rename_i answer s' hanswered
        rw [hanswered] at hasked
        obtain ⟨⟨hs', hentries⟩, hanswer⟩ := hasked
        refine ⟨⟨hs', fun e he => ?_⟩, hanswer⟩
        rcases List.mem_cons.mp (List.mem_of_mem_take he) with rfl | he
        · exact hanswer
        · exact hentries e (Table.mem_of_mem_erase he)
      · exact hasked
  refine ⟨inv', ⟨hstart, by simp⟩, fun q s hs => ?_⟩
  have hversion := (hinner .version s hs).1
  unfold Oracle.cached
  dsimp only
  split
  · exact hinner .version s hs
  · split
    · rename_i answer s' hanswered
      rw [hanswered] at hversion
      exact hremembered q _ s' hversion
    · rename_i answer reason s' hfailed
      rw [hfailed] at hversion
      exact hinner q s' hversion
    · rename_i reason s' hbroken
      rw [hbroken] at hversion
      refine ⟨hversion, ?_⟩
      cases q <;> simp [Outcome.settle, Query.conservative, Answer.asObjects]

namespace Analyzer

variable {σ : Type} {a : Analyzer}

/-- An analysis whose solver takes at most `n` calls, with an oracle in a given state, or with none. -/
def analyzeRounds (a : Analyzer) (n : Nat) (oracle : Option (Oracle σ)) (start : σ) :
    Except AnalysisFault (Option (Result σ)) :=
  match a.options.validate with
  | .error f => .error (.options f)
  | .ok policy =>
    let outcome := do
      let state ← a.startState policy
      let r ← a.explore { state, oracle := ⟨oracle, start, []⟩ }
      r.solveWithin a n
    match outcome with
    | .error v => .error (.violation v)
    | .ok r => .ok (r.map fun r => finish (.ofRun a.options r))

/-- An analysis whose solver takes at most `n` calls; there is no result as long as calls wait. -/
def analyzeWithin (a : Analyzer) (n : Nat) (oracle : Option (Oracle σ)) (start : σ) :
    Except AnalysisFault (Option (Result σ)) :=
  match oracle, Cached.start start a.options.oracleCacheSize with
  | some o, some s => (a.analyzeRounds n (some o.cached) s).map (Option.map (Result.mapOracle (·.inner)))
  | oracle, _ => a.analyzeRounds n oracle start

/-- What an analysis comes to that is stopped: without a result it has not ended. -/
def concluded : Except AnalysisFault (Option (Result σ)) → Except AnalysisFault (Result σ)
  | .error f => .error f
  | .ok none => .error (.violation .endless)
  | .ok (some res) => .ok res

theorem analyzeWith_eq (a : Analyzer) (oracle : Option (Oracle σ)) (start : σ) :
    a.analyzeWith oracle start = concluded (a.analyzeRounds callBound oracle start) := by
  unfold analyzeWith analyzeRounds
  cases a.options.validate with
  | error f => rfl
  | ok policy =>
    have houtcome : (a.startState policy >>= fun state => a.run { state, oracle := ⟨oracle, start, []⟩ }) =
        (a.startState policy >>= fun state => a.explore { state, oracle := ⟨oracle, start, []⟩ } >>= fun r =>
          r.solveWithin a callBound) >>= fun x => x.elim (.error .endless) .ok := by
      simp only [run_eq, Run.solve_eq, bind_assoc]
    simp only [houtcome]
    rcases (a.startState policy >>= fun state => a.explore { state, oracle := ⟨oracle, start, []⟩ } >>= fun r =>
      r.solveWithin a callBound) with v | (_ | r) <;> rfl

/-- An analysis is one with as many rounds as it may have. -/
theorem analyze_eq (a : Analyzer) (oracle : Option (Oracle σ)) (start : σ) :
    a.analyze none oracle start = concluded (a.analyzeWithin callBound oracle start) := by
  unfold analyze analyzeWithin
  cases oracle with
  | none => exact a.analyzeWith_eq none start
  | some o =>
    cases Cached.start start a.options.oracleCacheSize with
    | none => exact a.analyzeWith_eq (some o) start
    | some s =>
      simp only [analyzeWith_eq]
      rcases a.analyzeRounds callBound (some o.cached) s with f | (_ | res) <;> rfl

theorem exists_rounds (a : Analyzer) {U : HeapObject → Prop} {oracle : Option (Oracle σ)} {start : σ}
    (h : Guarded.Says U ⟨oracle, start, []⟩) :
    ∃ (τ : Type) (oracle' : Option (Oracle τ)) (start' : τ) (back : τ → σ),
      Guarded.Says U ⟨oracle', start', []⟩ ∧
      ∀ n, a.analyzeWithin n oracle start =
        (a.analyzeRounds n oracle' start').map (Option.map (Result.mapOracle back)) := by
  have hdirect : ∀ x : Except AnalysisFault (Option (Result σ)), x = x.map (Option.map (Result.mapOracle id)) := by
    rintro (_ | (_ | _)) <;> rfl
  unfold analyzeWithin
  cases oracle with
  | none => exact ⟨_, none, start, id, h, fun n => hdirect _⟩
  | some o =>
    cases hcache : Cached.start start a.options.oracleCacheSize with
    | none => exact ⟨_, some o, start, id, h, fun n => hdirect _⟩
    | some s =>
      unfold Cached.start at hcache
      split at hcache <;> cases hcache
      exact ⟨_, some o.cached, _, _, h.cached _, fun n => rfl⟩

end Analyzer

end AbstractFlow
