import AbstractFlow.Proofs.Analysis.Delivery

/-! # The oracle that is asked

An analysis asks its oracle itself, or one that remembers the answers. What holds of every oracle holds
either way, so it is enough to look at an analysis that asks the oracle it is given.
-/
namespace AbstractFlow

namespace Analyzer

variable {σ : Type} {a : Analyzer}

/-- What is said of an analysis, as it is with the oracle that is asked: the given one, or the one that
remembers its answers. -/
def asking {α : Type} (a : Analyzer) (f : (τ : Type) → Option (Oracle τ) → τ → α)
    (oracle : Option (Oracle σ)) (start : σ) : α :=
  match oracle, Cached.start start a.options.oracleCacheSize with
  | some o, some s => f _ (some o.cached) s
  | oracle, _ => f _ oracle start

theorem exists_asked (a : Analyzer) (oracle : Option (Oracle σ)) (start : σ) :
    ∃ (τ : Type) (oracle' : Option (Oracle τ)) (start' : τ) (back : τ → σ),
      a.analyze none oracle start = (a.analyzeWith oracle' start').map (Result.mapOracle back) ∧
      ∀ {α : Type} (f : (τ : Type) → Option (Oracle τ) → τ → α),
        a.asking f oracle start = f τ oracle' start' := by
  have hdirect : ∀ x : Except AnalysisFault (Result σ), x = x.map (Result.mapOracle id) := by
    rintro (_ | _) <;> rfl
  unfold analyze asking
  cases oracle with
  | none => exact ⟨_, none, start, id, hdirect _, fun _ => rfl⟩
  | some o =>
    cases Cached.start start a.options.oracleCacheSize with
    | none => exact ⟨_, some o, start, id, hdirect _, fun _ => rfl⟩
    | some s => exact ⟨_, some o.cached, s, _, rfl, fun _ => rfl⟩

/-- The run with which an analysis starts, if its options are valid and its variables can be bound. -/
def started (a : Analyzer) (oracle : Option (Oracle σ)) (start : σ) : Option (Run σ) :=
  match a.options.validate with
  | .error _ => none
  | .ok policy =>
    match a.startState policy with
    | .error _ => none
    | .ok state => some { state, oracle := ⟨oracle, start, []⟩ }

theorem started_eq_some {oracle : Option (Oracle σ)} {start : σ} {r : Run σ}
    (h : a.started oracle start = some r) :
    ∃ policy state, a.options.validate = .ok policy ∧ a.startState policy = .ok state ∧
      r = { state, oracle := ⟨oracle, start, []⟩ } := by
  unfold started at h
  split at h
  · cases h
  · rename_i policy hpolicy
    split at h
    · cases h
    · rename_i state hstate
      cases h
      exact ⟨policy, state, hpolicy, hstate, rfl⟩

theorem solved_of_analyzeWith {oracle : Option (Oracle σ)} {start : σ} {res : Result σ}
    (h : a.analyzeWith oracle start = .ok res) :
    ∃ r₀ r r', a.started oracle start = some r₀ ∧ a.explore r₀ = .ok r ∧ r.solve a callBound = .ok r' ∧
      res.state = r'.state ∧ res.stats = r'.stats := by
  unfold analyzeWith at h
  split at h
  · cases h
  · rename_i policy hpolicy
    simp only at h
    split at h
    · cases h
    · rename_i r' hrun
      obtain ⟨state, hstate, hrun⟩ := Except.bind_eq_ok.mp hrun
      rw [run_eq] at hrun
      obtain ⟨r, hexplore, hsolve⟩ := Except.bind_eq_ok.mp hrun
      refine ⟨_, r, r', ?_, hexplore, hsolve, ?_⟩
      · simp only [started, hpolicy, hstate]
      · cases h
        unfold finish
        split <;> exact ⟨rfl, rfl⟩

theorem exists_solved {oracle : Option (Oracle σ)} {start : σ} {res : Result σ}
    (h : a.analyze none oracle start = .ok res) :
    ∃ (τ : Type) (oracle' : Option (Oracle τ)) (start' : τ) (r₀ r r' : Run τ),
      a.started oracle' start' = some r₀ ∧ a.explore r₀ = .ok r ∧ r.solve a callBound = .ok r' ∧
      res.state = r'.state ∧ res.stats = r'.stats ∧
      ∀ {α : Type} (f : (τ : Type) → Option (Oracle τ) → τ → α),
        a.asking f oracle start = f τ oracle' start' := by
  obtain ⟨τ, oracle', start', back, hanalyze, hasking⟩ := a.exists_asked oracle start
  rw [hanalyze] at h
  obtain ⟨res', hres', rfl⟩ := Except.map_eq_ok.mp h
  obtain ⟨r₀, r, r', hstarted, hexplore, hsolve, hstate, hstats⟩ := solved_of_analyzeWith hres'
  exact ⟨τ, oracle', start', r₀, r, r', hstarted, hexplore, hsolve, hstate, hstats, hasking⟩

end Analyzer

end AbstractFlow
