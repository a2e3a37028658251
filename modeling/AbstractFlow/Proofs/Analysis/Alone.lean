import AbstractFlow.Analysis.Analyzer
import AbstractFlow.Proofs.Analysis.Outline
import AbstractFlow.Proofs.State.Frames

/-! # Analyses of a single module

A program of one module is analysed by analysing the body of the module once, from a state in which
nothing is bound and nothing waits. If that leaves no call to be made, it is all that happens.
-/
namespace AbstractFlow

variable {σ : Type}

/-- Whatever the iteration limit, and whether the order of statements counts, the default options are valid. -/
theorem Options.validate_iterations {n : Int} (h : 1 ≤ n) (b : Bool := true) :
    Options.validate { maxIterations := n, flowSensitive := b } = .ok .callSite := by
  have hparse : Policy.parse (.ofString "callsite") = .ok .callSite := by
    rw [Policy.parse, ByteString.text_ofString]
    decide
  simp only [Options.validate, hparse]
  rw [if_neg (by decide), if_neg (by omega), if_neg (by decide), if_neg (by decide)]

theorem Options.maxIterations_pos {o : Options} {policy : Policy} (h : o.validate = .ok policy) :
    0 < o.maxIterations := by
  unfold Options.validate at h
  split at h
  · cases h
  · by_contra hnone
    have hfew : o.maxIterations < 1 := by omega
    rw [if_pos hfew] at h
    split at h <;> cases h

def Scope.alone (s : Scope) (o : Options) (tracing : Bool) : Analyzer :=
  { options := o, scopes := [(s.name, s)], tracing }

/-- A run in which the body of a module is about to be analysed, without an oracle. -/
structure Run.Fresh (s : Scope) (r : Run σ) : Prop where
  known : r.state.scopes.contains s.name = true
  scope : r.state.scope = none
  memory : r.state.memory = []
  flow : r.state.flow = Tracker.empty.build s.name s.body
  calls : r.queue = []
  stats : r.stats = {}
  oracle : r.oracle.isAvailable = false

theorem Point.ne_of_index_ne (f : String) {i j : Nat} (h : i ≠ j) : (⟨f, i, .root⟩ : Point) ≠ ⟨f, j, .root⟩ := by
  intro heq
  have hidx : (i : Int) = j := congrArg Point.index heq
  exact h (Int.ofNat.inj hidx)

theorem Tracker.visitCount_visit (t : Tracker) (f : String) (i j : Nat) :
    (t.visit ⟨f, i, .root⟩).visitCount ⟨f, j, .root⟩ =
      t.visitCount ⟨f, j, .root⟩ + if j = i then 1 else 0 := by
  by_cases hij : j = i
  · subst hij
    simp [Tracker.visitCount, Tracker.visit, Table.get?_insert]
  · have hpoint := Point.ne_of_index_ne f (Ne.symm hij)
    simp [Tracker.visitCount, Tracker.visit, Table.get?_insert, hpoint, hij]

theorem Run.interpret_eq {f : String} {body : List Stmt} (r : Run σ) (a : Analyzer) (analysis : BodyAnalysis σ)
    {i revisits : Nat} {stmt : Stmt} (hbody : (a.scope? f).map (·.body) = some body) (hstmt : body[i]? = some stmt)
    (hcontext : r.state.context = .root)
    (hcount : r.state.flow.visitCount ⟨f, i, .root⟩ = revisits) :
    ∃ line, r.interpret a analysis ⟨f, i⟩ =
      ({ r with
        state.flow := r.state.flow.visit ⟨f, i, .root⟩
        stats.statements := r.stats.statements + 1 }.note a line).interpretStmt a analysis
        ⟨f, i, revisits⟩ stmt := by
  unfold Run.interpret
  rw [hbody]
  simp only [hstmt]
  rw [hcontext, hcount]
  exact ⟨_, rfl⟩

namespace Scope

variable {s : Scope} {o : Options} {t : Bool}

theorem scope?_alone (s : Scope) (o : Options) (t : Bool) : (s.alone o t).scope? s.name = some s := by
  simp [Analyzer.scope?, alone, Table.get?]

theorem body_alone : ((s.alone o t).scope? s.name).map (·.body) = some s.body := by
  rw [scope?_alone]
  rfl

theorem exists_depthBound_alone (s : Scope) (o : Options) (t : Bool) :
    ∃ d, (s.alone o t).depthBound = d + 1 := by
  refine Nat.exists_eq_succ_of_ne_zero ?_
  simp [Analyzer.depthBound, alone]

/-- To analyse the body along its control flow is to interpret what waits in a queue of its own. -/
theorem body_of_drain (hf : o.flowSensitive = true) {r : Run σ} {P : Run σ → Prop}
    (hdrain : ∀ analysis : BodyAnalysis σ, ∃ r', Run.drain (s.alone o t) analysis s.name o.maxIterations.toNat
      (r.mapFlow fun t => t.push.enqueue s.name 0) = .ok r' ∧ r'.state.flow.outer = [[]] ∧ P r') :
    ∃ r' flow, (s.alone o t).body s.name 0 r = .ok { r' with state.flow := flow } ∧ P r' := by
  obtain ⟨d, hd⟩ := s.exists_depthBound_alone o t
  obtain ⟨r', hr', houter, hP⟩ := hdrain ((s.alone o t).runBody d)
  have hsensitive : (s.alone o t).options.flowSensitive = true := hf
  obtain ⟨flow, hpop, -⟩ := Tracker.exists_pop? houter r.state.flow.current
  refine ⟨r', flow, ?_, hP⟩
  have hlimit : (s.alone o t).maxIterations = o.maxIterations.toNat := rfl
  unfold Analyzer.body
  rw [hd, Analyzer.runBody, if_pos hsensitive, Run.runFlow, hlimit, hr']
  simp only [bind, Except.bind, hpop]

/-- Adding a program that is one scope gives the analyser of this scope alone. -/
theorem addProgram_singleton (hname : s.name ≠ "") :
    Analyzer.addProgram { options := o, tracing := t } ⟨[s]⟩ = (s.alone o t, none) := by
  simp [Analyzer.addProgram, Analyzer.addScope, hname, alone, Table.contains, Table.get?, Table.insert,
    Fault.ofList]

theorem startState_alone (hmodule : s.kind = .module) (policy : Policy) :
    ∃ state, (s.alone o t).startState policy = .ok state ∧ state.scopes.contains s.name = true ∧
      state.scope = none ∧ state.memory = [] ∧ state.flow = Tracker.empty.build s.name s.body := by
  have hwide := (State.new (o.config policy)).widens_registerScope s.name s.kind s.parent
  have hknown := (State.new (o.config policy)).contains_registerScope s.name s.kind s.parent
  refine ⟨{ (State.new (o.config policy)).registerScope s.name s.kind s.parent with
    flow := Tracker.empty.build s.name s.body }, ?_, hknown, hwide.scope, hwide.memory, rfl⟩
  have hflow : ((State.new (o.config policy)).registerScope s.name s.kind s.parent).flow =
    Tracker.empty := hwide.flow
  simp [Analyzer.startState, Analyzer.registerKind, Analyzer.registerScope, alone, hmodule] at hflow ⊢
  rw [hflow]
  rfl

/-- How the body of the module is analysed from every fresh run. -/
def Analyses (s : Scope) (o : Options) (t : Bool) (C : Run σ → Prop) : Prop :=
  ∀ r : Run σ, r.Fresh s → ∃ r' : Run σ,
    (s.alone o t).body s.name 0 { r with state := r.state.setCurrent s.name .root } = .ok r' ∧
      r'.queue = [] ∧ C r'

theorem run_alone {C : Run σ → Prop} (hmodule : s.kind = .module) (hbody : s.Analyses o t C) {r : Run σ}
    (h : r.Fresh s) :
    ∃ r', C r' ∧ (s.alone o t).run r = .ok { r' with analyzed := s.name :: r'.analyzed } := by
  have hnoted : ∀ line, ∃ trace, r.note (s.alone o t) line = { r with trace } := by
    intro line
    unfold Run.note
    split
    · exact ⟨_, rfl⟩
    · exact ⟨r.trace, rfl⟩
  obtain ⟨trace, htrace⟩ := hnoted fun _ => "\n### ANALYZING MODULE " ++ s.name ++ " ###"
  obtain ⟨r', hr', hcalls, h'⟩ := hbody { r with trace } { h with }
  refine ⟨r', h', ?_⟩
  have hmod : (s.alone o t).analyzeModule r s =
      .ok { r' with analyzed := s.name :: r'.analyzed } := by
    rw [Analyzer.analyzeModule, if_pos hmodule, htrace, Run.runScope, hr']
    simp only [bind, Except.bind, h.scope]
  have hrest : (s.alone o t).analyzeRest { r' with analyzed := s.name :: r'.analyzed } s =
      .ok { r' with analyzed := s.name :: r'.analyzed } := by
    rw [Analyzer.analyzeRest, if_pos (by simp)]
  have hscopes : (s.alone o t).scopes.map (·.2) = [s] := rfl
  unfold Analyzer.run
  simp only [hscopes, List.foldlM_cons, List.foldlM_nil, hmod, hrest, bind, Except.bind, pure, Except.pure]
  unfold Run.solve
  simp only [hcalls]

/-- The outcome of an analysis is that of the analysis of the body. -/
theorem analyze_alone {C : Run σ → Prop} (hmodule : s.kind = .module) {policy : Policy}
    (hvalid : o.validate = .ok policy) (hbody : s.Analyses o t C) (start : σ) :
    ∃ res r', (s.alone o t).analyze none none start = .ok res ∧ C r' ∧
      res.state.frameAt s.name .root = r'.state.memory.frame ⟨s.name, .root⟩ ∧ res.stats = r'.stats := by
  obtain ⟨state, hstate, hknown, hscope, hmemory, hflow⟩ :=
    startState_alone (s := s) (o := o) (t := t) hmodule policy
  obtain ⟨r', h', hr'⟩ := run_alone hmodule hbody
    (r := ({ state, oracle := ⟨none, start, []⟩ } : Run σ)) ⟨hknown, hscope, hmemory, hflow, rfl, rfl, rfl⟩
  have hfinish : ∀ res : Result σ, (Analyzer.finish res).state = res.state ∧
      (Analyzer.finish res).stats = res.stats := by
    intro res
    unfold Analyzer.finish
    split <;> exact ⟨rfl, rfl⟩
  obtain ⟨hsameState, hsameStats⟩ := hfinish (.ofRun o { r' with analyzed := s.name :: r'.analyzed })
  refine ⟨Analyzer.finish (.ofRun o { r' with analyzed := s.name :: r'.analyzed }), r', ?_, h', ?_, hsameStats⟩
  · have hoptions : (s.alone o t).options.validate = .ok policy := hvalid
    simp only [Analyzer.analyze, Analyzer.analyzeWith, hoptions, hstate, bind, Except.bind, hr']
    rfl
  · have hkey : r'.state.frameKey s.name .root = ⟨s.name, .root⟩ := by
      unfold State.frameKey
      split <;> rfl
    rw [State.frameAt, hsameState]
    exact congrArg r'.state.memory.frame hkey

end Scope

end AbstractFlow
