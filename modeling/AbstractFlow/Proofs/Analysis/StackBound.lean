import AbstractFlow.Proofs.Analysis.Course

/-! # The bound of the call stack

A call is analysed only if its callee is on the stack less often than the recursion limit allows. Recorded
calls, callers that are analysed again and functions that nothing has called start on an empty stack. So no
function is ever on the stack more often than the limit allows, and in the end the stack is empty.
-/
namespace AbstractFlow

theorem Run.note_stats {σ : Type} (r : Run σ) (a : Analyzer) (line : Unit → String) :
    (r.note a line).stats = r.stats := by
  unfold Run.note
  split <;> rfl

namespace Analyzer

/-- No function is, or ever was, on the call stack more often than the recursion limit allows. -/
structure BoundsStack {σ : Type} (a : Analyzer) (r : Run σ) : Prop where
  depth : ∀ f, r.state.callDepth f ≤ a.maxRecursionDepth
  deepest : r.stats.deepestRecursion ≤ a.maxRecursionDepth

variable {σ : Type} {a : Analyzer} {r r' : Run σ}

theorem BoundsStack.of_frames (h : a.BoundsStack r) (hframes : r'.state.frames = r.state.frames)
    (hdeepest : r'.stats.deepestRecursion = r.stats.deepestRecursion) : a.BoundsStack r' := by
  refine ⟨fun f => ?_, hdeepest ▸ h.deepest⟩
  unfold State.callDepth
  rw [hframes]
  exact h.depth f

theorem BoundsStack.of_callees (h : a.BoundsStack r) (hcallees : r'.state.callees = r.state.callees)
    (hdeepest : r'.stats.deepestRecursion = r.stats.deepestRecursion) : a.BoundsStack r' := by
  refine ⟨fun f => ?_, hdeepest ▸ h.deepest⟩
  rw [State.callDepth_eq, hcallees, ← State.callDepth_eq]
  exact h.depth f

theorem BoundsStack.quiet (h : a.BoundsStack r) (hquiet : r.Quiet r') : a.BoundsStack r' :=
  h.of_frames hquiet.state.frames (congrArg (fun l : Ledger => l.stats.deepestRecursion) hquiet.ledger :)

theorem BoundsStack.record (h : a.BoundsStack r) {s : Step} {c : Call} {fn : Function Value}
    {receiver : Option Receiver} {constructs : Bool} {target : Context}
    (hrecord : r.record s c fn receiver constructs = .ok (target, r')) : a.BoundsStack r' := by
  obtain ⟨-, -, -, -, -, -, hstats, -⟩ := Run.record_spec hrecord
  exact h.of_frames (Run.sameStack_record hrecord).frames (by rw [hstats])

theorem BoundsStack.enter (h : a.BoundsStack r) {fn : Function Value} {args : List Value}
    {receiver : Option Receiver} {caller : String} {index : Int}
    (hdepth : r.state.callDepth fn.name < a.maxRecursionDepth)
    (henter : r.enter a fn args receiver caller index = .ok r') : a.BoundsStack r' := by
  have hpushed : ∀ f, State.callDepth (r.state.pushCall caller fn.name index r.state.context none) f ≤
      a.maxRecursionDepth := by
    intro f
    have hold := h.depth f
    rw [State.callDepth_eq] at hold hdepth ⊢
    show List.count f (fn.name :: r.state.callees) ≤ _
    rw [List.count_cons]
    split
    · rename_i heq
      rw [← eq_of_beq heq]
      omega
    · omega
  obtain ⟨f, hframes, hcallee, -⟩ := Run.frame_enter henter
  refine ⟨fun g => ?_, ?_⟩
  · have hcallees : r'.state.callees =
        State.callees (r.state.pushCall caller fn.name index r.state.context none) := by
      rw [State.callees, hframes, List.map_cons, hcallee]
      rfl
    rw [State.callDepth_eq, hcallees, ← State.callDepth_eq]
    exact hpushed g
  · unfold Run.enter at henter
    obtain ⟨x, -, henter⟩ := Except.bind_eq_ok.mp henter
    cases henter
    rw [Run.note_stats]
    exact Nat.max_le.mpr ⟨h.deepest, hpushed fn.name⟩

def stackGuide (a : Analyzer) (σ : Type) : Guide a σ where
  V _ := True
  U _ := True
  C _ := True
  J _ r := a.BoundsStack r
  Fits _ _ _ := True
  E v := v = .endless

theorem admits_true (a : Analyzer) : a.Admits (fun _ => True) fun _ => True where
  toClosed := Value.closed_true
  functions _ := trivial
  functionScopes _ _ := trivial
  classes _ := ⟨fun _ => trivial, trivial⟩
  classScopes _ _ := ⟨fun _ => trivial, trivial⟩
  nothing := trivial
  instances _ _ := trivial
  parents _ := trivial
  externals _ := trivial
  answers _ := ⟨trivial, fun _ => ⟨trivial, trivial⟩⟩

theorem says_true {g : Guarded σ} : g.Says fun _ => True :=
  fun _ _ => ⟨fun _ => True, trivial, fun _ _ _ => ⟨trivial, fun _ _ => trivial⟩⟩

theorem lawful_stackGuide (hmax : 0 < a.maxRecursionDepth) : (a.stackGuide σ).Lawful where
  admits := a.admits_true
  quiet h hquiet := h.quiet hquiet
  books h hstate _ hdeepest := h.of_frames (by rw [hstate]) hdeepest
  flows h _ := h.of_frames rfl rfl
  returns h v := h.of_callees (State.callees_setReturn _ v) rfl
  raises h v := h.of_callees (State.callees_addException _ v) rfl
  registers h name bases := h.of_frames (State.moves_registerClass _ name _).frames rfl
  places h _ name := h.of_frames (State.moves_setCurrent _ name _).frames rfl
  root := trivial
  here _ := trivial
  callers _ _ _ := trivial
  records h _ _ _ hrecord := h.record hrecord
  enters h hdepth _ _ henter := h.enter hdepth henter
  pushes {h r} hr hframes name := by
    refine ⟨fun f => ?_, hr.deepest⟩
    have hone : State.callDepth (r.state.pushCall "" name 0 r.state.context r.state.scope) f ≤ 1 := by
      rw [State.callDepth_eq]
      refine List.count_le_length.trans ?_
      simp [State.callees, State.pushCall, hframes]
    exact hone.trans hmax
  observes h _ _ := h
  leaves {h r r' key v f s m} hr _ _ hexit hquiet _ _ := by
    obtain ⟨rest, summaries, hframes, hmoves⟩ := State.moves_exitFunction hexit
    have hcallees : r.state.callees = f.callee :: s.callees := by
      rw [State.callees, State.callees, hmoves.frames, hframes, List.map_cons]
    have hleft : a.BoundsStack { r with state := s } := by
      refine ⟨fun g => ?_, hr.deepest⟩
      have hdepth := hr.depth g
      rw [State.callDepth_eq, hcallees] at hdepth
      rw [State.callDepth_eq]
      exact List.count_le_count_cons.trans hdepth
    exact hleft.quiet hquiet
  fitsCall _ _ _ := trivial
  fitsClass _ _ _ := trivial
  fitsFirst _ := ⟨trivial, trivial⟩
  exhausted _ := rfl

theorem boundsStack_of_fresh (h : r.state.Fresh) (hstats : r.stats = {}) : a.BoundsStack r := by
  refine ⟨fun f => ?_, by simp [hstats]⟩
  simp [State.callDepth, h.frames]

theorem boundsStack_analysis (ha : a.Distinct) {oracle : Option (Oracle σ)} {start : σ} {r₀ : Run σ}
    (hstarted : a.started oracle start = some r₀) (bound : Nat) :
    Follows (a.stackGuide σ).Holds (fun v => v = .endless ∨ v = .endless) [] (a.momentsWith bound σ oracle start)
      (a.explore r₀ >>= fun r => Run.solve a bound r) (a.stackGuide σ).Idle := by
  obtain ⟨policy, state, hpolicy, -, -⟩ := started_eq_some hstarted
  have hmax : 0 < a.maxRecursionDepth := Options.recursion_of_validate hpolicy
  have hidle : (a.stackGuide σ).Idle [] r₀ := Guide.idle_started a.admits_true ha (fun _ _ => trivial) says_true
    hstarted fun hfresh _ _ hstats => boundsStack_of_fresh hfresh hstats
  unfold momentsWith
  rw [hstarted]
  exact hidle.analysis (lawful_stackGuide hmax) ha hmax bound

/-- At every moment of an analysis, whatever ends it, no function is on the call stack more often than the
recursion limit allows. When the analysis has a result, the stack is empty, and only the outermost queue of the
control flow is left. -/
theorem stack_bounded (o : Options) (bindings : List Prebinding) (tracing : Bool) (p : Program)
    (oracle : Option (Oracle σ)) (start : σ) :
    (ofProgram o bindings tracing p).asking (fun τ oracle start =>
      ∀ m ∈ (ofProgram o bindings tracing p).momentsWith callBound τ oracle start,
        (ofProgram o bindings tracing p).BoundsStack m.run) oracle start ∧
    ∀ res, (ofProgram o bindings tracing p).analyze none oracle start = .ok res →
      res.stats.deepestRecursion ≤ (ofProgram o bindings tracing p).maxRecursionDepth ∧
      res.state.frames = [] ∧ res.state.flow.depth = 1 := by
  obtain ⟨ha, -⟩ := distinct_ofProgram o bindings tracing p
  generalize ofProgram o bindings tracing p = a at *
  refine ⟨?_, fun res hres => ?_⟩
  · obtain ⟨τ, oracle', start', -, -, hasking⟩ := a.exists_asked oracle start
    rw [hasking]
    intro m hm
    cases hstarted : a.started oracle' start' with
    | none => simp [momentsWith, hstarted] at hm
    | some r₀ =>
      obtain ⟨before, after, hsplit⟩ := List.append_of_mem hm
      have htrail := (boundsStack_analysis ha hstarted callBound).trail
      rw [hsplit] at htrail
      exact htrail.at_moment.2
  · obtain ⟨τ, oracle', start', r₀, r, r', hstarted, hexplore, hsolve, hstate, hstats, -⟩ := exists_solved hres
    have hdone := (boundsStack_analysis ha hstarted callBound).done r'
      (Except.bind_eq_ok.mpr ⟨r, hexplore, hsolve⟩)
    have hframes : r'.state.frames = [] := List.map_eq_nil_iff.mp (hdone.around "").callees
    refine ⟨?_, ?_, ?_⟩
    · rw [hstats]
      exact (hdone.around "").keeps.deepest
    · rw [hstate, hframes]
    · rw [hstate, Tracker.depth_eq, hdone.outer]
      rfl

def mutualRecursion : Program where
  scopes :=
    [{ Scope.emptyModule "m" with
        body := [.functionDef "f" "m.f", .functionDef "g" "m.g", .call ⟨"r", "f", "", [], []⟩] },
      ⟨"m.f", .function, "m", [], [], [], false, [.call ⟨"x", "g", "", [], []⟩, .ret "x"]⟩,
      ⟨"m.g", .function, "m", [], [], [], false, [.call ⟨"y", "f", "", [], []⟩, .ret "y"]⟩]

/-- Calls are cut off at the limit, and the stack is empty in the end. -/
theorem stack_bounded_mutualRecursion :
    ∃ res : Result Unit,
      (ofProgram { maxRecursionDepth := 2 } [] false mutualRecursion).analyze none none () = .ok res ∧
      0 < res.stats.recursionCutoffs ∧ res.stats.deepestRecursion = 2 ∧ res.state.frames = [] ∧
      res.state.flow.depth = 1 := by
  have htest : ((ofProgram { maxRecursionDepth := 2 } [] false mutualRecursion).analyze none none
      ()).toOption.any (fun res => 0 < res.stats.recursionCutoffs && res.stats.deepestRecursion == 2) = true := by
    decide +kernel
  obtain ⟨res, hres, hstats⟩ := Except.exists_ok_of_any htest
  simp only [Bool.and_eq_true, decide_eq_true_eq, beq_iff_eq] at hstats
  obtain ⟨-, hframes, hdepth⟩ := (stack_bounded { maxRecursionDepth := 2 } [] false mutualRecursion none ()).2 res hres
  exact ⟨res, hres, hstats.1, hstats.2, hframes, hdepth⟩

end Analyzer

end AbstractFlow
