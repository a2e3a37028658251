import AbstractFlow.Proofs.Analysis.Beginning
import AbstractFlow.Proofs.Value.Cover

/-! # What an invocation returns

The value of an invocation is the join of what its `return` statements gave back, one entry for each
time such a statement was interpreted while the invocation was the innermost call, and `None` if there
was none. A second invocation in the state that the first has left behind starts with an empty slot for
what it returns, but with the visits and snapshots of the first. It covers the first one exactly if the
`return` statements it still interprets do.
-/
namespace AbstractFlow

namespace Value

/-- What a call with these returns gives back. -/
def ofReturns (vs : List Value) : Value := if vs.isEmpty then noneConstant else mergeAll vs

end Value

namespace State

/-- What the innermost call has returned after it returned one value more. -/
def joinReturn (known : Option Value) (v : Value) : Option Value := some ((known.getD []).merge v)

theorem returnValue?_setReturn (s : State) (v : Value) :
    (s.setReturn v).returnValue? = joinReturn s.returnValue? v := by
  unfold setReturn returnValue?
  cases hframes : s.frames <;> rfl

theorem returnValue?_addException (s : State) (v : Value) :
    (s.addException v).returnValue? = s.returnValue? := by
  unfold addException returnValue?
  cases hframes : s.frames <;> simp

theorem foldl_joinReturn_some (w : Value) (vs : List Value) :
    vs.foldl joinReturn (some w) = some (vs.foldl Value.merge w) := by
  induction vs generalizing w with
  | nil => rfl
  | cons v vs ih => exact ih _

theorem getD_foldl_joinReturn (vs : List Value) :
    (vs.foldl joinReturn none).getD Value.noneConstant = Value.ofReturns vs := by
  cases vs with
  | nil => rfl
  | cons v vs =>
    rw [List.foldl_cons, joinReturn, foldl_joinReturn_some]
    rfl

theorem SameStack.returnValue? {s s' : State} (h : s.SameStack s') :
    s'.returnValue? = s.returnValue? := by
  unfold State.returnValue?
  rw [h.frames, h.returned]

end State

/-- Lists what the `return` statements of a body give back. -/
abbrev ReturnTrace (σ : Type) := String → Int → Run σ → List Value

namespace Run

variable {σ : Type} {a : Analyzer} {body : BodyAnalysis σ} {nested : ReturnTrace σ}

def enterClass (r : Run σ) (a : Analyzer) (name : String) (bases : List String) : Run σ :=
  let r := r.withClass a name bases
  { r with state := r.state.setCurrent name .root }

/-- What the innermost call returns while one statement is interpreted. The body of a class has no
call of its own, so a `return` in it belongs to the call around it. -/
def itemReturns (r : Run σ) (a : Analyzer) (nested : ReturnTrace σ) (item : WorkItem) : List Value :=
  match a.stmt? item with
  | some (.ret value) => [(r.visiting a item (.ret value)).resultOf value]
  | some (.classDef target name bases) =>
    if (a.scope? name).isNone then []
    else nested name 0 ((r.visiting a item (.classDef target name bases)).enterClass a name bases)
  | _ => []

def drainReturns (a : Analyzer) (body : BodyAnalysis σ) (nested : ReturnTrace σ) :
    Nat → Run σ → List Value
  | left, r =>
    match r.state.flow.dequeue? with
    | none => []
    | some (item, flow) =>
      let r := { r with state.flow := flow }
      match left with
      | 0 => []
      | left + 1 =>
        r.itemReturns a nested item ++
          match r.interpret a body item with
          | .ok r => drainReturns a body nested left r
          | .error _ => []

end Run

namespace Analyzer

variable {σ : Type}

/-- What the innermost call returns while a body is analysed along its control flow. -/
def returns (a : Analyzer) : Nat → ReturnTrace σ
  | 0, _, _, _ => []
  | depth + 1, function, start, r =>
    Run.drainReturns a (a.runBody depth) (a.returns depth) a.maxIterations
      (r.mapFlow fun t => t.push.enqueue function start)

end Analyzer

namespace Run

variable {σ : Type} {a : Analyzer} {body : BodyAnalysis σ} {nested : ReturnTrace σ}

/-- A list of returns tells how an analysis of bodies changes what the innermost call returns. -/
def Lists (nested : ReturnTrace σ) (body : BodyAnalysis σ) : Prop :=
  ∀ ⦃function : String⦄ ⦃start : Int⦄ ⦃r r' : Run σ⦄, body function start r = .ok r' →
    r'.state.returnValue? = (nested function start r).foldl State.joinReturn r.state.returnValue?

theorem returnValue?_runScope (hnested : Lists nested body) {r r' : Run σ} {name : String} {c : Context}
    (h : r.runScope body name c = .ok r') :
    r'.state.returnValue? =
      (nested name 0 { r with state := r.state.setCurrent name c }).foldl State.joinReturn
        r.state.returnValue? := by
  unfold runScope at h
  obtain ⟨r₁, hrun, hrest⟩ := Except.bind_eq_ok.mp h
  have hlisted := hnested hrun
  rw [(r.state.moves_setCurrent name c).sameStack.returnValue?] at hlisted
  split at hrest
  · cases hrest
    exact (State.moves_setCurrent _ _ _).sameStack.returnValue?.trans hlisted
  · cases hrest
    exact hlisted

theorem returnValue?_interpret (hbody : body.Keeps fun r r' => r.state.KeepsStack r'.state)
    (hnested : Lists nested body) {r r' : Run σ} {item : WorkItem}
    (h : r.interpret a body item = .ok r') :
    r'.state.returnValue? =
      (r.itemReturns a nested item).foldl State.joinReturn r.state.returnValue? := by
  obtain ⟨s, stmt, hstmt, heffect⟩ := effect_of_interpret h
  have hvisit := (r.quiet_visiting a item stmt).sameStack.returnValue?
  unfold itemReturns
  rw [hstmt]
  -- A `return` joins its value; the only other returns are those of a class body, which has no call of its own.
  cases heffect with
  | call hcall hrest =>
    have hcalled := (callRule_sameStack hbody).call hcall
    exact hrest.sameStack.returnValue?.trans (hcalled.returnValue?.trans hvisit)
  | @classDef target name bases r₁ r' hclass hrest =>
    have hdefined := ((r.visiting a item (.classDef target name bases)).state.moves_registerClass name
      (a.basesOf name bases)).sameStack.returnValue?
    rw [hrest.sameStack.returnValue?, ← hvisit, ← hdefined]
    simp only
    unfold runClassBody at hclass
    split at hclass
    · rename_i hnone
      cases hclass
      rw [if_pos hnone]
      rfl
    · rename_i hsome
      rw [if_neg hsome]
      exact returnValue?_runScope hnested hclass
  | ret hrest =>
    rw [hrest.sameStack.returnValue?, State.returnValue?_setReturn, hvisit]
    rfl
  | raise hrest =>
    rw [hrest.sameStack.returnValue?, State.returnValue?_addException, hvisit]
    rfl
  | quiet hquiet hrest =>
    rw [hrest.sameStack.returnValue?, hvisit]
    cases stmt <;> first | rfl | cases hquiet

theorem returnValue?_drain (hbody : body.Keeps fun r r' => r.state.KeepsStack r'.state)
    (hnested : Lists nested body) {function : String} {left : Nat} {r r' : Run σ}
    (h : drain a body function left r = .ok r') :
    r'.state.returnValue? =
      (drainReturns a body nested left r).foldl State.joinReturn r.state.returnValue? := by
  -- Along the statements that are taken: the returns of the first come before those of the rest.
  induction left generalizing r with
  | zero =>
    unfold drain at h
    unfold drainReturns
    cases hnext : r.state.flow.dequeue? with
    | none =>
      rw [hnext] at h
      cases h
      rfl
    | some next =>
      rw [hnext] at h
      cases h
      rfl
  | succ left ih =>
    unfold drain at h
    unfold drainReturns
    cases hnext : r.state.flow.dequeue? with
    | none =>
      rw [hnext] at h
      cases h
      rfl
    | some next =>
      rw [hnext] at h
      obtain ⟨r₁, hitem, hrest⟩ := Except.bind_eq_ok.mp h
      simp only [hitem]
      rw [List.foldl_append, ih hrest, returnValue?_interpret hbody hnested hitem]
      rfl

end Run

/-- The analysis of a body joins its returns into what the innermost call returns. -/
theorem Analyzer.lists_returns {σ : Type} {a : Analyzer} (hflow : a.options.flowSensitive = true)
    (depth : Nat) : Run.Lists (a.returns depth : ReturnTrace σ) (a.runBody depth) := by
  induction depth with
  | zero =>
    intro function start r r' h
    cases h
  | succ depth ih =>
    intro function start r r' h
    unfold runBody at h
    rw [if_pos hflow] at h
    unfold Run.runFlow at h
    obtain ⟨r₁, hdrain, hrest⟩ := Except.bind_eq_ok.mp h
    have hreturns := Run.returnValue?_drain (a.keepsStack_runBody depth) ih hdrain
    split at hrest
    · cases hrest
      exact hreturns
    · cases hrest

namespace Run

variable {σ : Type} {a : Analyzer} {r r' r'' : Run σ} {depth : Nat} {fn : Function Value}
  {argNames : List String} {args : List Value} {receiver : Option Receiver} {caller : String}
  {index : Int} {v v' : Value}

/-- What the `return` statements of a callee give back while it is invoked. -/
def invocationReturns (r : Run σ) (a : Analyzer) (depth : Nat) (fn : Function Value) (args : List Value)
    (receiver : Option Receiver) (caller : String) (index : Int) : List Value :=
  match r.enter a fn args receiver caller index with
  | .ok r₁ => a.returns depth fn.name 0 r₁
  | .error _ => []

/-- An invocation gives back the join of its returns, or `None` if it has none. -/
theorem value_invoke (hflow : a.options.flowSensitive = true)
    (h : r.invoke a (a.runBody depth) fn argNames args receiver caller index = .ok (v, r')) :
    v = Value.ofReturns (r.invocationReturns a depth fn args receiver caller index) := by
  obtain ⟨r₁, r₂, g, s, henter, hrun, hv, -, -⟩ := invoke_cases h
  obtain ⟨f, hframes, -, hnothing, -, -⟩ := frames_enter henter
  have hempty : r₁.state.returnValue? = none := by
    unfold State.returnValue?
    rw [hframes]
    exact hnothing
  have hlisted := a.lists_returns hflow depth hrun
  rw [hv, hlisted, hempty, State.getD_foldl_joinReturn, invocationReturns, henter]

/-- Two invocations in a row: the second covers the first exactly if the `return` statements that the
second still interprets cover those that the first interpreted. -/
theorem invoke_again_covers_iff (hflow : a.options.flowSensitive = true)
    (hfirst : r.invoke a (a.runBody depth) fn argNames args receiver caller index = .ok (v, r'))
    (hsecond : r'.invoke a (a.runBody depth) fn argNames args receiver caller index = .ok (v', r'')) :
    v'.Covers v ↔
      (Value.ofReturns (r'.invocationReturns a depth fn args receiver caller index)).Covers
        (Value.ofReturns (r.invocationReturns a depth fn args receiver caller index)) := by
  rw [value_invoke hflow hfirst, value_invoke hflow hsecond]

end Run

namespace Analyzer

/-- The run in which the body of a module starts, when nothing has been analysed yet. -/
def moduleStart (a : Analyzer) (policy : Policy) (name : String) : Except Violation (Run Unit) :=
  (a.startState policy).map fun state =>
    { state := state.setCurrent name .root, oracle := ⟨none, (), []⟩ }

/-- Two invocations of a function without arguments in a row, with the run in which each ends. -/
def invokeTwice (a : Analyzer) (fn : Function Value) (r : Run Unit) :
    Except Violation (Run Unit × (Value × Run Unit) × (Value × Run Unit)) := do
  let first ← r.invoke a a.body fn [] [] none "m" 0
  let second ← first.2.invoke a a.body fn [] [] none "m" 0
  .ok (r, first, second)

theorem exists_invocations (a : Analyzer) (fn : Function Value)
    (p : Run Unit × (Value × Run Unit) × (Value × Run Unit) → Bool)
    (h : ((a.moduleStart .callSite "m").bind (a.invokeTwice fn)).toOption.any p = true) :
    ∃ (r r' r'' : Run Unit) (v v' : Value), a.moduleStart .callSite "m" = .ok r ∧
      r.invoke a a.body fn [] [] none "m" 0 = .ok (v, r') ∧
      r'.invoke a a.body fn [] [] none "m" 0 = .ok (v', r'') ∧ p (r, (v, r'), (v', r'')) = true := by
  obtain ⟨⟨r, ⟨v, r'⟩, ⟨v', r''⟩⟩, hruns, hp⟩ := Except.exists_ok_of_any h
  obtain ⟨r₀, hstart, hruns⟩ := Except.bind_eq_ok.mp hruns
  obtain ⟨first, hfirst, hruns⟩ := Except.bind_eq_ok.mp hruns
  obtain ⟨second, hsecond, hruns⟩ := Except.bind_eq_ok.mp hruns
  cases hruns
  exact ⟨r, r', r'', v, v', hstart, hfirst, hsecond, hp⟩

def oneFunction (body : List Stmt) : Analyzer :=
  ofProgram {} [] false
    { scopes :=
        [{ Scope.emptyModule "m" with body := [.functionDef "f" "m.f"] },
          ⟨"m.f", .function, "m", [], [], [], false, body⟩] }

def theFunction : Function Value := ⟨"m.f", [], false, .plain, false, false, []⟩

/-- Two `return` statements in a row, the second with another value. -/
def repeatedReturns : Analyzer :=
  oneFunction [.const "x" (.int 1), .ret "x", .const "x" (.str (.ofString "a")), .ret "x"]

theorem invoke_again_covers_repeatedReturns :
    ∃ (r r' r'' : Run Unit) (v v' : Value), repeatedReturns.moduleStart .callSite "m" = .ok r ∧
      r.invoke repeatedReturns repeatedReturns.body theFunction [] [] none "m" 0 = .ok (v, r') ∧
      r'.invoke repeatedReturns repeatedReturns.body theFunction [] [] none "m" 0 = .ok (v', r'') ∧
      v'.Covers v := by
  obtain ⟨r, r', r'', v, v', hstart, hfirst, hsecond, hcovers⟩ :=
    exists_invocations repeatedReturns theFunction
      (fun (r, (_, r'), _) =>
        let returns (r : Run Unit) := r.invocationReturns repeatedReturns repeatedReturns.depthBound
          theFunction [] none "m" 0
        decide ((Value.ofReturns (returns r')).Covers (Value.ofReturns (returns r))))
      (by decide +kernel)
  exact ⟨r, r', r'', v, v', hstart, hfirst, hsecond,
    (Run.invoke_again_covers_iff rfl hfirst hsecond).mpr (of_decide_eq_true hcovers)⟩

/-- A `return` behind a label where the ways of a branch join. -/
def joinedReturn : Analyzer :=
  oneFunction [.expr "d" [], .jump true (.name "d") "A", .const "y" (.int 1), .label "A",
    .const "x" (.int 1), .ret "x"]

/-- The second of two invocations finds the join at the label stable, stops there, and returns `None`. -/
theorem invoke_again_loses :
    ∃ (r r' r'' : Run Unit) (v v' : Value), joinedReturn.moduleStart .callSite "m" = .ok r ∧
      r.invoke joinedReturn joinedReturn.body theFunction [] [] none "m" 0 = .ok (v, r') ∧
      r'.invoke joinedReturn joinedReturn.body theFunction [] [] none "m" 0 = .ok (v', r'') ∧
      r''.stats.iterationCapHit = 0 ∧ r''.stats.recursionCutoffs = 0 ∧ ¬ v'.Covers v := by
  obtain ⟨r, r', r'', v, v', hstart, hfirst, hsecond, hloses⟩ :=
    exists_invocations joinedReturn theFunction
      (fun (_, (v, _), (v', r'')) => decide
        (r''.stats.iterationCapHit = 0 ∧ r''.stats.recursionCutoffs = 0 ∧ ¬ v'.Covers v))
      (by decide +kernel)
  exact ⟨r, r', r'', v, v', hstart, hfirst, hsecond, of_decide_eq_true hloses⟩

end Analyzer

end AbstractFlow
