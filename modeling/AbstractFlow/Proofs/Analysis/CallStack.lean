import AbstractFlow.Proofs.Analysis.Rules

/-! # The call stack along an analysis

Going to another scope, registering scopes and classes and recording calls leave the call stack alone.
Entering a callee pushes one call and leaving it drops one. So the analysis of a body changes what the
innermost call has returned and raised so far, and nothing else of the stack, and an invocation
changes nothing of it at all.
-/
namespace AbstractFlow

namespace State

/-- The same calls, and the same returned and raised outside of them. -/
structure SameStack (s s' : State) : Prop where
  frames : s'.frames = s.frames
  returned : s'.returned = s.returned
  exception : s'.exception = s.exception

theorem SameStack.trans {s s' s'' : State} (h : s.SameStack s') (h' : s'.SameStack s'') : s.SameStack s'' :=
  ⟨h'.frames.trans h.frames, h'.returned.trans h.returned, h'.exception.trans h.exception⟩

theorem Moves.sameStack {s s' : State} (h : s.Moves s') : s.SameStack s' :=
  ⟨h.frames, h.returned, h.exception⟩

/-- At most the innermost call has returned or raised something more. -/
structure KeepsStack (s s' : State) : Prop where
  idle : s.frames = [] → s'.frames = []
  busy : ∀ {f : CallFrame} {rest : List CallFrame}, s.frames = f :: rest →
    ∃ returned exception, s'.frames = { f with returned, exception } :: rest ∧
      s'.returned = s.returned ∧ s'.exception = s.exception

theorem KeepsStack.trans {s s' s'' : State} (h : s.KeepsStack s') (h' : s'.KeepsStack s'') :
    s.KeepsStack s'' := by
  refine ⟨fun hs => h'.idle (h.idle hs), fun hs => ?_⟩
  obtain ⟨v, e, hframes, hreturned, hexception⟩ := h.busy hs
  obtain ⟨v', e', hframes', hreturned', hexception'⟩ := h'.busy hframes
  exact ⟨v', e', hframes', hreturned'.trans hreturned, hexception'.trans hexception⟩

theorem SameStack.keeps {s s' : State} (h : s.SameStack s') : s.KeepsStack s' :=
  ⟨fun hs => h.frames.trans hs, fun {f _} hs =>
    ⟨f.returned, f.exception, h.frames.trans hs, h.returned, h.exception⟩⟩

theorem keepsStack_setReturn (s : State) (v : Value) : s.KeepsStack (s.setReturn v) := by
  refine ⟨fun hs => ?_, fun {f rest} hs => ?_⟩
  · simp only [setReturn, hs]
  · refine ⟨some ((f.returned.getD []).merge v), f.exception, ?_⟩
    simp only [setReturn, hs, and_self]

theorem keepsStack_addException (s : State) (v : Value) : s.KeepsStack (s.addException v) := by
  refine ⟨fun hs => ?_, fun {f rest} hs => ?_⟩
  · simp only [addException, hs]
  · refine ⟨f.returned, f.exception.merge v, ?_⟩
    simp only [addException, hs, and_self]

end State

namespace Run

variable {σ : Type} {a : Analyzer} {body : BodyAnalysis σ}

theorem Quiet.sameStack {r r' : Run σ} (h : r.Quiet r') : r.state.SameStack r'.state :=
  h.state.moves.sameStack

theorem sameStack_record {r r' : Run σ} {s : Step} {c : Call} {fn : Function Value}
    {receiver : Option Receiver} {constructs : Bool} {target : Context}
    (h : r.record s c fn receiver constructs = .ok (target, r')) : r.state.SameStack r'.state := by
  obtain ⟨callGraph, hmoves⟩ := moves_record h
  exact ⟨hmoves.frames, hmoves.returned, hmoves.exception⟩

theorem frames_enter {r r₁ : Run σ} {fn : Function Value} {args : List Value}
    {receiver : Option Receiver} {caller : String} {index : Int}
    (h : r.enter a fn args receiver caller index = .ok r₁) :
    ∃ f, r₁.state.frames = f :: r.state.frames ∧ f.callee = fn.name ∧ f.returned = none ∧
      r₁.state.returned = r.state.returned ∧ r₁.state.exception = r.state.exception := by
  obtain ⟨c, henter⟩ := enterFunction_of_enter h
  have hpushed : (r.state.pushCall caller fn.name index r.state.context none).frames =
      _ :: r.state.frames := rfl
  obtain ⟨key, saved, hmoves⟩ := State.moves_enterFunction hpushed henter
  exact ⟨_, hmoves.frames, rfl, rfl, hmoves.returned, hmoves.exception⟩

/-- An invocation leaves the stack as it was, if the body of the callee keeps it. -/
theorem sameStack_invoke
    (hbody : body.Keeps fun r r' => r.state.KeepsStack r'.state)
    {r r' : Run σ} {fn : Function Value} {argNames : List String} {args : List Value}
    {receiver : Option Receiver} {caller : String} {index : Int} {v : Value}
    (h : r.invoke a body fn argNames args receiver caller index = .ok (v, r')) :
    r.state.SameStack r'.state := by
  obtain ⟨r₁, r₂, g, s, henter, hrun, -, hexit, hrest⟩ := invoke_cases h
  obtain ⟨f, hframes, -, -, hreturned, hexception⟩ := frames_enter henter
  obtain ⟨w, e, hframes', hreturned', hexception'⟩ := (hbody hrun).busy hframes
  obtain ⟨rest, summaries, htop, hmoves⟩ := State.moves_exitFunction hexit
  have hdropped : rest = r.state.frames := (List.cons.inj (htop.symm.trans hframes')).2
  have hleft : r.state.SameStack s :=
    ⟨hmoves.frames.trans hdropped, hmoves.returned.trans (hreturned'.trans hreturned),
      hmoves.exception.trans (hexception'.trans hexception)⟩
  exact hleft.trans hrest.sameStack

theorem callRule_sameStack
    (hbody : body.Keeps fun r r' => r.state.KeepsStack r'.state) :
    CallRule a body fun r r' => r.state.SameStack r'.state where
  trans h h' := h.trans h'
  quiet h := h.sameStack
  records h := sameStack_record h
  cutoff _ := ⟨rfl, rfl, rfl⟩
  memoizes _ _ _ := ⟨rfl, rfl, rfl⟩
  invokes _ _ _ _ _ _ _ _ _ _ _ _ h := sameStack_invoke hbody h

theorem keepsStack_runScope
    (hbody : body.Keeps fun r r' => r.state.KeepsStack r'.state)
    {r r' : Run σ} {name : String} {c : Context} (h : r.runScope body name c = .ok r') :
    r.state.KeepsStack r'.state := by
  unfold runScope at h
  obtain ⟨r₁, hrun, hrest⟩ := Except.bind_eq_ok.mp h
  have hkept := (r.state.moves_setCurrent name c).sameStack.keeps.trans (hbody hrun)
  split at hrest
  · cases hrest
    exact hkept.trans (State.moves_setCurrent _ _ _).sameStack.keeps
  · cases hrest
    exact hkept

theorem bodyRule_keepsStack
    (hbody : body.Keeps fun r r' => r.state.KeepsStack r'.state) :
    BodyRule a body fun r r' => r.state.KeepsStack r'.state where
  trans h h' := h.trans h'
  quiet h := h.sameStack.keeps
  records h := (sameStack_record h).keeps
  cutoff _ := State.SameStack.keeps ⟨rfl, rfl, rfl⟩
  memoizes _ _ _ := State.SameStack.keeps ⟨rfl, rfl, rfl⟩
  invokes _ _ _ _ _ _ _ _ _ _ _ _ h := (sameStack_invoke hbody h).keeps
  returns r v := r.state.keepsStack_setReturn v
  raises r v := r.state.keepsStack_addException v
  registers r name _ := (r.state.moves_registerClass name _).sameStack.keeps
  bodies h := keepsStack_runScope hbody h
  dequeues _ := State.SameStack.keeps ⟨rfl, rfl, rfl⟩
  caps _ _ := State.SameStack.keeps ⟨rfl, rfl, rfl⟩
  segment h _ := ⟨h.idle, h.busy⟩

end Run

/-- The analysis of a body keeps the call stack, up to what its own call returns and raises. -/
theorem Analyzer.keepsStack_runBody {σ : Type} (a : Analyzer) (depth : Nat) :
    (a.runBody depth : BodyAnalysis σ).Keeps fun r r' => r.state.KeepsStack r'.state :=
  runBody_keeps (fun _ hbody => Run.bodyRule_keepsStack hbody) depth

end AbstractFlow
