import AbstractFlow.Proofs.Analysis.CallStack
import AbstractFlow.Proofs.State.Frames

/-! # Coming back

The analysis of a body may go to other scopes, under other contexts, and open queues of its own. It comes back
from all of them: in the end the state stands where it stood, and the queues around the innermost one are what
they were. The scopes that are known only become more.
-/
namespace AbstractFlow

namespace State

/-- A state that stands in a scope that it knows. -/
def Seated (s : State) : Prop := ∃ scope, s.scope = some scope ∧ s.scopes.contains scope = true

theorem Seated.of_place {s s' : State} (h : s.Seated) (hplace : s'.place = s.place)
    (hscopes : ∀ name, s.scopes.contains name = true → s'.scopes.contains name = true) : s'.Seated := by
  obtain ⟨scope, hscope, hknown⟩ := h
  exact ⟨scope, (congrArg Prod.fst hplace).trans hscope, hscopes scope hknown⟩

theorem seated_setCurrent {s : State} {name : String} (h : s.scopes.contains name = true) (c : Context) :
    (s.setCurrent name c).Seated := by
  refine ⟨name, s.setCurrent_scope c h, ?_⟩
  simp only [setCurrent, noteContext_scopes]
  exact h

theorem scopes_setCurrent (s : State) (name : String) (c : Context) : (s.setCurrent name c).scopes = s.scopes := by
  simp [setCurrent]

theorem scopes_bindParameters (s : State) (key : FrameKey) (bindings : List (String × Value)) :
    (bindings.foldl (fun s b => s.bindParameter key b.1 b.2) s).scopes = s.scopes := by
  induction bindings generalizing s with
  | nil => rfl
  | cons b rest ih =>
    rw [List.foldl_cons, ih]
    unfold bindParameter mapTop
    cases s.frames <;> rfl

theorem scopes_mapTop (s : State) (f : CallFrame → CallFrame) : (s.mapTop f).scopes = s.scopes := by
  unfold mapTop
  split <;> rfl

theorem scopes_enterFunction {s s' : State} {fn : Function Value} {args : List Value} {site : String}
    {receiver : Option Receiver} {c : Context} (h : s.enterFunction fn args site receiver = .ok (c, s')) :
    (∀ name, s.scopes.contains name = true → s'.scopes.contains name = true) ∧
      s'.scopes.contains fn.name = true := by
  unfold enterFunction at h
  obtain ⟨⟨c, s₁⟩, hcontext, h⟩ := Except.bind_eq_ok.mp h
  cases h
  obtain ⟨-, rfl⟩ := createContext_eq_ok.mp hcontext
  rw [scopes_bindParameters, scopes_mapTop]
  refine ⟨fun name hname => ?_, contains_registerScope _ _ _ _⟩
  refine (widens_registerScope _ _ _ _).scopes name ?_
  rw [noteContext_scopes]
  exact hname

end State

namespace Run

variable {σ : Type} {a : Analyzer} {body : BodyAnalysis σ}

/-- The state stands where it stood, with the same queues around the innermost one. -/
structure ComesBack (r r' : Run σ) : Prop where
  scopes : ∀ name, r.state.scopes.contains name = true → r'.state.scopes.contains name = true
  place : r.state.Seated → r'.state.place = r.state.place
  outer : r'.state.flow.outer = r.state.flow.outer

theorem ComesBack.trans {r r' r'' : Run σ} (h : r.ComesBack r') (h' : r'.ComesBack r'') : r.ComesBack r'' := by
  refine ⟨fun name hname => h'.scopes name (h.scopes name hname), fun hseated => ?_, h'.outer.trans h.outer⟩
  exact (h'.place (hseated.of_place (h.place hseated) h.scopes)).trans (h.place hseated)

theorem ComesBack.of_same {r r' : Run σ} (hscopes : r'.state.scopes = r.state.scopes)
    (hplace : r'.state.place = r.state.place) (houter : r'.state.flow.outer = r.state.flow.outer) :
    r.ComesBack r' := ⟨fun _ hname => hscopes ▸ hname, fun _ => hplace, houter⟩

theorem Quiet.comesBack {r r' : Run σ} (h : r.Quiet r') : r.ComesBack r' :=
  .of_same (congrArg State.scopes h.state.outline :) (congrArg State.place h.state.outline :) h.state.moves.outer

theorem comesBack_record {r r' : Run σ} {s : Step} {c : Call} {fn : Function Value}
    {receiver : Option Receiver} {constructs : Bool} {target : Context}
    (h : r.record s c fn receiver constructs = .ok (target, r')) : r.ComesBack r' := by
  unfold record at h
  obtain ⟨⟨target', t⟩, hcontext, h⟩ := Except.bind_eq_ok.mp h
  obtain ⟨r₁, hregister, h⟩ := Except.bind_eq_ok.mp h
  cases h
  obtain ⟨-, rfl⟩ := State.createContext_eq_ok.mp hcontext
  unfold registerCall State.registerCall at hregister
  obtain ⟨⟨e, t'⟩, he, hregister⟩ := Except.bind_eq_ok.mp hregister
  cases he
  simp only at hregister
  split at hregister <;> cases hregister <;> refine .of_same ?_ ?_ ?_ <;> simp [State.place]

theorem frame_enter {r r₁ : Run σ} {fn : Function Value} {args : List Value} {receiver : Option Receiver}
    {caller : String} {index : Int} (h : r.enter a fn args receiver caller index = .ok r₁) :
    ∃ f, r₁.state.frames = f :: r.state.frames ∧ f.callee = fn.name ∧ f.scope = r.state.scope ∧
      f.context = r.state.context := by
  obtain ⟨c, henter⟩ := enterFunction_of_enter h
  have hpushed : (r.state.pushCall caller fn.name index r.state.context none).frames =
      _ :: r.state.frames := rfl
  obtain ⟨key, saved, hmoves⟩ := State.moves_enterFunction hpushed henter
  exact ⟨_, hmoves.frames, rfl, rfl, rfl⟩

theorem seated_enter {r r₁ : Run σ} {fn : Function Value} {args : List Value} {receiver : Option Receiver}
    {caller : String} {index : Int} (h : r.enter a fn args receiver caller index = .ok r₁) :
    (∀ name, r.state.scopes.contains name = true → r₁.state.scopes.contains name = true) ∧
      r₁.state.Seated ∧ r₁.state.scope = some fn.name ∧ r₁.state.flow.outer = r.state.flow.outer := by
  obtain ⟨c, henter⟩ := enterFunction_of_enter h
  obtain ⟨hscopes, hknown⟩ := State.scopes_enterFunction henter
  obtain ⟨-, hplace, -⟩ := State.enterFunction_spec henter
  have hpushed : (r.state.pushCall caller fn.name index r.state.context none).frames =
      _ :: r.state.frames := rfl
  obtain ⟨key, saved, hmoves⟩ := State.moves_enterFunction hpushed henter
  have hscope : r₁.state.scope = some fn.name := congrArg Prod.fst hplace
  exact ⟨hscopes, ⟨fn.name, hscope, hknown⟩, hscope, hmoves.outer⟩

theorem place_exitFunction {s s' : State} {value : Option Value} {f : CallFrame}
    (h : s.exitFunction value = .ok (f, s')) :
    s'.place = (f.scope, f.context) ∧ s'.scopes = s.scopes ∧ s'.flow.outer = s.flow.outer ∧
      s'.flow.queue = s.flow.queue := by
  unfold State.exitFunction at h
  split at h
  · cases h
  · split at h <;> cases h
    exact ⟨rfl, rfl, rfl, rfl⟩

theorem comesBack_invoke (hbody : body.Keeps ComesBack)
    (hstack : body.Keeps fun r r' => r.state.KeepsStack r'.state)
    {r r' : Run σ} {fn : Function Value} {argNames : List String} {args : List Value}
    {receiver : Option Receiver} {caller : String} {index : Int} {v : Value}
    (h : r.invoke a body fn argNames args receiver caller index = .ok (v, r')) : r.ComesBack r' := by
  obtain ⟨r₁, r₂, g, s, henter, hrun, -, hexit, hrest⟩ := invoke_cases h
  obtain ⟨f, hframes, -, hscope, hcontext⟩ := frame_enter henter
  obtain ⟨hscopes, -, -, houter⟩ := seated_enter henter
  obtain ⟨w, e, hframes', -, -⟩ := (hstack hrun).busy hframes
  obtain ⟨rest, summaries, htop, -⟩ := State.moves_exitFunction hexit
  obtain ⟨hplace, hscopes', houter', -⟩ := place_exitFunction hexit
  have hback := hbody hrun
  have htop' : g = { f with returned := w, exception := e } := (List.cons.inj (htop.symm.trans hframes')).1
  refine ComesBack.trans ⟨fun name hname => ?_, fun _ => ?_, ?_⟩ hrest.comesBack
  · rw [hscopes']
    exact hback.scopes name (hscopes name hname)
  · rw [hplace, htop']
    exact Prod.ext hscope hcontext
  · exact houter'.trans (hback.outer.trans houter)

theorem comesBack_runScope (hbody : body.Keeps ComesBack) {r r' : Run σ} {name : String} {c : Context}
    (h : r.runScope body name c = .ok r') : r.ComesBack r' := by
  unfold runScope at h
  obtain ⟨r₁, hrun, hrest⟩ := Except.bind_eq_ok.mp h
  have hback := hbody hrun
  have hscopes : ∀ n, r.state.scopes.contains n = true → r₁.state.scopes.contains n = true := by
    intro n hn
    refine hback.scopes n ?_
    rw [State.scopes_setCurrent]
    exact hn
  have houter : r₁.state.flow.outer = r.state.flow.outer := by
    rw [hback.outer, State.setCurrent_flow]
  -- A state that stood in no scope has none to go back to; then nothing is said of its place.
  split at hrest
  · rename_i scope hscope
    cases hrest
    refine ⟨fun n hn => ?_, ?_, ?_⟩
    · rw [State.scopes_setCurrent]
      exact hscopes n hn
    · rintro ⟨scope', hscope', hknown⟩
      obtain rfl : scope = scope' := Option.some.inj (hscope.symm.trans hscope')
      rw [State.place, State.setCurrent_scope _ _ (hscopes _ hknown), State.setCurrent_context, State.place, hscope]
    · rw [State.setCurrent_flow]
      exact houter
  · rename_i hnone
    cases hrest
    refine ⟨hscopes, ?_, houter⟩
    rintro ⟨scope, hscope, -⟩
    rw [hnone] at hscope
    cases hscope

theorem bodyRule_comesBack (hbody : body.Keeps ComesBack)
    (hstack : body.Keeps fun r r' => r.state.KeepsStack r'.state) : BodyRule a body ComesBack where
  trans h h' := h.trans h'
  quiet h := h.comesBack
  records h := comesBack_record h
  cutoff _ := .of_same rfl rfl rfl
  memoizes _ _ _ := .of_same rfl rfl rfl
  invokes _ _ _ _ _ _ _ _ _ _ _ _ h := comesBack_invoke hbody hstack h
  returns r v := by
    unfold State.setReturn
    split <;> exact .of_same rfl rfl rfl
  raises r v := by
    unfold State.addException
    split <;> exact .of_same rfl rfl rfl
  registers r name bases :=
    have hwidens := r.state.widens_registerScope name .classBody r.state.scopeName
    ⟨hwidens.scopes, fun _ => Prod.ext hwidens.scope hwidens.context, congrArg Tracker.outer hwidens.flow⟩
  bodies h := comesBack_runScope hbody h
  dequeues h := by
    obtain ⟨-, rfl⟩ := Tracker.dequeue?_eq_some.mp h
    exact .of_same rfl rfl rfl
  caps _ _ := .of_same rfl rfl rfl
  segment {r r₁ function start current t} h hpop := by
    have houter : r₁.state.flow.outer = r.state.flow.queue :: r.state.flow.outer :=
      h.outer.trans (r.state.flow.push.outer_enqueue function start)
    refine ⟨h.scopes, h.place, ?_⟩
    obtain ⟨t', hpop', -, hrest⟩ := Tracker.exists_pop? houter current
    rw [hpop] at hpop'
    cases hpop'
    exact hrest

end Run

namespace Analyzer

variable {σ : Type}

/-- The analysis of a body comes back to where it started. -/
theorem comesBack_runBody (a : Analyzer) (depth : Nat) : (a.runBody depth : BodyAnalysis σ).Keeps Run.ComesBack := by
  induction depth with
  | zero =>
    intro function start r r' hrun
    cases hrun
  | succ depth ih =>
    intro function start r r' hrun
    have hrule : BodyRule a (a.runBody depth : BodyAnalysis σ) Run.ComesBack :=
      Run.bodyRule_comesBack ih (a.keepsStack_runBody depth)
    unfold runBody at hrun
    split at hrun
    · exact hrule.runFlow hrun
    · exact hrule.runPasses hrun

end Analyzer

end AbstractFlow
