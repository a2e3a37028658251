import AbstractFlow.Proofs.Analysis.Effect

/-! # Rules for whole analyses

A relation between runs that is kept by every single step is kept by the analysis of a body, however
deep the bodies are nested in it. `CallRule` lists the steps of a call and `BodyRule` those of a body;
the nested analyses are a parameter, so that one induction on the nesting serves every relation.
-/
namespace AbstractFlow

variable {σ : Type}

/-- Every analysis of a body keeps a relation between runs. -/
def BodyAnalysis.Keeps (body : BodyAnalysis σ) (P : Run σ → Run σ → Prop) : Prop :=
  ∀ ⦃function : String⦄ ⦃start : Int⦄ ⦃r r' : Run σ⦄, body function start r = .ok r' → P r r'

/-- The steps of a call, over some analysis of bodies. -/
structure CallRule (a : Analyzer) (body : BodyAnalysis σ) (P : Run σ → Run σ → Prop) : Prop where
  trans : ∀ {r r' r'' : Run σ}, P r r' → P r' r'' → P r r''
  quiet : ∀ {r r' : Run σ}, r.Quiet r' → P r r'
  records : ∀ {r r' : Run σ} {s : Step} {c : Call} {fn : Function Value} {receiver : Option Receiver}
    {constructs : Bool} {target : Context},
    r.record s c fn receiver constructs = .ok (target, r') → P r r'
  cutoff : ∀ r : Run σ, P r { r with stats.recursionCutoffs := r.stats.recursionCutoffs + 1 }
  memoizes : a.options.directCalls = true → ∀ (r : Run σ) (key : FrameKey),
    P r { r with memo := key :: r.memo }
  invokes : a.options.directCalls = true → ∀ {r r' : Run σ} {fn : Function Value}
    {argNames : List String} {args : List Value} {receiver : Option Receiver} {caller : String}
    {index : Int} {v : Value}, (a.scope? fn.name).isSome = true →
    r.state.callDepth fn.name < a.maxRecursionDepth →
    r.invoke a body fn argNames args receiver caller index = .ok (v, r') → P r r'

namespace CallRule

variable {a : Analyzer} {body : BodyAnalysis σ} {P : Run σ → Run σ → Prop} {r r' : Run σ} {s : Step}
  {c : Call} {args : List Value} {receiver : Option Receiver}

theorem refl (h : CallRule a body P) (r : Run σ) : P r r := h.quiet (.refl r)

theorem callFunction (h : CallRule a body P) {constructs : Bool} {fn : Function Value} {v : Value}
    (hcall : r.callFunction a body s c args receiver constructs fn = .ok (v, r')) : P r r' := by
  obtain ⟨target, r₁, hrecord, hrest⟩ := Run.callFunction_cases hcall
  refine h.trans (h.records hrecord) ?_
  rcases hrest with rfl | ⟨-, hcutoff⟩ | ⟨hdirect, hscope, hdepth, hinvoke⟩
  · exact h.refl _
  · exact h.trans (h.cutoff _) (h.quiet hcutoff)
  · exact h.trans (h.memoizes hdirect _ _) (h.invokes hdirect hscope hdepth hinvoke)

theorem foldlM (h : CallRule a body P) {α β : Type} {g : α → Run σ} {f : α → β → Except Violation α}
    (hf : ∀ {acc acc' : α} {b : β}, f acc b = .ok acc' → P (g acc) (g acc'))
    {acc acc' : α} {bs : List β} (hfold : bs.foldlM f acc = .ok acc') : P (g acc) (g acc') := by
  induction bs generalizing acc with
  | nil =>
    cases hfold
    exact h.refl _
  | cons b bs ih =>
    rw [List.foldlM_cons] at hfold
    obtain ⟨acc₁, hb, hrest⟩ := Except.bind_eq_ok.mp hfold
    exact h.trans (hf hb) (ih hrest)

theorem instantiate (h : CallRule a body P) {cls : Class Value} {v : Value}
    (hcall : r.instantiate a body s c args cls = .ok (v, r')) : P r r' := by
  obtain ⟨r₁, hfold, hrest⟩ := Except.bind_eq_ok.mp hcall
  cases hrest
  refine h.foldlM (g := id) (fun {acc acc' fn} hinit => ?_) hfold
  obtain ⟨⟨v, r₂⟩, hinit, hrest⟩ := Except.bind_eq_ok.mp hinit
  cases hrest
  exact h.callFunction hinit

theorem callObject (h : CallRule a body P) {acc acc' : Resolution × Run σ} {o : Object}
    (hcall : Run.callObject a body s c args receiver acc o = .ok acc') : P acc.2 acc'.2 := by
  unfold Run.callObject at hcall
  simp only at hcall
  split at hcall
  · obtain ⟨⟨v, r₁⟩, hfn, hrest⟩ := Except.bind_eq_ok.mp hcall
    cases hrest
    exact h.callFunction hfn
  · obtain ⟨⟨v, r₁⟩, hcls, hrest⟩ := Except.bind_eq_ok.mp hcall
    cases hrest
    exact h.instantiate hcls
  · split at hcall <;> cases hcall <;> exact h.refl _
  · cases hcall
    exact h.refl _

theorem callNamed (h : CallRule a body P) {acc acc' : Resolution × Run σ} {symbol : String}
    (hcall : Run.callNamed a body s c args receiver acc symbol = .ok acc') : P acc.2 acc'.2 := by
  obtain ⟨n, r⟩ := acc
  unfold Run.callNamed at hcall
  extract_lets name at hcall
  simp only at hcall
  split at hcall
  · cases hcall
    exact h.refl _
  · split at hcall
    · cases hcall
      exact h.refl _
    · obtain ⟨⟨v, r₁⟩, hfn, hrest⟩ := Except.bind_eq_ok.mp hcall
      cases hrest
      exact h.callFunction hfn
    · cases hcall
      exact h.refl _

theorem call (h : CallRule a body P) {v : Value} (hcall : r.call a body s c = .ok (v, r')) : P r r' := by
  unfold Run.call at hcall
  obtain ⟨⟨n, r₁⟩, hobjects, hrest⟩ := Except.bind_eq_ok.mp hcall
  have hcalled : P r r₁ := h.foldlM (g := Prod.snd) (fun hobject => h.callObject hobject) hobjects
  simp only at hrest
  split at hrest
  · obtain ⟨⟨n', r₂⟩, hnames, hend⟩ := Except.bind_eq_ok.mp hrest
    cases hend
    have hasked := r₁.quiet_ask (.possibleCallees ⟨s.function, s.index⟩ r₁.contextKey)
    refine h.trans hcalled (h.trans (h.quiet hasked) ?_)
    exact h.foldlM (g := Prod.snd) (fun hname => h.callNamed hname) hnames
  · cases hrest
    exact hcalled

end CallRule

/-- The steps of the analysis of a body, over the analysis of the bodies nested in it. -/
structure BodyRule (a : Analyzer) (body : BodyAnalysis σ) (P : Run σ → Run σ → Prop) : Prop
    extends CallRule a body P where
  returns : ∀ (r : Run σ) (v : Value), P r { r with state := r.state.setReturn v }
  raises : ∀ (r : Run σ) (v : Value), P r { r with state := r.state.addException v }
  registers : ∀ (r : Run σ) (name : String) (bases : List String), P r (r.withClass a name bases)
  bodies : ∀ {r r' : Run σ} {name : String}, r.runScope body name .root = .ok r' → P r r'
  dequeues : ∀ {r : Run σ} {item : WorkItem} {t : Tracker}, r.state.flow.dequeue? = some (item, t) →
    P r { r with state.flow := t }
  caps : ∀ (r : Run σ) (function : String), P r (r.capped a function)
  /-- A queue of its own is opened for the body and dropped behind it. -/
  segment : ∀ {r r₁ : Run σ} {function : String} {start : Int} {current : WorkItem} {t : Tracker},
    P (r.mapFlow fun t => t.push.enqueue function start) r₁ → r₁.state.flow.pop? current = some t →
    P r { r₁ with state.flow := t }

namespace BodyRule

variable {a : Analyzer} {body : BodyAnalysis σ} {P : Run σ → Run σ → Prop} {r r' : Run σ}

theorem classBody (h : BodyRule a body P) {name : String} (hbody : r.runClassBody a body name = .ok r') :
    P r r' := by
  unfold Run.runClassBody at hbody
  split at hbody
  · cases hbody
    exact h.refl _
  · exact h.bodies hbody

theorem effect (h : BodyRule a body P) {s : Step} {stmt : Stmt} (heffect : r.Effect a body s stmt r') :
    P r r' := by
  cases heffect with
  | call hcall hrest => exact h.trans (h.call hcall) (h.quiet hrest)
  | classDef hbody hrest =>
    exact h.trans (h.registers _ _ _) (h.trans (h.classBody hbody) (h.quiet hrest))
  | ret hrest => exact h.trans (h.returns _ _) (h.quiet hrest)
  | raise hrest => exact h.trans (h.raises _ _) (h.quiet hrest)
  | quiet _ hrest => exact h.quiet hrest

theorem interpret (h : BodyRule a body P) {item : WorkItem} (hrun : r.interpret a body item = .ok r') :
    P r r' := by
  obtain ⟨s, stmt, -, heffect⟩ := Run.effect_of_interpret hrun
  exact h.trans (h.quiet (r.quiet_visiting a item stmt)) (h.effect heffect)

theorem drain (h : BodyRule a body P) {function : String} {left : Nat}
    (hrun : Run.drain a body function left r = .ok r') : P r r' := by
  induction left generalizing r with
  | zero =>
    unfold Run.drain at hrun
    split at hrun
    · cases hrun
      exact h.refl _
    · rename_i item flow hflow
      cases hrun
      exact h.trans (h.dequeues hflow) (h.caps _ _)
  | succ left ih =>
    unfold Run.drain at hrun
    split at hrun
    · cases hrun
      exact h.refl _
    · rename_i item flow hflow
      obtain ⟨r₁, hitem, hrest⟩ := Except.bind_eq_ok.mp hrun
      refine h.trans (h.dequeues hflow) ?_
      exact h.trans (h.interpret hitem) (ih hrest)

theorem pass (h : BodyRule a body P) {function : String} {indices : List Nat} {left : Nat}
    {left? : Option Nat} (hrun : Run.pass a body function indices left r = .ok (left?, r')) : P r r' := by
  induction indices generalizing left r with
  | nil =>
    unfold Run.pass at hrun
    cases hrun
    exact h.refl _
  | cons i rest ih =>
    cases left with
    | zero =>
      cases hrun
      exact h.caps _ _
    | succ left =>
      obtain ⟨r₁, hitem, hrest⟩ := Except.bind_eq_ok.mp hrun
      refine h.trans (h.quiet (r.quiet_flow (t := { r.state.flow with current := ⟨function, i⟩ }) rfl List.prefix_rfl)) ?_
      exact h.trans (h.interpret hitem) (ih hrest)

theorem passes (h : BodyRule a body P) {function : String} {indices : List Nat} {fuel left : Nat}
    (hrun : Run.passes a body function indices fuel left r = .ok r') : P r r' := by
  induction fuel generalizing left r with
  | zero =>
    cases hrun
    exact h.refl _
  | succ fuel ih =>
    obtain ⟨⟨left?, r₁⟩, hpass, hrest⟩ := Except.bind_eq_ok.mp hrun
    refine h.trans (h.pass hpass) ?_
    simp only at hrest
    split at hrest
    · cases hrest
      exact h.refl _
    · split at hrest
      · cases hrest
        exact h.refl _
      · exact ih hrest

theorem runFlow (h : BodyRule a body P) {function : String} {start : Int}
    (hrun : r.runFlow a body function start = .ok r') : P r r' := by
  unfold Run.runFlow at hrun
  obtain ⟨r₁, hdrain, hrest⟩ := Except.bind_eq_ok.mp hrun
  split at hrest
  · rename_i flow hflow
    cases hrest
    exact h.segment (h.drain hdrain) hflow
  · cases hrest

theorem runPasses (h : BodyRule a body P) {function : String}
    (hrun : r.runPasses a body function = .ok r') : P r r' := by
  unfold Run.runPasses at hrun
  split at hrun
  · cases hrun
    exact h.refl _
  · obtain ⟨r₁, hpasses, hrest⟩ := Except.bind_eq_ok.mp hrun
    cases hrest
    exact h.trans (h.passes hpasses) (h.quiet (r₁.quiet_flow rfl List.prefix_rfl))

end BodyRule

/-- What a body keeps as long as the bodies nested in it keep it, every analysis of a body keeps. -/
theorem Analyzer.runBody_keeps {a : Analyzer} {P : Run σ → Run σ → Prop}
    (h : ∀ body : BodyAnalysis σ, body.Keeps P → BodyRule a body P) (depth : Nat) :
    (a.runBody depth : BodyAnalysis σ).Keeps P := by
  induction depth with
  | zero =>
    intro function start r r' hrun
    cases hrun
  | succ depth ih =>
    intro function start r r' hrun
    have hrule := h (a.runBody depth) ih
    unfold runBody at hrun
    split at hrun
    · exact hrule.runFlow hrun
    · exact hrule.runPasses hrun

end AbstractFlow
