import AbstractFlow.Proofs.Analysis.Outline

/-! # What one statement can do

A statement calls, runs through the body of a class, returns, raises, or is quiet. A call records an
edge and then enters its callee, is cut off or is left to be propagated; entering a callee, analysing
its body and leaving it again is one invocation. Everything that holds along an analysis is proved from
these cases.
-/
namespace AbstractFlow

namespace Stmt

/-- Whether a statement neither calls, defines a class, returns nor raises. -/
def isQuiet : Stmt → Bool
  | .call _ | .classDef .. | .ret _ | .raise _ => false
  | _ => true

end Stmt

namespace Analyzer

/-- The bases of a class: those of its definition, or else those that stand with its body. -/
def basesOf (a : Analyzer) (name : String) (bases : List String) : List String :=
  if bases.isEmpty then ((a.scope? name).map (·.bases)).getD [] else bases

def stmt? (a : Analyzer) (item : WorkItem) : Option Stmt :=
  match item.index, (a.scope? item.function).map (·.body) with
  | .ofNat i, some stmts => stmts[i]?
  | _, _ => none

end Analyzer

def Function.receiver? (fn : Function Value) (receiver : Option Receiver) : Option Receiver :=
  if fn.binding.takesReceiver then receiver else none

namespace Run

variable {σ : Type} {a : Analyzer} {body : BodyAnalysis σ}

/-- What a statement that returns gives back. -/
def resultOf (r : Run σ) (value : String) : Value :=
  if value = "" then Value.noneConstant else r.lookup value

def withClass (r : Run σ) (a : Analyzer) (name : String) (bases : List String) : Run σ :=
  { r with state := r.state.registerClass name (a.basesOf name bases) }

/-- The run in which a statement is interpreted: its visit is counted. -/
def visiting (r : Run σ) (a : Analyzer) (item : WorkItem) (stmt : Stmt) : Run σ :=
  { r with
    state.flow := r.state.flow.visit ⟨item.function, item.index, r.state.context⟩
    stats.statements := r.stats.statements + 1 }.note a fun _ =>
      item.function ++ ":" ++ toString item.index ++ r.state.context.text ++ " " ++ stmt.text

theorem quiet_visiting (r : Run σ) (a : Analyzer) (item : WorkItem) (stmt : Stmt) :
    r.Quiet (r.visiting a item stmt) := by
  refine Quiet.trans ?_ (quiet_note _ a _)
  exact ⟨⟨rfl, .of_functions rfl, List.prefix_rfl, .of_memory rfl⟩, rfl⟩

/-- The cases of a statement that is interpreted at `s` in the run `r`. -/
inductive Effect (a : Analyzer) (body : BodyAnalysis σ) (s : Step) (r : Run σ) : Stmt → Run σ → Prop
  | call {c : Call} {v : Value} {r₁ r' : Run σ} (h : r.call a body s c = .ok (v, r₁))
      (hrest : r₁.Quiet r') : Effect a body s r (.call c) r'
  | classDef {target name : String} {bases : List String} {r₁ r' : Run σ}
      (h : (r.withClass a name bases).runClassBody a body name = .ok r₁) (hrest : r₁.Quiet r') :
      Effect a body s r (.classDef target name bases) r'
  | ret {value : String} {r' : Run σ}
      (hrest : Quiet { r with state := r.state.setReturn (r.resultOf value) } r') :
      Effect a body s r (.ret value) r'
  | raise {value : String} {r' : Run σ}
      (hrest : Quiet { r with state := r.state.addException (r.lookup value) } r') :
      Effect a body s r (.raise value) r'
  | quiet {stmt : Stmt} {r' : Run σ} (h : stmt.isQuiet = true) (hrest : r.Quiet r') :
      Effect a body s r stmt r'

theorem effect_of_interpretStmt {r r' : Run σ} {s : Step} {stmt : Stmt}
    (h : r.interpretStmt a body s stmt = .ok r') : Effect a body s r stmt r' := by
  cases stmt with
  | call c =>
    simp only [interpretStmt] at h
    obtain ⟨⟨v, r₁⟩, hcall, h⟩ := Except.bind_eq_ok.mp h
    obtain ⟨r₂, hassign, h⟩ := Except.bind_eq_ok.mp h
    cases h
    exact .call hcall ((quiet_assign hassign).trans (quiet_advance _ a s))
  | classDef target name bases =>
    simp only [interpretStmt] at h
    obtain ⟨r₂, hdef, h⟩ := Except.bind_eq_ok.mp h
    cases h
    obtain ⟨r₁, hbody, hassign⟩ := Except.bind_eq_ok.mp hdef
    exact .classDef hbody ((quiet_assign hassign).trans (quiet_advance _ a s))
  | ret value =>
    simp only [interpretStmt] at h
    cases h
    exact .ret (quiet_advance _ a s)
  | raise value =>
    simp only [interpretStmt] at h
    cases h
    exact .raise (quiet_advance _ a s)
  | jump sense test label =>
    cases h
    exact .quiet rfl (r.quiet_branch a s sense test label)
  | goto label =>
    cases h
    exact .quiet rfl (r.quiet_jump a s label)
  | label name => exact .quiet rfl (quiet_label h)
  | functionDef target name =>
    obtain ⟨r₁, hdef, h⟩ := Except.bind_eq_ok.mp h
    cases h
    exact .quiet rfl ((quiet_functionDef hdef).trans (quiet_advance _ a s))
  | attrLoad target object attr =>
    obtain ⟨r₁, hassign, h⟩ := Except.bind_eq_ok.mp h
    cases h
    exact .quiet rfl (((r.quiet_attrLoad object attr).trans (quiet_assign hassign)).trans
      (quiet_advance _ a s))
  | attrStore object attr value =>
    cases h
    exact .quiet rfl ((r.quiet_attrStore object attr value).trans (quiet_advance _ a s))
  | subscriptStore object index value =>
    cases h
    exact .quiet rfl ((r.quiet_rebind _ _).trans (quiet_advance _ a s))
  | delete names =>
    cases h
    exact .quiet rfl ((r.quiet_state (State.quiet_foldl_deleteVariable _ names)).trans
      (quiet_advance _ a s))
  | _ =>
    -- What is left assigns a value to its target.
    obtain ⟨r₁, hassign, h⟩ := Except.bind_eq_ok.mp h
    cases h
    exact .quiet rfl ((quiet_assign hassign).trans (quiet_advance _ a s))

/-- A statement that is interpreted, with the number of its earlier visits. -/
def stepOf (r : Run σ) (item : WorkItem) : Step :=
  ⟨item.function, item.index.toNat, r.state.flow.visitCount ⟨item.function, item.index, r.state.context⟩⟩

theorem interpretStmt_of_interpret {r r' : Run σ} {item : WorkItem}
    (h : r.interpret a body item = .ok r') :
    ∃ stmt, a.stmt? item = some stmt ∧
      (r.visiting a item stmt).interpretStmt a body (r.stepOf item) stmt = .ok r' := by
  obtain ⟨function, index⟩ := item
  unfold interpret at h
  simp only at h
  split at h
  · rename_i i stmts hstmts
    split at h
    · cases h
    · rename_i stmt hstmt
      refine ⟨stmt, ?_, h⟩
      simp only [Analyzer.stmt?, hstmts, hstmt]
  · cases h

theorem effect_of_interpret {r r' : Run σ} {item : WorkItem} (h : r.interpret a body item = .ok r') :
    ∃ s stmt, a.stmt? item = some stmt ∧ Effect a body s (r.visiting a item stmt) stmt r' := by
  obtain ⟨stmt, hstmt, h⟩ := interpretStmt_of_interpret h
  exact ⟨_, stmt, hstmt, effect_of_interpretStmt h⟩

def record (r : Run σ) (s : Step) (c : Call) (fn : Function Value) (receiver : Option Receiver)
    (constructs : Bool) : Except Violation (Context × Run σ) := do
  let (target, state) ← r.state.createContext (callSiteText s.function s.index)
    ((receiver.map (·.id)).getD "")
  let r ← { r with state }.registerCall s c fn.name target receiver constructs
  .ok (target, r)

theorem moves_record {r r' : Run σ} {s : Step} {c : Call} {fn : Function Value}
    {receiver : Option Receiver} {constructs : Bool} {target : Context}
    (h : r.record s c fn receiver constructs = .ok (target, r')) :
    ∃ callGraph, State.Moves { r.state with callGraph } r'.state := by
  unfold record at h
  obtain ⟨⟨target', t⟩, hcontext, h⟩ := Except.bind_eq_ok.mp h
  obtain ⟨r₁, hregister, h⟩ := Except.bind_eq_ok.mp h
  cases h
  have hnoted := (State.moves_createContext hcontext).trans
    ((t.moves_noteContext t.context).trans (State.moves_noteContext _ target))
  unfold registerCall State.registerCall at hregister
  obtain ⟨⟨e, t'⟩, he, hregister⟩ := Except.bind_eq_ok.mp hregister
  cases he
  simp only at hregister
  split at hregister <;> cases hregister <;> exact ⟨_, hnoted.withCallGraph _⟩

theorem callFunction_cases {r r' : Run σ} {s : Step} {c : Call} {args : List Value}
    {receiver : Option Receiver} {constructs : Bool} {fn : Function Value} {v : Value}
    (h : r.callFunction a body s c args receiver constructs fn = .ok (v, r')) :
    ∃ target r₁, r.record s c fn (fn.receiver? receiver) constructs = .ok (target, r₁) ∧
      (r₁ = r' ∨
        a.options.directCalls = true ∧
          Quiet { r₁ with stats.recursionCutoffs := r₁.stats.recursionCutoffs + 1 } r' ∨
        a.options.directCalls = true ∧ (a.scope? fn.name).isSome = true ∧
          r₁.state.callDepth fn.name < a.maxRecursionDepth ∧
          invoke { r₁ with memo := ⟨fn.name, target⟩ :: r₁.memo } a body fn c.args args
            (fn.receiver? receiver) s.function s.index = .ok (v, r')) := by
  unfold callFunction at h
  obtain ⟨⟨target, state⟩, hcontext, h⟩ := Except.bind_eq_ok.mp h
  obtain ⟨r₁, hregister, h⟩ := Except.bind_eq_ok.mp h
  refine ⟨target, r₁, ?_, ?_⟩
  · refine Except.bind_eq_ok.mpr ⟨(target, state), hcontext, ?_⟩
    exact Except.bind_eq_ok.mpr ⟨r₁, hregister, rfl⟩
  · simp only at h
    split at h
    · cases h
      exact Or.inl rfl
    · rename_i hscope
      split at h
      · cases h
        exact Or.inl rfl
      · rename_i hdirect
        rw [Bool.not_eq_true, Bool.not_eq_false'] at hdirect
        split at h
        · cases h
          exact Or.inr (Or.inl ⟨hdirect, quiet_note _ a _⟩)
        · rename_i hdepth
          refine Or.inr (Or.inr ⟨hdirect, ?_, Nat.lt_of_not_le hdepth, h⟩)
          simpa [Option.isSome_iff_ne_none] using hscope

/-- The run in which the body of a callee starts. -/
def enter (r : Run σ) (a : Analyzer) (fn : Function Value) (args : List Value)
    (receiver : Option Receiver) (caller : String) (index : Int) : Except Violation (Run σ) := do
  let pushed := r.state.pushCall caller fn.name index r.state.context none
  let deepest := max r.stats.deepestRecursion (pushed.callDepth fn.name)
  let (context, state) ← pushed.enterFunction fn args (callSiteText caller index) receiver
  .ok ({ r with state, stats.deepestRecursion := deepest }.note a fun _ =>
    "enter " ++ fn.name ++ context.text)

theorem enterFunction_of_enter {r r₁ : Run σ} {fn : Function Value} {args : List Value}
    {receiver : Option Receiver} {caller : String} {index : Int}
    (h : r.enter a fn args receiver caller index = .ok r₁) :
    ∃ c, (r.state.pushCall caller fn.name index r.state.context none).enterFunction fn args
      (callSiteText caller index) receiver = .ok (c, r₁.state) := by
  unfold enter at h
  obtain ⟨⟨c, s⟩, henter, h⟩ := Except.bind_eq_ok.mp h
  cases h
  exact ⟨c, by rw [henter, note_state]⟩

theorem ledger_enter {r r₁ : Run σ} {fn : Function Value} {args : List Value}
    {receiver : Option Receiver} {caller : String} {index : Int}
    (h : r.enter a fn args receiver caller index = .ok r₁) :
    r₁.memo = r.memo ∧ r₁.calls = r.calls ∧ r₁.queue = r.queue := by
  unfold enter at h
  obtain ⟨⟨c, s⟩, henter, h⟩ := Except.bind_eq_ok.mp h
  cases h
  exact ⟨(quiet_note _ a _).memo, (quiet_note _ a _).calls, (quiet_note _ a _).queue⟩

theorem invoke_cases {r r' : Run σ} {fn : Function Value} {argNames : List String} {args : List Value}
    {receiver : Option Receiver} {caller : String} {index : Int} {v : Value}
    (h : r.invoke a body fn argNames args receiver caller index = .ok (v, r')) :
    ∃ r₁ r₂ f s, r.enter a fn args receiver caller index = .ok r₁ ∧ body fn.name 0 r₁ = .ok r₂ ∧
      v = r₂.state.returnValue?.getD Value.noneConstant ∧
      r₂.state.exitFunction (some v) = .ok (f, s) ∧
      Quiet { r₂ with analyzed := fn.name :: r₂.analyzed, state := s } r' := by
  unfold invoke at h
  obtain ⟨⟨context, state⟩, henter, h⟩ := Except.bind_eq_ok.mp h
  obtain ⟨r₂, hbody, h⟩ := Except.bind_eq_ok.mp h
  obtain ⟨⟨f, s⟩, hexit, h⟩ := Except.bind_eq_ok.mp h
  cases h
  refine ⟨_, r₂, f, s, Except.bind_eq_ok.mpr ⟨(context, state), henter, rfl⟩, hbody, rfl, hexit, ?_⟩
  exact (quiet_foldl_writeBack _ _).trans (quiet_note _ a _)

end Run

end AbstractFlow
