import AbstractFlow.Proofs.Analysis.StackBound

/-! # Assignments along the control flow

Where the order of statements counts, an assignment would overwrite what its target holds only at a statement to
which several others lead. Control flow joins at labels only, and a label assigns nothing. So what an assignment
would do if it did overwrite is of no account: no statement of any program that is analysed ever does.
-/
namespace AbstractFlow

namespace Run

variable {σ : Type} {a : Analyzer} {body : BodyAnalysis σ} {r r' : Run σ} {s : Step} {stmt : Stmt}

abbrev Overwrite (σ : Type) := Run σ → String → Value → Except Violation (Run σ)

def setTarget : Overwrite σ := fun r target v => (r.state.setVariable target v).map fun state => { r with state }

/-- An assignment that has its own way to overwrite, and else joins. -/
def assignBy (overwrite : Overwrite σ) (r : Run σ) (a : Analyzer) (s : Step) (target : String) (v : Value) :
    Except Violation (Run σ) :=
  if target = "" then .ok r
  else
    let (strong, r) := r.overwrites a s target
    if strong then overwrite r target v
    else (r.state.mergeVariable target v).map fun (_, state) => { r with state }

/-- A function that a statement defines, and the run in which it is known. -/
def withFunction (r : Run σ) (name : String) : Value × Run σ :=
  let fn : Function Value := (r.state.function? name).getD ⟨name, [], false, .plain, false, false, []⟩
  ([.function fn],
    { r with state := if (r.state.function? name).isSome then r.state else r.state.registerFunction fn })

/-- What is defined in the body of a class also becomes a member of the class. -/
def withMember (r : Run σ) (v : Value) : Stmt → Run σ
  | .functionDef target _ =>
    match r.state.scope with
    | some scope =>
      if r.state.isClassScope scope && target ≠ "" then { r with state := r.state.addMethod scope target v } else r
    | none => r
  | _ => r

/-- What a statement that assigns assigns to its target, and the run in which it does. -/
def assigned? (r : Run σ) (a : Analyzer) (body : BodyAnalysis σ) (s : Step) :
    Stmt → Option (Except Violation (Value × Run σ))
  | .assign _ value => some (.ok (r.lookup value, r))
  | .const _ l => some (.ok (l.value, r))
  | .build _ type elems keys => some (.ok (r.build type elems keys, r))
  | .expr .. | .yield .. | .await .. => some (.ok (Value.unknown, r))
  | .attrLoad _ object attr => some (.ok (r.attrLoad object attr))
  | .subscriptLoad _ object _ => some (.ok (Value.elements (r.lookup object), r))
  | .call c => some (r.call a body s c)
  | .classDef _ name bases => some do
    let r ← (r.withClass a name bases).runClassBody a body name
    .ok ([.classObject ((r.state.hierarchy.class? name).getD default)], r)
  | .functionDef _ name => some (.ok (r.withFunction name))
  | _ => none

/-- Interprets a statement, with a way to overwrite if it assigns. -/
def interpretBy (overwrite : Overwrite σ) (r : Run σ) (a : Analyzer) (body : BodyAnalysis σ) (s : Step)
    (stmt : Stmt) : Except Violation (Run σ) :=
  match r.assigned? a body s stmt with
  | some x => do
    let (v, r) ← x
    let r ← r.assignBy overwrite a s stmt.target v
    .ok ((r.withMember v stmt).advance a s)
  | none => r.interpretStmt a body s stmt

/-- A statement assigns to its target if it has one, but does not overwrite it: how it would do so is of no account. -/
structure NeverOverwrites (r : Run σ) (a : Analyzer) (body : BodyAnalysis σ) (s : Step) (stmt : Stmt) : Prop where
  assigns : stmt.target ≠ "" → (r.assigned? a body s stmt).isSome = true
  joins : ∀ overwrite : Overwrite σ, r.interpretStmt a body s stmt = r.interpretBy overwrite a body s stmt

theorem isSome_assigned? (h : stmt.target ≠ "") : (r.assigned? a body s stmt).isSome = true := by
  cases stmt <;> first | rfl | exact absurd rfl h

theorem functionDef_eq (r : Run σ) (a : Analyzer) (s : Step) (target name : String) :
    r.functionDef a s target name =
      ((r.withFunction name).2.assign a s target (r.withFunction name).1 >>= fun r' =>
        .ok (r'.withMember (r.withFunction name).1 (.functionDef target name))) := by
  unfold functionDef
  refine bind_congr fun r' => ?_
  unfold withMember withFunction
  dsimp only
  cases r'.state.scope with
  | none => rfl
  | some scope =>
    dsimp only
    split <;> rfl

/-- Interpreting a statement is setting its target where it overwrites. -/
theorem interpretStmt_eq (r : Run σ) (a : Analyzer) (body : BodyAnalysis σ) (s : Step) (stmt : Stmt) :
    r.interpretStmt a body s stmt = r.interpretBy setTarget a body s stmt := by
  cases stmt with
  | functionDef target name =>
    show (r.functionDef a s target name >>= fun r => .ok (r.advance a s)) = _
    rw [functionDef_eq, bind_assoc]
    rfl
  | classDef target name bases =>
    show (r.classDef a body s target name bases >>= fun r => .ok (r.advance a s)) = _
    unfold classDef interpretBy assigned?
    simp only [bind_assoc]
    rfl
  | _ => rfl

abbrev KeepsGraphs (r r' : Run σ) : Prop := r'.state.flow.graphs = r.state.flow.graphs

theorem Quiet.keepsGraphs (h : r.Quiet r') : r.KeepsGraphs r' := h.state.moves.graphs

theorem keepsGraphs_invoke (hbody : body.Keeps KeepsGraphs) {fn : Function Value} {argNames : List String}
    {args : List Value} {receiver : Option Receiver} {caller : String} {index : Int} {v : Value}
    (h : r.invoke a body fn argNames args receiver caller index = .ok (v, r')) : r.KeepsGraphs r' := by
  obtain ⟨r₁, r₂, f, s, henter, hrun, -, hexit, hrest⟩ := invoke_cases h
  obtain ⟨c, hentered⟩ := enterFunction_of_enter henter
  have hpushed : (r.state.pushCall caller fn.name index r.state.context none).frames = _ :: r.state.frames := rfl
  obtain ⟨key, saved, hmoves⟩ := State.moves_enterFunction hpushed hentered
  obtain ⟨rest, summaries, -, hleft⟩ := State.moves_exitFunction hexit
  calc r'.state.flow.graphs
    _ = s.flow.graphs := hrest.keepsGraphs
    _ = r₂.state.flow.graphs := hleft.graphs
    _ = r₁.state.flow.graphs := hbody hrun
    _ = r.state.flow.graphs := hmoves.graphs

theorem keepsGraphs_runScope (hbody : body.Keeps KeepsGraphs) {name : String} {c : Context}
    (h : r.runScope body name c = .ok r') : r.KeepsGraphs r' := by
  unfold runScope at h
  obtain ⟨r₁, hrun, hrest⟩ := Except.bind_eq_ok.mp h
  have hback : r₁.state.flow.graphs = r.state.flow.graphs := by
    rw [hbody hrun, State.setCurrent_flow]
  split at hrest <;> cases hrest
  · exact (congrArg Tracker.graphs (State.setCurrent_flow ..)).trans hback
  · exact hback

theorem bodyRule_keepsGraphs (hbody : body.Keeps KeepsGraphs) : BodyRule a body KeepsGraphs where
  trans h h' := h'.trans h
  quiet h := h.keepsGraphs
  records h := by
    obtain ⟨callGraph, hmoves⟩ := moves_record h
    exact hmoves.graphs
  cutoff _ := rfl
  memoizes _ _ _ := rfl
  invokes _ _ _ _ _ _ _ _ _ _ _ _ h := keepsGraphs_invoke hbody h
  returns r v := by
    unfold State.setReturn
    split <;> rfl
  raises r v := by
    unfold State.addException
    split <;> rfl
  registers r name bases := (r.state.moves_registerClass name _).graphs
  bodies h := keepsGraphs_runScope hbody h
  dequeues h := by
    obtain ⟨-, rfl⟩ := Tracker.dequeue?_eq_some.mp h
    rfl
  caps _ _ := rfl
  segment {r r₁ function start current t} h hpop := by
    obtain ⟨segment, suspended, -, rfl⟩ := Tracker.pop?_eq_some.mp hpop
    exact h.trans (r.state.flow.push.graphs_enqueue function start)

theorem keepsGraphs_withFunction (r : Run σ) (name : String) : r.KeepsGraphs (r.withFunction name).2 := by
  unfold KeepsGraphs withFunction
  dsimp only
  split <;> rfl

theorem keepsGraphs_assigned? (hbody : body.Keeps KeepsGraphs) {v : Value}
    (h : r.assigned? a body s stmt = some (.ok (v, r'))) : r.KeepsGraphs r' := by
  have hrule : BodyRule a body KeepsGraphs := bodyRule_keepsGraphs hbody
  cases stmt with
  | call c => exact hrule.call (Option.some.inj h)
  | classDef target name bases =>
    obtain ⟨r₁, hclass, hr₁⟩ := Except.bind_eq_ok.mp (Option.some.inj h)
    cases hr₁
    exact hrule.trans (hrule.registers r name bases) (hrule.classBody hclass)
  | functionDef target name =>
    cases h
    exact r.keepsGraphs_withFunction name
  | attrLoad target object attr =>
    cases h
    exact (r.quiet_attrLoad object attr).keepsGraphs
  | _ =>
    cases h <;> rfl

/-- Control flow joins at labels only, so nothing is overwritten at any other statement. -/
theorem overwrites_of_mirrors (hf : a.options.flowSensitive = true) (hflow : r.state.flow.Mirrors a)
    (hstmt : a.stmt? ⟨s.function, s.index⟩ = some stmt) (hlabel : ∀ l, stmt ≠ .label l) (target : String) :
    r.overwrites a s target = (false, r) := by
  obtain ⟨scope, hscope⟩ := Option.isSome_iff_exists.mp (Analyzer.isSome_scope? hstmt)
  have hat : scope.body[s.index]? = some stmt := by
    simpa only [Analyzer.stmt?, hscope, Option.map_some] using hstmt
  have hone : decide (1 < r.predecessors s) = false := by
    rw [predecessors, hflow, hscope, Option.map_some]
    exact Graph.isMergePoint_of_not_label _ _ fun l hl => hlabel l (Option.some.inj (hat.symm.trans hl))
  rw [overwrites_of_flowSensitive hf, hone, Bool.and_false]

/-- Where the order of statements counts, a statement is interpreted without overwriting anything. -/
theorem neverOverwrites (hf : a.options.flowSensitive = true) (hflow : r.state.flow.Mirrors a)
    (hbody : body.Keeps KeepsGraphs) (hstmt : a.stmt? ⟨s.function, s.index⟩ = some stmt) :
    r.NeverOverwrites a body s stmt := by
  refine ⟨isSome_assigned?, fun overwrite => ?_⟩
  rw [interpretStmt_eq]
  unfold interpretBy
  cases hassigned : r.assigned? a body s stmt with
  | none => rfl
  | some x =>
    cases x with
    | error violation => rfl
    | ok e =>
      obtain ⟨v, r'⟩ := e
      have hlabel : ∀ l, stmt ≠ .label l := by
        rintro l rfl
        cases hassigned
      have hflow' : r'.state.flow.Mirrors a := hflow.of_graphs (keepsGraphs_assigned? hbody hassigned)
      have hsame : r'.assignBy setTarget a s stmt.target v = r'.assignBy overwrite a s stmt.target v := by
        simp only [assignBy, overwrites_of_mirrors hf hflow' hstmt hlabel, Bool.false_eq_true, if_false]
      simp only [Except.ok_bind, hsame]

end Run

namespace Analyzer

variable {σ : Type}

/-- The graph of a body has exactly the edges of the body, and only labels join. So in an analysis in which the order
of statements counts, no assignment of any statement overwrites its target. -/
theorem only_labels_join (o : Options) (bindings : List Prebinding) (tracing : Bool) (p : Program)
    (oracle : Option (Oracle σ)) (start : σ) :
    (∀ (function : String) (body : List Stmt), (Graph.build function body).Exact body) ∧
    (o.flowSensitive = true → (ofProgram o bindings tracing p).asking (fun τ oracle start =>
      ∀ m ∈ (ofProgram o bindings tracing p).momentsWith callBound τ oracle start, ∀ (depth : Nat) (s : Step)
        (stmt : Stmt), (ofProgram o bindings tracing p).stmt? ⟨s.function, s.index⟩ = some stmt →
        m.run.NeverOverwrites (ofProgram o bindings tracing p) ((ofProgram o bindings tracing p).runBody depth)
          s stmt) oracle start) := by
  refine ⟨Graph.exact_build, fun hf => ?_⟩
  obtain ⟨ha, ho⟩ := distinct_ofProgram o bindings tracing p
  rw [← ho] at hf
  generalize ofProgram o bindings tracing p = a at *
  obtain ⟨τ, oracle', start', -, -, hasking⟩ := a.exists_asked oracle start
  rw [hasking]
  intro m hm depth s stmt hstmt
  cases hstarted : a.started oracle' start' with
  | none => simp [momentsWith, hstarted] at hm
  | some r₀ =>
    obtain ⟨before, after, hsplit⟩ := List.append_of_mem hm
    have htrail := (boundsStack_analysis ha hstarted callBound).trail
    rw [hsplit] at htrail
    exact Run.neverOverwrites hf htrail.at_moment.1.flow
      (runBody_keeps (fun _ hbody => Run.bodyRule_keepsGraphs hbody) depth) hstmt

/-- A variable that is assigned before a loop and in it. -/
def assignedInLoop : Program where
  scopes :=
    [{ Scope.emptyModule "m" with
        body := [.const "x" (.int 1), .label "L", .const "x" (.int 2), .jump true (.name "t") "L"] }]

theorem only_labels_join_assignedInLoop :
    ∃ m ∈ (ofProgram {} [] false assignedInLoop).momentsWith callBound Unit none (),
      m.run.NeverOverwrites (ofProgram {} [] false assignedInLoop) ((ofProgram {} [] false assignedInLoop).runBody 1)
        ⟨"m", 2, 0⟩ (.const "x" (.int 2)) := by
  have hsome : ((ofProgram {} [] false assignedInLoop).momentsWith callBound Unit none ()).isEmpty = false := by
    decide +kernel
  obtain ⟨m, hm⟩ := List.exists_mem_of_ne_nil _ (by simpa using hsome)
  exact ⟨m, hm, (only_labels_join {} [] false assignedInLoop none ()).2 rfl m hm 1 ⟨"m", 2, 0⟩ _ rfl⟩

end Analyzer

end AbstractFlow
