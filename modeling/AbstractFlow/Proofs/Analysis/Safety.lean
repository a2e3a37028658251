import AbstractFlow.Oracle.Recorded
import AbstractFlow.Proofs.Analysis.ClassChains
import AbstractFlow.Proofs.Analysis.Rounds
import AbstractFlow.Proofs.Analysis.StackBound
import AbstractFlow.Proofs.Analysis.Universe

/-! # Analyses do not fail

Whatever a program says, an analysis with valid options meets no misuse: bodies are not nested too deep, calls
are left that were entered, and there is a scope and a frame for everything that is written. If the oracle names
finitely many objects, or if there is none, then only finitely many calls can be recorded. Each of them is taken
from the queue at most twice, so the analysis ends with a result.
-/
namespace AbstractFlow

namespace Analyzer

/-- The contexts and calls of a run are among those that can be derived and recorded. -/
structure Confined {σ : Type} (a : Analyzer) (objects : Set HeapObject) (r : Run σ) : Prop where
  depth : r.state.config.depth = a.options.contextDepth
  context : r.state.context ∈ a.contexts objects
  stack : ∀ c ∈ r.state.frames.map (·.context), c ∈ a.contexts objects
  calls : ∀ record ∈ r.calls, record.edge.ends ∈ a.calls objects

namespace Confined

variable {σ : Type} {a : Analyzer} {objects : Set HeapObject} {r r' : Run σ}

theorem of_same (h : a.Confined objects r) (hconfig : r'.state.config = r.state.config)
    (hcontext : r'.state.context ∈ a.contexts objects)
    (hstack : r'.state.frames.map (·.context) = r.state.frames.map (·.context)) (hcalls : r'.calls = r.calls) :
    a.Confined objects r' :=
  ⟨hconfig ▸ h.depth, hcontext, hstack ▸ h.stack, hcalls ▸ h.calls⟩

theorem quiet (h : a.Confined objects r) (hquiet : r.Quiet r') : a.Confined objects r' := by
  have hcontext : r'.state.context = r.state.context := (congrArg State.context hquiet.state.outline :)
  exact h.of_same hquiet.state.moves.config (hcontext ▸ h.context) (by rw [hquiet.state.frames]) hquiet.calls

theorem receiver_isText {receiver : Option Receiver}
    (h : ∀ x, receiver = some x → x.Proper (Value.Consists (a.Occurs objects))) :
    a.IsText objects ((receiver.map (·.id)).getD "") := by
  cases receiver with
  | none => exact .site .none
  | some x =>
    obtain ⟨hvalue, hid⟩ := h x rfl
    show a.IsText objects x.id
    rw [hid]
    exact .receiver hvalue

theorem derive (h : a.Confined objects r) {function : String} {index : Int} {stmt : Stmt}
    (hstmt : a.stmt? ⟨function, index⟩ = some stmt) {receiver : Option Receiver}
    (hreceiver : ∀ x, receiver = some x → x.Proper (Value.Consists (a.Occurs objects))) {c : Context}
    (hc : r.state.context.derive r.state.config.policy r.state.config.depth (callSiteText function index)
      ((receiver.map (·.id)).getD "") = .ok c) : c ∈ a.contexts objects := by
  rw [h.depth] at hc
  exact derive_mem_contexts h.context (.site (.call hstmt)) (receiver_isText hreceiver) hc

theorem record (h : a.Confined objects r) {s : Step} {c : Call} {fn : Function Value}
    {receiver : Option Receiver} {constructs : Bool} {target : Context}
    (hstmt : a.stmt? ⟨s.function, s.index⟩ = some (.call c))
    (hfn : Value.Consists (a.Occurs objects) [.function fn])
    (hreceiver : ∀ x, receiver = some x → x.Proper (Value.Consists (a.Occurs objects)))
    (hrecord : r.record s c fn receiver constructs = .ok (target, r')) : a.Confined objects r' := by
  obtain ⟨-, -, hplace, hconfig, -, -, -, hcalls⟩ := Run.record_spec hrecord
  have hcontext : r'.state.context = r.state.context := (congrArg Prod.snd hplace :)
  have hframes := (Run.sameStack_record hrecord).frames
  have htarget := h.derive hstmt hreceiver (Run.target_record hrecord)
  refine ⟨hconfig ▸ h.depth, hcontext ▸ h.context, by rw [hframes]; exact h.stack, ?_⟩
  rcases hcalls with hcalls | hcalls
  · exact hcalls ▸ h.calls
  · have hname : a.IsName objects fn.name := (Value.consists_singleton.mp hfn).2.1
    have hends : (r.edgeOf s c fn target).ends ∈ a.calls objects :=
      ⟨⟨_, hstmt⟩, hname, h.context, htarget⟩
    rw [hcalls]
    exact List.forall_mem_append.mpr ⟨h.calls, List.forall_mem_singleton.mpr hends⟩

theorem enter (h : a.Confined objects r) {fn : Function Value} {args : List Value} {receiver : Option Receiver}
    {caller : String} {index : Int} {c : Call} (hstmt : a.stmt? ⟨caller, index⟩ = some (.call c))
    (hreceiver : ∀ x, receiver = some x → x.Proper (Value.Consists (a.Occurs objects)))
    (henter : r.enter a fn args receiver caller index = .ok r') : a.Confined objects r' := by
  obtain ⟨d, hentered⟩ := Run.enterFunction_of_enter henter
  obtain ⟨hderive, hplace, -⟩ := State.enterFunction_spec hentered
  obtain ⟨f, hframes, -, -, hcontext⟩ := Run.frame_enter henter
  obtain ⟨-, hcalls, -⟩ := Run.ledger_enter henter
  have hpushed : (r.state.pushCall caller fn.name index r.state.context none).frames = _ :: r.state.frames := rfl
  obtain ⟨_, _, hmoves⟩ := State.moves_enterFunction hpushed hentered
  have hplaced : r'.state.context = d := congrArg Prod.snd hplace
  refine ⟨hmoves.config ▸ h.depth, hplaced ▸ h.derive hstmt hreceiver hderive, ?_, hcalls ▸ h.calls⟩
  rw [hframes, List.map_cons, hcontext]
  exact List.forall_mem_cons.mpr ⟨h.context, h.stack⟩

theorem exit (h : a.Confined objects r) {value : Option Value} {f : CallFrame} {s : State}
    (hexit : r.state.exitFunction value = .ok (f, s)) : a.Confined objects { r with state := s } := by
  obtain ⟨rest, summaries, hframes, hmoves⟩ := State.moves_exitFunction hexit
  obtain ⟨hplace, -⟩ := Run.place_exitFunction hexit
  have hcontext : s.context = f.context := congrArg Prod.snd hplace
  have hstack := h.stack
  rw [hframes, List.map_cons] at hstack
  obtain ⟨htop, hrest⟩ := List.forall_mem_cons.mp hstack
  refine ⟨hmoves.config ▸ h.depth, hcontext ▸ htop, ?_, h.calls⟩
  show ∀ c ∈ s.frames.map (·.context), _
  rw [hmoves.frames]
  exact hrest

end Confined

variable {σ : Type} {a : Analyzer} {objects : Set HeapObject}

/-- A guide along which bodies are never nested too deep. -/
def confinedGuide (a : Analyzer) (objects : Set HeapObject) (σ : Type) : Guide a σ where
  V := Value.Consists (a.Occurs objects)
  U := (· ∈ objects)
  C := (· ∈ a.contexts objects)
  J _ := a.Confined objects
  Fits := a.Nests
  E _ := False

theorem lawful_confinedGuide (ha : a.Distinct) (hmax : 0 < a.maxRecursionDepth) (hacyclic : a.Acyclic) :
    (a.confinedGuide objects σ).Lawful where
  admits := admits_occurs ha objects
  quiet h hquiet := h.quiet hquiet
  books h hstate hcalls _ := h.of_same (by rw [hstate]) (hstate ▸ h.context) (by rw [hstate]) hcalls
  flows h _ := h.of_same rfl h.context rfl rfl
  returns {h r} hr v := by
    have hstate : (r.state.setReturn v).config = r.state.config ∧ (r.state.setReturn v).context = r.state.context := by
      unfold State.setReturn
      split <;> exact ⟨rfl, rfl⟩
    exact hr.of_same hstate.1 (hstate.2 ▸ hr.context) (State.map_setReturn (fun _ _ => rfl) _ v) rfl
  raises {h r} hr v := by
    have hstate : (r.state.addException v).config = r.state.config ∧
        (r.state.addException v).context = r.state.context := by
      unfold State.addException
      split <;> exact ⟨rfl, rfl⟩
    exact hr.of_same hstate.1 (hstate.2 ▸ hr.context) (State.map_addException (fun _ _ => rfl) _ v) rfl
  registers {h r} hr name bases := by
    have hmoves := r.state.moves_registerClass name (a.basesOf name bases)
    have hcontext : (r.withClass a name bases).state.context = r.state.context :=
      (State.widens_registerScope _ _ _ _).context
    exact hr.of_same hmoves.config (hcontext ▸ hr.context) (by rw [show (r.withClass a name bases).state.frames =
      r.state.frames from hmoves.frames]) rfl
  places {h r c} hr hc name := by
    have hmoves := r.state.moves_setCurrent name c
    exact hr.of_same hmoves.config ((r.state.setCurrent_context name c).symm ▸ hc)
      (congrArg (List.map _) hmoves.frames) rfl
  root := root_mem_contexts
  here h := h.context
  callers h record hrecord := (h.calls record hrecord).2.2.1
  records h hstmt hfn hreceiver hrecord := h.record hstmt hfn hreceiver hrecord
  enters h _ hsite hreceiver henter := by
    obtain ⟨c, hstmt⟩ := hsite
    exact h.enter hstmt hreceiver henter
  pushes h _ _ := ⟨h.depth, h.context, List.forall_mem_cons.mpr ⟨h.context, h.stack⟩, h.calls⟩
  observes h _ _ := h
  leaves h _ _ hexit hquiet _ _ := (h.exit hexit).quiet hquiet
  fitsCall h hscope hcount := h.call hscope hcount
  fitsClass h hstmt hscope := h.define hacyclic ⟨_, _, _, hstmt⟩ hscope
  fitsFirst hscope := nests_first hmax hscope
  exhausted h := absurd h.pos (Nat.lt_irrefl 0)

section Solver

variable (hG : (a.confinedGuide objects σ).Lawful) (hmax : 0 < a.maxRecursionDepth) {h : List (Run.Moment σ)}
  {r : Run σ}

include hG hmax

theorem exists_round (hr : (a.confinedGuide objects σ).Idle h r) (item : PendingCall) (rest : List PendingCall) :
    ∃ r₁ h', Run.processPending { r with queue := rest } a item = .ok r₁ ∧
      (a.confinedGuide objects σ).Idle h' r₁ := by
  have htaken : (a.confinedGuide objects σ).Idle h { r with queue := rest } := hr.books hG rfl rfl rfl rfl
  obtain ⟨r₁, hround, hr₁⟩ := (htaken.processPending hG hmax item).exists_ok fun _ => id
  exact ⟨r₁, _, hround, hr₁⟩

/-- However many rounds the solver may take, it does not fail. -/
theorem exists_solveWithin (hr : (a.confinedGuide objects σ).Idle h r) (n : Nat) :
    ∃ x, r.solveWithin a n = .ok x := by
  induction n generalizing h r with
  | zero =>
    unfold Run.solveWithin
    cases r.queue with
    | nil => exact ⟨_, rfl⟩
    | cons item rest => exact ⟨_, rfl⟩
  | succ n ih =>
    cases hqueue : r.queue with
    | nil => exact ⟨_, Run.solveWithin_of_idle hqueue _⟩
    | cons item rest =>
      obtain ⟨r₁, h', hround, hr₁⟩ := exists_round hG hmax hr item rest
      rw [Run.solveWithin_succ hqueue, hround]
      exact ih hr₁

/-- Calls are confined, and each is taken at most twice, so some rounds suffice. -/
theorem exists_solved_of_finite (hobjects : objects.Finite) {taken : List Turn} (haccounts : r.Accounts taken)
    (hr : (a.confinedGuide objects σ).Idle h r) {n : Nat}
    (hn : 2 * (a.finite_calls hobjects).toFinset.card ≤ taken.length + n) :
    ∃ r', r.solveWithin a n = .ok (some r') := by
  induction n generalizing h r taken with
  | zero =>
    have hsize : r.calls.length ≤ (a.finite_calls hobjects).toFinset.card := by
      rw [← List.length_map (·.edge), ← haccounts.edges]
      refine haccounts.distinct.size_le _ ?_
      rw [haccounts.edges]
      exact List.forall_mem_map.mpr (hr.around "").keeps.calls
    have hqueue : r.queue = [] := List.eq_nil_of_length_eq_zero (by have := haccounts.length_le; omega)
    exact ⟨r, Run.solveWithin_of_idle hqueue 0⟩
  | succ n ih =>
    cases hqueue : r.queue with
    | nil => exact ⟨r, Run.solveWithin_of_idle hqueue _⟩
    | cons item rest =>
      obtain ⟨r₁, h', hround, hr₁⟩ := exists_round hG hmax hr item rest
      rw [Run.solveWithin_succ hqueue, hround]
      refine ih (haccounts.step hqueue hround) hr₁ ?_
      rw [List.length_append, List.length_singleton]
      omega

end Solver

section Analysis

variable {oracle : Option (Oracle σ)} {start : σ}

theorem exists_started {policy : Policy} (hvalid : a.options.validate = .ok policy) (hbindings : a.bindings = []) :
    ∃ r, a.started oracle start = some r := by
  unfold started
  rw [hvalid]
  unfold startState
  rw [hbindings]
  exact ⟨_, rfl⟩

theorem analyzeRounds_eq {r₀ : Run σ} (hstarted : a.started oracle start = some r₀) {n : Nat} {x : Option (Run σ)}
    (h : (a.explore r₀ >>= fun r => r.solveWithin a n) = .ok x) :
    a.analyzeRounds n oracle start = .ok (x.map fun r => finish (.ofRun a.options r)) := by
  obtain ⟨policy, state, hpolicy, hstate, rfl⟩ := started_eq_some hstarted
  unfold analyzeRounds
  rw [hpolicy]
  simp only [hstate, Except.ok_bind, h]

theorem analyzeRounds_safe (ha : a.Distinct) {policy : Policy} (hvalid : a.options.validate = .ok policy)
    (hbindings : a.bindings = []) (hacyclic : a.Acyclic) (hnames : Guarded.Says (· ∈ objects) ⟨oracle, start, []⟩) :
    (∀ n, ∃ x, a.analyzeRounds n oracle start = .ok x) ∧
    (objects.Finite → ∃ bound res, ∀ n, bound ≤ n → a.analyzeRounds n oracle start = .ok (some res)) := by
  obtain ⟨r₀, hstarted⟩ : ∃ r₀, a.started oracle start = some r₀ := exists_started hvalid hbindings
  have hmax : 0 < a.maxRecursionDepth := Options.recursion_of_validate hvalid
  have hG : (a.confinedGuide objects σ).Lawful := lawful_confinedGuide ha hmax hacyclic
  have hidle : (a.confinedGuide objects σ).Idle [] r₀ := by
    refine Guide.idle_started (admits_occurs ha objects) ha (by simp [hbindings]) hnames hstarted ?_
    intro hfresh hdepth hcalls _
    exact ⟨hdepth, hfresh.root ▸ root_mem_contexts, by simp [hfresh.frames], by simp [hcalls]⟩
  obtain ⟨r, hexplore, hr⟩ := (hidle.explore hG ha).exists_ok fun _ => id
  refine ⟨fun n => ?_, fun hobjects => ?_⟩
  · obtain ⟨x, hx⟩ := exists_solveWithin hG hmax hr n
    exact ⟨_, analyzeRounds_eq hstarted (by rw [hexplore]; exact hx)⟩
  · have haccounts := (accounts_started ha hstarted).extend (extends_explore hexplore)
    obtain ⟨r', hr'⟩ := exists_solved_of_finite hG hmax hobjects haccounts hr (Nat.le_add_left _ _)
    refine ⟨2 * (a.finite_calls hobjects).toFinset.card, finish (.ofRun a.options r'), fun n hn => ?_⟩
    exact analyzeRounds_eq hstarted (by rw [hexplore]; exact Run.solveWithin_mono hr' hn)

end Analysis

end Analyzer

/-- The objects that stand in the tables of an oracle. -/
def Recorded.objects (t : Recorded) : List HeapObject := t.names.flatMap (·.2) ++ t.fields.flatMap (·.2)

/-- An oracle that answers from tables names no objects but those in its tables. -/
theorem Recorded.says_objects (t : Recorded) : Guarded.Says (· ∈ {x | x ∈ t.objects}) ⟨some oracle, t, []⟩ := by
  rintro _ ⟨⟩
  refine ⟨fun s => s.names = t.names ∧ s.fields = t.fields, ⟨rfl, rfl⟩, fun q s hs => ?_⟩
  have hconservative : ∀ x ∈ q.conservative.asObjects, x ∈ t.objects := by
    cases q <;> simp [Query.conservative, Answer.asObjects]
  have hrecorded : ∀ x ∈ (s.recorded q).asObjects, x ∈ t.objects := by
    intro x hx
    -- Only the two queries for what is pointed to are answered with objects.
    cases q with
    | pointsTo v c =>
      cases hnames : s.names.get? v with
      | none => simp [recorded, hnames, Answer.asObjects] at hx
      | some found =>
        simp only [recorded, hnames, Answer.asObjects, Option.getD_some] at hx
        exact List.mem_append_left _ (List.mem_flatMap.mpr ⟨_, hs.1 ▸ Table.mem_of_get? hnames, hx⟩)
    | fieldPointsTo o f =>
      cases hfields : s.fields.get? (o.text ++ f.text) with
      | none => simp [recorded, hfields, Answer.asObjects] at hx
      | some found =>
        simp only [recorded, hfields, Answer.asObjects, Option.getD_some] at hx
        exact List.mem_append_right _ (List.mem_flatMap.mpr ⟨_, hs.2 ▸ Table.mem_of_get? hfields, hx⟩)
    | _ => simp [recorded, Answer.asObjects] at hx
  unfold oracle
  dsimp only
  split
  · exact ⟨hs, by simp [Outcome.settle, Answer.asObjects]⟩
  · refine ⟨hs, ?_⟩
    split
    · exact hconservative
    · split
      · exact hconservative
      · exact hrecorded

namespace Analyzer

/-- A class that defines another one, with a method whose body calls what is not there; there is no module. -/
def withoutModule : Program where
  scopes :=
    [⟨"C", .classBody, "", [], [], [], false, [.functionDef "f" "C.f", .classDef "D" "D" []]⟩,
      ⟨"C.f", .function, "C", ["self"], [], [], false,
        [.call ⟨"r", "g", "self", ["r"], []⟩, .goto "nowhere", .ret "r"]⟩,
      ⟨"D", .classBody, "C", [], [], [], false, []⟩]

theorem acyclic_withoutModule : (ofProgram {} [] false withoutModule).Acyclic := by
  have hdefines : ∀ {name cls}, (ofProgram {} [] false withoutModule).DefinesClass name cls →
      name = "C" ∧ cls = "D" := by
    rintro name cls ⟨index, target, bases, h⟩
    obtain ⟨scope, i, hscope, -, hstmt⟩ := exists_body h
    have hmem : (name, scope) ∈ withoutModule.scopes.map fun s => (s.name, s) := Table.mem_of_get? hscope
    have hstmt := List.mem_of_getElem? hstmt
    simp only [withoutModule, List.map_cons, List.map_nil, List.mem_cons, Prod.mk.injEq, List.not_mem_nil,
      or_false] at hmem
    rcases hmem with ⟨rfl, rfl⟩ | ⟨rfl, rfl⟩ | ⟨rfl, rfl⟩
    · obtain ⟨-, hcls, -⟩ : target = "D" ∧ cls = "D" ∧ bases = [] := by simpa using hstmt
      exact ⟨rfl, hcls⟩
    · simp at hstmt
    · simp at hstmt
  intro name hchain
  obtain ⟨first, hfirst, -⟩ := Relation.TransGen.head'_iff.mp hchain
  obtain ⟨last, -, hlast⟩ := Relation.TransGen.tail'_iff.mp hchain
  have hname := (hdefines hfirst).1.symm.trans (hdefines hlast).2
  exact absurd hname (by decide)

end Analyzer

end AbstractFlow
