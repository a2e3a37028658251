import AbstractFlow.Proofs.Analysis.Asking
import AbstractFlow.Proofs.Analysis.Upkeep

/-! # The moments of an analysis

An analysis is a sequence of moments: a statement is interpreted, a call is entered, a function is left. The
lists of moments follow the definitions of the analysis step by step, also where it fails in the end. What
holds at all moments is proved along them: a step may rely on what holds so far, and has to establish it for
the moments that it adds.
-/
namespace AbstractFlow

def Except.following {ε α β : Type} (x : Except ε α) (f : α → List β) : List β :=
  match x with
  | .ok a => f a
  | .error _ => []

/-- A moment of an analysis, with the run as it is then. -/
inductive Run.Moment (σ : Type) where
  /-- A statement is to be interpreted. -/
  | busy (r : Run σ)
  /-- A call is on the stack, and its body is to be analysed. -/
  | entered (r : Run σ)
  /-- A function was analysed under a context and has returned a value. -/
  | left (key : FrameKey) (v : Value) (r : Run σ)
  /-- A caller was analysed again from behind a call. -/
  | resumed (key : FrameKey) (v : Value) (r : Run σ)

namespace Run.Moment

variable {σ : Type}

def run : Run.Moment σ → Run σ
  | busy r | entered r | left _ _ r | resumed _ _ r => r

/-- What is joined into what a function is known to return. -/
def filed? : Run.Moment σ → Option (FrameKey × Value)
  | busy _ | entered _ => none
  | left key v _ | resumed key v _ => some (key, v)

end Run.Moment

/-- Lists the moments of the analysis of a body. -/
abbrev MomentTrace (σ : Type) := String → Int → Run σ → List (Run.Moment σ)

namespace Run

variable {σ : Type}

def foldMoments {α β : Type} (f : α → β → Except Violation α) (moments : α → β → List (Run.Moment σ)) :
    α → List β → List (Run.Moment σ)
  | _, [] => []
  | acc, b :: bs => moments acc b ++ Except.following (f acc b) fun acc => foldMoments f moments acc bs

/-- Leaves a call with the value that it returns. -/
def exit (r : Run σ) (v : Value) : Except Violation (Value × Run σ) := do
  let (_, state) ← r.state.exitFunction (some v)
  .ok (v, { r with state })

/-- Leaves a function whose body was analysed, and joins what it left in its parameters into the arguments. -/
def leave (r : Run σ) (a : Analyzer) (fn : Function Value) (argNames : List String) (receiver : Option Receiver)
    (context : Context) : Except Violation (Value × Run σ) := do
  let r := { r with analyzed := fn.name :: r.analyzed }
  let params := r.parameterValues fn receiver argNames.length
  let (v, r) ← r.exit (r.state.returnValue?.getD Value.noneConstant)
  let r := (argNames.zip params).foldl (fun r (name, v) => r.writeBack name v) r
  .ok (v, r.note a fun _ => "exit " ++ fn.name ++ context.text ++ " -> " ++ Value.text v)

variable (a : Analyzer) (body : BodyAnalysis σ) (nested : MomentTrace σ)

def invokeMoments (r : Run σ) (fn : Function Value) (argNames : List String) (args : List Value)
    (receiver : Option Receiver) (caller : String) (index : Int) : List (Run.Moment σ) :=
  Except.following (r.enter a fn args receiver caller index) fun r₁ =>
    .entered r₁ :: (nested fn.name 0 r₁ ++ Except.following (body fn.name 0 r₁) fun r₂ =>
      Except.following (r₂.leave a fn argNames receiver r₁.state.context) fun (v, r') =>
        [.left ⟨fn.name, r₁.state.context⟩ v r'])

/-- Whether a callee is analysed where it is called. -/
def invokes (r : Run σ) (fn : Function Value) : Bool :=
  (a.scope? fn.name).isSome && a.options.directCalls && r.state.callDepth fn.name < a.maxRecursionDepth

def callFunctionMoments (r : Run σ) (s : Step) (c : Call) (args : List Value) (receiver : Option Receiver)
    (constructs : Bool) (fn : Function Value) : List (Run.Moment σ) :=
  Except.following (r.record s c fn (fn.receiver? receiver) constructs) fun (target, r₁) =>
    if r₁.invokes a fn then
      invokeMoments a body nested { r₁ with memo := ⟨fn.name, target⟩ :: r₁.memo } fn c.args args
        (fn.receiver? receiver) s.function s.index
    else []

def instanceOf (s : Step) (cls : Class Value) : Object :=
  .instanceObject ⟨cls.name, callSiteText s.function s.index, []⟩

def initializers (r : Run σ) (cls : Class Value) : List (Function Value) :=
  ((r.state.lookupAttr? cls.name "__init__").getD []).functions

def instantiateMoments (r : Run σ) (s : Step) (c : Call) (args : List Value) (cls : Class Value) :
    List (Run.Moment σ) :=
  let receiver : Receiver := ⟨(instanceOf s cls).identity, [instanceOf s cls]⟩
  foldMoments
    (fun r fn => do
      let (_, r) ← Run.callFunction r a body s c args (some receiver) true fn
      .ok r)
    (fun r fn => callFunctionMoments a body nested r s c args (some receiver) true fn) r (r.initializers cls)

def callObjectMoments (s : Step) (c : Call) (args : List Value) (receiver : Option Receiver)
    (acc : Resolution × Run σ) (o : Object) : List (Run.Moment σ) :=
  match o with
  | .function fn => callFunctionMoments a body nested acc.2 s c args receiver false fn
  | .classObject cls => instantiateMoments a body nested acc.2 s c args cls
  | _ => []

def plainName (symbol : String) : String :=
  if Names.startsWith symbol builtinModule then String.ofList (symbol.toList.drop builtinModule.length)
  else symbol

def callNamedMoments (s : Step) (c : Call) (args : List Value) (receiver : Option Receiver)
    (acc : Resolution × Run σ) (symbol : String) : List (Run.Moment σ) :=
  if acc.1.called.contains (plainName symbol) then []
  else
    match Builtin.ofName? (plainName symbol), acc.2.state.function? symbol with
    | none, some fn => callFunctionMoments a body nested acc.2 s c args receiver false fn
    | _, _ => []

def receiverOf (r : Run σ) (c : Call) : Option Receiver :=
  if c.receiver = "" then none
  else
    let v := r.lookup c.receiver
    some ⟨v.receiverId, v⟩

def callMoments (r : Run σ) (s : Step) (c : Call) : List (Run.Moment σ) :=
  let args := c.args.map r.lookup
  let callee := r.resolveCallee c.callee args
  let receiver := r.receiverOf c
  foldMoments (callObject a body s c args receiver) (callObjectMoments a body nested s c args receiver)
      (callee.1, r) callee.2 ++
    Except.following (callee.2.foldlM (callObject a body s c args receiver) (callee.1, r)) fun (n, r) =>
      if r.oracle.isAvailable then
        let (answer, r) := r.ask (.possibleCallees ⟨s.function, s.index⟩ r.contextKey)
        foldMoments (callNamed a body s c args receiver) (callNamedMoments a body nested s c args receiver)
          (n, r) answer.asFunctions
      else []

def runScopeMoments (r : Run σ) (name : String) (c : Context) : List (Run.Moment σ) :=
  nested name 0 { r with state := r.state.setCurrent name c }

def runClassBodyMoments (r : Run σ) (name : String) : List (Run.Moment σ) :=
  if (a.scope? name).isNone then [] else runScopeMoments nested r name .root

def stmtMoments (r : Run σ) (s : Step) : Stmt → List (Run.Moment σ)
  | .call c => callMoments a body nested r s c
  | .classDef _ name bases => runClassBodyMoments a nested (r.withClass a name bases) name
  | _ => []

def interpretMoments (r : Run σ) (item : WorkItem) : List (Run.Moment σ) :=
  match a.stmt? item with
  | none => []
  | some stmt =>
    .busy (r.visiting a item stmt) :: stmtMoments a body nested (r.visiting a item stmt) (r.stepOf item) stmt

def drainMoments : Nat → Run σ → List (Run.Moment σ)
  | left, r =>
    match r.state.flow.dequeue? with
    | none => []
    | some (item, flow) =>
      match left with
      | 0 => []
      | left + 1 =>
        interpretMoments a body nested { r with state.flow := flow } item ++
          Except.following (Run.interpret { r with state.flow := flow } a body item) fun r => drainMoments left r

def passMoments (function : String) : List Nat → Nat → Run σ → List (Run.Moment σ)
  | [], _, _ => []
  | _ :: _, 0, _ => []
  | i :: rest, left + 1, r =>
    interpretMoments a body nested { r with state.flow.current := ⟨function, i⟩ } ⟨function, i⟩ ++
      Except.following (Run.interpret { r with state.flow.current := ⟨function, i⟩ } a body ⟨function, i⟩) fun r =>
        passMoments function rest left r

def passesMoments (function : String) (indices : List Nat) : Nat → Nat → Run σ → List (Run.Moment σ)
  | 0, _, _ => []
  | fuel + 1, left, r =>
    passMoments a body nested function indices left r ++
      Except.following (pass a body function indices left r) fun (left?, r') =>
        match left? with
        | none => []
        | some left =>
          if Snapshot.equal r'.state.snapshot r.state.snapshot then []
          else passesMoments function indices fuel left r'

end Run

namespace Analyzer

variable {σ : Type}

def bodyMoments (a : Analyzer) : Nat → MomentTrace σ
  | 0, _, _, _ => []
  | depth + 1, function, start, r =>
    if a.options.flowSensitive then
      Run.drainMoments a (a.runBody depth) (a.bodyMoments depth) a.maxIterations
        (r.mapFlow fun t => t.push.enqueue function start)
    else
      match a.scope? function with
      | none => []
      | some scope =>
        Run.passesMoments a (a.runBody depth) (a.bodyMoments depth) function (List.range scope.body.length)
          (a.maxIterations + 1) a.maxIterations r

variable (a : Analyzer)

/-- The run in which the body of a function starts that nothing has called. -/
def uncalled (r : Run σ) (scope : Scope) : Except Violation (Run σ) := do
  let state := r.state.pushCall "" scope.name 0 r.state.context r.state.scope
  let state ← bindParameters scope ((r.state.function? scope.name).getD default).binding
    (state.setCurrent scope.name .root)
  .ok { r with state }

def analyzeFunctionMoments (r : Run σ) (scope : Scope) : List (Run.Moment σ) :=
  Except.following (uncalled r scope) fun r₁ =>
    .entered r₁ :: (a.bodyMoments a.depthBound scope.name 0 r₁ ++
      Except.following (a.body scope.name 0 r₁) fun r₂ =>
        Except.following (Run.exit { r₂ with analyzed := scope.name :: r₂.analyzed }
          (r₂.state.returnValue?.getD Value.noneConstant)) fun (v, r') => [.left ⟨scope.name, .root⟩ v r'])

def analyzeModuleMoments (r : Run σ) (scope : Scope) : List (Run.Moment σ) :=
  if scope.kind = .module then
    Run.runScopeMoments (a.bodyMoments a.depthBound)
      (r.note a fun _ => "\n### ANALYZING MODULE " ++ scope.name ++ " ###") scope.name .root
  else []

def analyzeRestMoments (r : Run σ) (scope : Scope) : List (Run.Moment σ) :=
  if r.analyzed.contains scope.name then []
  else
    match scope.kind with
    | .classBody =>
      Run.runClassBodyMoments a (a.bodyMoments a.depthBound)
        (r.note a fun _ => "\n### ANALYZING CLASS " ++ scope.name ++ " ###") scope.name
    | .function =>
      a.analyzeFunctionMoments (r.note a fun _ => "\n### ANALYZING FUNCTION " ++ scope.name ++ " ###") scope
    | .module => []

def exploreMoments (r : Run σ) : List (Run.Moment σ) :=
  let scopes := a.scopes.map (·.2)
  Run.foldMoments a.analyzeModule a.analyzeModuleMoments r scopes ++
    Except.following (scopes.foldlM a.analyzeModule r) fun r =>
      Run.foldMoments a.analyzeRest a.analyzeRestMoments r scopes

end Analyzer

namespace Run

variable {σ : Type} (a : Analyzer)

def processCallMoments (r : Run σ) (record : CallRecord) : List (Run.Moment σ) :=
  match r.memo.contains record.edge.key, r.callable? a record.edge with
  | false, some (c, fn) =>
    let sender := r.atCaller a record.edge
    invokeMoments a a.body (a.bodyMoments a.depthBound) sender fn c.args (c.args.map sender.lookup)
      record.receiver record.edge.caller record.edge.index
  | _, _ => []

/-- The run in which a caller is analysed again. -/
def resumed (r : Run σ) (e : Edge) : Run σ :=
  let r := r.note a fun _ =>
    "\n### REPROPAGATING " ++ e.caller ++ " AFTER " ++ toString e.index ++ " ###"
  let state := r.state.pushCall "" e.caller 0 r.state.context r.state.scope
  { r with state := state.setCurrent e.caller e.callerContext }

/-- Where a caller is analysed again from. -/
def resumption (e : Edge) : Int := if a.options.flowSensitive then e.index + 1 else 0

def propagateMoments (r : Run σ) (e : Edge) : List (Run.Moment σ) :=
  .entered (r.resumed a e) :: (a.bodyMoments a.depthBound e.caller (resumption a e) (r.resumed a e) ++
    Except.following (a.body e.caller (resumption a e) (r.resumed a e)) fun r₂ =>
      Except.following (r₂.exit (r₂.state.returnValue?.getD [])) fun (v, r') =>
        [.resumed ⟨e.caller, e.callerContext⟩ v r'])

def processPendingMoments (r : Run σ) (item : PendingCall) : List (Run.Moment σ) :=
  let r := { r with stats.edgesProcessed := r.stats.edgesProcessed + 1 }
  match r.calls[item.index]? with
  | none => []
  | some record => if item.propagates then propagateMoments a r record.edge else processCallMoments a r record

def solveMoments : Nat → Run σ → List (Run.Moment σ)
  | fuel, r =>
    match r.queue with
    | [] => []
    | item :: rest =>
      match fuel with
      | 0 => []
      | fuel + 1 =>
        processPendingMoments a { r with queue := rest } item ++
          Except.following (Run.processPending { r with queue := rest } a item) fun r => solveMoments fuel r

end Run

namespace Analyzer

variable {σ : Type}

/-- The moments of an analysis that propagates at most `bound` calls, with the oracle that is given. -/
def momentsWith (a : Analyzer) (bound : Nat) (τ : Type) (oracle : Option (Oracle τ)) (start : τ) :
    List (Run.Moment τ) :=
  match a.started oracle start with
  | none => []
  | some r => a.exploreMoments r ++ Except.following (a.explore r) fun r => r.solveMoments a bound

end Analyzer

/-- What holds of a history and of the run at its end holds at every moment that is added. -/
def Trail {σ : Type} (I : List (Run.Moment σ) → Run σ → Prop) : List (Run.Moment σ) → List (Run.Moment σ) → Prop
  | _, [] => True
  | h, m :: ms => I (h ++ [m]) m.run ∧ Trail I (h ++ [m]) ms

namespace Trail

variable {σ : Type} {I : List (Run.Moment σ) → Run σ → Prop} {h ms ms' : List (Run.Moment σ)}

theorem append (hms : Trail I h ms) (hms' : Trail I (h ++ ms) ms') : Trail I h (ms ++ ms') := by
  induction ms generalizing h with
  | nil => simpa using hms'
  | cons m ms ih => exact ⟨hms.1, ih hms.2 (by simpa using hms')⟩

theorem at_moment {before after : List (Run.Moment σ)} {m : Run.Moment σ} (hms : Trail I h (before ++ m :: after)) :
    I (h ++ (before ++ [m])) m.run := by
  induction before generalizing h with
  | nil => exact hms.1
  | cons x before ih => simpa using ih hms.2

end Trail

/-- A computation after a history: what holds at the moments that it adds, what holds of its result, and how it
may fail. -/
structure Follows {σ : Type} (I : List (Run.Moment σ) → Run σ → Prop) (E : Violation → Prop) {α : Type}
    (h ms : List (Run.Moment σ)) (x : Except Violation α) (Q : List (Run.Moment σ) → α → Prop) : Prop where
  trail : Trail I h ms
  done : ∀ a, x = .ok a → Q (h ++ ms) a
  failed : ∀ v, x = .error v → E v

namespace Follows

variable {σ : Type} {I : List (Run.Moment σ) → Run σ → Prop} {E : Violation → Prop} {α β : Type}
  {h ms : List (Run.Moment σ)} {x : Except Violation α} {Q : List (Run.Moment σ) → α → Prop}

theorem ok {a : α} (hQ : Q h a) : Follows I E h [] (.ok a) Q := by
  refine ⟨trivial, ?_, ?_⟩
  · rintro _ ⟨⟩
    simpa using hQ
  · rintro _ ⟨⟩

theorem error {v : Violation} (hE : E v) : Follows I E h [] (.error v) Q := by
  refine ⟨trivial, ?_, ?_⟩
  · rintro _ ⟨⟩
  · rintro _ ⟨⟩
    exact hE

theorem step (hx : ∃ a, x = .ok a ∧ Q h a) : Follows I E h [] x Q := by
  obtain ⟨a, rfl, hQ⟩ := hx
  exact ok hQ

theorem mono (hx : Follows I E h ms x Q) {Q' : List (Run.Moment σ) → α → Prop}
    (hQ : ∀ a, x = .ok a → Q (h ++ ms) a → Q' (h ++ ms) a) : Follows I E h ms x Q' :=
  ⟨hx.trail, fun a ha => hQ a ha (hx.done a ha), hx.failed⟩

theorem mono_error (hx : Follows I E h ms x Q) {E' : Violation → Prop} (hE : ∀ v, E v → E' v) :
    Follows I E' h ms x Q :=
  ⟨hx.trail, hx.done, fun v hv => hE v (hx.failed v hv)⟩

theorem exists_ok (hx : Follows I E h ms x Q) (hE : ∀ v, ¬ E v) : ∃ a, x = .ok a ∧ Q (h ++ ms) a := by
  cases x with
  | error v => exact absurd (hx.failed v rfl) (hE v)
  | ok a => exact ⟨a, rfl, hx.done a rfl⟩

theorem forall_result {ι : Type} [Nonempty ι] {Q : ι → List (Run.Moment σ) → α → Prop}
    (hx : ∀ i, Follows I E h ms x (Q i)) : Follows I E h ms x fun h' a => ∀ i, Q i h' a :=
  ⟨(hx (Classical.arbitrary ι)).trail, fun a ha i => (hx i).done a ha, (hx (Classical.arbitrary ι)).failed⟩

theorem cons {m : Run.Moment σ} (hm : I (h ++ [m]) m.run) (hx : Follows I E (h ++ [m]) ms x Q) :
    Follows I E h (m :: ms) x Q :=
  ⟨⟨hm, hx.trail⟩, fun a ha => by simpa using hx.done a ha, hx.failed⟩

/-- The second of two computations in a row relies on what holds of the first one's result. -/
theorem bind {f : α → Except Violation β} {rest : α → List (Run.Moment σ)} {Q' : List (Run.Moment σ) → β → Prop}
    (hx : Follows I E h ms x Q)
    (hf : ∀ a, x = .ok a → Q (h ++ ms) a → Follows I E (h ++ ms) (rest a) (f a) Q') :
    Follows I E h (ms ++ Except.following x rest) (x >>= f) Q' := by
  cases x with
  | error v =>
    refine ⟨by simpa [Except.following] using hx.trail, ?_, ?_⟩
    · rintro _ ⟨⟩
    · rintro _ ⟨⟩
      exact hx.failed v rfl
  | ok a =>
    have hrest := hf a rfl (hx.done a rfl)
    refine ⟨hx.trail.append hrest.trail, fun b hb => ?_, hrest.failed⟩
    rw [← List.append_assoc]
    exact hrest.done b hb

theorem bind_step {f : α → Except Violation β} {rest : α → List (Run.Moment σ)} {Q' : List (Run.Moment σ) → β → Prop}
    (hx : ∃ a, x = .ok a ∧ Q h a) (hf : ∀ a, x = .ok a → Q h a → Follows I E h (rest a) (f a) Q') :
    Follows I E h (Except.following x rest) (x >>= f) Q' := by
  obtain ⟨a, rfl, hQ⟩ := hx
  exact hf a rfl hQ

theorem bind_ok {f : α → Except Violation β} {Q' : List (Run.Moment σ) → β → Prop} (hx : Follows I E h ms x Q)
    (hf : ∀ a, x = .ok a → Q (h ++ ms) a → ∃ b, f a = .ok b ∧ Q' (h ++ ms) b) : Follows I E h ms (x >>= f) Q' := by
  have hbound : Follows I E h (ms ++ Except.following x fun _ => []) (x >>= f) Q' :=
    hx.bind fun a ha hQ => step (hf a ha hQ)
  have hnone : Except.following x (fun _ => ([] : List (Run.Moment σ))) = [] := by cases x <;> rfl
  rwa [hnone, List.append_nil] at hbound

theorem foldlM {f : α → β → Except Violation α} {moments : α → β → List (Run.Moment σ)} {q : β → Prop}
    (hf : ∀ h acc b, q b → Q h acc → Follows I E h (moments acc b) (f acc b) Q) {acc : α} (hacc : Q h acc)
    {bs : List β} (hbs : ∀ b ∈ bs, q b) :
    Follows I E h (Run.foldMoments f moments acc bs) (bs.foldlM f acc) Q := by
  induction bs generalizing h acc with
  | nil => exact ok hacc
  | cons b bs ih =>
    obtain ⟨hb, hbs⟩ := List.forall_mem_cons.mp hbs
    rw [List.foldlM_cons, Run.foldMoments]
    exact (hf h acc b hb hacc).bind fun acc' _ hacc' => ih hacc' hbs

end Follows

namespace Run

variable {σ : Type} {a : Analyzer} {body : BodyAnalysis σ} {r : Run σ}

theorem context_enter {r₁ : Run σ} {fn : Function Value} {args : List Value} {receiver : Option Receiver}
    {caller : String} {index : Int} {c : Context} {s : State}
    (h : (r.state.pushCall caller fn.name index r.state.context none).enterFunction fn args
      (callSiteText caller index) receiver = .ok (c, s))
    (henter : r.enter a fn args receiver caller index = .ok r₁) : r₁.state.context = c := by
  obtain ⟨c', henter'⟩ := enterFunction_of_enter henter
  obtain ⟨-, hplace, -⟩ := State.enterFunction_spec henter'
  rw [h] at henter'
  cases henter'
  exact congrArg Prod.snd hplace

/-- An invocation enters its function, analyses its body and leaves it. -/
theorem invoke_eq (fn : Function Value) (argNames : List String) (args : List Value)
    (receiver : Option Receiver) (caller : String) (index : Int) :
    r.invoke a body fn argNames args receiver caller index =
      (r.enter a fn args receiver caller index >>= fun r₁ => body fn.name 0 r₁ >>= fun r₂ =>
        r₂.leave a fn argNames receiver r₁.state.context) := by
  unfold invoke
  cases henter : (r.state.pushCall caller fn.name index r.state.context none).enterFunction fn args
      (callSiteText caller index) receiver with
  | error v =>
    unfold enter
    simp only [henter]
    rfl
  | ok e =>
    obtain ⟨c, s⟩ := e
    have hok : r.enter a fn args receiver caller index = .ok (Run.note
        { r with
          state := s
          stats.deepestRecursion := max r.stats.deepestRecursion
            (State.callDepth (r.state.pushCall caller fn.name index r.state.context none) fn.name) } a
        fun _ => "enter " ++ fn.name ++ c.text) := by
      unfold enter
      simp only [henter]
      rfl
    rw [hok]
    simp only [henter, Except.ok_bind, context_enter henter hok]
    refine bind_congr fun r₂ => ?_
    unfold leave exit
    simp only [bind_assoc]
    rfl

theorem callFunction_eq (s : Step) (c : Call) (args : List Value) (receiver : Option Receiver)
    (constructs : Bool) (fn : Function Value) :
    r.callFunction a body s c args receiver constructs fn =
      (r.record s c fn (fn.receiver? receiver) constructs >>= fun (target, r₁) =>
        if r₁.invokes a fn then
          Run.invoke { r₁ with memo := ⟨fn.name, target⟩ :: r₁.memo } a body fn c.args args (fn.receiver? receiver)
            s.function s.index
        else if (a.scope? fn.name).isNone then .ok (Value.unknown, r₁)
        else if !a.options.directCalls then .ok ((r₁.state.returnSummary? fn.name target).getD [], r₁)
        else .ok ((r₁.state.returnSummary? fn.name target).getD Value.unknown,
          Run.note { r₁ with stats.recursionCutoffs := r₁.stats.recursionCutoffs + 1 } a fun _ =>
            "recursion cutoff for " ++ fn.name ++ " at " ++ callSiteText s.function s.index)) := by
  unfold callFunction record
  simp only [bind_assoc]
  refine bind_congr fun x => bind_congr fun r₁ => ?_
  show _ = if r₁.invokes a fn then _ else _
  unfold invokes
  cases hscope : a.scope? fn.name with
  | none => simp
  | some scope =>
    cases hdirect : a.options.directCalls with
    | false => simp
    | true =>
      by_cases hdepth : r₁.state.callDepth fn.name < a.maxRecursionDepth
      · simp [hdepth, Nat.not_le.mpr hdepth, Function.receiver?]
      · simp [hdepth, Nat.not_lt.mp hdepth]

theorem interpret_of_stmt? {item : WorkItem} {stmt : Stmt} (h : a.stmt? item = some stmt) :
    r.interpret a body item = (r.visiting a item stmt).interpretStmt a body (r.stepOf item) stmt := by
  obtain ⟨function, index⟩ := item
  unfold Analyzer.stmt? at h
  cases index with
  | negSucc i => cases h
  | ofNat i =>
    cases hbody : (a.scope? function).map (·.body) with
    | none =>
      rw [hbody] at h
      cases h
    | some stmts =>
      rw [hbody] at h
      have hstmt : stmts[i]? = some stmt := h
      unfold interpret
      rw [hbody]
      simp only [hstmt]
      rfl

end Run

end AbstractFlow
