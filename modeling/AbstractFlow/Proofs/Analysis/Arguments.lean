import AbstractFlow.Proofs.Analysis.Moments
import AbstractFlow.Proofs.State.Frames
import AbstractFlow.Proofs.Value.Cover

/-! # Arguments of calls

A call enters the bodies of the functions that its callee may be, one after the other. Each parameter then holds
exactly what the call has for its place: the receiver for the first parameter of a method that binds one, the
positional argument there, and `None` where the positional arguments have run out. The values of keyword arguments
are used nowhere, so one that is meant for such a parameter is replaced by a definite `None`.
-/
namespace AbstractFlow

theorem Except.mem_following {ε α β : Type} {x : Except ε α} {f : α → List β} {b : β} (h : b ∈ Except.following x f) :
    ∃ a, x = .ok a ∧ b ∈ f a := by
  cases x with
  | error e => cases h
  | ok a => exact ⟨a, rfl, h⟩

/-- What a call has for the parameters in their order: the receiver that is bound, and the positional arguments. -/
def supplied (receiver : Option Receiver) (args : List Value) : List Value := (receiver.map (·.value)).toList ++ args

namespace State

variable {fn : Function Value} {args : List Value} {receiver : Option Receiver}

theorem parameterBindings_supplied : parameterBindings fn args (fn.receiver? receiver) =
    fn.params.zipIdx.map fun (p, i) => (p, (supplied (fn.receiver? receiver) args).getD i Value.noneConstant) := by
  unfold parameterBindings Function.receiver? supplied
  cases hbinding : fn.binding <;> cases receiver <;> cases hparams : fn.params <;>
    simp [Binding.takesReceiver, List.zipIdx_succ, List.zipIdx_cons]

end State

namespace Run

/-- A body that a call enters: its function, the receiver that this binds, and the run in which the body starts. -/
structure Entry (σ : Type) where
  callee : Function Value
  receiver : Option Receiver
  run : Run σ

variable {σ : Type}

def foldEntries {α β : Type} (f : α → β → Except Violation α) (entries : α → β → List (Entry σ)) :
    α → List β → List (Entry σ)
  | _, [] => []
  | acc, b :: bs => entries acc b ++ Except.following (f acc b) fun acc => foldEntries f entries acc bs

section Entries

variable (a : Analyzer) (body : BodyAnalysis σ)

def callFunctionEntries (r : Run σ) (s : Step) (c : Call) (args : List Value) (receiver : Option Receiver)
    (constructs : Bool) (fn : Function Value) : List (Entry σ) :=
  Except.following (r.record s c fn (fn.receiver? receiver) constructs) fun (target, r₁) =>
    if r₁.invokes a fn then
      Except.following (enter { r₁ with memo := ⟨fn.name, target⟩ :: r₁.memo } a fn args (fn.receiver? receiver)
        s.function s.index) fun r₂ => [⟨fn, fn.receiver? receiver, r₂⟩]
    else []

/-- What an instance that a class makes at a call is as a receiver. -/
def madeAt (s : Step) (cls : Class Value) : Receiver := ⟨(instanceOf s cls).identity, [instanceOf s cls]⟩

def instantiateEntries (r : Run σ) (s : Step) (c : Call) (args : List Value) (cls : Class Value) : List (Entry σ) :=
  foldEntries
    (fun r fn => do
      let (_, r) ← Run.callFunction r a body s c args (some (madeAt s cls)) true fn
      .ok r)
    (fun r fn => callFunctionEntries a r s c args (some (madeAt s cls)) true fn) r (r.initializers cls)

def callObjectEntries (s : Step) (c : Call) (args : List Value) (receiver : Option Receiver)
    (acc : Resolution × Run σ) (o : Object) : List (Entry σ) :=
  match o with
  | .function fn => callFunctionEntries a acc.2 s c args receiver false fn
  | .classObject cls => instantiateEntries a body acc.2 s c args cls
  | _ => []

def callNamedEntries (s : Step) (c : Call) (args : List Value) (receiver : Option Receiver)
    (acc : Resolution × Run σ) (symbol : String) : List (Entry σ) :=
  if acc.1.called.contains (plainName symbol) then []
  else
    match Builtin.ofName? (plainName symbol), acc.2.state.function? symbol with
    | none, some fn => callFunctionEntries a acc.2 s c args receiver false fn
    | _, _ => []

/-- The bodies that a call enters where it stands. -/
def callEntries (r : Run σ) (s : Step) (c : Call) : List (Entry σ) :=
  let args := c.args.map r.lookup
  let callee := r.resolveCallee c.callee args
  let receiver := r.receiverOf c
  foldEntries (callObject a body s c args receiver) (callObjectEntries a body s c args receiver)
      (callee.1, r) callee.2 ++
    Except.following (callee.2.foldlM (callObject a body s c args receiver) (callee.1, r)) fun (n, r) =>
      if r.oracle.isAvailable then
        let (answer, r) := r.ask (.possibleCallees ⟨s.function, s.index⟩ r.contextKey)
        foldEntries (callNamed a body s c args receiver) (callNamedEntries a s c args receiver) (n, r)
          answer.asFunctions
      else []

end Entries

/-- Two ways to analyse bodies that agree on all that is entered. -/
def AgreeAt (body body' : BodyAnalysis σ) (entries : List (Entry σ)) : Prop :=
  ∀ e ∈ entries, body' e.callee.name 0 e.run = body e.callee.name 0 e.run

variable {a : Analyzer} {body body' : BodyAnalysis σ} {r : Run σ} {s : Step} {c : Call} {args : List Value}
  {receiver : Option Receiver} {constructs : Bool} {fn : Function Value} {e : Entry σ}

/-- What folds of agreeing steps give is the same, if the steps agree wherever the analyses of bodies do. -/
theorem foldlM_agree {α β : Type} {f f' : α → β → Except Violation α} {entries : α → β → List (Entry σ)} {acc : α}
    {bs : List β} (hstep : ∀ acc b, AgreeAt body body' (entries acc b) → f' acc b = f acc b)
    (h : AgreeAt body body' (foldEntries f entries acc bs)) : bs.foldlM f' acc = bs.foldlM f acc := by
  induction bs generalizing acc with
  | nil => rfl
  | cons b bs ih =>
    obtain ⟨hfirst, hrest⟩ := List.forall_mem_append.mp h
    rw [List.foldlM_cons, List.foldlM_cons, hstep acc b hfirst]
    cases hb : f acc b with
    | error v => rfl
    | ok acc' =>
      rw [hb] at hrest
      exact ih hrest

theorem callFunction_agree (h : AgreeAt body body' (callFunctionEntries a r s c args receiver constructs fn)) :
    r.callFunction a body' s c args receiver constructs fn = r.callFunction a body s c args receiver constructs fn := by
  rw [callFunction_eq, callFunction_eq]
  unfold callFunctionEntries at h
  cases hrecord : r.record s c fn (fn.receiver? receiver) constructs with
  | error v => rfl
  | ok out =>
    obtain ⟨target, r₁⟩ := out
    simp only [hrecord, Except.following] at h
    simp only [Except.ok_bind]
    split
    · rename_i hinvokes
      rw [if_pos hinvokes] at h
      rw [invoke_eq, invoke_eq]
      cases henter : enter { r₁ with memo := ⟨fn.name, target⟩ :: r₁.memo } a fn args (fn.receiver? receiver)
          s.function s.index with
      | error v => rfl
      | ok r₂ =>
        rw [henter] at h
        simp only [Except.ok_bind, h _ List.mem_cons_self]
    · rfl

theorem instantiate_agree {cls : Class Value} (h : AgreeAt body body' (instantiateEntries a body r s c args cls)) :
    r.instantiate a body' s c args cls = r.instantiate a body s c args cls := by
  have hstep : ∀ r fn, AgreeAt body body' (callFunctionEntries a r s c args (some (madeAt s cls)) true fn) →
      (do let (_, r) ← Run.callFunction r a body' s c args (some (madeAt s cls)) true fn
          .ok r : Except Violation (Run σ)) =
        (do let (_, r) ← Run.callFunction r a body s c args (some (madeAt s cls)) true fn
            .ok r) := by
    intro r fn hagree
    simp only [callFunction_agree hagree]
  exact congrArg (· >>= _) (foldlM_agree hstep h)

theorem callObject_agree {acc : Resolution × Run σ} {o : Object}
    (h : AgreeAt body body' (callObjectEntries a body s c args receiver acc o)) :
    callObject a body' s c args receiver acc o = callObject a body s c args receiver acc o := by
  cases o with
  | function fn => simp only [callObject, callFunction_agree h]
  | classObject cls => simp only [callObject, instantiate_agree h]
  | _ => rfl

theorem callNamed_agree {acc : Resolution × Run σ} {symbol : String}
    (h : AgreeAt body body' (callNamedEntries a s c args receiver acc symbol)) :
    callNamed a body' s c args receiver acc symbol = callNamed a body s c args receiver acc symbol := by
  obtain ⟨n, r⟩ := acc
  unfold callNamedEntries at h
  unfold callNamed
  dsimp only at h ⊢
  rw [← plainName]
  split
  · rfl
  · rename_i hnew
    rw [if_neg hnew] at h
    cases hbuiltin : Builtin.ofName? (plainName symbol) with
    | some b => rfl
    | none =>
      cases hfn : r.state.function? symbol with
      | none => rfl
      | some fn =>
        simp only [hbuiltin, hfn] at h
        simp only [callFunction_agree h]

/-- A call depends on how bodies are analysed only through what its entries lead to. -/
theorem call_agree (h : AgreeAt body body' (callEntries a body r s c)) :
    r.call a body' s c = r.call a body s c := by
  unfold callEntries at h
  obtain ⟨hfound, hnamed⟩ := List.forall_mem_append.mp h
  have hfold := foldlM_agree (fun _ _ => callObject_agree) hfound
  unfold call
  dsimp only
  rw [← receiverOf, hfold]
  cases hcallee : (r.resolveCallee c.callee (c.args.map r.lookup)).2.foldlM
      (callObject a body s c (c.args.map r.lookup) (r.receiverOf c))
      ((r.resolveCallee c.callee (c.args.map r.lookup)).1, r) with
  | error v => rfl
  | ok out =>
    obtain ⟨n, r₁⟩ := out
    rw [hcallee] at hnamed
    simp only [Except.following] at hnamed
    simp only [Except.ok_bind]
    split
    · rename_i havailable
      rw [if_pos havailable] at hnamed
      have hrest := foldlM_agree (fun _ _ => callNamed_agree) hnamed
      simp only [hrest]
    · rfl

/-- In the frame of a function that is entered, a parameter holds what is supplied for its last place. -/
theorem get?_currentFrame_enter {r₁ : Run σ} {caller : String} {index : Int}
    (h : r.enter a fn args (fn.receiver? receiver) caller index = .ok r₁) {front rest : List String} {p : String}
    (hparams : fn.params = front ++ p :: rest) (hlast : p ∉ rest) : Dict.get? r₁.state.currentFrame p =
      some ((supplied (fn.receiver? receiver) args).getD front.length Value.noneConstant).orUnknown := by
  obtain ⟨context, hentered⟩ := enterFunction_of_enter h
  obtain ⟨-, hplace, hmemory⟩ := State.enterFunction_spec hentered
  obtain ⟨_, _, hmoves⟩ := State.moves_enterFunction rfl hentered
  obtain ⟨hscope, hcontext⟩ := Prod.mk.inj hplace
  have hkey : r₁.state.currentKey? = some (State.frameKey
      (r.state.pushCall caller fn.name index r.state.context none) fn.name context) := by
    simp only [State.currentKey?, State.writeScope, hscope, hcontext, Option.some_or, Option.map_some, State.frameKey,
      hmoves.config]
  rw [State.currentFrame, hkey]
  show r₁.state.memory.get? _ p = _
  rw [hmemory, State.parameterBindings_supplied, hparams, List.zipIdx_append, List.map_append, List.zipIdx_cons,
    List.map_cons, Nat.zero_add]
  refine Memory.get?_setAll _ _ _ _ _ ?_
  have hnames : ∀ k, ((rest.zipIdx k).map fun (q, i) =>
      (q, (supplied (fn.receiver? receiver) args).getD i Value.noneConstant)).map Prod.fst = rest := by
    intro k
    rw [List.map_map]
    exact List.zipIdx_map_fst k rest
  rwa [hnames]

namespace Entry

def supply (e : Entry σ) (r : Run σ) (c : Call) : List Value := supplied e.receiver (c.args.map r.lookup)

/-- A parameter at its last place among those of a function. -/
def Parameter (e : Entry σ) (place : Nat) (p : String) : Prop :=
  ∃ front rest, e.callee.params = front ++ p :: rest ∧ p ∉ rest ∧ front.length = place

/-- A function is entered with the receiver of the call, or with the instance that a class makes there, if it takes
a receiver; and its parameters hold exactly what is supplied for them. -/
structure Bound (e : Entry σ) (r : Run σ) (s : Step) (c : Call) : Prop where
  receiver : e.receiver = e.callee.receiver? (r.receiverOf c) ∨
    ∃ cls, e.receiver = e.callee.receiver? (some (madeAt s cls))
  parameters : ∀ place p, e.Parameter place p →
    Dict.get? e.run.state.currentFrame p = some ((e.supply r c).getD place Value.noneConstant).orUnknown

/-- A parameter holds a value that covers another. -/
def Receives (e : Entry σ) (p : String) (v : Value) : Prop :=
  ∃ b, Dict.get? e.run.state.currentFrame p = some b ∧ b.Covers v

/-- Every argument reaches the parameter that it is meant for: what is supplied by its place, and a keyword argument
by its name where nothing else is supplied. -/
def Complete (e : Entry σ) (r : Run σ) (c : Call) : Prop :=
  ∀ place p, e.Parameter place p →
    (∀ v, (e.supply r c)[place]? = some v → e.Receives p v) ∧
    ((e.supply r c)[place]? = none → ∀ x, (p, x) ∈ c.kwargs → e.Receives p (r.lookup x))

theorem covers_orUnknown {v : Value} : v.orUnknown.Covers v ↔ v = [] ∨ v.Covers v := by
  unfold Value.orUnknown
  split
  · rename_i hempty
    obtain rfl := List.isEmpty_iff.mp hempty
    simp [Value.Covers, Value.unknown, Value.hasUnknown, Object.isUnknown]
  · rename_i hne
    simp [show v ≠ [] by simpa using hne]

/-- Arguments by place get lost only where a value does not cover itself, and keyword arguments where they are not
covered by `None`. -/
theorem Bound.complete_iff (h : e.Bound r s c) : e.Complete r c ↔ ∀ place p, e.Parameter place p →
    (∀ v, (e.supply r c)[place]? = some v → v = [] ∨ v.Covers v) ∧
    ((e.supply r c)[place]? = none → ∀ x, (p, x) ∈ c.kwargs → Value.noneConstant.Covers (r.lookup x)) := by
  refine forall_congr' fun place => forall_congr' fun p => forall_congr' fun hp => ?_
  have hreceives : ∀ v, e.Receives p v ↔ ((e.supply r c).getD place Value.noneConstant).orUnknown.Covers v := by
    intro v
    simp [Receives, h.parameters place p hp]
  simp only [hreceives, List.getD_eq_getElem?_getD]
  refine and_congr (forall_congr' fun v => forall_congr' fun hv => ?_) (forall_congr' fun hnone => ?_)
  · rw [hv, Option.getD_some, covers_orUnknown]
  · rw [hnone]
    rfl

end Entry

theorem forall_foldEntries {α β : Type} {f : α → β → Except Violation α} {entries : α → β → List (Entry σ)}
    {Q : Entry σ → Prop} (hstep : ∀ acc b, ∀ e ∈ entries acc b, Q e) {acc : α} {bs : List β} :
    ∀ e ∈ foldEntries f entries acc bs, Q e := by
  induction bs generalizing acc with
  | nil => exact fun e he => absurd he List.not_mem_nil
  | cons b bs ih =>
    intro e he
    rcases List.mem_append.mp he with he | he
    · exact hstep acc b e he
    · obtain ⟨acc', -, he⟩ := Except.mem_following he
      exact ih e he

theorem entered_of_mem (he : e ∈ callFunctionEntries a r s c args receiver constructs fn) :
    e.receiver = e.callee.receiver? receiver ∧ ∀ place p, e.Parameter place p →
      Dict.get? e.run.state.currentFrame p =
        some ((supplied e.receiver args).getD place Value.noneConstant).orUnknown := by
  unfold callFunctionEntries at he
  obtain ⟨⟨target, r₁⟩, -, he⟩ := Except.mem_following he
  dsimp only at he
  split at he
  · obtain ⟨r₂, henter, he⟩ := Except.mem_following he
    obtain rfl := List.mem_singleton.mp he
    refine ⟨rfl, ?_⟩
    rintro place p ⟨front, rest, hparams, hlast, rfl⟩
    exact get?_currentFrame_enter henter hparams hlast
  · cases he

theorem bound_of_mem (he : e ∈ callEntries a body r s c) : e.Bound r s c := by
  have hplain : ∀ {r' : Run σ} {fn : Function Value},
      ∀ e ∈ callFunctionEntries a r' s c (c.args.map r.lookup) (r.receiverOf c) false fn, e.Bound r s c := by
    intro r' fn e he
    obtain ⟨hreceiver, hparams⟩ := entered_of_mem he
    exact ⟨.inl hreceiver, hparams⟩
  -- A call enters what the value of its callee may be, and what an oracle names besides; only a class makes a
  -- receiver of its own.
  rcases List.mem_append.mp he with he | he
  · refine forall_foldEntries (Q := fun e => e.Bound r s c) (fun acc o e he => ?_) e he
    cases o with
    | function fn => exact hplain e he
    | classObject cls =>
      refine forall_foldEntries (Q := fun e => e.Bound r s c) (fun r' fn e he => ?_) e he
      obtain ⟨hreceiver, hparams⟩ := entered_of_mem he
      exact ⟨.inr ⟨cls, hreceiver⟩, hparams⟩
    | _ => cases he
  · obtain ⟨⟨n, r₁⟩, -, he⟩ := Except.mem_following he
    dsimp only at he
    split at he
    · refine forall_foldEntries (Q := fun e => e.Bound r s c) (fun acc symbol e he => ?_) e he
      unfold callNamedEntries at he
      split at he
      · cases he
      · split at he
        · exact hplain e he
        · cases he
    · cases he

/-- The bodies that a call has analysed are those that it enters, and in each of them the parameters hold exactly
what is supplied for their places. So every argument reaches its parameter unless a keyword argument is for one that
nothing is supplied for, and is not covered by `None`. -/
theorem call_binds_arguments (a : Analyzer) (body : BodyAnalysis σ) (r : Run σ) (s : Step) (c : Call) :
    (∀ body', AgreeAt body body' (callEntries a body r s c) → r.call a body' s c = r.call a body s c) ∧
    ∀ e ∈ callEntries a body r s c, e.Bound r s c ∧ (e.Complete r c ↔ ∀ place p, e.Parameter place p →
      (∀ v, (e.supply r c)[place]? = some v → v = [] ∨ v.Covers v) ∧
      ((e.supply r c)[place]? = none → ∀ x, (p, x) ∈ c.kwargs → Value.noneConstant.Covers (r.lookup x))) :=
  ⟨fun _ => call_agree, fun _ he => ⟨bound_of_mem he, (bound_of_mem he).complete_iff⟩⟩

end Run

namespace Analyzer

def keywordCall : Program where
  scopes :=
    [{ Scope.emptyModule "m" with
        body := [.functionDef "f" "m.f", .const "a" (.int 1), .call ⟨"r", "f", "", [], [("p", "a")]⟩] },
      ⟨"m.f", .function, "m", ["p"], [], [], false, [.ret "p"]⟩]

/-- The number is replaced by `None` although the call has it for the parameter. -/
theorem call_loses_keyword :
    ∃ r e, .busy r ∈ (ofProgram {} [] false keywordCall).momentsWith callBound Unit none () ∧
      r.state.flow.current = ⟨"m", 2⟩ ∧
      e ∈ Run.callEntries (ofProgram {} [] false keywordCall) (ofProgram {} [] false keywordCall).body r
        ⟨"m", 2, 0⟩ ⟨"r", "f", "", [], [("p", "a")]⟩ ∧
      e.Parameter 0 "p" ∧ ¬ e.Receives "p" (r.lookup "a") := by
  let loses (r : Run Unit) (e : Run.Entry Unit) : Bool :=
    decide (e.callee.params = ["p"]) &&
      (Dict.get? e.run.state.currentFrame "p").all fun b => !decide (b.Covers (r.lookup "a"))
  let misses (m : Run.Moment Unit) : Bool :=
    match m with
    | .busy r => decide (r.state.flow.current = ⟨"m", 2⟩) && (Run.callEntries (ofProgram {} [] false keywordCall)
        (ofProgram {} [] false keywordCall).body r ⟨"m", 2, 0⟩ ⟨"r", "f", "", [], [("p", "a")]⟩).any (loses r)
    | _ => false
  have htest : ((ofProgram {} [] false keywordCall).momentsWith callBound Unit none ()).any misses = true := by
    decide +kernel
  obtain ⟨m, hm, hmisses⟩ := List.any_eq_true.mp htest
  cases m with
  | busy r =>
    obtain ⟨hcurrent, hmisses⟩ := (Bool.and_eq_true _ _).mp hmisses
    obtain ⟨e, he, hloses⟩ := List.any_eq_true.mp hmisses
    simp only [loses, Bool.and_eq_true, decide_eq_true_eq, Option.all_eq_true, Bool.not_eq_true',
      decide_eq_false_iff_not] at hloses
    refine ⟨r, e, hm, of_decide_eq_true hcurrent, he, ⟨[], [], by simp [hloses.1], by simp, rfl⟩, ?_⟩
    rintro ⟨b, hb, hcovers⟩
    exact hloses.2 b hb hcovers
  | _ => cases hmisses

end Analyzer

end AbstractFlow
