import AbstractFlow.Proofs.Analysis.CallStack
import AbstractFlow.Proofs.State.Contents

/-! # Calls restore their callers

Between a call and its end the callee reads and writes variables, returns, raises and calls in turn. All of
this leaves the calls below it alone, and frames that exist go on existing. A call remembers what the
parameters were bound to in the frame of the callee, also when that frame belongs to a call of the same function
that is still going on. So its end finds what it has to write back, and the caller goes on as if nothing
had happened to its place, its statement and its calls.
-/
namespace AbstractFlow

/-- A call: who calls at which statement, where to go on, and what is called how. -/
structure Invocation where
  caller : String
  callee : String
  index : Int
  context : Context
  /-- The scope to go on in; without one, the scope in which the call is made. -/
  scope : Option String
  fn : Function Value
  args : List Value
  site : String
  receiver : Option Receiver

def Invocation.target (c : Invocation) (s : State) : Except String Context :=
  s.context.derive s.config.policy s.config.depth c.site ((c.receiver.map (·.id)).getD "")

/-- What a callee does until it ends. -/
inductive Operation where
  | set (name : String) (v : Value)
  | setIn (scope name : String) (v : Value)
  | update (name : String) (v : Value)
  | merge (name : String) (v : Value)
  | delete (name : String)
  | restore (snap : Snapshot)
  | setReturn (v : Value)
  | resetReturn
  | addException (v : Value)
  | dequeue
  /-- A call with all that its callee does, and what it is ended with. -/
  | call (c : Invocation) (body : List Operation) (result : Option Value)

namespace Operation

mutual

/-- The names that are bound in a scope that is named, at any depth of calls. -/
def elsewhere : Operation → List String
  | .setIn _ name _ => [name]
  | .call _ body _ => elsewhereAll body
  | _ => []

def elsewhereAll : List Operation → List String
  | [] => []
  | o :: rest => o.elsewhere ++ elsewhereAll rest

end

end Operation

namespace Memory

/-- Writes back the bindings of a frame that were remembered. -/
def putBack (m : Memory) (k : FrameKey) (saved : Dict (Option Value)) : Memory :=
  saved.foldl (fun (m : Memory) e => match e.2 with
    | some v => m.set k e.1 v
    | none => m) m

theorem contains_putBack {m : Memory} {k' : FrameKey} (h : m.contains k' = true) (k : FrameKey)
    (saved : Dict (Option Value)) : (m.putBack k saved).contains k' = true := by
  have hany : Holds (fun _ => True) m := fun _ _ _ _ => trivial
  exact (hany.restore (fun _ _ _ _ => trivial) k).2 k' h

theorem get?_putBack {m : Memory} {k : FrameKey} {saved : Dict (Option Value)} {name : String} {v : Value}
    (honly : ∀ b, (name, b) ∈ saved → b = some v)
    (h : (name, some v) ∈ saved ∨ m.get? k name = some v) : (m.putBack k saved).get? k name = some v := by
  unfold putBack
  induction saved generalizing m with
  | nil => exact h.resolve_left List.not_mem_nil
  | cons e saved ih =>
    obtain ⟨n, b⟩ := e
    rw [List.foldl_cons]
    refine ih (fun b hb => honly b (List.mem_cons_of_mem _ hb)) ?_
    rcases h with h | h
    · rcases List.mem_cons.mp h with h | h
      · cases h
        exact Or.inr (by simp [Memory.get?_set])
      · exact Or.inl h
    · refine Or.inr ?_
      cases b with
      | none => exact h
      | some w =>
        simp only [Memory.get?_set, true_and]
        split
        · rename_i hname
          subst hname
          exact honly _ List.mem_cons_self
        · exact h

theorem contains_setAll {m : Memory} {key' : FrameKey} (h : m.contains key' = true) (key : FrameKey)
    (bindings : List (String × Value)) : (m.setAll key bindings).contains key' = true := by
  unfold setAll
  induction bindings generalizing m with
  | nil => exact h
  | cons b bindings ih => exact ih (contains_set h _ _)

end Memory

namespace State

/-! ## Entering a callee -/

section Entering

variable {s s' : State}

/-- What is remembered of a frame: the value or the absence of every name that was bound since. -/
structure Remembers (before now : Memory) (k : FrameKey) (saved : Dict (Option Value)) : Prop where
  sorted : Dict.Sorted saved
  known : ∀ {name : String} {b : Option Value}, Dict.get? saved name = some b → b = before.get? k name
  untouched : ∀ {name : String}, Dict.get? saved name = none → now.get? k name = before.get? k name

/-- The first binding of a name is remembered, whatever is bound after it. -/
theorem Remembers.bind {before now : Memory} {k : FrameKey} {saved : Dict (Option Value)}
    (h : Remembers before now k saved) (name : String) (v : Value) :
    Remembers before (now.set k name v) k
      (if Dict.contains saved name then saved else Dict.insert saved name (now.get? k name)) := by
  have huntouched : ∀ {n : String}, n ≠ name → Dict.get? saved n = none →
      (now.set k name v).get? k n = before.get? k n := by
    intro n hn hnone
    rw [Memory.get?_set, if_neg fun hk => hn hk.2]
    exact h.untouched hnone
  by_cases hname : Dict.contains saved name = true
  · rw [if_pos hname]
    refine ⟨h.sorted, h.known, fun {n} hnone => huntouched ?_ hnone⟩
    rintro rfl
    simp [Dict.contains, hnone] at hname
  · rw [if_neg hname]
    have hnew : Dict.get? saved name = none := by simpa [Dict.contains] using hname
    refine ⟨Dict.sorted_insert name _ h.sorted, fun {n b} hb => ?_, fun {n} hnone => ?_⟩
    · rw [Dict.get?_insert] at hb
      split at hb
      · rename_i hn
        cases hb
        rw [hn, h.untouched hnew]
      · exact h.known hb
    · rw [Dict.get?_insert] at hnone
      split at hnone
      · cases hnone
      · rename_i hn
        exact huntouched hn hnone

theorem bindParameters_eq {f : CallFrame} {rest : List CallFrame} (h : s.frames = f :: rest)
    {before : Memory} (key : FrameKey) (hmemory : Remembers before s.memory key f.saved)
    (bindings : List (String × Value)) :
    ∃ saved, bindings.foldl (fun s b => s.bindParameter key b.1 b.2) s =
        { s with frames := { f with saved } :: rest, memory := s.memory.setAll key bindings } ∧
      Remembers before (s.memory.setAll key bindings) key saved ∧
      ∀ name, Dict.contains f.saved name = true ∨ name ∈ bindings.map Prod.fst →
        Dict.contains saved name = true := by
  induction bindings generalizing s f with
  | nil =>
    refine ⟨f.saved, ?_, hmemory, fun name hname => hname.resolve_right List.not_mem_nil⟩
    rw [← h]
    rfl
  | cons b bindings ih =>
    let saved := if Dict.contains f.saved b.1 then f.saved
      else Dict.insert f.saved b.1 (s.memory.get? key b.1)
    have hfirst : s.bindParameter key b.1 b.2 = { s with
        frames := { f with saved } :: rest, memory := s.memory.set key b.1 b.2.orUnknown } := by
      simp only [bindParameter, mapTop_of_frames h, saved]
      split <;> rfl
    obtain ⟨saved', heq, hmemory', hnames⟩ := ih (s := { s with
        frames := { f with saved } :: rest, memory := s.memory.set key b.1 b.2.orUnknown }) rfl
      (hmemory.bind b.1 b.2.orUnknown)
    refine ⟨saved', by rw [List.foldl_cons, hfirst, heq]; rfl, hmemory', fun name hname => hnames name ?_⟩
    have hkept : Dict.contains f.saved name = true ∨ name = b.1 → Dict.contains saved name = true := by
      intro hname
      simp only [saved]
      split
      · rename_i hb
        rcases hname with hname | rfl
        · exact hname
        · exact hb
      · rw [Dict.contains, Dict.get?_insert]
        split
        · rfl
        · rename_i hne
          exact hname.resolve_right hne
    rw [List.map_cons, List.mem_cons] at hname
    rcases hname with hname | hname | hname
    · exact Or.inl (hkept (Or.inl hname))
    · exact Or.inl (hkept (Or.inr hname))
    · exact Or.inr hname

theorem map_fst_parameterBindings (fn : Function Value) (args : List Value) (receiver : Option Receiver) :
    (parameterBindings fn args receiver).map Prod.fst = fn.params := by
  have hplain : ∀ params : List String, (params.zipIdx.map fun e =>
      (e.1, args.getD e.2 Value.noneConstant)).map Prod.fst = params := by
    intro params
    rw [List.map_map]
    exact List.zipIdx_map_fst 0 params
  unfold parameterBindings
  split
  · rename_i r p params hparams _
    rw [hparams]
    exact congrArg (p :: ·) (hplain params)
  · rename_i r p params hparams _
    rw [hparams]
    exact congrArg (p :: ·) (hplain params)
  · exact hplain _

/-- What holds once a callee is entered: the call on top remembers its parameters, and nothing else of the stack
has changed. -/
structure Entered (s : State) (fn : Function Value) (target : Context) (f : CallFrame)
    (rest : List CallFrame) (s' : State) : Prop where
  frames : ∃ saved, s'.frames = { f with calleeKey := s.frameKey fn.name target, saved } :: rest ∧
    Remembers s.memory s'.memory (s.frameKey fn.name target) saved ∧
    ∀ p ∈ fn.params, Dict.contains saved p = true
  scope : s'.scope = some fn.name
  known : ∀ key, s.memory.contains key = true → s'.memory.contains key = true
  config : s'.config = s.config
  global : s'.global = s.global
  returned : s'.returned = s.returned
  exception : s'.exception = s.exception

theorem global_registerScope_function (s : State) (name : String) :
    (s.registerScope name .function (s.global.getD "")).global = s.global := by
  have hadd : ∀ (s : State) (name : String) (kind : ScopeKind), (s.addScope name kind).global = s.global := by
    intro s name kind
    unfold addScope
    split <;> rfl
  have hadopt : ∀ (s : State) (name parent : String), (s.adopt name parent).global = s.global := by
    intro s name parent
    unfold adopt
    split
    · split <;> rfl
    · rfl
  have hnote : ∀ s : State, (s.noteGlobal name .function).global = s.global := by
    intro s
    simp [noteGlobal]
  unfold registerScope
  simp only [hnote]
  split
  · rename_i hparent
    rw [hadopt]
    split
    · exact hadd s name .function
    · -- The parent is the global scope, so there is one already.
      have hglobal : s.global.isNone = false := by
        cases hg : s.global with
        | none => simp [hg] at hparent
        | some g => rfl
      have hadded : ((s.addScope name .function).addScope (s.global.getD "") .module).global = s.global := by
        rw [hadd, hadd]
      unfold noteGlobal
      rw [hadded, hglobal]
      exact hadded
  · exact hadd s name .function

theorem entered_enterFunction {f : CallFrame} {rest : List CallFrame} (hframes : s.frames = f :: rest)
    (hsaved : f.saved = []) {fn : Function Value} {args : List Value} {site : String}
    {receiver : Option Receiver} {target : Context}
    (h : s.enterFunction fn args site receiver = .ok (target, s')) : s.Entered fn target f rest s' := by
  unfold enterFunction at h
  obtain ⟨⟨c, s₁⟩, hcontext, h⟩ := Except.bind_eq_ok.mp h
  cases h
  obtain ⟨-, rfl⟩ := createContext_eq_ok.mp hcontext
  let registered := (s.noteContext target).registerScope fn.name .function ((s.noteContext target).global.getD "")
  have hmoved : s.Moves registered := (s.moves_noteContext target).trans (moves_registerScope _ _ _ _)
  have hmemory : registered.memory = s.memory :=
    (widens_registerScope _ _ _ _).memory.trans (noteContext_memory s target)
  have hglobal : registered.global = s.global :=
    (global_registerScope_function _ fn.name).trans (noteContext_global s target)
  have hkey : ({ registered with scope := some fn.name, context := target } : State).frameKey fn.name target =
      s.frameKey fn.name target := by simp only [frameKey, hmoved.config]
  have htop := mapTop_of_frames (s := { registered with scope := some fn.name, context := target })
    (hmoved.frames.trans hframes) fun top => { top with calleeKey := s.frameKey fn.name target }
  have hnothing : Remembers s.memory registered.memory (s.frameKey fn.name target) f.saved := by
    rw [hsaved, hmemory]
    refine ⟨Dict.sorted_nil, fun h => ?_, fun _ => rfl⟩
    cases h
  obtain ⟨saved, hbound, hremembers, hnames⟩ := bindParameters_eq (congrArg State.frames htop :)
    (s.frameKey fn.name target) (by rw [htop]; exact hnothing) (parameterBindings fn args receiver)
  simp only [registered] at hkey htop hbound
  rw [hkey, hbound, htop]
  refine ⟨⟨saved, rfl, ?_, fun p hp => hnames p (Or.inr ?_)⟩, rfl, fun key hk => ?_, hmoved.config, hglobal,
    hmoved.returned, hmoved.exception⟩
  · rw [htop] at hremembers
    exact hremembers
  · rw [map_fst_parameterBindings]
    exact hp
  · refine Memory.contains_setAll ?_ _ _
    exact (congrArg (fun m : Memory => m.contains key) hmemory).trans hk

end Entering

/-! ## Leaving it again -/

/-- The caller goes on: in its scope and context, at its statement, with its calls, and with what the parameters
were bound to in the frame of the callee. -/
structure Resumes (s : State) (c : Invocation) (target : Context) (s' : State) : Prop where
  scope : s'.scope = c.scope.or s.scope
  context : s'.context = c.context
  cursor : s'.flow.current = s.flow.current
  frames : s'.frames = s.frames
  parameters : ∀ p ∈ c.fn.params, ∀ v, s.memory.get? (s.frameKey c.fn.name target) p = some v →
    s'.memory.get? (s.frameKey c.fn.name target) p = some v

/-- What a callee may do to a state until it ends. -/
structure Proceeds (s s' : State) : Prop where
  stack : s.KeepsStack s'
  known : ∀ key, s.memory.contains key = true → s'.memory.contains key = true
  config : s'.config = s.config
  global : s'.global = s.global
  scope : s.scope.isSome = true → s'.scope.isSome = true

namespace Proceeds

variable {s s' s'' : State}

theorem trans (h : s.Proceeds s') (h' : s'.Proceeds s'') : s.Proceeds s'' :=
  ⟨h.stack.trans h'.stack, fun key hk => h'.known key (h.known key hk), h'.config.trans h.config,
    h'.global.trans h.global, fun hs => h'.scope (h.scope hs)⟩

theorem withMemory {memory : Memory}
    (h : ∀ key, s.memory.contains key = true → memory.contains key = true) :
    s.Proceeds { s with memory } :=
  ⟨SameStack.keeps ⟨rfl, rfl, rfl⟩, h, rfl, rfl, id⟩

theorem refl (s : State) : s.Proceeds s :=
  ⟨SameStack.keeps ⟨rfl, rfl, rfl⟩, fun _ h => h, rfl, rfl, id⟩

end Proceeds

section Leaving

variable {s s' : State}

theorem exitFunction_of_frames {f : CallFrame} {rest : List CallFrame} (hframes : s.frames = f :: rest)
    (hknown : ∀ e ∈ f.saved, e.2.isSome = true → s.memory.contains f.calleeKey = true) (value : Option Value) :
    ∃ summaries, s.exitFunction value = .ok (f, { s with
      frames := rest
      summaries
      memory := s.memory.putBack f.calleeKey f.saved
      scope := f.scope
      context := f.context
      flow := { s.flow with current := f.cursor } }) := by
  have hframe : ¬(f.saved.any (·.2.isSome) && !s.memory.contains f.calleeKey) = true := by
    intro h
    rw [Bool.and_eq_true, List.any_eq_true] at h
    obtain ⟨⟨e, he, hsome⟩, hmissing⟩ := h
    simp [hknown e he hsome] at hmissing
  unfold exitFunction
  rw [hframes]
  simp only [if_neg hframe]
  exact ⟨_, rfl⟩

/-- Whatever a callee did since it was entered, its end finds the caller as it was. -/
theorem exitFunction_entered {c : Invocation} {target : Context} {t : State}
    (henter : (s.pushCall c.caller c.callee c.index c.context c.scope).enterFunction c.fn c.args c.site
      c.receiver = .ok (target, t)) (hbody : t.Proceeds s') (result : Option Value) :
    ∃ f s'', s'.exitFunction result = .ok (f, s'') ∧ s.Resumes c target s'' ∧ s.Proceeds s'' := by
  obtain ⟨⟨saved, hframes, hremembers, hparams⟩, -, hknown, hconfig, hglobal, hreturned, hexception⟩ :=
    entered_enterFunction rfl rfl henter
  obtain ⟨w, e, hframes', hreturned', hexception'⟩ := hbody.stack.busy hframes
  have hknown' : ∀ key, s.memory.contains key = true → s'.memory.contains key = true :=
    fun key hkey => hbody.known key (hknown key hkey)
  have hbinding : ∀ {name : String} {b : Option Value}, (name, b) ∈ saved →
      b = s.memory.get? (s.frameKey c.fn.name target) name :=
    fun hmem => hremembers.known (Dict.get?_of_mem hremembers.sorted hmem)
  -- A name that was bound before stands in a frame that is still there.
  obtain ⟨summaries, hexit⟩ := exitFunction_of_frames hframes' (fun b hb hsome => by
    obtain ⟨v, hv⟩ := Option.isSome_iff_exists.mp hsome
    exact hknown' _ (Memory.contains_of_get? ((hbinding hb).symm.trans hv))) result
  refine ⟨_, _, hexit, ⟨rfl, rfl, rfl, rfl, fun p hp v hv => ?_⟩,
    ⟨SameStack.keeps ⟨rfl, hreturned'.trans hreturned, hexception'.trans hexception⟩,
      fun key hkey => Memory.contains_putBack (hknown' key hkey) _ _, hbody.config.trans hconfig,
      hbody.global.trans hglobal, fun hscope => ?_⟩⟩
  · refine Memory.get?_putBack (fun b hb => (hbinding hb).trans hv) (Or.inl ?_)
    obtain ⟨b, hb⟩ := Option.isSome_iff_exists.mp (hparams p hp)
    have hfound := Dict.mem_of_get? hb
    rw [hbinding hfound, show s.memory.get? _ p = some v from hv] at hfound
    exact hfound
  · show (c.scope.or s.scope).isSome = true
    rw [Option.isSome_or, hscope, Bool.or_true]

end Leaving

/-! ## Operations -/

mutual

/-- Carries out one operation; a call is entered, carried out and left. -/
def perform (s : State) : Operation → Except Violation State
  | .set name v => s.setVariable name v
  | .setIn scope name v => s.setVariableIn scope name v
  | .update name v => .ok ((s.updateVariable? name v).getD s)
  | .merge name v => (s.mergeVariable name v).map Prod.snd
  | .delete name => .ok (s.deleteVariable name)
  | .restore snap => s.restore snap
  | .setReturn v => .ok (s.setReturn v)
  | .resetReturn => .ok s.resetReturn
  | .addException v => .ok (s.addException v)
  | .dequeue => .ok (match s.flow.dequeue? with
    | some (_, flow) => { s with flow }
    | none => s)
  | .call c body result => do
    let (_, s) ← (s.pushCall c.caller c.callee c.index c.context c.scope).enterFunction c.fn c.args c.site
      c.receiver
    let s ← performAll s body
    let (_, s) ← s.exitFunction result
    .ok s

def performAll (s : State) : List Operation → Except Violation State
  | [] => .ok s
  | o :: rest => do
    let s ← perform s o
    performAll s rest

end

/-- A run comes to a state of a property, or it fails: under a policy that is unknown, or when a name is bound in a
scope that is not there while there is no global scope. -/
inductive Settles (s : State) (names : List String) (P : State → Prop) : Except Violation State → Prop
  | unknownPolicy {name : String} (h : s.config.policy = .other name) :
    Settles s names P (.error (.unknownPolicy name))
  | nowhere {name : String} (h : s.global = none) (hname : name ∈ names) :
    Settles s names P (.error (.setWithoutScope name))
  | ok {s' : State} (h : P s') : Settles s names P (.ok s')

section Settling

variable {s s' : State} {names names' : List String} {P : State → Prop}

theorem Settles.mono {Q : State → Prop} {x : Except Violation State} (h : s.Settles names P x)
    (hPQ : ∀ s', P s' → Q s') : s.Settles names Q x := by
  cases h with
  | unknownPolicy h => exact .unknownPolicy h
  | nowhere h hname => exact .nowhere h hname
  | ok h => exact .ok (hPQ _ h)

theorem Settles.bind {x : Except Violation State} {f : State → Except Violation State}
    (h : s.Settles names s.Proceeds x) (hf : ∀ s', s.Proceeds s' → s'.Settles names' P (f s')) :
    s.Settles (names ++ names') P (x >>= f) := by
  cases h with
  | unknownPolicy h => exact .unknownPolicy h
  | nowhere h hname => exact .nowhere h (List.mem_append_left _ hname)
  | @ok s' h =>
    have hnext := hf s' h
    show s.Settles (names ++ names') P (f s')
    generalize f s' = y at hnext ⊢
    cases hnext with
    | unknownPolicy h' => exact .unknownPolicy (h.config ▸ h')
    | nowhere h' hname => exact .nowhere (h.global.symm.trans h') (List.mem_append_right _ hname)
    | ok h' => exact .ok h'

theorem proceeds_set (s : State) (key : FrameKey) (name : String) (v : Value) :
    s.Proceeds { s with memory := s.memory.set key name v } :=
  .withMemory fun _ hkey => Memory.contains_set hkey name v

theorem setVariable_ok (hs : s.scope.isSome = true) (name : String) (v : Value) :
    ∃ s', s.setVariable name v = .ok s' ∧ s.Proceeds s' := by
  obtain ⟨scope, hscope⟩ := Option.isSome_iff_exists.mp hs
  have hwrite : s.writeScope = some scope := by rw [writeScope, hscope, Option.some_or]
  refine ⟨_, ?_, s.proceeds_set (s.frameKey scope s.context) name v⟩
  rw [setVariable, hwrite, setIn]

theorem settles_setVariableIn (s : State) (scope name : String) (v : Value) :
    s.Settles [name] s.Proceeds (s.setVariableIn scope name v) := by
  have hsome : ∀ scope, s.Settles [name] s.Proceeds (s.setIn (some scope) name v) :=
    fun scope => .ok (s.proceeds_set (s.frameKey scope s.context) name v)
  unfold setVariableIn
  split
  · exact hsome scope
  · cases hglobal : s.global with
    | some scope => exact hsome scope
    | none => exact .nowhere hglobal List.mem_cons_self

theorem proceeds_updateVariable? (s : State) (name : String) (v : Value) :
    s.Proceeds ((s.updateVariable? name v).getD s) := by
  unfold updateVariable?
  cases s.resolve? name with
  | none => exact .refl s
  | some found => exact s.proceeds_set found.1 name v

theorem mergeVariable_ok (hs : s.scope.isSome = true) (name : String) (v : Value) :
    ∃ w s', s.mergeVariable name v = .ok (w, s') ∧ s.Proceeds s' := by
  obtain ⟨scope, hscope⟩ := Option.isSome_iff_exists.mp hs
  have hwrite : s.writeScope = some scope := by rw [writeScope, hscope, Option.some_or]
  let merged := (((s.find? scope name).map Prod.snd).getD []).merge v
  refine ⟨merged, _, ?_, s.proceeds_set (s.frameKey scope s.context) name merged⟩
  simp only [mergeVariable, hwrite, setIn]
  rfl

theorem proceeds_deleteVariable (s : State) (name : String) : s.Proceeds (s.deleteVariable name) := by
  unfold deleteVariable
  split
  · exact .withMemory fun _ hkey => Memory.contains_delete hkey name
  · exact .refl s

theorem restore_ok (hs : s.scope.isSome = true) (snap : Snapshot) :
    ∃ s', s.restore snap = .ok s' ∧ s.Proceeds s' := by
  unfold restore
  induction snap generalizing s with
  | nil => exact ⟨s, rfl, .refl s⟩
  | cons e snap ih =>
    obtain ⟨s₁, hset, hfirst⟩ := setVariable_ok hs e.1 e.2
    obtain ⟨s₂, hrest, hthen⟩ := ih (hfirst.scope hs)
    refine ⟨s₂, ?_, hfirst.trans hthen⟩
    rw [List.foldlM_cons, hset]
    exact hrest

theorem keepsStack_resetReturn (s : State) : s.KeepsStack s.resetReturn := by
  refine ⟨fun hs => ?_, fun {f rest} hs => ⟨none, f.exception, ?_⟩⟩
  · simp only [resetReturn, hs]
  · simp only [resetReturn, hs, and_self]

/-- What the innermost call returns or raises is no variable and no place. -/
theorem proceeds_slots (s : State) (v : Value) :
    s.Proceeds (s.setReturn v) ∧ s.Proceeds s.resetReturn ∧ s.Proceeds (s.addException v) := by
  refine ⟨⟨s.keepsStack_setReturn v, ?_, ?_, ?_, ?_⟩, ⟨s.keepsStack_resetReturn, ?_, ?_, ?_, ?_⟩,
    ⟨s.keepsStack_addException v, ?_, ?_, ?_, ?_⟩⟩
  all_goals
    simp only [setReturn, resetReturn, addException]
    cases s.frames <;> simp

theorem proceeds_dequeue (s : State) :
    s.Proceeds (match s.flow.dequeue? with
      | some (_, flow) => { s with flow }
      | none => s) := by
  split
  · exact ⟨SameStack.keeps ⟨rfl, rfl, rfl⟩, fun _ hkey => hkey, rfl, rfl, id⟩
  · exact .refl s

theorem enterFunction_cases (s : State) (fn : Function Value) (args : List Value) (site : String)
    (receiver : Option Receiver) :
    (∃ name, s.config.policy = .other name ∧
      s.enterFunction fn args site receiver = .error (.unknownPolicy name)) ∨
    ∃ target s',
      s.context.derive s.config.policy s.config.depth site ((receiver.map (·.id)).getD "") = .ok target ∧
      s.enterFunction fn args site receiver = .ok (target, s') := by
  unfold enterFunction createContext
  cases hderive : s.context.derive s.config.policy s.config.depth site ((receiver.map (·.id)).getD "") with
  | ok target => exact Or.inr ⟨target, _, rfl, rfl⟩
  | error name =>
    refine Or.inl ⟨name, ?_, rfl⟩
    unfold Context.derive at hderive
    cases hpolicy : s.config.policy <;> simp_all

theorem settles_call (s : State) (c : Invocation) {body : List Operation}
    (hbody : ∀ t : State, t.scope.isSome = true →
      t.Settles (Operation.elsewhereAll body) t.Proceeds (t.performAll body)) (result : Option Value) :
    s.Settles (Operation.elsewhereAll body)
      (fun s' => s.Proceeds s' ∧ ∃ target, c.target s = .ok target ∧ s.Resumes c target s')
      (s.perform (.call c body result)) := by
  rw [perform]
  rcases enterFunction_cases (s.pushCall c.caller c.callee c.index c.context c.scope) c.fn c.args c.site
    c.receiver with ⟨name, hpolicy, henter⟩ | ⟨target, t, hderive, henter⟩
  · rw [henter]
    exact .unknownPolicy hpolicy
  · rw [henter]
    have hentered := entered_enterFunction rfl rfl henter
    have hrun := hbody t (by rw [hentered.scope]; rfl)
    show s.Settles _ _ (t.performAll body >>= fun s' => _)
    generalize t.performAll body = x at hrun
    cases hrun with
    | unknownPolicy h => exact .unknownPolicy (hentered.config ▸ h)
    | nowhere h hname => exact .nowhere (hentered.global.symm.trans h) hname
    | @ok s' hproceeds =>
      obtain ⟨f, s'', hexit, hresumes, hwhole⟩ := exitFunction_entered henter hproceeds result
      show s.Settles _ _ (s'.exitFunction result >>= fun p => _)
      rw [hexit]
      exact .ok ⟨hwhole, target, hderive, hresumes⟩

mutual

theorem settles_perform {s : State} (hs : s.scope.isSome = true) :
    (o : Operation) → s.Settles o.elsewhere s.Proceeds (s.perform o)
  | .set name v => by
    obtain ⟨s', heq, hnext⟩ := setVariable_ok hs name v
    rw [perform, heq]
    exact .ok hnext
  | .setIn scope name v => s.settles_setVariableIn scope name v
  | .update name v => .ok (s.proceeds_updateVariable? name v)
  | .merge name v => by
    obtain ⟨w, s', heq, hnext⟩ := mergeVariable_ok hs name v
    rw [perform, heq]
    exact .ok hnext
  | .delete name => .ok (s.proceeds_deleteVariable name)
  | .restore snap => by
    obtain ⟨s', heq, hnext⟩ := restore_ok hs snap
    rw [perform, heq]
    exact .ok hnext
  | .setReturn v => .ok (s.proceeds_slots v).1
  | .resetReturn => .ok (s.proceeds_slots []).2.1
  | .addException v => .ok (s.proceeds_slots v).2.2
  | .dequeue => .ok s.proceeds_dequeue
  | .call c body result => by
    -- Inside of the call the induction goes on; the call as a whole is one more step.
    refine (s.settles_call c (fun t ht => settles_performAll ht body) result).mono fun s' h => h.1

theorem settles_performAll {s : State} (hs : s.scope.isSome = true) :
    (body : List Operation) → s.Settles (Operation.elsewhereAll body) s.Proceeds (s.performAll body)
  | [] => .ok (.refl s)
  | o :: rest => by
    rw [performAll]
    refine (settles_perform hs o).bind fun s' hfirst => ?_
    exact (settles_performAll (hfirst.scope hs) rest).mono fun _ hthen => hfirst.trans hthen

end

/-- A call fails only under a policy that is unknown, or if its callee, at any depth, binds a name in a scope that
is not there while there is no global scope. Else it ends, and the caller resumes as it was at the call. -/
theorem call_resumes (s : State) (c : Invocation) (body : List Operation) (result : Option Value) :
    (∃ name, s.config.policy = .other name ∧
      s.perform (.call c body result) = .error (.unknownPolicy name)) ∨
    (s.global = none ∧ ∃ name ∈ Operation.elsewhereAll body,
      s.perform (.call c body result) = .error (.setWithoutScope name)) ∨
    ∃ target s', c.target s = .ok target ∧ s.perform (.call c body result) = .ok s' ∧
      s.Resumes c target s' := by
  have hcall := s.settles_call c (fun t ht => settles_performAll ht body) result
  generalize s.perform (.call c body result) = x at hcall
  cases hcall with
  | @unknownPolicy name h => exact Or.inl ⟨name, h, rfl⟩
  | @nowhere name h hname => exact Or.inr (Or.inl ⟨h, name, hname, rfl⟩)
  | @ok s' h =>
    obtain ⟨-, target, hderive, hresumes⟩ := h
    exact Or.inr (Or.inr ⟨target, s', hderive, rfl, hresumes⟩)

end Settling

end State

end AbstractFlow
