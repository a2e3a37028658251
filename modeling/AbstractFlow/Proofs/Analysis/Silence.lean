import AbstractFlow.Proofs.Analysis.Beginning

/-! # Silent oracles

An oracle that never answers is as good as none. Two runs are alike if they differ only in what was logged and
in their oracles, and if neither oracle ever answers: it is absent, or it fails at every query. Where control
flow counts, every part of an analysis leads alike runs to alike runs, or fails in both alike.
-/
namespace AbstractFlow

variable {σ τ υ α : Type}

/-- Two computations that fail alike, or give results that stand in a relation. -/
inductive Except.Agree {ε α β : Type} (R : α → β → Prop) : Except ε α → Except ε β → Prop
  | ok {x : α} {y : β} : R x y → Agree R (.ok x) (.ok y)
  | error (e : ε) : Agree R (.error e) (.error e)

namespace Except.Agree

variable {ε β γ δ : Type} {R : α → β → Prop} {S : γ → δ → Prop}

theorem cases {x : Except ε α} {y : Except ε β} (h : Except.Agree R x y) :
    (∃ e, x = .error e ∧ y = .error e) ∨ ∃ a b, x = .ok a ∧ y = .ok b ∧ R a b := by
  cases h with
  | ok hab => exact .inr ⟨_, _, rfl, rfl, hab⟩
  | error e => exact .inl ⟨e, rfl, rfl⟩

theorem bind {x : Except ε α} {y : Except ε β} {f : α → Except ε γ} {g : β → Except ε δ}
    (h : Except.Agree R x y) (hfg : ∀ a b, R a b → Except.Agree S (f a) (g b)) :
    Except.Agree S (x >>= f) (y >>= g) := by
  cases h with
  | ok hab => exact hfg _ _ hab
  | error e => exact .error e

theorem bind_same (x : Except ε α) {f : α → Except ε γ} {g : α → Except ε δ}
    (hfg : ∀ a, Except.Agree S (f a) (g a)) : Except.Agree S (x >>= f) (x >>= g) := by
  cases x with
  | ok a => exact hfg a
  | error e => exact .error e

theorem map_same (x : Except ε α) {f : α → γ} {g : α → δ} (hfg : ∀ a, S (f a) (g a)) :
    Except.Agree S (x.map f) (x.map g) := by
  cases x with
  | ok a => exact .ok (hfg a)
  | error e => exact .error e

theorem foldlM {ι : Type} {f : α → ι → Except ε α} {g : β → ι → Except ε β}
    (hstep : ∀ a b i, R a b → Except.Agree R (f a i) (g b i)) (l : List ι) {a : α} {b : β} (h : R a b) :
    Except.Agree R (l.foldlM f a) (l.foldlM g b) := by
  induction l generalizing a b with
  | nil => exact .ok h
  | cons i l ih =>
    rw [List.foldlM_cons, List.foldlM_cons]
    apply (hstep a b i h).bind
    intro a b hab
    exact ih hab

end Except.Agree

/-- An oracle that gives no answer, whatever it is asked. -/
def Oracle.Fails (o : Oracle σ) : Prop := ∀ q s a, (o.ask q s).1 ≠ .answered a

theorem Oracle.Fails.cached {o : Oracle σ} (h : o.Fails) : o.cached.Fails := by
  have hinner : ∀ q s a, (o.askInner q s).1 ≠ .answered a := fun q s a => h q s.inner a
  intro q s a
  unfold Oracle.cached
  simp only
  split
  · exact hinner _ s a
  · split
    · rename_i hversion
      exact absurd (congrArg Prod.fst hversion) (hinner _ s _)
    · exact hinner q _ a
    · simp

/-- No oracle that would answer. -/
def Guarded.Silent (g : Guarded σ) : Prop := ∀ o, g.oracle = some o → o.Fails

theorem Guarded.Silent.ask {g : Guarded σ} (h : g.Silent) (q : Query) :
    (g.ask q).1 = q.conservative ∧ (g.ask q).2.2.Silent := by
  unfold Guarded.ask
  split
  · exact ⟨rfl, h⟩
  · rename_i o ho
    simp only
    constructor
    · cases houtcome : (o.ask q g.state).1 with
      | answered a => exact absurd houtcome (h o ho q g.state a)
      | failed a reason => rfl
      | broken reason => rfl
    · exact h

namespace Run

/-- A run but for its oracle and what was logged. -/
def work (r : Run σ) : Run Unit := { r with oracle := ⟨none, (), []⟩, log := [] }

def under (r : Run σ) (g : Guarded τ) (log : List String) : Run τ := { r with oracle := g, log }

/-- Two runs that did the same work, and no oracle of which will ever answer. -/
structure Alike (r : Run σ) (r' : Run τ) : Prop where
  work : r.work = r'.work
  left : r.oracle.Silent
  right : r'.oracle.Silent

/-- Alike runs that come with the same result. -/
def AlikeWith (x : α × Run σ) (y : α × Run τ) : Prop := x.1 = y.1 ∧ x.2.Alike y.2

def AlikeBodies (body : BodyAnalysis σ) (body' : BodyAnalysis τ) : Prop :=
  ∀ function start ⦃r : Run σ⦄ ⦃r' : Run τ⦄, r.Alike r' →
    Except.Agree Alike (body function start r) (body' function start r')

variable {r : Run σ} {r' : Run τ} {a : Analyzer} {body : BodyAnalysis σ} {body' : BodyAnalysis τ}

namespace Alike

theorem symm (h : r.Alike r') : r'.Alike r := ⟨h.work.symm, h.right, h.left⟩

theorem trans {r'' : Run υ} (h : r.Alike r') (h' : r'.Alike r'') : r.Alike r'' :=
  ⟨h.work.trans h'.work, h.left, h'.right⟩

theorem state (h : r.Alike r') : r.state = r'.state := congrArg Run.state h.work
theorem analyzed (h : r.Alike r') : r.analyzed = r'.analyzed := congrArg Run.analyzed h.work
theorem memo (h : r.Alike r') : r.memo = r'.memo := congrArg Run.memo h.work
theorem calls (h : r.Alike r') : r.calls = r'.calls := congrArg Run.calls h.work
theorem queue (h : r.Alike r') : r.queue = r'.queue := congrArg Run.queue h.work
theorem stats (h : r.Alike r') : r.stats = r'.stats := congrArg Run.stats h.work
theorem trace (h : r.Alike r') : r.trace = r'.trace := congrArg Run.trace h.work

theorem exists_under (h : r.Alike r') : ∃ g log, r' = r.under g log := by
  have hwork := h.work
  simp only [Run.work, Run.mk.injEq] at hwork
  obtain ⟨hstate, -, hanalyzed, hmemo, hcalls, hqueue, hrequeued, hstats, -, htrace⟩ := hwork
  refine ⟨r'.oracle, r'.log, ?_⟩
  simp only [Run.under, hstate, hanalyzed, hmemo, hcalls, hqueue, hrequeued, hstats, htrace]

/-- What neither sees the oracle nor what was logged keeps runs alike. -/
theorem apply (h : r.Alike r') (f : {ρ : Type} → Run ρ → Run ρ)
    (hwork : ∀ {ρ : Type} (r : Run ρ), (f r).work = (f r.work).work)
    (horacle : ∀ {ρ : Type} (r : Run ρ), (f r).oracle = r.oracle) : (f r).Alike (f r') := by
  refine ⟨?_, ?_, ?_⟩
  · rw [hwork r, hwork r', h.work]
  · rw [horacle]
    exact h.left
  · rw [horacle]
    exact h.right

theorem withState (h : r.Alike r') (s : State) : Alike { r with state := s } { r' with state := s } :=
  h.apply (fun r => { r with state := s }) (fun _ => rfl) fun _ => rfl

theorem note (h : r.Alike r') (a : Analyzer) (line : Unit → String) :
    (r.note a line).Alike (r'.note a line) := by
  refine h.apply (fun r => r.note a line) ?_ fun r => r.oracle_note a line
  intro ρ r
  unfold Run.note
  split <;> rfl

theorem ask (h : r.Alike r) (q : Query) : ∃ r₁, r.ask q = (q.conservative, r₁) ∧ r₁.Alike r := by
  obtain ⟨hanswer, hsilent⟩ := h.left.ask q
  exact ⟨(r.ask q).2, Prod.ext hanswer rfl, rfl, hsilent, h.left⟩

theorem reads (h : r.Alike r') (f : {ρ : Type} → Run ρ → α) (hf : ∀ {ρ : Type} (r : Run ρ), f r = f r.work) :
    f r = f r' := by
  rw [hf r, hf r', h.work]

theorem lookup (h : r.Alike r') : r.lookup = r'.lookup := h.reads (fun r => r.lookup) fun _ => rfl

theorem evaluate (h : r.Alike r') : r.evaluate = r'.evaluate :=
  h.reads (fun r => r.evaluate) fun r => by
    funext t
    cases t with
    | name n => rfl
    | literal l => rfl
    | compare left op right => cases left <;> cases right <;> rfl

theorem predecessors (h : r.Alike r') : r.predecessors = r'.predecessors :=
  h.reads (fun r => r.predecessors) fun _ => rfl

theorem mapFlow (h : r.Alike r') (f : Tracker → Tracker) : (r.mapFlow f).Alike (r'.mapFlow f) :=
  h.apply (fun r => r.mapFlow f) (fun _ => rfl) fun _ => rfl

theorem advance (h : r.Alike r') (a : Analyzer) (s : Step) : (r.advance a s).Alike (r'.advance a s) := by
  refine h.apply (fun r => r.advance a s) ?_ fun r => r.oracle_advance a s
  intro ρ r
  unfold Run.advance
  split <;> rfl

theorem rebind (h : r.Alike r') (name : String) (v : Value) : (r.rebind name v).Alike (r'.rebind name v) := by
  unfold Run.rebind
  rw [← h.state]
  split
  · exact h.withState _
  · exact h

theorem assign (h : r.Alike r') (hflow : a.options.flowSensitive = true) (s : Step) (target : String) (v : Value) :
    Except.Agree Alike (r.assign a s target v) (r'.assign a s target v) := by
  unfold Run.assign
  rw [r.overwrites_of_flowSensitive hflow, r'.overwrites_of_flowSensitive hflow, ← h.predecessors]
  dsimp only
  rw [← h.state]
  split
  · exact .ok h
  · split
    · exact .map_same _ fun state => h.withState state
    · exact .map_same _ fun p => h.withState p.2

theorem fork (h : r.Alike r') (s : Step) : (r.fork s).Alike (r'.fork s) :=
  h.apply (fun r => r.fork s) (fun _ => rfl) fun _ => rfl

theorem branch (h : r.Alike r') (a : Analyzer) (s : Step) (sense : Bool) (test : Test) (label : String) :
    (r.branch a s sense test label).Alike (r'.branch a s sense test label) := by
  unfold Run.branch
  rw [← h.evaluate, ← h.state]
  split
  · exact h
  · dsimp only
    split
    · exact h.fork s
    · exact h.fork s
    · split
      · exact (h.note a _).mapFlow _
      · exact (h.note a _).mapFlow _

theorem jump (h : r.Alike r') (a : Analyzer) (s : Step) (label : String) :
    (r.jump a s label).Alike (r'.jump a s label) := by
  unfold Run.jump
  rw [← h.state]
  split
  · exact h
  · split
    · exact h.mapFlow _
    · exact h

theorem join (h : r.Alike r') (a : Analyzer) (s : Step) : Except.Agree Alike (r.join a s) (r'.join a s) := by
  unfold Run.join
  have hpoint : r.pointAt s s.index = r'.pointAt s s.index :=
    h.reads (fun r => r.pointAt s s.index) fun _ => rfl
  rw [← hpoint, ← h.state]
  apply Except.Agree.bind_same
  intro state
  have hjoined := fun merged => (h.withState state).mapFlow (·.setSnapshot (r.pointAt s s.index) merged)
  dsimp only
  split
  all_goals
    split
    · exact .ok ((hjoined _).note a _)
    · exact .ok ((hjoined _).advance a s)

theorem label (h : r.Alike r') (a : Analyzer) (s : Step) : Except.Agree Alike (r.label a s) (r'.label a s) := by
  unfold Run.label
  rw [← h.state]
  split
  · exact .ok h
  · split
    · exact h.join a s
    · exact .ok (h.advance a s)

end Alike

theorem isSingleField_of_silent (h : r.Alike r) (o : Object) (attr : String) :
    ∃ r₁, r.isSingleField o attr = (false, r₁) ∧ r₁.Alike r := by
  unfold isSingleField
  split
  · obtain ⟨r₁, hask, h₁⟩ := h.ask (.isSingleton (.field o.heapObject (.attribute attr)) r.contextKey)
    rw [hask]
    exact ⟨r₁, rfl, h₁⟩
  · exact ⟨r, rfl, h⟩

namespace AlikeWith

theorem storeOn {x : Value × Run σ} {y : Value × Run τ} (h : AlikeWith x y) (attr : String) (v : Value)
    (o : Object) : AlikeWith (Run.storeOn attr v x o) (Run.storeOn attr v y o) := by
  obtain ⟨base, r⟩ := x
  obtain ⟨base', r'⟩ := y
  obtain ⟨rfl, h⟩ := h
  obtain ⟨r₁, hsingle, h₁⟩ := isSingleField_of_silent (h.trans h.symm) o attr
  obtain ⟨r₁', hsingle', h₁'⟩ := isSingleField_of_silent (h.symm.trans h) o attr
  have hafter : r₁.Alike r₁' := (h₁.trans h).trans h₁'.symm
  unfold Run.storeOn
  simp only [hsingle, hsingle']
  refine ⟨rfl, ?_⟩
  rw [← hafter.state]
  exact hafter.withState _

theorem loadFrom {x : Value × Run σ} {y : Value × Run τ} (h : AlikeWith x y) (attr : String) (o : Object) :
    AlikeWith (Run.loadFrom attr x o) (Run.loadFrom attr y o) := by
  -- Nothing is found by an oracle, and the object itself is asked.
  have hsilent : ∀ {ρ : Type} (out : Value) {r : Run ρ}, r.Alike r →
      ∃ r₁, Run.loadFrom attr (out, r) o = (out.merge ((r₁.state.objectAttr? o attr).getD []), r₁) ∧ r₁.Alike r := by
    intro ρ out r h
    unfold Run.loadFrom
    dsimp only
    split
    · obtain ⟨r₁, hask, h₁⟩ := h.ask (.fieldPointsTo o.heapObject (.attribute attr))
      rw [hask]
      exact ⟨r₁, rfl, h₁⟩
    · exact ⟨r, rfl, h⟩
  obtain ⟨out, r⟩ := x
  obtain ⟨out', r'⟩ := y
  obtain ⟨rfl, h⟩ := h
  obtain ⟨r₁, hload, h₁⟩ := hsilent out (h.trans h.symm)
  obtain ⟨r₁', hload', h₁'⟩ := hsilent out (h.symm.trans h)
  have hafter : r₁.Alike r₁' := (h₁.trans h).trans h₁'.symm
  simp only at hload hload' ⊢
  rw [hload, hload', ← hafter.state]
  exact ⟨rfl, hafter⟩

theorem foldl {ι : Type} {f : α × Run σ → ι → α × Run σ} {g : α × Run τ → ι → α × Run τ}
    (hstep : ∀ x y i, AlikeWith x y → AlikeWith (f x i) (g y i)) (l : List ι) {x : α × Run σ} {y : α × Run τ}
    (h : AlikeWith x y) : AlikeWith (l.foldl f x) (l.foldl g y) := by
  induction l generalizing x y with
  | nil => exact h
  | cons i l ih => exact ih (hstep x y i h)

end AlikeWith

namespace Alike

theorem attrStore (h : r.Alike r') (object attr value : String) :
    (r.attrStore object attr value).Alike (r'.attrStore object attr value) := by
  unfold Run.attrStore
  rw [← h.lookup]
  obtain ⟨hupdated, hstored⟩ := AlikeWith.foldl (fun x y o hxy => hxy.storeOn attr (r.lookup value) o)
    (r.lookup object) (x := (r.lookup object, r)) (y := (r.lookup object, r')) ⟨rfl, h⟩
  dsimp only
  rw [← hupdated]
  exact hstored.rebind object _

theorem attrLoad (h : r.Alike r') (object attr : String) :
    AlikeWith (r.attrLoad object attr) (r'.attrLoad object attr) := by
  unfold Run.attrLoad
  rw [← h.lookup]
  obtain ⟨hout, hloaded⟩ := AlikeWith.foldl (fun x y o hxy => hxy.loadFrom attr o)
    (r.lookup object) (x := ([], r)) (y := ([], r')) ⟨rfl, h⟩
  exact ⟨congrArg Value.orUnknown hout, hloaded⟩

theorem functionDef (h : r.Alike r') (hflow : a.options.flowSensitive = true) (s : Step) (target name : String) :
    Except.Agree Alike (r.functionDef a s target name) (r'.functionDef a s target name) := by
  unfold Run.functionDef
  rw [← h.state]
  apply ((h.withState _).assign hflow s target _).bind
  intro r₁ r₁' h₁
  rw [← h₁.state]
  split
  · split
    · exact .ok (h₁.withState _)
    · exact .ok h₁
  · exact .ok h₁

theorem interpretSimple (h : r.Alike r') (hflow : a.options.flowSensitive = true) (s : Step) (stmt : Stmt) :
    Except.Agree Alike (r.interpretSimple a s stmt) (r'.interpretSimple a s stmt) := by
  -- What a statement reads is the same in alike runs, so both do the same with it.
  cases stmt <;> unfold Run.interpretSimple <;> dsimp only
  case build target type elems keys =>
    have hbuild : r.build type elems keys = r'.build type elems keys :=
      h.reads (fun r => r.build type elems keys) fun _ => rfl
    rw [← hbuild]
    exact h.assign hflow s target _
  case attrLoad target object attr =>
    obtain ⟨hv, hloaded⟩ := h.attrLoad object attr
    rw [← hv]
    exact hloaded.assign hflow s target _
  case attrStore object attr value => exact .ok (h.attrStore object attr value)
  case subscriptStore object index value =>
    unfold Run.subscriptStore
    rw [← h.lookup]
    exact .ok (h.rebind object _)
  case functionDef target name => exact h.functionDef hflow s target name
  case delete names =>
    rw [← h.state]
    exact .ok (h.withState _)
  case ret value =>
    rw [← h.lookup, ← h.state]
    exact .ok (h.withState _)
  case raise value =>
    rw [← h.lookup, ← h.state]
    exact .ok (h.withState _)
  case assign target value =>
    rw [← h.lookup]
    exact h.assign hflow s target _
  case subscriptLoad target object index =>
    rw [← h.lookup]
    exact h.assign hflow s target _
  case const target l => exact h.assign hflow s target _
  case expr target _ => exact h.assign hflow s target _
  case yield target _ => exact h.assign hflow s target _
  case await target _ => exact h.assign hflow s target _
  all_goals exact .ok h

theorem registerCall (h : r.Alike r') (s : Step) (c : Call) (callee : String) (target : Context)
    (receiver : Option Receiver) (constructs : Bool) :
    Except.Agree Alike (r.registerCall s c callee target receiver constructs)
      (r'.registerCall s c callee target receiver constructs) := by
  unfold Run.registerCall
  rw [← h.state]
  apply Except.Agree.bind_same
  intro p
  dsimp only
  split
  · exact .ok (h.withState _)
  · exact .ok (h.apply
      (fun r => { r with
        state := p.2
        calls := r.calls ++ [⟨p.1, receiver, constructs⟩]
        queue := r.queue ++ [⟨r.calls.length, false⟩] }) (fun _ => rfl) fun _ => rfl)

theorem writeBack (h : r.Alike r') (argument : String) (v : Value) :
    (r.writeBack argument v).Alike (r'.writeBack argument v) := by
  unfold Run.writeBack
  rw [← h.state]
  dsimp only
  split
  · exact h
  · split
    · exact h
    · split
      · exact h
      · exact h.rebind argument _

theorem foldl_writeBack (h : r.Alike r') (l : List (String × Value)) :
    (l.foldl (fun r (name, v) => r.writeBack name v) r).Alike (l.foldl (fun r (name, v) => r.writeBack name v) r') := by
  induction l generalizing r r' with
  | nil => exact h
  | cons e l ih => exact ih (h.writeBack e.1 e.2)

theorem invoke (h : r.Alike r') (hbody : AlikeBodies body body') (fn : Function Value) (argNames : List String)
    (args : List Value) (receiver : Option Receiver) (caller : String) (index : Int) :
    Except.Agree AlikeWith (r.invoke a body fn argNames args receiver caller index)
      (r'.invoke a body' fn argNames args receiver caller index) := by
  obtain ⟨g, log, rfl⟩ := h.exists_under
  unfold Run.invoke
  apply Except.Agree.bind_same
  intro p
  have hentered := h.apply
    (fun q => { q with
      state := p.2
      stats.deepestRecursion := max q.stats.deepestRecursion
        ((q.state.pushCall caller fn.name index q.state.context none).callDepth fn.name) })
    (fun _ => rfl) fun _ => rfl
  apply (hbody fn.name 0 (hentered.note a _)).bind
  intro r₁ r₁' h₁
  obtain ⟨g₁, log₁, rfl⟩ := h₁.exists_under
  apply Except.Agree.bind_same
  intro q
  have hexited := h₁.apply (fun r => { r with analyzed := fn.name :: r.analyzed, state := q.2 })
    (fun _ => rfl) fun _ => rfl
  have hwritten := hexited.foldl_writeBack (argNames.zip (r₁.parameterValues fn receiver argNames.length))
  exact .ok ⟨rfl, hwritten.note a fun _ => "exit " ++ fn.name ++ p.1.text ++ " -> " ++
    Value.text (r₁.state.returnValue?.getD Value.noneConstant)⟩

theorem callFunction (h : r.Alike r') (hbody : AlikeBodies body body') (s : Step) (c : Call) (args : List Value)
    (receiver : Option Receiver) (constructs : Bool) (fn : Function Value) :
    Except.Agree AlikeWith (r.callFunction a body s c args receiver constructs fn)
      (r'.callFunction a body' s c args receiver constructs fn) := by
  obtain ⟨g, log, rfl⟩ := h.exists_under
  unfold Run.callFunction
  apply Except.Agree.bind_same
  intro p
  apply ((h.withState p.2).registerCall s c fn.name p.1 _ constructs).bind
  intro r₁ r₁' h₁
  have hdepth : r₁.state.callDepth fn.name = r₁'.state.callDepth fn.name := by rw [h₁.state]
  have hsummary : r₁.state.returnSummary? fn.name p.1 = r₁'.state.returnSummary? fn.name p.1 := by rw [h₁.state]
  dsimp only
  rw [← hdepth, ← hsummary]
  split
  · exact .ok ⟨rfl, h₁⟩
  · split
    · exact .ok ⟨rfl, h₁⟩
    · split
      · have hcut := h₁.apply (fun r => { r with stats.recursionCutoffs := r.stats.recursionCutoffs + 1 })
          (fun _ => rfl) fun _ => rfl
        exact .ok ⟨rfl, hcut.note a fun _ =>
          "recursion cutoff for " ++ fn.name ++ " at " ++ callSiteText s.function s.index⟩
      · have hmemo := h₁.apply (fun r => { r with memo := ⟨fn.name, p.1⟩ :: r.memo }) (fun _ => rfl) fun _ => rfl
        exact hmemo.invoke hbody fn c.args args _ s.function s.index

theorem instantiate (h : r.Alike r') (hbody : AlikeBodies body body') (s : Step) (c : Call) (args : List Value)
    (cls : Class Value) :
    Except.Agree AlikeWith (r.instantiate a body s c args cls) (r'.instantiate a body' s c args cls) := by
  unfold Run.instantiate
  rw [← h.state]
  have hinit := Except.Agree.foldlM
    (fun _ _ fn hr => (hr.callFunction (a := a) hbody s c args
      (some ⟨(Object.instanceObject ⟨cls.name, callSiteText s.function s.index, []⟩).identity,
        [.instanceObject ⟨cls.name, callSiteText s.function s.index, []⟩]⟩) true fn).bind
      fun _ _ hp => .ok hp.2)
    ((r.state.lookupAttr? cls.name "__init__").getD []).functions h
  apply hinit.bind
  intro r₁ r₁' h₁
  exact .ok ⟨rfl, h₁⟩

end Alike

namespace AlikeWith

variable {x : Resolution × Run σ} {y : Resolution × Run τ}

theorem callObject (h : AlikeWith x y) (hbody : AlikeBodies body body') (s : Step) (c : Call) (args : List Value)
    (receiver : Option Receiver) (o : Object) :
    Except.Agree AlikeWith (Run.callObject a body s c args receiver x o)
      (Run.callObject a body' s c args receiver y o) := by
  obtain ⟨n, r⟩ := x
  obtain ⟨n', r'⟩ := y
  obtain ⟨rfl, h⟩ := h
  cases o with
  | function fn =>
    apply (h.callFunction hbody s c args receiver false fn).bind
    rintro ⟨v, r₁⟩ ⟨v', r₁'⟩ ⟨rfl, h₁⟩
    exact .ok ⟨rfl, h₁⟩
  | classObject cls =>
    apply (h.instantiate hbody s c args cls).bind
    rintro ⟨v, r₁⟩ ⟨v', r₁'⟩ ⟨rfl, h₁⟩
    exact .ok ⟨rfl, h₁⟩
  | external e =>
    unfold Run.callObject
    dsimp only
    split
    · exact .ok ⟨rfl, h⟩
    · exact .ok ⟨rfl, h⟩
  | _ => exact .ok ⟨rfl, h⟩

end AlikeWith

namespace Alike

/-- A call leads to what its callee is known to be. An oracle that fails adds no callees. -/
theorem call (h : r.Alike r') (hbody : AlikeBodies body body') (s : Step) (c : Call) :
    Except.Agree AlikeWith (r.call a body s c) (r'.call a body' s c) := by
  have hcallee : r.resolveCallee c.callee = r'.resolveCallee c.callee :=
    h.reads (fun r => r.resolveCallee c.callee) fun _ => rfl
  unfold Run.call
  rw [← h.lookup, ← hcallee]
  dsimp only
  refine Except.Agree.bind (R := AlikeWith)
    (Except.Agree.foldlM (fun _ _ o hxy => hxy.callObject hbody s c _ _ o) _ ⟨rfl, h⟩) ?_
  rintro ⟨n, r₁⟩ ⟨n', r₁'⟩ ⟨hn, h₁⟩
  obtain rfl : n = n' := hn
  obtain ⟨r₂, hasked, h₂⟩ := (h₁.trans h₁.symm).ask (.possibleCallees ⟨s.function, s.index⟩ r₁.contextKey)
  obtain ⟨r₂', hasked', h₂'⟩ := (h₁.symm.trans h₁).ask (.possibleCallees ⟨s.function, s.index⟩ r₁'.contextKey)
  dsimp only
  rw [hasked, hasked']
  cases r₁.oracle.isAvailable with
  | true =>
    cases r₁'.oracle.isAvailable with
    | true => exact .ok ⟨rfl, (h₂.trans h₁).trans h₂'.symm⟩
    | false => exact .ok ⟨rfl, h₂.trans h₁⟩
  | false =>
    cases r₁'.oracle.isAvailable with
    | true => exact .ok ⟨rfl, h₁.trans h₂'.symm⟩
    | false => exact .ok ⟨rfl, h₁⟩

theorem runScope (h : r.Alike r') (hbody : AlikeBodies body body') (name : String) (c : Context) :
    Except.Agree Alike (r.runScope body name c) (r'.runScope body' name c) := by
  obtain ⟨g, log, rfl⟩ := h.exists_under
  unfold Run.runScope
  apply (hbody name 0 (h.withState _)).bind
  intro r₁ r₁' h₁
  obtain ⟨g₁, log₁, rfl⟩ := h₁.exists_under
  dsimp only [under]
  have hanalyzed := h₁.apply (fun r => { r with analyzed := name :: r.analyzed }) (fun _ => rfl) fun _ => rfl
  split
  · exact .ok (hanalyzed.withState _)
  · exact .ok hanalyzed

theorem runClassBody (h : r.Alike r') (hbody : AlikeBodies body body') (name : String) :
    Except.Agree Alike (r.runClassBody a body name) (r'.runClassBody a body' name) := by
  unfold Run.runClassBody
  split
  · exact .ok h
  · exact h.runScope hbody name .root

theorem classDef (h : r.Alike r') (hbody : AlikeBodies body body') (hflow : a.options.flowSensitive = true)
    (s : Step) (target name : String) (bases : List String) :
    Except.Agree Alike (r.classDef a body s target name bases) (r'.classDef a body' s target name bases) := by
  unfold Run.classDef
  rw [← h.state]
  apply ((h.withState _).runClassBody hbody name).bind
  intro r₁ r₁' h₁
  rw [← h₁.state]
  exact h₁.assign hflow s target _

theorem interpretStmt (h : r.Alike r') (hbody : AlikeBodies body body') (hflow : a.options.flowSensitive = true)
    (s : Step) (stmt : Stmt) :
    Except.Agree Alike (r.interpretStmt a body s stmt) (r'.interpretStmt a body' s stmt) := by
  cases stmt
  case call c =>
    apply (h.call hbody s c).bind
    rintro ⟨v, r₁⟩ ⟨v', r₁'⟩ ⟨hv, h₁⟩
    obtain rfl : v = v' := hv
    apply (h₁.assign hflow s c.target v).bind
    intro r₂ r₂' h₂
    exact .ok (h₂.advance a s)
  case classDef target name bases =>
    apply (h.classDef hbody hflow s target name bases).bind
    intro r₁ r₁' h₁
    exact .ok (h₁.advance a s)
  case jump sense test label => exact .ok (h.branch a s sense test label)
  case goto label => exact .ok (h.jump a s label)
  case label name => exact h.label a s
  all_goals
    apply (h.interpretSimple hflow s _).bind
    intro r₁ r₁' h₁
    exact .ok (h₁.advance a s)

theorem visiting (h : r.Alike r') (a : Analyzer) (item : WorkItem) (stmt : Stmt) :
    (r.visiting a item stmt).Alike (r'.visiting a item stmt) := by
  obtain ⟨g, log, rfl⟩ := h.exists_under
  have hvisited := h.apply
    (fun r => { r with
      state.flow := r.state.flow.visit ⟨item.function, item.index, r.state.context⟩
      stats.statements := r.stats.statements + 1 }) (fun _ => rfl) fun _ => rfl
  exact hvisited.note a fun _ =>
    item.function ++ ":" ++ toString item.index ++ r.state.context.text ++ " " ++ stmt.text

theorem interpret (h : r.Alike r') (hbody : AlikeBodies body body') (hflow : a.options.flowSensitive = true)
    (item : WorkItem) : Except.Agree Alike (r.interpret a body item) (r'.interpret a body' item) := by
  obtain ⟨function, index⟩ := item
  unfold Run.interpret
  dsimp only
  split
  · rename_i i stmts _
    split
    · exact .error _
    · rename_i stmt _
      have hstep : r.stepOf ⟨function, i⟩ = r'.stepOf ⟨function, i⟩ :=
        h.reads (fun r => r.stepOf ⟨function, i⟩) fun _ => rfl
      have hvisited := (h.visiting a ⟨function, i⟩ stmt).interpretStmt hbody hflow (r.stepOf ⟨function, i⟩) stmt
      nth_rewrite 2 [hstep] at hvisited
      exact hvisited
  · exact .error _

theorem drain (hbody : AlikeBodies body body') (hflow : a.options.flowSensitive = true) (function : String)
    (left : Nat) (h : r.Alike r') :
    Except.Agree Alike (Run.drain a body function left r) (Run.drain a body' function left r') := by
  induction left generalizing r r' with
  | zero =>
    obtain ⟨g, log, rfl⟩ := h.exists_under
    unfold Run.drain
    dsimp only [under]
    split
    · exact .ok h
    · rename_i item flow _
      exact .ok ((h.mapFlow fun _ => flow).apply (fun r => r.capped a function) (fun _ => rfl) fun _ => rfl)
  | succ left ih =>
    obtain ⟨g, log, rfl⟩ := h.exists_under
    unfold Run.drain
    dsimp only [under]
    split
    · exact .ok h
    · rename_i item flow _
      apply ((h.mapFlow fun _ => flow).interpret hbody hflow item).bind
      intro r₁ r₁' h₁
      exact ih h₁

theorem runFlow (h : r.Alike r') (hbody : AlikeBodies body body') (hflow : a.options.flowSensitive = true)
    (function : String) (start : Int) :
    Except.Agree Alike (r.runFlow a body function start) (r'.runFlow a body' function start) := by
  obtain ⟨g, log, rfl⟩ := h.exists_under
  unfold Run.runFlow
  apply (drain hbody hflow function a.maxIterations (h.mapFlow _)).bind
  intro r₁ r₁' h₁
  obtain ⟨g₁, log₁, rfl⟩ := h₁.exists_under
  dsimp only [under]
  split
  · rename_i flow _
    exact .ok (h₁.mapFlow fun _ => flow)
  · exact .error _

end Alike

/-- Bodies are analysed alike, however deep they are nested. -/
theorem alikeBodies_runBody (hflow : a.options.flowSensitive = true) (depth : Nat) :
    AlikeBodies (σ := σ) (τ := τ) (a.runBody depth) (a.runBody depth) := by
  induction depth with
  | zero =>
    intro function start r r' h
    exact .error _
  | succ depth ih =>
    intro function start r r' h
    unfold Analyzer.runBody
    rw [if_pos hflow, if_pos hflow]
    exact h.runFlow ih hflow function start

namespace Alike

theorem requeue (h : r.Alike r') (index : Nat) : (r.requeue index).Alike (r'.requeue index) := by
  apply h.apply (fun r => r.requeue index)
  · intro ρ r
    unfold Run.requeue Run.work
    dsimp only
    split <;> rfl
  · intro ρ r
    unfold Run.requeue
    split <;> rfl

theorem processCall (h : r.Alike r') (hflow : a.options.flowSensitive = true) (index : Nat) (record : CallRecord) :
    Except.Agree Alike (r.processCall a index record) (r'.processCall a index record) := by
  have hcallable : r.callable? a record.edge = r'.callable? a record.edge :=
    h.reads (fun r => r.callable? a record.edge) fun _ => rfl
  have hmemo : r.memo.contains ⟨record.edge.callee, record.edge.calleeContext⟩ =
      r'.memo.contains ⟨record.edge.callee, record.edge.calleeContext⟩ := by rw [h.memo]
  unfold Run.processCall
  dsimp only
  rw [← hmemo, ← hcallable]
  split
  · rename_i c fn _ _
    have hmade := (h.apply
      (fun r => { r with memo := ⟨record.edge.callee, record.edge.calleeContext⟩ :: r.memo })
      (fun _ => rfl) fun _ => rfl).note a fun _ => "\n### PROPAGATING EDGE " ++ record.edge.text ++ " ###"
    have hplaced := hmade.apply
      (fun r => { r with state := r.state.setCurrent record.edge.caller record.edge.callerContext })
      (fun _ => rfl) fun _ => rfl
    rw [← hplaced.lookup]
    apply (hplaced.invoke (alikeBodies_runBody hflow a.depthBound) fn c.args _ record.receiver record.edge.caller
      record.edge.index).bind
    rintro ⟨v, r₁⟩ ⟨v', r₁'⟩ ⟨hv, h₁⟩
    obtain rfl : v = v' := hv
    dsimp only at h₁ ⊢
    split
    · exact .ok (h₁.requeue index)
    · rw [← h₁.state]
      apply Except.Agree.bind_same
      intro q
      exact .ok ((h₁.withState q.2).requeue index)
  · exact .ok (h.apply (fun r => r.skip) (fun _ => rfl) fun _ => rfl)

theorem propagate (h : r.Alike r') (hflow : a.options.flowSensitive = true) (e : Edge) :
    Except.Agree Alike (r.propagate a e) (r'.propagate a e) := by
  have hplaced := (h.note a fun _ =>
    "\n### REPROPAGATING " ++ e.caller ++ " AFTER " ++ toString e.index ++ " ###").apply
    (fun r => { r with
      state := (r.state.pushCall "" e.caller 0 r.state.context r.state.scope).setCurrent e.caller e.callerContext })
    (fun _ => rfl) fun _ => rfl
  unfold Run.propagate
  apply (alikeBodies_runBody hflow a.depthBound e.caller _ hplaced).bind
  intro r₁ r₁' h₁
  rw [← h₁.state]
  apply Except.Agree.bind_same
  intro q
  exact .ok (h₁.withState q.2)

theorem processPending (h : r.Alike r') (hflow : a.options.flowSensitive = true) (item : PendingCall) :
    Except.Agree Alike (r.processPending a item) (r'.processPending a item) := by
  have hcounted := h.apply (fun r => { r with stats.edgesProcessed := r.stats.edgesProcessed + 1 })
    (fun _ => rfl) fun _ => rfl
  have hrecord : r.calls[item.index]? = r'.calls[item.index]? := by rw [h.calls]
  unfold Run.processPending
  dsimp only
  rw [← hrecord]
  split
  · exact .ok hcounted
  · rename_i record _
    split
    · exact hcounted.propagate hflow record.edge
    · exact hcounted.processCall hflow item.index record

theorem solve (h : r.Alike r') (hflow : a.options.flowSensitive = true) (fuel : Nat) :
    Except.Agree Alike (Run.solve a fuel r) (Run.solve a fuel r') := by
  induction fuel generalizing r r' with
  | zero =>
    unfold Run.solve
    rw [← h.queue]
    split
    · exact .ok h
    · exact .error _
  | succ fuel ih =>
    unfold Run.solve
    rw [← h.queue]
    split
    · exact .ok h
    · rename_i item rest _
      have htaken := h.apply (fun r => { r with queue := rest }) (fun _ => rfl) fun _ => rfl
      apply (htaken.processPending hflow item).bind
      intro r₁ r₁' h₁
      exact ih h₁

theorem analyzeFunction (h : r.Alike r') (hflow : a.options.flowSensitive = true) (scope : Scope) :
    Except.Agree Alike (a.analyzeFunction r scope) (a.analyzeFunction r' scope) := by
  unfold Analyzer.analyzeFunction
  rw [← h.state]
  apply Except.Agree.bind_same
  intro state
  apply (alikeBodies_runBody hflow a.depthBound scope.name 0 (h.withState state)).bind
  intro r₁ r₁' h₁
  dsimp only
  rw [← h₁.state]
  apply Except.Agree.bind_same
  intro q
  exact .ok (h₁.apply (fun r => { r with analyzed := scope.name :: r.analyzed, state := q.2 })
    (fun _ => rfl) fun _ => rfl)

theorem analyzeModule (h : r.Alike r') (hflow : a.options.flowSensitive = true) (scope : Scope) :
    Except.Agree Alike (a.analyzeModule r scope) (a.analyzeModule r' scope) := by
  unfold Analyzer.analyzeModule
  split
  · exact (h.note a _).runScope (alikeBodies_runBody hflow a.depthBound) scope.name .root
  · exact .ok h

theorem analyzeRest (h : r.Alike r') (hflow : a.options.flowSensitive = true) (scope : Scope) :
    Except.Agree Alike (a.analyzeRest r scope) (a.analyzeRest r' scope) := by
  unfold Analyzer.analyzeRest
  rw [← h.analyzed]
  split
  · exact .ok h
  · split
    · exact (h.note a _).runClassBody (alikeBodies_runBody hflow a.depthBound) scope.name
    · exact (h.note a _).analyzeFunction hflow scope
    · exact .ok h

theorem run (h : r.Alike r') (hflow : a.options.flowSensitive = true) : Except.Agree Alike (a.run r) (a.run r') := by
  unfold Analyzer.run
  apply (Except.Agree.foldlM (fun _ _ scope hr => hr.analyzeModule hflow scope) _ h).bind
  intro r₁ r₁' h₁
  apply (Except.Agree.foldlM (fun _ _ scope hr => hr.analyzeRest hflow scope) _ h₁).bind
  intro r₂ r₂' h₂
  exact h₂.solve hflow Analyzer.callBound

end Alike

end Run

/-- What an analysis has found out, whatever its oracle failed to tell and was said about that. -/
def Result.findings (res : Result σ) : Result Unit := { res with failures := [], log := [], oracle := () }

namespace Analyzer

theorem findings_finish (o : Options) (r : Run σ) :
    (finish (.ofRun o r)).findings = ⟨o, r.state, r.stats, [], [], r.trace.toList, ()⟩ := by
  unfold finish
  split <;> rfl

/-- Oracles that never answer, and none at all, lead to the same findings or to the same fault. -/
theorem analyzeWith_of_silent (a : Analyzer) {oracle : Option (Oracle σ)} {oracle' : Option (Oracle τ)}
    (hflow : a.options.flowSensitive = true) (ho : ∀ o, oracle = some o → o.Fails)
    (ho' : ∀ o, oracle' = some o → o.Fails) (start : σ) (start' : τ) :
    (a.analyzeWith oracle start).map Result.findings = (a.analyzeWith oracle' start').map Result.findings := by
  have hruns : ∀ policy, Except.Agree Run.Alike
      (a.startState policy >>= fun state => a.run { state, oracle := ⟨oracle, start, []⟩ })
      (a.startState policy >>= fun state => a.run { state, oracle := ⟨oracle', start', []⟩ }) := by
    intro policy
    apply Except.Agree.bind_same
    intro state
    exact Run.Alike.run ⟨rfl, ho, ho'⟩ hflow
  unfold analyzeWith
  split
  · rfl
  · rename_i policy _
    dsimp only
    obtain ⟨v, hx, hy⟩ | ⟨r, r', hx, hy, h⟩ := (hruns policy).cases
    · rw [hx, hy]
      rfl
    · rw [hx, hy]
      simp only [Except.map, findings_finish]
      rw [h.state, h.stats, h.trace]

def faltering : Oracle Nat where
  ask q n := (if n % 2 = 0 then .failed q.conservative "timeout" else .broken "out of memory", n + 1)

/-- A function is called on an attribute that was stored before. -/
def storedAttribute : Program where
  scopes :=
    [{ Scope.emptyModule "m" with
        body := [.functionDef "f" "m.f", .expr "x" [], .const "a" (.int 1), .attrStore "x" "size" "a",
          .attrLoad "y" "x" "size", .call ⟨"r", "f", "", ["y"], []⟩] },
      ⟨"m.f", .function, "m", ["p"], [], [], false, [.ret "p"]⟩]

end Analyzer

end AbstractFlow
