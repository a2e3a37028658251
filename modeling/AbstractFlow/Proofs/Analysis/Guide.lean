import AbstractFlow.Proofs.Analysis.Moments

/-! # Following an analysis

A guide says what is to hold along an analysis: a property of values, one of contexts, and one of the history
together with the run that it has led to. If the guide's laws hold for the single steps, then its properties
hold at every moment of every analysis, and no analysis of a body fails unless bodies are nested too deep. How
deep they may be nested is up to the guide, too.
-/
namespace AbstractFlow

namespace State

/-- The functions on the call stack, the innermost first. -/
def callees (s : State) : List String := s.frames.map (·.callee)

theorem callDepth_eq (s : State) (fn : String) : s.callDepth fn = s.callees.count fn := by
  rw [callDepth, callees, List.count, List.countP_map]
  rfl

theorem map_setReturn {α : Type} {g : CallFrame → α} (hg : ∀ f v, g { f with returned := v } = g f) (s : State)
    (v : Value) : (s.setReturn v).frames.map g = s.frames.map g := by
  unfold setReturn
  cases s.frames <;> simp [hg]

theorem map_addException {α : Type} {g : CallFrame → α} (hg : ∀ f v, g { f with exception := v } = g f)
    (s : State) (v : Value) : (s.addException v).frames.map g = s.frames.map g := by
  unfold addException
  cases s.frames <;> simp [hg]

theorem callees_setReturn (s : State) (v : Value) : (s.setReturn v).callees = s.callees :=
  map_setReturn (fun _ _ => rfl) s v

theorem callees_addException (s : State) (v : Value) : (s.addException v).callees = s.callees :=
  map_addException (fun _ _ => rfl) s v

end State

theorem Run.ComesBack.seated {σ : Type} {r r' : Run σ} (h : r.ComesBack r') (hr : r.state.Seated) :
    r'.state.Seated := hr.of_place (h.place hr) h.scopes

theorem Value.receiverId_singleton {o : Object} (h : o.identity ≠ "") : Value.receiverId [o] = o.identity := by
  simp [Value.receiverId, h, Names.sort, Names.sort.place]

theorem Run.resolveCallee_of_holds {σ : Type} {V : Value → Prop} {r : Run σ} (hV : Value.Closed V)
    (h : r.state.Holds V) (callee : String) {args : List Value} (hargs : ∀ v ∈ args, V v) :
    V (r.resolveCallee callee args).1.result ∧ V (r.resolveCallee callee args).2 := by
  unfold Run.resolveCallee
  split
  · rename_i v hv
    exact ⟨hV.nil, h.getVariable? hv⟩
  · split
    · exact ⟨hV.builtin _ _ hargs, hV.nil⟩
    · rename_i fn _ hfn
      exact ⟨hV.nil, (h.function? hfn).2⟩
    · rename_i cls _ _ hcls
      exact ⟨hV.nil, (h.class? hcls).2⟩
    · exact ⟨hV.nil, hV.nil⟩

/-- What is to hold along an analysis. -/
structure Guide (a : Analyzer) (σ : Type) where
  /-- Of the values. -/
  V : Value → Prop
  /-- Of the objects that the oracle names. -/
  U : HeapObject → Prop
  /-- Of the contexts. -/
  C : Context → Prop
  /-- Of the history and the run at its end. -/
  J : List (Run.Moment σ) → Run σ → Prop
  /-- Whether a body may be analysed with a stack of callees, as deep as it may be nested. -/
  Fits : Nat → String → List String → Prop
  /-- Of a failure. -/
  E : Violation → Prop

theorem Analyzer.isSome_scope? {a : Analyzer} {item : WorkItem} {stmt : Stmt} (h : a.stmt? item = some stmt) :
    (a.scope? item.function).isSome = true := by
  unfold Analyzer.stmt? at h
  split at h
  · rename_i hbody
    obtain ⟨scope, hscope, -⟩ := Option.map_eq_some_iff.mp hbody
    rw [hscope, Option.isSome_some]
  · cases h

theorem Analyzer.nonneg_of_stmt? {a : Analyzer} {item : WorkItem} {stmt : Stmt} (h : a.stmt? item = some stmt) :
    0 ≤ item.index := by
  unfold Analyzer.stmt? at h
  split at h
  · rename_i i _ hindex _
    rw [hindex]
    exact Int.natCast_nonneg i
  · cases h

namespace Guide

variable {a : Analyzer} {σ : Type}

/-- The laws of a guide. -/
structure Lawful (G : Guide a σ) : Prop where
  admits : a.Admits G.V G.U
  quiet : ∀ {h : List (Run.Moment σ)} {r r' : Run σ}, G.J h r → r.Quiet r' → G.J h r'
  books : ∀ {h : List (Run.Moment σ)} {r r' : Run σ}, G.J h r → r'.state = r.state → r'.calls = r.calls →
    r'.stats.deepestRecursion = r.stats.deepestRecursion → G.J h r'
  flows : ∀ {h : List (Run.Moment σ)} {r : Run σ}, G.J h r → ∀ t : Tracker, G.J h { r with state.flow := t }
  returns : ∀ {h : List (Run.Moment σ)} {r : Run σ}, G.J h r → ∀ v, G.J h { r with state := r.state.setReturn v }
  raises : ∀ {h : List (Run.Moment σ)} {r : Run σ}, G.J h r → ∀ v, G.J h { r with state := r.state.addException v }
  registers : ∀ {h : List (Run.Moment σ)} {r : Run σ}, G.J h r → ∀ name bases, G.J h (r.withClass a name bases)
  /-- The state goes to a scope under a context. -/
  places : ∀ {h : List (Run.Moment σ)} {r : Run σ} {c : Context}, G.J h r → G.C c → ∀ name,
    G.J h { r with state := r.state.setCurrent name c }
  root : G.C .root
  here : ∀ {h : List (Run.Moment σ)} {r : Run σ}, G.J h r → G.C r.state.context
  callers : ∀ {h : List (Run.Moment σ)} {r : Run σ}, G.J h r → ∀ record ∈ r.calls, G.C record.edge.callerContext
  records : ∀ {h : List (Run.Moment σ)} {r r' : Run σ} {s : Step} {c : Call} {fn : Function Value}
    {receiver : Option Receiver} {constructs : Bool} {target : Context}, G.J h r →
    a.stmt? ⟨s.function, s.index⟩ = some (.call c) → G.V [.function fn] →
    (∀ x, receiver = some x → x.Proper G.V) → r.record s c fn receiver constructs = .ok (target, r') → G.J h r'
  /-- A callee is entered that is not on the stack too often. -/
  enters : ∀ {h : List (Run.Moment σ)} {r r₁ : Run σ} {fn : Function Value} {args : List Value}
    {receiver : Option Receiver} {caller : String} {index : Int}, G.J h r →
    r.state.callDepth fn.name < a.maxRecursionDepth → (∃ c, a.stmt? ⟨caller, index⟩ = some (.call c)) →
    (∀ x, receiver = some x → x.Proper G.V) → r.enter a fn args receiver caller index = .ok r₁ → G.J h r₁
  /-- A call is put on the empty stack only to analyse its body. -/
  pushes : ∀ {h : List (Run.Moment σ)} {r : Run σ}, G.J h r → r.state.frames = [] → ∀ name,
    G.J h { r with state := r.state.pushCall "" name 0 r.state.context r.state.scope }
  observes : ∀ {h : List (Run.Moment σ)} {r : Run σ} {m : Run.Moment σ}, G.J h r → m.run = r → m.filed? = none →
    G.J (h ++ [m]) r
  /-- A call is left with a value, which is filed where the state stands. -/
  leaves : ∀ {h : List (Run.Moment σ)} {r r' : Run σ} {key : FrameKey} {v : Value} {f : CallFrame} {s : State}
    {m : Run.Moment σ}, G.J h r → G.V v → r.state.place = (some key.scope, key.context) →
    r.state.exitFunction (some v) = .ok (f, s) → Run.Quiet { r with state := s } r' → m.run = r' →
    m.filed? = some (key, v) → G.J (h ++ [m]) r'
  fitsCall : ∀ {d : Nat} {function : String} {cs : List String} {name : String}, G.Fits (d + 1) function cs →
    (a.scope? name).isSome = true → cs.count name < a.maxRecursionDepth → G.Fits d name (name :: cs)
  fitsClass : ∀ {d : Nat} {function : String} {cs : List String} {index : Int} {target name : String}
    {bases : List String}, G.Fits (d + 1) function cs →
    a.stmt? ⟨function, index⟩ = some (.classDef target name bases) → (a.scope? name).isSome = true →
    G.Fits d name cs
  fitsFirst : ∀ {name : String}, (a.scope? name).isSome = true →
    G.Fits a.depthBound name [] ∧ G.Fits a.depthBound name [name]
  exhausted : ∀ {name : String} {cs : List String}, G.Fits 0 name cs → G.E .endless

variable (G : Guide a σ)

/-- What holds at every moment. -/
def Holds (h : List (Run.Moment σ)) (r : Run σ) : Prop := r.Sound a G.V G.U ∧ G.J h r

/-- What holds around the analysis of a body, with a stack of callees. -/
structure Around (function : String) (cs : List String) (h : List (Run.Moment σ)) (r : Run σ) : Prop where
  sound : r.Sound a G.V G.U
  queue : ∀ item ∈ r.state.flow.queue, item.function = function
  callees : r.state.callees = cs
  keeps : G.J h r

/-- What holds while a body is analysed, with a stack of callees. -/
structure Within (function : String) (cs : List String) (h : List (Run.Moment σ)) (r : Run σ) : Prop where
  busy : r.Busy a G.V G.U function
  callees : r.state.callees = cs
  keeps : G.J h r

variable {G}

theorem Within.around {function : String} {cs : List String} {h : List (Run.Moment σ)} {r : Run σ}
    (hr : G.Within function cs h r) : G.Around function cs h r :=
  ⟨hr.busy.toSound, hr.busy.queue, hr.callees, hr.keeps⟩

theorem Around.within {function : String} {cs : List String} {h : List (Run.Moment σ)} {r : Run σ}
    (hr : G.Around function cs h r) (hseated : r.state.Seated) : G.Within function cs h r :=
  ⟨⟨hr.sound, hseated, hr.queue⟩, hr.callees, hr.keeps⟩

theorem Within.holds {function : String} {cs : List String} {h : List (Run.Moment σ)} {r : Run σ}
    (hr : G.Within function cs h r) : G.Holds h r := ⟨hr.busy.toSound, hr.keeps⟩

section Calls

variable (hG : G.Lawful) {function : String} {cs : List String} {h : List (Run.Moment σ)} {r r' : Run σ}

include hG

theorem Within.quiet (hr : G.Within function cs h r) (hquiet : r.Quiet r')
    (hbusy : r'.Busy a G.V G.U function) : G.Within function cs h r' := by
  refine ⟨hbusy, ?_, hG.quiet hr.keeps hquiet⟩
  rw [State.callees, hquiet.state.frames]
  exact hr.callees

theorem Within.note (hr : G.Within function cs h r) (line : Unit → String) :
    G.Within function cs h (r.note a line) :=
  hr.quiet hG (r.quiet_note a line) (hr.busy.note line)

theorem Within.books (hr : G.Within function cs h r) (hstate : r'.state = r.state) (horacle : r'.oracle = r.oracle)
    (hcalls : r'.calls = r.calls) (hdeepest : r'.stats.deepestRecursion = r.stats.deepestRecursion) :
    G.Within function cs h r' :=
  ⟨hr.busy.books hstate horacle hcalls, hstate ▸ hr.callees, hG.books hr.keeps hstate hcalls hdeepest⟩

theorem Within.assign (hr : G.Within function cs h r) (s : Step) (target : String) {v : Value} (hv : G.V v) :
    ∃ r', r.assign a s target v = .ok r' ∧ G.Within function cs h r' := by
  obtain ⟨r', hassign, hbusy⟩ := hr.busy.assign hG.admits.toClosed s target hv
  exact ⟨r', hassign, hr.quiet hG (Run.quiet_assign hassign) hbusy⟩

end Calls

section Queues

variable (hG : G.Lawful) {function : String} {cs : List String} {h : List (Run.Moment σ)} {r : Run σ}

include hG

theorem Within.withTracker (hr : G.Within function cs h r) {t : Tracker} {name : String}
    (hgraphs : t.graphs = r.state.flow.graphs) (hsnapshots : t.snapshots = r.state.flow.snapshots)
    (hwaits : t.Waits) (hqueue : ∀ item ∈ t.queue, item.function = name) :
    G.Within name cs h { r with state.flow := t } :=
  ⟨⟨hr.busy.toSound.withTracker hgraphs hsnapshots hwaits, hr.busy.seated, hqueue⟩, hr.callees, hG.flows hr.keeps t⟩

theorem Within.dequeue (hr : G.Within function cs h r) {item : WorkItem} {t : Tracker}
    (hnext : r.state.flow.dequeue? = some (item, t)) :
    G.Within function cs h { r with state.flow := t } ∧ item.function = function ∧
      ∃ stmt, a.stmt? item = some stmt := by
  obtain ⟨hwaits, hhas⟩ := hr.busy.holds.waits.dequeue? hnext
  have hqueue : r.state.flow.queue = item :: t.queue ∧ t.graphs = r.state.flow.graphs ∧
      t.snapshots = r.state.flow.snapshots := by
    obtain ⟨hqueue, rfl⟩ := Tracker.dequeue?_eq_some.mp hnext
    exact ⟨hqueue, rfl, rfl⟩
  obtain ⟨hqueue, hgraphs, hsnapshots⟩ := hqueue
  have hitems := hr.busy.queue
  rw [hqueue] at hitems
  obtain ⟨hitem, hrest⟩ := List.forall_mem_cons.mp hitems
  exact ⟨hr.withTracker hG hgraphs hsnapshots hwaits hrest, hitem, hr.busy.flow.stmt? hhas⟩

end Queues

/-- A nested analysis of bodies follows the guide, as far as it fits. -/
def Nested (G : Guide a σ) (d : Nat) (body : BodyAnalysis σ) (nested : MomentTrace σ) : Prop :=
  ∀ {function name : String} {cs : List String} {h : List (Run.Moment σ)} {r : Run σ} (start : Int),
    G.Within function cs h r → G.Fits d name cs →
    Follows G.Holds G.E h (nested name start r) (body name start r) (G.Within function cs)

section Invocations

variable {body : BodyAnalysis σ} {nested : MomentTrace σ} (hG : G.Lawful)
  (hstack : body.Keeps fun r r' => r.state.KeepsStack r'.state) (hback : body.Keeps Run.ComesBack)
  {d : Nat} (hnested : G.Nested d body nested) {function : String} {cs : List String} {h : List (Run.Moment σ)}
  {r : Run σ} {fn : Function Value} {argNames : List String} {args : List Value} {receiver : Option Receiver}
  {caller : String} {index : Int}

include hG

theorem Within.enter (hr : G.Within function cs h r) (hdepth : r.state.callDepth fn.name < a.maxRecursionDepth)
    (hsite : ∃ c, a.stmt? ⟨caller, index⟩ = some (.call c)) (hargs : ∀ v ∈ args, G.V v)
    (hreceiver : ∀ x, receiver = some x → x.Proper G.V) :
    ∃ r₁, r.enter a fn args receiver caller index = .ok r₁ ∧ G.Within function (fn.name :: cs) h r₁ := by
  obtain ⟨r₁, henter⟩ := Run.exists_enter hr.busy fn args receiver caller index
  obtain ⟨f, hframes, hcallee, -, -⟩ := Run.frame_enter henter
  refine ⟨r₁, henter, hr.busy.enter hG.admits.toClosed hargs hreceiver henter, ?_,
    hG.enters hr.keeps hdepth hsite hreceiver henter⟩
  rw [State.callees, hframes, List.map_cons, hcallee]
  exact congrArg _ hr.callees

theorem Within.exit {top : String} (hr : G.Within function (top :: cs) h r) {v : Value} (hv : G.V v) :
    ∃ f s, r.state.exitFunction (some v) = .ok (f, s) ∧ Run.Sound a G.V G.U { r with state := s } ∧
      (∀ item ∈ s.flow.queue, item.function = function) ∧ s.callees = cs := by
  obtain ⟨f, rest, hframes, -, hrest⟩ := List.map_eq_cons_iff.mp hr.callees
  obtain ⟨s, hexit⟩ := hr.busy.holds.exists_exitFunction hframes (some v)
  obtain ⟨rest', summaries, htop, hmoves⟩ := State.moves_exitFunction hexit
  obtain ⟨-, hscopes, -, hqueue⟩ := Run.place_exitFunction hexit
  have hholds := hr.busy.holds.exitFunction hG.admits.toClosed (by rintro _ ⟨⟩; exact hv) hexit
  refine ⟨f, s, hexit, ⟨hholds, ?_, ?_, hr.busy.flow.of_graphs hmoves.graphs, hr.busy.oracle, hr.busy.sites,
    hr.busy.receivers⟩, ?_, ?_⟩
  · rw [hscopes]
    exact hr.busy.scopes
  · rw [hmoves.config]
    exact hr.busy.policy
  · rw [hqueue]
    exact hr.busy.queue
  · rw [State.callees, hmoves.frames, ← (List.cons.inj (hframes.symm.trans htop)).2]
    exact hrest

omit hG in
theorem V_returnValue? {r : Run σ} (hr : r.state.Holds G.V) {w : Value} (hw : G.V w) :
    G.V (r.state.returnValue?.getD w) := by
  cases hv : r.state.returnValue? with
  | none => exact hw
  | some v => exact hr.returnValue? hv

include hstack hback hnested

/-- An invocation: the callee is entered, its body is analysed, and it is left. -/
theorem Within.invoke (hr : G.Within function cs h r) (hdepth : r.state.callDepth fn.name < a.maxRecursionDepth)
    (hsite : ∃ c, a.stmt? ⟨caller, index⟩ = some (.call c)) (hargs : ∀ v ∈ args, G.V v)
    (hreceiver : ∀ x, receiver = some x → x.Proper G.V) (hfits : G.Fits d fn.name (fn.name :: cs)) :
    Follows G.Holds G.E h (r.invokeMoments a body nested fn argNames args receiver caller index)
      (r.invoke a body fn argNames args receiver caller index)
      fun h' x => G.V x.1 ∧ G.Within function cs h' x.2 := by
  have hC : Value.Closed G.V := hG.admits.toClosed
  rw [Run.invoke_eq]
  refine .bind_step (hr.enter hG hdepth hsite hargs hreceiver) fun r₁ henter hr₁ => ?_
  have hentered : G.Within function (fn.name :: cs) (h ++ [.entered r₁]) r₁ :=
    ⟨hr₁.busy, hr₁.callees, hG.observes hr₁.keeps rfl rfl⟩
  refine .cons hentered.holds ((hnested 0 hentered hfits).bind fun r₂ hrun hr₂ => ?_)
  obtain ⟨f, hframes, -, hscope, -⟩ := Run.frame_enter henter
  obtain ⟨hscopes, hseated, hname, -⟩ := Run.seated_enter henter
  have hcame := hback hrun
  have hv := V_returnValue? hr₂.busy.holds hC.noneConstant
  obtain ⟨g, s, hexit, hsound, hqueue, hcallees⟩ := hr₂.exit hG hv
  have hbusy : Run.Busy a G.V G.U function { r₂ with state := s } := by
    refine ⟨hsound, ?_, hqueue⟩
    -- The state goes back to where the caller stood.
    obtain ⟨w, e, hframes', -, -⟩ := (hstack hrun).busy hframes
    obtain ⟨rest, summaries, htop, -⟩ := State.moves_exitFunction hexit
    obtain ⟨hplace, hscopes', -, -⟩ := Run.place_exitFunction hexit
    obtain ⟨scope, hscope', hknown⟩ := hr.busy.seated
    refine ⟨scope, ?_, hscopes' ▸ hcame.scopes scope (hscopes scope hknown)⟩
    rw [show s.scope = g.scope from congrArg Prod.fst hplace, (List.cons.inj (htop.symm.trans hframes')).1]
    exact hscope.trans hscope'
  -- What is left behind the exit writes back to the arguments.
  have hleave : ∃ r', r₂.leave a fn argNames receiver r₁.state.context =
      .ok (r₂.state.returnValue?.getD Value.noneConstant, r') ∧ r'.Busy a G.V G.U function ∧
      Run.Quiet { r₂ with state := s, analyzed := fn.name :: r₂.analyzed } r' := by
    unfold Run.leave Run.exit
    simp only [hexit, Except.ok_bind]
    refine ⟨_, rfl, ?_, (Run.quiet_foldl_writeBack _ _).trans (Run.quiet_note _ a _)⟩
    have hleft : Run.Busy a G.V G.U function { r₂ with state := s, analyzed := fn.name :: r₂.analyzed } :=
      hbusy.books rfl rfl rfl
    refine Run.Busy.note (hleft.foldl_writeBack hC fun b hb => ?_) _
    exact Run.parameterValues_of_holds hC hr₂.busy.holds fn receiver argNames.length b.2 (List.of_mem_zip hb).2
  obtain ⟨r', hleave, hbusy', hquiet⟩ := hleave
  rw [hleave]
  refine .cons ?_ (.ok ?_)
  all_goals
    have hplace : r₂.state.place = (some fn.name, r₁.state.context) :=
      (hcame.place hseated).trans (Prod.ext hname rfl)
    have hleft := hG.leaves (m := .left ⟨fn.name, r₁.state.context⟩
      (r₂.state.returnValue?.getD Value.noneConstant) r') (r := { r₂ with analyzed := fn.name :: r₂.analyzed })
      (hG.books hr₂.keeps rfl rfl rfl) hv hplace hexit hquiet rfl rfl
  · exact ⟨hbusy'.toSound, hleft⟩
  · refine ⟨hv, hbusy', ?_, hleft⟩
    rw [State.callees, hquiet.state.frames]
    exact hcallees

end Invocations

section Calls

variable {body : BodyAnalysis σ} {nested : MomentTrace σ} (hG : G.Lawful)
  (hstack : body.Keeps fun r r' => r.state.KeepsStack r'.state) (hback : body.Keeps Run.ComesBack)
  {d : Nat} (hnested : G.Nested d body nested) {function : String} {cs : List String} {h : List (Run.Moment σ)}
  {r : Run σ} {s : Step} {c : Call} (hstmt : a.stmt? ⟨s.function, s.index⟩ = some (.call c))
  (hfits : G.Fits (d + 1) s.function cs) {args : List Value} (hargs : ∀ v ∈ args, G.V v)
  {receiver : Option Receiver} (hreceiver : ∀ x, receiver = some x → x.Proper G.V)

include hG hstack hback hnested hstmt hfits hargs

include hreceiver in
theorem Within.callFunction (hr : G.Within function cs h r) (constructs : Bool) {fn : Function Value}
    (hfn : G.V [.function fn]) :
    Follows G.Holds G.E h (r.callFunctionMoments a body nested s c args receiver constructs fn)
      (r.callFunction a body s c args receiver constructs fn)
      fun h' x => G.V x.1 ∧ G.Within function cs h' x.2 := by
  have hC : Value.Closed G.V := hG.admits.toClosed
  have htaken : ∀ x, fn.receiver? receiver = some x → x.Proper G.V := by
    intro x hx
    unfold Function.receiver? at hx
    split at hx
    · exact hreceiver x hx
    · cases hx
  have hrecorded : ∃ x, r.record s c fn (fn.receiver? receiver) constructs = .ok x ∧
      G.Within function cs h x.2 := by
    obtain ⟨target, r₁, hrecord⟩ := Run.exists_record hr.busy s c fn (fn.receiver? receiver) constructs
    refine ⟨(target, r₁), hrecord, hr.busy.record hstmt htaken hrecord, ?_,
      hG.records hr.keeps hstmt hfn htaken hrecord⟩
    rw [State.callees, (Run.sameStack_record hrecord).frames]
    exact hr.callees
  have hsummary : ∀ (r₁ : Run σ) (target : Context) (w : Value), r₁.state.Holds G.V → G.V w →
      G.V ((r₁.state.returnSummary? fn.name target).getD w) := by
    intro r₁ target w hr₁ hw
    cases hv : r₁.state.returnSummary? fn.name target with
    | none => exact hw
    | some v => exact hr₁.returnSummary? hv
  rw [Run.callFunction_eq]
  refine .bind_step (Q := fun h x => G.Within function cs h x.2) hrecorded fun x hrecord hr₁ => ?_
  obtain ⟨target, r₁⟩ := x
  dsimp only
  -- The function is invoked, or cut off, or its call is left to the solver.
  split
  · rename_i hinvokes
    simp only [Run.invokes, Bool.and_eq_true, decide_eq_true_eq] at hinvokes
    obtain ⟨⟨hscope, -⟩, hdepth⟩ := hinvokes
    have hmemo : G.Within function cs h { r₁ with memo := ⟨fn.name, target⟩ :: r₁.memo } :=
      hr₁.books hG rfl rfl rfl rfl
    refine hmemo.invoke hG hstack hback hnested hdepth ⟨c, hstmt⟩ hargs htaken (hG.fitsCall hfits hscope ?_)
    rw [← hr₁.callees, ← State.callDepth_eq]
    exact hdepth
  · split
    · exact .ok ⟨hC.unknown, hr₁⟩
    · split
      · exact .ok ⟨hsummary _ _ _ hr₁.busy.holds hC.nil, hr₁⟩
      · refine .ok ⟨hsummary _ _ _ hr₁.busy.holds hC.unknown, ?_⟩
        dsimp only
        refine Within.note hG ?_ _
        exact hr₁.books hG rfl rfl rfl rfl

theorem Within.instantiate (hr : G.Within function cs h r) {cls : Class Value} (hcls : G.V [.classObject cls]) :
    Follows G.Holds G.E h (r.instantiateMoments a body nested s c args cls)
      (r.instantiate a body s c args cls) fun h' x => G.V x.1 ∧ G.Within function cs h' x.2 := by
  have hinstance : G.V [Run.instanceOf s cls] := hG.admits.instances hstmt hcls
  have hidentity : (Run.instanceOf s cls).identity ≠ "" := by
    simp [Run.instanceOf, Object.identity, Object.key]
  have hproper : ∀ x, some ⟨(Run.instanceOf s cls).identity, [Run.instanceOf s cls]⟩ = some x →
      Receiver.Proper G.V x := by
    rintro x hx
    rw [← Option.some.inj hx]
    exact ⟨hinstance, (Value.receiverId_singleton hidentity).symm⟩
  have hinitializers : ∀ fn ∈ r.initializers cls, G.V [.function fn] := by
    intro fn hfn
    unfold Run.initializers at hfn
    cases hinit : r.state.lookupAttr? cls.name "__init__" with
    | none =>
      rw [hinit] at hfn
      cases hfn
    | some v =>
      rw [hinit] at hfn
      obtain ⟨o, ho, hsome⟩ := List.mem_filterMap.mp hfn
      rcases o with _ | _ | _ | f | _ | _ | _ <;> cases hsome
      exact hG.admits.object (hr.busy.holds.lookupAttr? hG.admits.toClosed hinit) ho
  refine Follows.bind_ok (Follows.foldlM (Q := G.Within function cs) (q := fun fn => G.V [.function fn]) ?_ hr
    hinitializers) fun r' _ hr' => ⟨_, rfl, hinstance, hr'⟩
  intro h' r' fn hfn hr'
  exact (hr'.callFunction hG hstack hback hnested hstmt hfits hargs hproper true hfn).bind_ok
    fun x _ hx => ⟨_, rfl, hx.2⟩

omit hstack hback hnested hstmt hfits hargs in
theorem V_add {n : Resolution} {v : Value} (hn : G.V n.result) (hv : G.V v) (called : List String) :
    G.V (n.add v called).result := hG.admits.merge hn hv

include hreceiver

theorem Within.callObject {acc : Resolution × Run σ} (hacc : G.V acc.1.result ∧ G.Within function cs h acc.2)
    {o : Object} (ho : G.V [o]) :
    Follows G.Holds G.E h (Run.callObjectMoments a body nested s c args receiver acc o)
      (Run.callObject a body s c args receiver acc o)
      fun h' x => G.V x.1.result ∧ G.Within function cs h' x.2 := by
  obtain ⟨n, r⟩ := acc
  obtain ⟨hn, hr⟩ := hacc
  have hunknown : ∀ {called : List String}, Follows G.Holds G.E h [] (.ok (n.add Value.unknown called, r))
      fun h' x => G.V x.1.result ∧ G.Within function cs h' x.2 :=
    .ok ⟨V_add hG hn hG.admits.unknown _, hr⟩
  unfold Run.callObjectMoments Run.callObject
  cases o with
  | function fn =>
    exact (hr.callFunction hG hstack hback hnested hstmt hfits hargs hreceiver false ho).bind_ok
      fun x _ hx => ⟨_, rfl, V_add hG hn hx.1 _, hx.2⟩
  | classObject cls =>
    exact (hr.instantiate hG hstack hback hnested hstmt hfits hargs ho).bind_ok
      fun x _ hx => ⟨_, rfl, V_add hG hn hx.1 _, hx.2⟩
  | external e =>
    dsimp only
    split
    · exact .ok ⟨V_add hG hn (hG.admits.externals ho) _, hr⟩
    · exact hunknown
  | _ => exact hunknown

theorem Within.callNamed {acc : Resolution × Run σ} (hacc : G.V acc.1.result ∧ G.Within function cs h acc.2)
    (symbol : String) :
    Follows G.Holds G.E h (Run.callNamedMoments a body nested s c args receiver acc symbol)
      (Run.callNamed a body s c args receiver acc symbol)
      fun h' x => G.V x.1.result ∧ G.Within function cs h' x.2 := by
  obtain ⟨n, r⟩ := acc
  obtain ⟨hn, hr⟩ := hacc
  unfold Run.callNamedMoments Run.callNamed
  dsimp only
  rw [← Run.plainName]
  split
  · exact .ok ⟨hn, hr⟩
  · cases hbuiltin : Builtin.ofName? (Run.plainName symbol) with
    | some b => exact .ok ⟨V_add hG hn (hG.admits.builtin _ _ hargs) _, hr⟩
    | none =>
      cases hfn : r.state.function? symbol with
      | some fn =>
        have hknown := (hr.busy.holds.function? hfn).2
        exact (hr.callFunction hG hstack hback hnested hstmt hfits hargs hreceiver false hknown).bind_ok
          fun x _ hx => ⟨_, rfl, V_add hG hn hx.1 _, hx.2⟩
      | none => exact .ok ⟨hn, hr⟩

omit hargs hreceiver in
theorem Within.call (hr : G.Within function cs h r) :
    Follows G.Holds G.E h (r.callMoments a body nested s c) (r.call a body s c)
      fun h' x => G.V x.1 ∧ G.Within function cs h' x.2 := by
  have hC : Value.Closed G.V := hG.admits.toClosed
  have hargs : ∀ v ∈ c.args.map r.lookup, G.V v :=
    List.forall_mem_map.mpr fun name _ => Run.lookup_of_holds hC hr.busy.holds name
  have hreceiver : ∀ x, r.receiverOf c = some x → x.Proper G.V := by
    intro x hx
    unfold Run.receiverOf at hx
    split at hx
    · cases hx
    · cases hx
      exact ⟨Run.lookup_of_holds hC hr.busy.holds _, rfl⟩
  have hresolved := Run.resolveCallee_of_holds hC hr.busy.holds c.callee hargs
  have hvalue : ∀ n : Resolution, G.V n.result → G.V n.value := by
    intro n hn
    unfold Resolution.value
    split
    · exact hn
    · exact hC.unknown
  unfold Run.callMoments Run.call
  -- First all that the callee may be, then what an oracle names if that was nothing.
  refine Follows.bind (Follows.foldlM (Q := fun h x => G.V x.1.result ∧ G.Within function cs h x.2)
    (q := fun o => G.V [o]) ?_ ⟨hresolved.1, hr⟩ fun o ho => hC.object hresolved.2 ho) fun x _ hx => ?_
  · intro h' acc o ho hacc
    exact Within.callObject hG hstack hback hnested hstmt hfits hargs hreceiver hacc ho
  · obtain ⟨n, r₁⟩ := x
    obtain ⟨hn, hr₁⟩ := hx
    dsimp only
    split
    · have hasked : G.Within function cs _ (r₁.ask (.possibleCallees ⟨s.function, s.index⟩ r₁.contextKey)).2 :=
        hr₁.quiet hG (r₁.quiet_ask _) (hr₁.busy.ask _).1
      refine Follows.bind_ok (Follows.foldlM (Q := fun h x => G.V x.1.result ∧ G.Within function cs h x.2)
        (q := fun _ => True) ?_ ⟨hn, hasked⟩ fun _ _ => trivial) fun x _ hx => ⟨_, rfl, hvalue _ hx.1, hx.2⟩
      intro h' acc symbol _ hacc
      exact Within.callNamed hG hstack hback hnested hstmt hfits hargs hreceiver hacc symbol
    · exact .ok ⟨hvalue n hn, hr₁⟩

end Calls

section Bodies

variable {body : BodyAnalysis σ} {nested : MomentTrace σ} (hG : G.Lawful)
  {d : Nat} (hnested : G.Nested d body nested) {function : String} {cs : List String} {h : List (Run.Moment σ)}
  {r : Run σ}

include hG

theorem Around.setCurrent (hr : G.Around function cs h r) (name : String) {c : Context} (hc : G.C c) :
    G.Around function cs h { r with state := r.state.setCurrent name c } := by
  refine ⟨hr.sound.setCurrent name c, ?_, ?_, hG.places hr.keeps hc name⟩
  · rw [State.setCurrent_flow]
    exact hr.queue
  · rw [State.callees, (r.state.moves_setCurrent name c).frames]
    exact hr.callees

theorem Around.note (hr : G.Around function cs h r) (line : Unit → String) :
    G.Around function cs h (r.note a line) := by
  have hquiet := r.quiet_note a line
  unfold Run.note at hquiet ⊢
  split
  · rename_i htracing
    rw [if_pos htracing] at hquiet
    exact ⟨⟨hr.sound.holds, hr.sound.scopes, hr.sound.policy, hr.sound.flow, hr.sound.oracle, hr.sound.sites,
      hr.sound.receivers⟩, hr.queue, hr.callees, hG.quiet hr.keeps hquiet⟩
  · exact hr

include hnested

theorem Around.runScope (hr : G.Around function cs h r) {name : String} (hname : (a.scope? name).isSome = true)
    {c : Context} (hc : G.C c) (hfits : G.Fits d name cs) :
    Follows G.Holds G.E h (Run.runScopeMoments nested r name c) (r.runScope body name c)
      (G.Around function cs) := by
  have hplaced : G.Within function cs h { r with state := r.state.setCurrent name c } :=
    (hr.setCurrent hG name hc).within (State.seated_setCurrent (hr.sound.scopes name hname) c)
  refine (hnested 0 hplaced hfits).bind_ok fun r₁ _ hr₁ => ?_
  have hmarked : G.Within function cs (h ++ Run.runScopeMoments nested r name c)
      { r₁ with analyzed := name :: r₁.analyzed } := hr₁.books hG rfl rfl rfl rfl
  have hdone := hmarked.around
  dsimp only
  split
  · exact ⟨_, rfl, hdone.setCurrent hG _ (hG.here hr.keeps)⟩
  · exact ⟨_, rfl, hdone⟩

theorem Around.runClassBody (hr : G.Around function cs h r) {name : String}
    (hfits : (a.scope? name).isSome = true → G.Fits d name cs) :
    Follows G.Holds G.E h (Run.runClassBodyMoments a nested r name) (r.runClassBody a body name)
      (G.Around function cs) := by
  unfold Run.runClassBodyMoments Run.runClassBody
  split
  · exact .ok hr
  · rename_i hname
    have hname : (a.scope? name).isSome = true := by
      simpa [Option.isSome_iff_ne_none] using hname
    exact hr.runScope hG hnested hname hG.root (hfits hname)

omit hnested in
theorem Within.advance (hr : G.Within function cs h r) {s : Step}
    (hs : a.options.flowSensitive = true → s.function = function) : G.Within function cs h (r.advance a s) :=
  hr.quiet hG (r.quiet_advance a s) (hr.busy.advance hs)

variable (hstack : body.Keeps fun r r' => r.state.KeepsStack r'.state) (hback : body.Keeps Run.ComesBack)
  {s : Step} (hs : a.options.flowSensitive = true → s.function = function)

include hs

omit hnested in
theorem Within.simple (hr : G.Within function cs h r) {stmt : Stmt}
    (hstmt : a.stmt? ⟨s.function, s.index⟩ = some stmt) (hsimple : stmt.isSimple = true) :
    ∃ r', r.interpretStmt a body s stmt = .ok r' ∧ G.Within function cs h r' := by
  obtain ⟨r', hrun, hbusy⟩ := hr.busy.interpretStmt hG.admits body hs hstmt hsimple
  refine ⟨r', hrun, hbusy, ?_, ?_⟩
  · have hframes : r'.state.callees = r.state.callees := by
      cases Run.effect_of_interpretStmt hrun with
      | call => cases hsimple
      | classDef => cases hsimple
      | ret hrest =>
        unfold State.callees
        rw [hrest.state.frames]
        exact State.callees_setReturn _ _
      | raise hrest =>
        unfold State.callees
        rw [hrest.state.frames]
        exact State.callees_addException _ _
      | quiet _ hrest =>
        unfold State.callees
        rw [hrest.state.frames]
    rw [hframes]
    exact hr.callees
  · cases Run.effect_of_interpretStmt hrun with
    | call => cases hsimple
    | classDef => cases hsimple
    | ret hrest => exact hG.quiet (hG.returns hr.keeps _) hrest
    | raise hrest => exact hG.quiet (hG.raises hr.keeps _) hrest
    | quiet _ hrest => exact hG.quiet hr.keeps hrest

include hstack hback

theorem Within.interpretStmt (hr : G.Within function cs h r) {stmt : Stmt}
    (hstmt : a.stmt? ⟨s.function, s.index⟩ = some stmt) (hfits : G.Fits (d + 1) s.function cs) :
    Follows G.Holds G.E h (Run.stmtMoments a body nested r s stmt) (r.interpretStmt a body s stmt)
      (G.Within function cs) := by
  -- Whatever a statement yields is assigned, and control is handed on.
  have hassigned : ∀ {h : List (Run.Moment σ)} {r : Run σ} {v : Value} (target : String), G.V v →
      G.Within function cs h r →
      ∃ r', (r.assign a s target v >>= fun r => .ok (r.advance a s)) = .ok r' ∧ G.Within function cs h r' := by
    intro h r v target hv hr
    obtain ⟨r₁, hassign, hr₁⟩ := hr.assign hG s target hv
    exact Except.exists_ok_bind hassign ⟨_, rfl, hr₁.advance hG hs⟩
  cases stmt with
  | call c =>
    exact (hr.call hG hstack hback hnested hstmt hfits).bind_ok fun x _ hx => hassigned c.target hx.1 hx.2
  | classDef target name bases =>
    have hclass : G.Within function cs h (r.withClass a name bases) := by
      refine ⟨hr.busy.withClass hG.admits.toClosed (hG.admits.classes hstmt) bases, ?_, hG.registers hr.keeps _ _⟩
      show (r.state.registerClass name (a.basesOf name bases)).callees = cs
      rw [State.callees, (r.state.moves_registerClass name _).frames]
      exact hr.callees
    have hbody : (a.scope? name).isSome = true → G.Fits d name cs := hG.fitsClass hfits hstmt
    have hrun := hclass.around.runClassBody hG hnested hbody
    have hdefined : ∀ {h : List (Run.Moment σ)} {r : Run σ}, G.Within function cs h r →
        G.V [.classObject ((r.state.hierarchy.class? name).getD default)] := by
      intro h r hr
      cases hcls : r.state.hierarchy.class? name with
      | none => exact hG.admits.nothing
      | some cls => exact (hr.busy.holds.class? hcls).2
    show Follows G.Holds G.E h _ ((r.withClass a name bases).runClassBody a body name >>= _ >>= _) _
    rw [bind_assoc]
    refine hrun.bind_ok fun r₁ hr₁ haround => ?_
    have hcame : (r.withClass a name bases).ComesBack r₁ := (Run.bodyRule_comesBack hback hstack).classBody hr₁
    have hwithin := haround.within (hcame.seated hclass.busy.seated)
    exact hassigned target (hdefined hwithin) hwithin
  | _ => exact .step (hr.simple hG hs hstmt rfl)

omit hs

theorem Within.interpret (hr : G.Within function cs h r) {item : WorkItem} {stmt : Stmt}
    (hstmt : a.stmt? item = some stmt) (hitem : a.options.flowSensitive = true → item.function = function)
    (hfits : G.Fits (d + 1) item.function cs) :
    Follows G.Holds G.E h (Run.interpretMoments a body nested r item) (r.interpret a body item)
      (G.Within function cs) := by
  have hvisited : G.Within function cs h (r.visiting a item stmt) :=
    hr.quiet hG (r.quiet_visiting a item stmt) (hr.busy.visiting item stmt)
  have hbusy : G.Within function cs (h ++ [.busy (r.visiting a item stmt)]) (r.visiting a item stmt) :=
    ⟨hvisited.busy, hvisited.callees, hG.observes hvisited.keeps rfl rfl⟩
  rw [Run.interpret_of_stmt? hstmt]
  unfold Run.interpretMoments
  rw [hstmt]
  refine .cons hbusy.holds (hbusy.interpretStmt hG hnested hstack hback hitem ?_ hfits)
  rw [← hstmt, Run.stepOf, Int.toNat_of_nonneg (Analyzer.nonneg_of_stmt? hstmt)]

/-- What waits is taken from the queue one by one. -/
theorem Within.drain (hr : G.Within function cs h r) (hfits : G.Fits (d + 1) function cs) (left : Nat) :
    Follows G.Holds G.E h (Run.drainMoments a body nested left r) (Run.drain a body function left r)
      (G.Within function cs) := by
  induction left generalizing h r with
  | zero =>
    unfold Run.drainMoments Run.drain
    cases hnext : r.state.flow.dequeue? with
    | none => exact .ok hr
    | some next =>
      refine .ok (Within.books hG (r := { r with state.flow := next.2 }) ?_ rfl rfl rfl rfl)
      exact (hr.dequeue hG hnext).1
  | succ left ih =>
    unfold Run.drainMoments Run.drain
    cases hnext : r.state.flow.dequeue? with
    | none => exact .ok hr
    | some next =>
      obtain ⟨hrest, hitem, stmt, hstmt⟩ := hr.dequeue hG hnext
      exact (hrest.interpret hG hnested hstack hback hstmt (fun _ => hitem) (hitem ▸ hfits)).bind
        fun r₁ _ hr₁ => ih hr₁

theorem Within.runFlow (hr : G.Within function cs h r) {name : String} (hfits : G.Fits (d + 1) name cs)
    (start : Int) :
    Follows G.Holds G.E h
      (Run.drainMoments a body nested a.maxIterations (r.mapFlow fun t => t.push.enqueue name start))
      (r.runFlow a body name start) (G.Within function cs) := by
  have hopened : G.Within name cs h (r.mapFlow fun t => t.push.enqueue name start) := by
    refine hr.withTracker hG ?_ ?_ (hr.busy.holds.waits.push.enqueue name start)
      (Tracker.queue_enqueue_of (by simp [Tracker.push, Tracker.queue]) start)
    · exact r.state.flow.push.graphs_enqueue name start
    · rw [Tracker.snapshots_enqueue]
      rfl
  refine (hopened.drain hG hnested hstack hback hfits _).bind_ok fun r₁ hdrain hr₁ => ?_
  -- The nested analyses leave the queues around the body alone, so there is one to go back to.
  have hcame := (Run.bodyRule_comesBack hback hstack).drain hdrain
  have houter : r₁.state.flow.outer = r.state.flow.queue :: r.state.flow.outer := by
    exact hcame.outer.trans (r.state.flow.push.outer_enqueue name start)
  obtain ⟨t, hpop, hqueue, -⟩ := Tracker.exists_pop? houter r.state.flow.current
  simp only [hpop]
  obtain ⟨segment, suspended, -, rfl⟩ := Tracker.pop?_eq_some.mp hpop
  exact ⟨_, rfl, hr₁.withTracker hG rfl rfl (hr₁.busy.holds.waits.pop? hpop) (hqueue ▸ hr.busy.queue)⟩

theorem Within.pass (hr : G.Within function cs h r) {name : String} (hfits : G.Fits (d + 1) name cs)
    (hflow : a.options.flowSensitive = false) {scope : Scope} (hscope : a.scope? name = some scope)
    {indices : List Nat} (hindices : ∀ i ∈ indices, i < scope.body.length) (left : Nat) :
    Follows G.Holds G.E h (Run.passMoments a body nested name indices left r)
      (Run.pass a body name indices left r) fun h x => G.Within function cs h x.2 := by
  induction indices generalizing h r left with
  | nil => exact .ok hr
  | cons i rest ih =>
    cases left with
    | zero => exact .ok (hr.books hG rfl rfl rfl rfl)
    | succ left =>
      obtain ⟨hi, hrest⟩ := List.forall_mem_cons.mp hindices
      have hset : G.Within function cs h { r with state.flow.current := ⟨name, i⟩ } :=
        hr.withTracker hG rfl rfl hr.busy.holds.waits hr.busy.queue
      have hstmt : a.stmt? ⟨name, i⟩ = some scope.body[i] := by simp [Analyzer.stmt?, hscope, hi]
      refine (hset.interpret hG hnested hstack hback hstmt (fun hf => ?_) hfits).bind fun r₁ _ hr₁ => ih hr₁ hrest left
      rw [hflow] at hf
      cases hf

theorem Within.passes (hr : G.Within function cs h r) {name : String} (hfits : G.Fits (d + 1) name cs)
    (hflow : a.options.flowSensitive = false) {scope : Scope} (hscope : a.scope? name = some scope)
    {indices : List Nat} (hindices : ∀ i ∈ indices, i < scope.body.length) (fuel left : Nat) :
    Follows G.Holds G.E h (Run.passesMoments a body nested name indices fuel left r)
      (Run.passes a body name indices fuel left r) (G.Within function cs) := by
  induction fuel generalizing h r left with
  | zero => exact .ok hr
  | succ fuel ih =>
    refine (hr.pass hG hnested hstack hback hfits hflow hscope hindices left).bind fun x _ hx => ?_
    obtain ⟨left?, r₁⟩ := x
    cases left? with
    | none => exact .ok hx
    | some left =>
      dsimp only
      split
      · exact .ok hx
      · exact ih hx left

theorem Within.runPasses (hr : G.Within function cs h r) {name : String} (hfits : G.Fits (d + 1) name cs)
    (hflow : a.options.flowSensitive = false) :
    Follows G.Holds G.E h
      (match a.scope? name with
      | none => []
      | some scope => Run.passesMoments a body nested name (List.range scope.body.length) (a.maxIterations + 1)
          a.maxIterations r)
      (r.runPasses a body name) (G.Within function cs) := by
  unfold Run.runPasses
  cases hscope : a.scope? name with
  | none => exact .ok hr
  | some scope =>
    refine (hr.passes hG hnested hstack hback hfits hflow hscope (fun i hi => List.mem_range.mp hi) _ _).bind_ok
      fun r₁ _ hr₁ => ⟨_, rfl, ?_⟩
    exact hr₁.withTracker hG rfl rfl hr₁.busy.holds.waits hr₁.busy.queue

end Bodies

/-- However deep bodies are nested, their analysis follows the guide as far as it fits. -/
theorem nested_runBody (hG : G.Lawful) (d : Nat) : G.Nested d (a.runBody d) (a.bodyMoments d) := by
  induction d with
  | zero =>
    intro function name cs h r start _ hfits
    exact .error (hG.exhausted hfits)
  | succ d ih =>
    intro function name cs h r start hr hfits
    unfold Analyzer.bodyMoments Analyzer.runBody
    have hstack : (a.runBody d : BodyAnalysis σ).Keeps fun r r' => r.state.KeepsStack r'.state :=
      a.keepsStack_runBody d
    split
    · exact hr.runFlow hG ih hstack (a.comesBack_runBody d) hfits start
    · rename_i hflow
      exact hr.runPasses hG ih hstack (a.comesBack_runBody d) hfits (by simpa using hflow)

end Guide

end AbstractFlow
