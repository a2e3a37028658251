import AbstractFlow.Analysis.Analyzer
import AbstractFlow.Proofs.Analysis.Places
import AbstractFlow.Proofs.Flow.Graph
import AbstractFlow.Proofs.State.Contents

/-! # What an analysis keeps up

An analysis works on a state in which all scopes of the program are known with their control flow, and in
which every value has a property that the program and the oracle admit. While the body of a scope is analysed,
the state stands in some scope, and what waits in the innermost queue belongs to that body. Under these
conditions no statement that is interpreted without a call can fail, and each of them keeps the conditions up.
-/
namespace AbstractFlow

theorem Except.ok_bind {ε α β : Type} (a : α) (f : α → Except ε β) : (Except.ok a >>= f) = f a := rfl

/-- A computation succeeds if its first step does and so does the rest after it. -/
theorem Except.exists_ok_bind {ε α β : Type} {x : Except ε α} {f : α → Except ε β} {a : α} {q : β → Prop}
    (hx : x = .ok a) (hf : ∃ b, f a = .ok b ∧ q b) : ∃ b, x >>= f = .ok b ∧ q b := by
  rw [hx]
  exact hf

namespace Guarded

variable {σ : Type} {U : HeapObject → Prop} {g : Guarded σ}

/-- The objects that an oracle will ever name in an answer are of a kind. -/
def Says (U : HeapObject → Prop) (g : Guarded σ) : Prop :=
  ∀ o, g.oracle = some o → ∃ inv : σ → Prop, inv g.state ∧ ∀ q s, inv s → inv (o.ask q s).2 ∧
    ∀ x ∈ ((o.ask q s).1.settle q).1.asObjects, U x

theorem Says.ask (h : g.Says U) (q : Query) :
    (g.ask q).2.2.Says U ∧ ∀ x ∈ (g.ask q).1.asObjects, U x := by
  unfold Guarded.ask
  cases ho : g.oracle with
  | none => exact ⟨h, by cases q <;> simp [Query.conservative, Answer.asObjects]⟩
  | some o =>
    obtain ⟨inv, hstate, hasked⟩ := h o ho
    refine ⟨fun o' ho' => ⟨inv, ?_, ?_⟩, (hasked q g.state hstate).2⟩
    · exact (hasked q g.state hstate).1
    · obtain rfl : o = o' := Option.some.inj ho'
      exact hasked

end Guarded

theorem Object.key_withAttr (o : Object) (name : String) (v : Value) : (o.withAttr name v).key = o.key := by
  cases o <;> rfl

/-- Whether a statement neither calls nor defines a class. -/
def Stmt.isSimple : Stmt → Bool
  | .call _ | .classDef .. => false
  | _ => true

/-- A receiver is told apart by the objects it may be. -/
structure Receiver.Proper (V : Value → Prop) (receiver : Receiver) : Prop where
  value : V receiver.value
  id : receiver.id = receiver.value.receiverId

/-- A property of values that a program admits: it is closed, and the functions, classes and instances of the
program have it, and the objects that an oracle names. -/
structure Analyzer.Admits (a : Analyzer) (V : Value → Prop) (U : HeapObject → Prop) : Prop
    extends Value.Closed V where
  functions : ∀ {item : WorkItem} {target name : String}, a.stmt? item = some (.functionDef target name) →
    V [.function ⟨name, [], false, .plain, false, false, []⟩]
  functionScopes : ∀ {name : String} {scope : Scope}, a.scope? name = some scope → scope.kind = .function →
    V [.function (a.functionOf scope)]
  classes : ∀ {item : WorkItem} {target name : String} {bases : List String},
    a.stmt? item = some (.classDef target name bases) → ClassName V name
  classScopes : ∀ {name : String} {scope : Scope}, a.scope? name = some scope → scope.kind = .classBody →
    ClassName V name
  nothing : V [.classObject default]
  instances : ∀ {item : WorkItem} {c : Call} {cls : Class Value}, a.stmt? item = some (.call c) →
    V [.classObject cls] → V [.instanceObject ⟨cls.name, callSiteText item.function item.index, []⟩]
  parents : ∀ {name : String} {scope : Scope}, a.scope? name = some scope →
    V [.instanceObject ⟨scope.parent, "", []⟩]
  externals : ∀ {e : External Value}, V [.external e] → V [.external ⟨.instanceObject, e.module, e.name, []⟩]
  answers : ∀ {x : HeapObject}, U x → V [.instanceObject ⟨x.type, x.site, []⟩] ∧
    ∀ kind, V [externalObject kind x.site] ∧ V [externalObject kind x.type]

/-- Every scope of the program has its control flow, and nothing else has. -/
def Tracker.Mirrors (a : Analyzer) (t : Tracker) : Prop :=
  ∀ name, t.graph? name = (a.scope? name).map fun scope => .build name scope.body

theorem Tracker.Mirrors.of_graphs {a : Analyzer} {t t' : Tracker} (h : t.Mirrors a) (hgraphs : t'.graphs = t.graphs) :
    t'.Mirrors a := by
  unfold Mirrors graph?
  rw [hgraphs]
  exact h

theorem Tracker.Mirrors.stmt? {a : Analyzer} {t : Tracker} (h : t.Mirrors a) {item : WorkItem}
    (hitem : t.Has item) : ∃ stmt, a.stmt? item = some stmt := by
  obtain ⟨g, hg, hnonneg, hlt⟩ := hitem
  rw [h] at hg
  obtain ⟨scope, hscope, rfl⟩ := Option.map_eq_some_iff.mp hg
  obtain ⟨function, index⟩ := item
  obtain ⟨i, rfl⟩ := Int.eq_ofNat_of_zero_le hnonneg
  rw [Graph.build_length] at hlt
  have hi : i < scope.body.length := by
    have hlt' : (i : Int) < scope.body.length := hlt
    omega
  refine ⟨scope.body[i], ?_⟩
  simp [Analyzer.stmt?, hscope, hi]

namespace State

variable {V : Value → Prop} {U : HeapObject → Prop} {a : Analyzer} {s : State}

theorem Holds.materialize (hV : a.Admits V U) (h : s.Holds V) {x : HeapObject} (hx : U x) :
    V [s.materialize x] := by
  obtain ⟨hinstance, hexternal⟩ := hV.answers hx
  unfold State.materialize
  split
  · split
    · rename_i f hf
      exact (h.function? hf).2
    · exact (hexternal _).1
  · split
    · rename_i c hc
      exact (h.class? hc).2
    · exact (hexternal _).1
  · split
    · exact hinstance
    · split
      · exact (hexternal _).2
      · exact hV.unknown

theorem Holds.materializeAll (hV : a.Admits V U) (h : s.Holds V) {xs : List HeapObject} (hxs : ∀ x ∈ xs, U x) :
    V (s.materializeAll xs) :=
  hV.ofObjects (List.forall_mem_map.mpr fun x hx => h.materialize hV (hxs x hx))

theorem setVariable_of_scope {scope : String} (h : s.writeScope = some scope) (name : String) (v : Value) :
    s.setVariable name v = .ok { s with memory := s.memory.set (s.frameKey scope s.context) name v } := by
  rw [setVariable, h, setIn]

theorem exists_mergeVariable {scope : String} (h : s.writeScope = some scope) (name : String) (v : Value) :
    ∃ w s', s.mergeVariable name v = .ok (w, s') := by
  unfold mergeVariable
  rw [h]
  exact ⟨_, _, rfl⟩

theorem exists_restore {scope : String} (h : s.writeScope = some scope) (snap : Snapshot) :
    ∃ s', s.restore snap = .ok s' := by
  unfold restore
  induction snap generalizing s with
  | nil => exact ⟨s, rfl⟩
  | cons e snap ih =>
    rw [List.foldlM_cons, setVariable_of_scope h]
    exact ih h

end State

namespace Run

variable {σ : Type}

/-- The conditions of an analysis. -/
structure Sound (a : Analyzer) (V : Value → Prop) (U : HeapObject → Prop) (r : Run σ) : Prop where
  holds : r.state.Holds V
  scopes : ∀ name, (a.scope? name).isSome = true → r.state.scopes.contains name = true
  policy : ∀ name, r.state.config.policy ≠ .other name
  flow : r.state.flow.Mirrors a
  oracle : r.oracle.Says U
  sites : ∀ record ∈ r.calls, ∃ c, a.stmt? ⟨record.edge.caller, record.edge.index⟩ = some (.call c)
  receivers : ∀ record ∈ r.calls, ∀ receiver, record.receiver = some receiver → receiver.Proper V

/-- The conditions while the body of a scope is analysed. -/
structure Busy (a : Analyzer) (V : Value → Prop) (U : HeapObject → Prop) (function : String) (r : Run σ) :
    Prop extends Sound a V U r where
  seated : r.state.Seated
  queue : ∀ item ∈ r.state.flow.queue, item.function = function

variable {a : Analyzer} {V : Value → Prop} {U : HeapObject → Prop} {function : String} {r r' : Run σ}

theorem Sound.quiet (h : r.Sound a V U) (hquiet : r.Quiet r') (hholds : r'.state.Holds V)
    (horacle : r'.oracle.Says U) : r'.Sound a V U := by
  have hscopes : r'.state.scopes = r.state.scopes := (congrArg State.scopes hquiet.state.outline :)
  exact ⟨hholds, hscopes ▸ h.scopes, hquiet.state.moves.config ▸ h.policy,
    h.flow.of_graphs hquiet.state.moves.graphs, horacle, hquiet.calls ▸ h.sites, hquiet.calls ▸ h.receivers⟩

theorem Busy.quiet (h : r.Busy a V U function) (hquiet : r.Quiet r') (hholds : r'.state.Holds V)
    (horacle : r'.oracle.Says U) (hqueue : ∀ item ∈ r'.state.flow.queue, item.function = function) :
    r'.Busy a V U function := by
  have hscopes : r'.state.scopes = r.state.scopes := (congrArg State.scopes hquiet.state.outline :)
  have hscope : r'.state.scope = r.state.scope := (congrArg State.scope hquiet.state.outline :)
  refine ⟨h.toSound.quiet hquiet hholds horacle, ?_, hqueue⟩
  rw [State.Seated, hscope, hscopes]
  exact h.seated

theorem Busy.writeScope (h : r.Busy a V U function) : ∃ scope, r.state.writeScope = some scope := by
  obtain ⟨scope, hscope, -⟩ := h.seated
  exact ⟨scope, by rw [State.writeScope, hscope, Option.some_or]⟩

theorem Busy.withState (h : r.Busy a V U function) {s : State} (hquiet : r.state.Quiet s) (hholds : s.Holds V)
    (hflow : s.flow.queue = r.state.flow.queue) : Busy a V U function { r with state := s } :=
  h.quiet (r.quiet_state hquiet) hholds h.oracle (hflow ▸ h.queue)

theorem Busy.note (h : r.Busy a V U function) (line : Unit → String) : (r.note a line).Busy a V U function := by
  unfold Run.note
  split
  · exact h.quiet ⟨.refl _, rfl⟩ h.holds h.oracle h.queue
  · exact h

theorem Busy.ask (h : r.Busy a V U function) (q : Query) :
    (r.ask q).2.Busy a V U function ∧ ∀ x ∈ (r.ask q).1.asObjects, U x := by
  obtain ⟨horacle, hobjects⟩ := h.oracle.ask q
  exact ⟨h.quiet (r.quiet_ask q) h.holds horacle h.queue, hobjects⟩

theorem lookup_of_holds (hV : Value.Closed V) (h : r.state.Holds V) (name : String) : V (r.lookup name) := by
  unfold Run.lookup
  split
  · exact hV.unknown
  · cases hv : r.state.getVariable? name with
    | none => exact hV.unknown
    | some v => exact h.getVariable? hv

theorem Busy.isSingleton (h : r.Busy a V U function) (scope name : String) :
    (r.isSingleton a scope name).2.Busy a V U function := by
  unfold Run.isSingleton
  split
  · exact (h.ask _).1
  · exact h

theorem Busy.overwrites (h : r.Busy a V U function) (s : Step) (target : String) :
    (r.overwrites a s target).2.Busy a V U function := by
  unfold Run.overwrites
  split
  · exact h
  · split
    · exact h.isSingleton _ _
    · exact h

theorem Busy.assign (hV : Value.Closed V) (h : r.Busy a V U function) (s : Step) (target : String) {v : Value}
    (hv : V v) : ∃ r', r.assign a s target v = .ok r' ∧ r'.Busy a V U function := by
  unfold Run.assign
  split
  · exact ⟨r, rfl, h⟩
  · have hasked := h.overwrites s target
    obtain ⟨scope, hscope⟩ := hasked.writeScope
    simp only
    split
    · rw [State.setVariable_of_scope hscope]
      refine ⟨_, rfl, hasked.withState ?_ ?_ rfl⟩
      · exact State.quiet_setVariable (State.setVariable_of_scope hscope _ _)
      · exact hasked.holds.setMemory hv _ _
    · obtain ⟨w, t, ht⟩ := State.exists_mergeVariable hscope target v
      have hholds := hasked.holds.mergeVariable hV hv ht
      have hquiet := State.quiet_mergeVariable ht
      rw [ht]
      refine ⟨_, rfl, hasked.withState hquiet hholds ?_⟩
      unfold State.mergeVariable at ht
      rw [hscope] at ht
      cases ht
      rfl

theorem Busy.rebind (h : r.Busy a V U function) (name : String) {v : Value} (hv : V v) :
    (r.rebind name v).Busy a V U function := by
  unfold Run.rebind
  split
  · rename_i s hs
    refine h.withState (State.quiet_updateVariable? hs) (h.holds.updateVariable? hv hs) ?_
    obtain ⟨b, -, rfl⟩ := Option.map_eq_some_iff.mp hs
    rfl
  · exact h

theorem Busy.withFlow (h : r.Busy a V U function) {t : Tracker} (houtline : t.outline = r.state.flow.outline)
    (hwaits : r.state.flow.queue <+: t.queue) (hsnapshots : ∀ e ∈ t.snapshots, Attrs.Holds V e.2)
    (hitems : t.Waits) (hqueue : ∀ item ∈ t.queue, item.function = function) :
    Busy a V U function { r with state.flow := t } :=
  h.quiet (r.quiet_flow houtline hwaits) (h.holds.withFlow hsnapshots hitems) h.oracle hqueue

theorem Busy.enqueue (h : r.Busy a V U function) (index : Int) :
    (r.mapFlow (·.enqueue function index)).Busy a V U function := by
  refine h.withFlow (Tracker.outline_enqueue _ _ _) (Tracker.queue_enqueue _ _ _) ?_
    (h.holds.waits.enqueue function index) (Tracker.queue_enqueue_of h.queue index)
  rw [Tracker.snapshots_enqueue]
  exact h.holds.snapshots

theorem Busy.enqueueSuccessors (h : r.Busy a V U function) (index : Int) :
    (r.mapFlow (·.enqueueSuccessors function index)).Busy a V U function := by
  refine h.withFlow (Tracker.outline_enqueueSuccessors _ _ _) (Tracker.queue_enqueueSuccessors _ _ _) ?_
    (h.holds.waits.enqueueSuccessors function index) (Tracker.queue_enqueueSuccessors_of h.queue index)
  rw [Tracker.snapshots_enqueueSuccessors]
  exact h.holds.snapshots

theorem Busy.advance (h : r.Busy a V U function) {s : Step}
    (hs : a.options.flowSensitive = true → s.function = function) : (r.advance a s).Busy a V U function := by
  unfold Run.advance
  split
  · rename_i hflow
    rw [hs hflow]
    exact h.enqueueSuccessors s.index
  · exact h

theorem Busy.fork (hV : Value.Closed V) (h : r.Busy a V U function) {s : Step} (hs : s.function = function) :
    (r.fork s).Busy a V U function := by
  subst hs
  have hsaved : ∀ (ahead : List Nat) (r : Run σ), r.Busy a V U s.function →
      ∀ (p : Nat → Point) (snap : Snapshot), Attrs.Holds V snap →
      (r.mapFlow fun t => ahead.foldl (fun t i => t.saveSnapshot (p i) snap) t).Busy a V U s.function := by
    intro ahead
    induction ahead with
    | nil => exact fun r hr _ _ _ => hr
    | cons i ahead ih =>
      intro r hr p snap hsnap
      refine ih (r.mapFlow (·.saveSnapshot (p i) snap)) (hr.withFlow (Tracker.outline_saveSnapshot _ _ _) ?_
        (Tracker.forall_saveSnapshot hV.merge hr.holds.snapshots hsnap)
        (hr.holds.waits.saveSnapshot _ _) ?_) p snap hsnap
      · rw [Tracker.queue_saveSnapshot]
      · rw [Tracker.queue_saveSnapshot]
        exact hr.queue
  exact (hsaved _ r h (fun i => r.pointAt s i) _ h.holds.snapshot).enqueueSuccessors s.index

theorem Busy.branch (hV : Value.Closed V) (h : r.Busy a V U function) {s : Step}
    (hs : a.options.flowSensitive = true → s.function = function) (sense : Bool) (test : Test) (label : String) :
    (r.branch a s sense test label).Busy a V U function := by
  unfold Run.branch
  split
  · exact h
  · rename_i hflow
    have hs := hs (by simpa using hflow)
    simp only
    split
    · exact h.fork hV hs
    · exact h.fork hV hs
    · rw [hs]
      split
      · exact (h.note _).enqueue _
      · exact (h.note _).enqueue _

theorem Busy.jump (h : r.Busy a V U function) {s : Step}
    (hs : a.options.flowSensitive = true → s.function = function) (label : String) :
    (r.jump a s label).Busy a V U function := by
  unfold Run.jump
  split
  · exact h
  · rename_i hflow
    rw [hs (by simpa using hflow)]
    split
    · exact h.enqueue _
    · exact h

theorem Busy.join (hV : Value.Closed V) (h : r.Busy a V U function) {s : Step}
    (hs : a.options.flowSensitive = true → s.function = function) :
    ∃ r', r.join a s = .ok r' ∧ r'.Busy a V U function := by
  -- Writing the merged snapshot back and saving it keeps up all conditions, whichever snapshot it is.
  have hjoined : ∀ merged : Snapshot, Attrs.Holds V merged → ∃ t, r.state.restore merged = .ok t ∧
      (Run.mapFlow { r with state := t } (·.setSnapshot (r.pointAt s s.index) merged)).Busy a V U function := by
    intro merged hmerged
    obtain ⟨scope, hscope⟩ := h.writeScope
    obtain ⟨t, ht⟩ := State.exists_restore hscope merged
    have hflow : t.flow = r.state.flow := State.flow_restore ht
    have hrestored := h.withState (State.quiet_restore ht) (h.holds.restore hmerged ht) (by rw [hflow])
    refine ⟨t, ht, hrestored.withFlow rfl List.prefix_rfl ?_ hrestored.holds.waits hrestored.queue⟩
    exact Table.forall_insert hrestored.holds.snapshots hmerged
  have hresult : ∀ {merged : Snapshot} {stable : Bool}, Attrs.Holds V merged →
      ∃ r', (r.state.restore merged >>= fun t =>
        let r := Run.mapFlow { r with state := t } (·.setSnapshot (r.pointAt s s.index) merged)
        if stable then Except.ok (r.note a fun _ => "  join at " ++ toString s.index ++ " is stable")
        else .ok (r.advance a s)) = .ok r' ∧ r'.Busy a V U function := by
    intro merged stable hmerged
    obtain ⟨t, ht, hbusy⟩ := hjoined merged hmerged
    refine Except.exists_ok_bind ht ?_
    simp only
    split
    · exact ⟨_, rfl, hbusy.note _⟩
    · exact ⟨_, rfl, hbusy.advance hs⟩
  unfold Run.join
  refine hresult ?_
  split
  · rename_i old hold
    exact Dict.Each.mergeWith (fun _ _ _ => hV.merge) (h.holds.snapshots _ (Table.mem_of_get? hold)) h.holds.snapshot
  · exact h.holds.snapshot

theorem Busy.label (hV : Value.Closed V) (h : r.Busy a V U function) {s : Step}
    (hs : a.options.flowSensitive = true → s.function = function) :
    ∃ r', r.label a s = .ok r' ∧ r'.Busy a V U function := by
  unfold Run.label
  split
  · exact ⟨r, rfl, h⟩
  · split
    · exact h.join hV hs
    · exact ⟨_, rfl, h.advance hs⟩

theorem Busy.isSingleField (h : r.Busy a V U function) (o : Object) (attr : String) :
    (r.isSingleField o attr).2.Busy a V U function := by
  unfold Run.isSingleField
  split
  · exact (h.ask _).1
  · exact h

theorem Busy.foldl {β : Type} {f : Value × Run σ → β → Value × Run σ} {q : β → Prop}
    (hf : ∀ acc b, q b → V acc.1 ∧ acc.2.Busy a V U function → V (f acc b).1 ∧ (f acc b).2.Busy a V U function)
    (acc : Value × Run σ) (hacc : V acc.1 ∧ acc.2.Busy a V U function) {bs : List β} (hbs : ∀ b ∈ bs, q b) :
    V (bs.foldl f acc).1 ∧ (bs.foldl f acc).2.Busy a V U function := by
  induction bs generalizing acc with
  | nil => exact hacc
  | cons b bs ih =>
    obtain ⟨hb, hbs⟩ := List.forall_mem_cons.mp hbs
    exact ih _ (hf acc b hb hacc) hbs

theorem Busy.attrStore (hV : Value.Closed V) (h : r.Busy a V U function) (object attr value : String) :
    (r.attrStore object attr value).Busy a V U function := by
  have hbase := lookup_of_holds hV h.holds object
  have hvalue := lookup_of_holds hV h.holds value
  have hstored : ∀ (acc : Value × Run σ) o, V [o] → V acc.1 ∧ acc.2.Busy a V U function →
      V (storeOn attr (r.lookup value) acc o).1 ∧ (storeOn attr (r.lookup value) acc o).2.Busy a V U function := by
    rintro ⟨base, r₁⟩ o ho ⟨hb, hr₁⟩
    have hasked := hr₁.isSingleField o attr
    unfold storeOn
    refine ⟨hV.replace hb (hV.withAttr ho ?_ attr) (Object.key_withAttr o attr _), ?_⟩
    · split
      · rename_i old hold
        split
        · exact hvalue
        · exact hV.merge ((hV.attrs ho List.mem_cons_self).get? hold) hvalue
      · exact hvalue
    · exact hasked.withState (State.quiet_storeHeapAttr _ _ _ _ _) (hasked.holds.storeHeapAttr hV hvalue _ _ _)
        (congrArg Tracker.queue (State.flow_storeHeapAttr _ _ _ _ _))
  obtain ⟨hupdated, hbusy⟩ := Busy.foldl hstored (r.lookup object, r) ⟨hbase, h⟩ fun o ho => hV.object hbase ho
  exact hbusy.rebind object hupdated

theorem Busy.attrLoad (hV : a.Admits V U) (h : r.Busy a V U function) (object attr : String) :
    V (r.attrLoad object attr).1 ∧ (r.attrLoad object attr).2.Busy a V U function := by
  have hbase := lookup_of_holds hV.toClosed h.holds object
  have hloaded : ∀ (acc : Value × Run σ) o, V [o] → V acc.1 ∧ acc.2.Busy a V U function →
      V (loadFrom attr acc o).1 ∧ (loadFrom attr acc o).2.Busy a V U function := by
    rintro ⟨out, r₁⟩ o ho ⟨hout, hr₁⟩
    have hfound : ∀ (found : List HeapObject) (r₂ : Run σ), (∀ x ∈ found, U x) → r₂.Busy a V U function →
        V (out.merge (if found.isEmpty then (r₂.state.objectAttr? o attr).getD []
          else r₂.state.materializeAll found)) := by
      intro found r₂ hfound hr₂
      refine hV.merge hout ?_
      split
      · cases hattr : r₂.state.objectAttr? o attr with
        | none => exact hV.nil
        | some v => exact hr₂.holds.objectAttr? hV.toClosed ho hattr
      · exact hr₂.holds.materializeAll hV hfound
    unfold loadFrom
    simp only
    split
    · obtain ⟨hasked, hobjects⟩ := hr₁.ask (.fieldPointsTo o.heapObject (.attribute attr))
      exact ⟨hfound _ _ hobjects hasked, hasked⟩
    · exact ⟨hfound _ _ (by simp) hr₁, hr₁⟩
  obtain ⟨hout, hbusy⟩ := Busy.foldl hloaded ([], r) ⟨hV.nil, h⟩ fun o ho => hV.object hbase ho
  exact ⟨hV.orUnknown hout, hbusy⟩

/-- A function that is known is bound as it is, another one as a function of that name. -/
theorem Busy.functionDef (hV : Value.Closed V) (h : r.Busy a V U function) (s : Step) (target : String)
    {name : String} (hnew : V [.function ⟨name, [], false, .plain, false, false, []⟩]) :
    ∃ r', r.functionDef a s target name = .ok r' ∧ r'.Busy a V U function := by
  unfold Run.functionDef
  dsimp only
  generalize hfn : (r.state.function? name).getD ⟨name, [], false, .plain, false, false, []⟩ = fn
  -- A function that is known already has its name; only a new one is registered.
  have hknown : V [.function fn] ∧ (r.state.function? name = none → fn.name = name) := by
    cases hfound : r.state.function? name with
    | none =>
      rw [hfound] at hfn
      exact hfn ▸ ⟨hnew, fun _ => rfl⟩
    | some known =>
      rw [hfound] at hfn
      exact hfn ▸ ⟨(h.holds.function? hfound).2, nofun⟩
  have hregistered : Busy a V U function { r with
      state := if (r.state.function? name).isSome then r.state else r.state.registerFunction fn } := by
    split
    · exact h
    · rename_i hnone
      rw [Bool.not_eq_true, Option.isSome_eq_false_iff, Option.isNone_iff_eq_none] at hnone
      exact h.withState (State.quiet_registerFunction (by rw [hknown.2 hnone, hnone]))
        (h.holds.registerFunction hV hknown.1) rfl
  obtain ⟨r₁, hassign, hr₁⟩ := hregistered.assign hV s target hknown.1
  rw [hassign, Except.ok_bind]
  split
  · split
    · rename_i hclass
      simp only [Bool.and_eq_true] at hclass
      exact ⟨_, rfl, hr₁.withState (State.quiet_addMethod _ _ _ _)
        (hr₁.holds.addMethod hV (hr₁.holds.className hclass.1) hknown.1 target)
        (congrArg Tracker.queue (State.flow_addMethod _ _ _ _))⟩
    · exact ⟨_, rfl, hr₁⟩
  · exact ⟨_, rfl, hr₁⟩

theorem Busy.setReturn (hV : Value.Closed V) (h : r.Busy a V U function) {v : Value} (hv : V v) :
    Busy a V U function { r with state := r.state.setReturn v } := by
  have hmoved : ∃ frames returned, r.state.setReturn v = { r.state with frames, returned } := by
    unfold State.setReturn
    split
    · exact ⟨r.state.frames, _, rfl⟩
    · exact ⟨_, r.state.returned, rfl⟩
  have hholds := h.holds.setReturn hV hv
  obtain ⟨frames, returned, heq⟩ := hmoved
  rw [heq] at hholds ⊢
  exact ⟨⟨hholds, h.scopes, h.policy, h.flow, h.oracle, h.sites, h.receivers⟩, h.seated, h.queue⟩

theorem Busy.addException (hV : Value.Closed V) (h : r.Busy a V U function) {v : Value} (hv : V v) :
    Busy a V U function { r with state := r.state.addException v } := by
  have hmoved : ∃ frames exception, r.state.addException v = { r.state with frames, exception } := by
    unfold State.addException
    split
    · exact ⟨r.state.frames, _, rfl⟩
    · exact ⟨_, r.state.exception, rfl⟩
  have hholds := h.holds.addException hV hv
  obtain ⟨frames, exception, heq⟩ := hmoved
  rw [heq] at hholds ⊢
  exact ⟨⟨hholds, h.scopes, h.policy, h.flow, h.oracle, h.sites, h.receivers⟩, h.seated, h.queue⟩

theorem Busy.visiting (h : r.Busy a V U function) (item : WorkItem) (stmt : Stmt) :
    (r.visiting a item stmt).Busy a V U function := by
  refine Busy.note ?_ _
  exact h.quiet ⟨⟨rfl, .of_functions rfl, List.prefix_rfl, .of_memory rfl⟩, rfl⟩ (h.holds.of_contents rfl) h.oracle h.queue

theorem build_of_holds (hV : Value.Closed V) (h : r.state.Holds V) (type : ContainerType)
    (elems keys : List String) : V (r.build type elems keys) := by
  have hlookups : ∀ names : List String, ∀ v ∈ names.map r.lookup, V v :=
    fun names => List.forall_mem_map.mpr fun name _ => lookup_of_holds hV h name
  unfold Run.build
  simp only
  split
  · exact hV.setOf (hlookups _)
  · exact hV.dictOf (hlookups _) (hlookups _)
  · exact hV.ofElems (hlookups _) _

/-- No simple statement fails. -/
theorem Busy.interpretStmt (hV : a.Admits V U) (h : r.Busy a V U function) (body : BodyAnalysis σ) {s : Step}
    (hs : a.options.flowSensitive = true → s.function = function) {item : WorkItem} {stmt : Stmt}
    (hstmt : a.stmt? item = some stmt) (hsimple : stmt.isSimple = true) :
    ∃ r', r.interpretStmt a body s stmt = .ok r' ∧ r'.Busy a V U function := by
  have hC : Value.Closed V := hV.toClosed
  have hlookup : ∀ name, V (r.lookup name) := lookup_of_holds hC h.holds
  have hadvance : ∀ {x : Except Violation (Run σ)}, (∃ r₁, x = .ok r₁ ∧ r₁.Busy a V U function) →
      ∃ r', (x >>= fun r₁ => .ok (r₁.advance a s)) = .ok r' ∧ r'.Busy a V U function := by
    rintro x ⟨r₁, hr₁, hbusy⟩
    exact Except.exists_ok_bind hr₁ ⟨_, rfl, hbusy.advance hs⟩
  cases stmt with
  | call c => cases hsimple
  | classDef target name bases => cases hsimple
  | jump sense test label => exact ⟨_, rfl, h.branch hC hs sense test label⟩
  | goto label => exact ⟨_, rfl, h.jump hs label⟩
  | label name => exact h.label hC hs
  | assign target value => exact hadvance (h.assign hC s target (hlookup value))
  | const target l => exact hadvance (h.assign hC s target (hC.literal l))
  | build target type elems keys => exact hadvance (h.assign hC s target (build_of_holds hC h.holds _ _ _))
  | expr target _ => exact hadvance (h.assign hC s target hC.unknown)
  | yield target _ => exact hadvance (h.assign hC s target hC.unknown)
  | await target _ => exact hadvance (h.assign hC s target hC.unknown)
  | delete names =>
    refine hadvance ⟨_, rfl, h.withState (State.quiet_foldl_deleteVariable _ names) (h.holds.deleteVariables names) ?_⟩
    rw [State.flow_deleteVariables]
  | attrStore object attr value => exact hadvance ⟨_, rfl, h.attrStore hC object attr value⟩
  | attrLoad target object attr =>
    obtain ⟨hv, hbusy⟩ := h.attrLoad hV object attr
    exact hadvance (hbusy.assign hC s target hv)
  | subscriptStore object index value =>
    exact hadvance ⟨_, rfl, h.rebind object (hC.store (hlookup object) (hlookup value) (hlookup index))⟩
  | subscriptLoad target object index => exact hadvance (h.assign hC s target (hC.elements (hlookup object)))
  | ret value =>
    refine hadvance ⟨_, rfl, h.setReturn hC ?_⟩
    split
    · exact hC.noneConstant
    · exact hlookup value
  | raise value => exact hadvance ⟨_, rfl, h.addException hC (hlookup value)⟩
  | functionDef target name => exact hadvance (h.functionDef hC s target (hV.functions hstmt))

end Run

namespace State

variable {s s' : State}

theorem contents_noteContext (s : State) (c : Context) : (s.noteContext c).contents = s.contents := by
  unfold noteContext
  split <;> rfl

theorem exists_createContext (h : ∀ name, s.config.policy ≠ .other name) (site receiver : String) :
    ∃ c, s.createContext site receiver = .ok (c, s.noteContext c) := by
  have hderive : ∃ c, s.context.derive s.config.policy s.config.depth site receiver = .ok c := by
    unfold Context.derive
    split
    · exact ⟨_, rfl⟩
    · exact ⟨_, rfl⟩
    · rename_i name hname
      exact absurd hname (h name)
    · exact ⟨_, rfl⟩
  obtain ⟨c, hc⟩ := hderive
  exact ⟨c, createContext_eq_ok.mpr ⟨hc, rfl⟩⟩

theorem flow_bindParameters (s : State) (key : FrameKey) (bindings : List (String × Value)) :
    (bindings.foldl (fun s b => s.bindParameter key b.1 b.2) s).flow = s.flow := by
  induction bindings generalizing s with
  | nil => rfl
  | cons b rest ih =>
    rw [List.foldl_cons, ih]
    unfold bindParameter mapTop
    cases s.frames <;> rfl

theorem flow_enterFunction {fn : Function Value} {args : List Value} {site : String}
    {receiver : Option Receiver} {c : Context} (h : s.enterFunction fn args site receiver = .ok (c, s')) :
    s'.flow = s.flow := by
  unfold enterFunction at h
  obtain ⟨⟨c, s₁⟩, hcontext, h⟩ := Except.bind_eq_ok.mp h
  cases h
  obtain ⟨-, rfl⟩ := createContext_eq_ok.mp hcontext
  rw [flow_bindParameters]
  unfold mapTop
  split <;> exact ((widens_registerScope _ _ _ _).flow.trans (noteContext_flow s c))

end State

namespace Run

variable {σ : Type} {a : Analyzer} {V : Value → Prop} {U : HeapObject → Prop} {function : String} {r r' : Run σ}

theorem Busy.books (h : r.Busy a V U function) (hstate : r'.state = r.state) (horacle : r'.oracle = r.oracle)
    (hcalls : r'.calls = r.calls) : r'.Busy a V U function := by
  obtain ⟨⟨holds, scopes, policy, flow, oracle, sites, receivers⟩, seated, queue⟩ := h
  rw [← hstate] at holds scopes policy flow seated queue
  rw [← horacle] at oracle
  rw [← hcalls] at sites receivers
  exact ⟨⟨holds, scopes, policy, flow, oracle, sites, receivers⟩, seated, queue⟩

def edgeOf (r : Run σ) (s : Step) (c : Call) (fn : Function Value) (target : Context) : Edge :=
  ⟨s.function, fn.name, some (.call c), s.index, r.state.context, target⟩

/-- Recording a call changes the call graph and the contexts that are known. -/
theorem record_spec {s : Step} {c : Call} {fn : Function Value} {receiver : Option Receiver} {constructs : Bool}
    {target : Context} (h : r.record s c fn receiver constructs = .ok (target, r')) :
    r'.state.contents = r.state.contents ∧ r'.state.scopes = r.state.scopes ∧ r'.state.place = r.state.place ∧
      r'.state.config = r.state.config ∧ r'.state.flow = r.state.flow ∧ r'.oracle = r.oracle ∧
      r'.stats = r.stats ∧
      (r'.calls = r.calls ∨ r'.calls = r.calls ++ [⟨r.edgeOf s c fn target, receiver, constructs⟩]) := by
  unfold record at h
  obtain ⟨⟨target', t⟩, hcontext, h⟩ := Except.bind_eq_ok.mp h
  obtain ⟨r₁, hregister, h⟩ := Except.bind_eq_ok.mp h
  cases h
  obtain ⟨-, rfl⟩ := State.createContext_eq_ok.mp hcontext
  have hmoved := ((r.state.moves_noteContext target).trans
    (State.moves_noteContext _ (r.state.noteContext target).context)).trans (State.moves_noteContext _ target)
  unfold registerCall State.registerCall at hregister
  obtain ⟨⟨e, t'⟩, he, hregister⟩ := Except.bind_eq_ok.mp hregister
  cases he
  have hcontents : State.contents (((r.state.noteContext target).noteContext
      (r.state.noteContext target).context).noteContext target) = r.state.contents := by
    rw [State.contents_noteContext, State.contents_noteContext, State.contents_noteContext]
  simp only at hregister
  split at hregister <;> cases hregister <;>
    refine ⟨hcontents, by simp, by simp [State.place], hmoved.config, by simp, rfl, rfl, ?_⟩
  · exact Or.inl rfl
  · exact Or.inr (by simp [edgeOf])

theorem target_record {s : Step} {c : Call} {fn : Function Value} {receiver : Option Receiver} {constructs : Bool}
    {target : Context} (h : r.record s c fn receiver constructs = .ok (target, r')) :
    r.state.context.derive r.state.config.policy r.state.config.depth (callSiteText s.function s.index)
      ((receiver.map (·.id)).getD "") = .ok target := by
  unfold record at h
  obtain ⟨⟨target', t⟩, hcontext, h⟩ := Except.bind_eq_ok.mp h
  obtain ⟨r₁, -, h⟩ := Except.bind_eq_ok.mp h
  cases h
  exact (State.createContext_eq_ok.mp hcontext).1

theorem exists_record (h : r.Busy a V U function) (s : Step) (c : Call) (fn : Function Value)
    (receiver : Option Receiver) (constructs : Bool) :
    ∃ target r', r.record s c fn receiver constructs = .ok (target, r') := by
  obtain ⟨target, htarget⟩ := State.exists_createContext h.policy (callSiteText s.function s.index)
    ((receiver.map (·.id)).getD "")
  unfold record
  rw [htarget, Except.ok_bind]
  unfold registerCall State.registerCall
  simp only [Except.ok_bind]
  split
  · exact ⟨_, _, rfl⟩
  · exact ⟨_, _, rfl⟩

theorem Busy.record (h : r.Busy a V U function) {s : Step} {c : Call} {fn : Function Value}
    {receiver : Option Receiver} {constructs : Bool} {target : Context}
    (hsite : a.stmt? ⟨s.function, s.index⟩ = some (.call c)) (hreceiver : ∀ x, receiver = some x → x.Proper V)
    (hrecord : r.record s c fn receiver constructs = .ok (target, r')) : r'.Busy a V U function := by
  obtain ⟨hcontents, hscopes, hplace, hconfig, hflow, horacle, -, hcalls⟩ := record_spec hrecord
  have hnew : ∀ {q : CallRecord → Prop}, (∀ x ∈ r.calls, q x) →
      q ⟨r.edgeOf s c fn target, receiver, constructs⟩ → ∀ x ∈ r'.calls, q x := by
    intro q hold hadded x hx
    rcases hcalls with hcalls | hcalls
    · exact hold x (hcalls ▸ hx)
    · rw [hcalls, List.mem_append, List.mem_singleton] at hx
      rcases hx with hx | rfl
      · exact hold x hx
      · exact hadded
  refine ⟨⟨h.holds.of_contents hcontents, hscopes ▸ h.scopes, hconfig ▸ h.policy, hflow ▸ h.flow,
    horacle ▸ h.oracle, hnew h.sites ⟨c, hsite⟩,
    hnew h.receivers hreceiver⟩, ?_, hflow ▸ h.queue⟩
  exact h.seated.of_place hplace fun name hname => hscopes ▸ hname

theorem exists_enter (h : r.Busy a V U function) (fn : Function Value) (args : List Value)
    (receiver : Option Receiver) (caller : String) (index : Int) :
    ∃ r₁, r.enter a fn args receiver caller index = .ok r₁ := by
  obtain ⟨c, hc⟩ := State.exists_createContext (s := r.state.pushCall caller fn.name index r.state.context none)
    h.policy (callSiteText caller index) ((receiver.map (·.id)).getD "")
  unfold enter State.enterFunction
  simp only [hc, Except.ok_bind]
  exact ⟨_, rfl⟩

theorem Busy.enter (hV : Value.Closed V) (h : r.Busy a V U function) {fn : Function Value} {args : List Value}
    {receiver : Option Receiver} {caller : String} {index : Int} {r₁ : Run σ} (hargs : ∀ v ∈ args, V v)
    (hreceiver : ∀ x, receiver = some x → x.Proper V) (henter : r.enter a fn args receiver caller index = .ok r₁) :
    r₁.Busy a V U function := by
  obtain ⟨c, hentered⟩ := enterFunction_of_enter henter
  obtain ⟨hscopes, hseated, -, -⟩ := seated_enter henter
  obtain ⟨-, hcalls, -⟩ := ledger_enter henter
  have hflow : r₁.state.flow = r.state.flow := (State.flow_enterFunction hentered).trans rfl
  have hpushed : (r.state.pushCall caller fn.name index r.state.context none).frames =
      _ :: r.state.frames := rfl
  obtain ⟨_, _, hmoves⟩ := State.moves_enterFunction hpushed hentered
  have horacle : r₁.oracle = r.oracle := by
    unfold Run.enter at henter
    obtain ⟨x, -, henter⟩ := Except.bind_eq_ok.mp henter
    cases henter
    unfold Run.note
    split <;> rfl
  have hholds := (h.holds.pushCall hV caller fn.name index r.state.context none).enterFunction hV hpushed rfl hargs
    (fun x hx => (hreceiver x hx).value) hentered
  refine ⟨⟨hholds, fun name hname => hscopes name (h.scopes name hname), hmoves.config ▸ h.policy, hflow ▸ h.flow,
    horacle ▸ h.oracle, hcalls ▸ h.sites, hcalls ▸ h.receivers⟩, hseated, hflow ▸ h.queue⟩

theorem Busy.writeBack (hV : Value.Closed V) (h : r.Busy a V U function) (argument : String) {v : Value}
    (hv : V v) : (r.writeBack argument v).Busy a V U function := by
  unfold Run.writeBack
  simp only
  split
  · exact h
  · split
    · exact h
    · rename_i old hold
      split
      · exact h
      · refine h.rebind argument (hV.merge (h.holds.getVariable? hold) (hV.ofObjects ?_))
        refine List.forall_mem_map.mpr fun c hc => ?_
        obtain ⟨o, ho, hsome⟩ := List.mem_filterMap.mp hc
        rcases o with _ | _ | c' | _ | _ | _ | _ <;> cases hsome
        exact hV.object hv ho

theorem Busy.foldl_writeBack (hV : Value.Closed V) (h : r.Busy a V U function) {arguments : List (String × Value)}
    (hargs : ∀ b ∈ arguments, V b.2) :
    (arguments.foldl (fun r (name, v) => r.writeBack name v) r).Busy a V U function := by
  induction arguments generalizing r with
  | nil => exact h
  | cons b rest ih =>
    obtain ⟨hb, hrest⟩ := List.forall_mem_cons.mp hargs
    exact ih (h.writeBack hV b.1 hb) hrest

theorem parameterValues_of_holds (hV : Value.Closed V) (h : r.state.Holds V) (fn : Function Value)
    (receiver : Option Receiver) (n : Nat) : ∀ v ∈ r.parameterValues fn receiver n, V v := by
  unfold Run.parameterValues
  refine List.forall_mem_map.mpr fun p _ => ?_
  cases hv : r.state.getVariable? p with
  | none => exact hV.nil
  | some v => exact h.getVariable? hv

theorem Sound.setCurrent (h : r.Sound a V U) (name : String) (c : Context) :
    Sound a V U { r with state := r.state.setCurrent name c } := by
  refine ⟨h.holds.setCurrent name c, ?_, ?_, ?_, h.oracle, h.sites, h.receivers⟩
  · rw [State.scopes_setCurrent]
    exact h.scopes
  · rw [(r.state.moves_setCurrent name c).config]
    exact h.policy
  · rw [State.setCurrent_flow]
    exact h.flow

theorem Sound.withTracker (h : r.Sound a V U) {t : Tracker} (hgraphs : t.graphs = r.state.flow.graphs)
    (hsnapshots : t.snapshots = r.state.flow.snapshots) (hwaits : t.Waits) :
    Sound a V U { r with state.flow := t } := by
  exact ⟨h.holds.withFlow (hsnapshots ▸ h.holds.snapshots) hwaits, h.scopes, h.policy, h.flow.of_graphs hgraphs,
    h.oracle, h.sites, h.receivers⟩

theorem Busy.withClass (hV : Value.Closed V) (h : r.Busy a V U function) {name : String} (hname : ClassName V name)
    (bases : List String) : (r.withClass a name bases).Busy a V U function := by
  have hwidens := r.state.widens_registerScope name .classBody r.state.scopeName
  refine ⟨⟨h.holds.registerClass hV hname _, fun n hn => hwidens.scopes n (h.scopes n hn), ?_, ?_, h.oracle,
    h.sites, h.receivers⟩, ?_, ?_⟩
  · show ∀ n, (r.state.registerClass name (a.basesOf name bases)).config.policy ≠ .other n
    rw [(r.state.moves_registerClass name _).config]
    exact h.policy
  · show (r.state.registerScope name .classBody r.state.scopeName).flow.Mirrors a
    rw [hwidens.flow]
    exact h.flow
  · exact h.seated.of_place (Prod.ext hwidens.scope hwidens.context) hwidens.scopes
  · show ∀ item ∈ (r.state.registerScope name .classBody r.state.scopeName).flow.queue, item.function = function
    rw [hwidens.flow]
    exact h.queue

end Run

end AbstractFlow
