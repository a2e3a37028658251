import AbstractFlow.Proofs.Analysis.Guide
import AbstractFlow.Proofs.Analysis.Outset
import AbstractFlow.Proofs.Value.Joins

/-! # The course of an analysis

Between the analyses of whole bodies nothing is on the call stack and nothing waits for control flow. From
there modules, classes and functions are analysed, recorded calls are made and callers are analysed again. All
of this follows a guide, from the start of an analysis to its end.
-/
namespace AbstractFlow

namespace Options

theorem policy_of_validate {o : Options} {policy : Policy} (h : o.validate = .ok policy) (name : String) :
    policy ≠ .other name := by
  unfold validate at h
  split at h
  · cases h
  · rename_i p hp
    have hpolicy : p = policy := by
      split at h
      · cases h
      split at h
      · cases h
      split at h
      · cases h
      split at h <;> cases h
      rfl
    subst hpolicy
    unfold Policy.parse at hp
    split at hp
    · cases hp
      exact Policy.noConfusion
    · cases hp
    · rename_i hnot
      cases hp
      exact fun heq => hnot name heq

theorem recursion_of_validate {o : Options} {policy : Policy} (h : o.validate = .ok policy) :
    0 < o.maxRecursionDepth.toNat := by
  unfold validate at h
  split at h
  · cases h
  · split at h
    · cases h
    split at h
    · cases h
    split at h
    · cases h
    · omega

end Options

namespace Hierarchy

variable {V : Value → Prop} {h : Hierarchy}

theorem Holds.directSubs (hh : h.Holds V) (name : String) :
    ∀ c ∈ h.directSubs name, V [.instanceObject ⟨c, "", []⟩] := by
  intro c hc
  rw [Hierarchy.directSubs, Names.mem_sort] at hc
  cases hsubs : h.subs.get? name with
  | none => simp [hsubs] at hc
  | some subs =>
    rw [hsubs, Option.getD_some] at hc
    exact hh.subs _ (Table.mem_of_get? hsubs) c hc

theorem Holds.reach (hh : h.Holds V) (fuel : Nat) {queue seen out : List String}
    (hqueue : ∀ c ∈ queue, V [.instanceObject ⟨c, "", []⟩]) (hout : ∀ c ∈ out, V [.instanceObject ⟨c, "", []⟩]) :
    ∀ c ∈ h.reach fuel queue seen out, V [.instanceObject ⟨c, "", []⟩] := by
  induction fuel generalizing queue seen out with
  | zero => exact hout
  | succ fuel ih =>
    cases queue with
    | nil => exact hout
    | cons next queue =>
      obtain ⟨hnext, hqueue⟩ := List.forall_mem_cons.mp hqueue
      rw [Hierarchy.reach]
      split
      · exact ih hqueue hout
      · exact ih (List.forall_mem_append.mpr ⟨hqueue, hh.directSubs next⟩)
          (List.forall_mem_append.mpr ⟨hout, List.forall_mem_singleton.mpr hnext⟩)

theorem Holds.subclasses (hh : h.Holds V) (name : String) :
    ∀ c ∈ h.subclasses name, V [.instanceObject ⟨c, "", []⟩] :=
  hh.reach _ (hh.directSubs name) (by simp)

end Hierarchy

namespace Analyzer

variable {σ : Type} {a : Analyzer} {V : Value → Prop}

theorem receivers_of_holds (hV : Value.Closed V) {s : State} (hs : s.Holds V) {parent : String}
    (hparent : V [.instanceObject ⟨parent, "", []⟩]) (binding : Binding) : V (receivers s parent binding) := by
  refine hV.ofObjects fun o ho => ?_
  obtain ⟨c, hc, ho⟩ := List.mem_filterMap.mp ho
  cases binding with
  | onInstance =>
    cases ho
    rcases List.mem_cons.mp hc with rfl | hc
    · exact hparent
    · exact hs.hierarchy.subclasses _ c hc
  | onClass =>
    obtain ⟨cls, hcls, rfl⟩ := Option.map_eq_some_iff.mp ho
    exact (hs.class? hcls).2
  | _ => cases ho

theorem analyzeFunction_eq (r : Run σ) (scope : Scope) :
    a.analyzeFunction r scope = uncalled r scope >>= fun r₁ => a.body scope.name 0 r₁ >>= fun r₂ =>
      Run.exit { r₂ with analyzed := scope.name :: r₂.analyzed }
        (r₂.state.returnValue?.getD Value.noneConstant) >>= fun x => .ok x.2 := by
  unfold analyzeFunction uncalled Run.exit
  simp only [bind_assoc]
  rfl

end Analyzer

theorem Run.propagate_eq {σ : Type} (r : Run σ) (a : Analyzer) (e : Edge) :
    r.propagate a e = a.body e.caller (resumption a e) (r.resumed a e) >>= fun r₂ =>
      r₂.exit (r₂.state.returnValue?.getD []) >>= fun x => .ok x.2 := by
  unfold propagate exit resumed resumption
  simp only [bind_assoc]
  rfl

namespace Run

variable {σ : Type} {a : Analyzer}

theorem processCall_eq (r : Run σ) (index : Nat) (record : CallRecord) :
    r.processCall a index record =
      match r.memo.contains record.edge.key, r.callable? a record.edge with
      | false, some (c, fn) =>
        (r.atCaller a record.edge).invoke a a.body fn c.args (c.args.map (r.atCaller a record.edge).lookup)
            record.receiver record.edge.caller record.edge.index >>= fun x =>
          if c.target = "" || record.constructs then .ok (x.2.requeue index)
          else x.2.state.mergeVariable c.target x.1 >>= fun y => .ok (requeue { x.2 with state := y.2 } index)
      | _, _ => .ok r.skip := rfl

theorem outer_processCall {r r' : Run σ} {index : Nat} {record : CallRecord}
    (h : r.processCall a index record = .ok r') : r'.state.flow.outer = r.state.flow.outer := by
  rcases processCall_cases h with ⟨rfl, -⟩ | ⟨d, v, r₁, r₂, hdelivery, hinvoke, hquiet, rfl⟩
  · rfl
  · obtain ⟨-, -, -, hsender, -⟩ := delivery?_eq_some hdelivery
    have hinvoked := (comesBack_invoke (a.comesBack_runBody _) (a.keepsStack_runBody _) hinvoke).outer
    have hmade : r₂.state.flow.outer = r.state.flow.outer := by
      rw [hquiet.state.moves.outer, hinvoked, hsender]
      unfold atCaller
      rw [(State.moves_setCurrent _ _ _).outer, note_state]
    unfold requeue
    split <;> exact hmade

theorem function?_of_callable? {r : Run σ} {e : Edge} {c : Call} {fn : Function Value}
    (h : r.callable? a e = some (c, fn)) :
    r.state.function? e.callee = some fn ∧ (a.scope? e.callee).isSome = true := by
  unfold callable? at h
  split at h
  · rename_i scope _ hfn hscope
    cases h
    exact ⟨hfn, by rw [hscope, Option.isSome_some]⟩
  · cases h

end Run

namespace Guide

variable {a : Analyzer} {σ : Type} {G : Guide a σ}

/-- What holds between the analyses of whole bodies. -/
structure Idle (G : Guide a σ) (h : List (Run.Moment σ)) (r : Run σ) : Prop where
  around : ∀ function, G.Around function [] h r
  outer : r.state.flow.outer = []

variable (hG : G.Lawful) {function : String} {cs : List String} {h : List (Run.Moment σ)} {r : Run σ}

include hG

theorem Within.bindParameters (hr : G.Within function cs h r) {name : String} {scope : Scope}
    (hscope : a.scope? name = some scope) (binding : Binding) :
    ∃ s, Analyzer.bindParameters scope binding r.state = .ok s ∧ r.state.Quiet s ∧
      G.Within function cs h { r with state := s } := by
  have hC : Value.Closed G.V := hG.admits.toClosed
  unfold Analyzer.bindParameters
  generalize scope.params.zipIdx = params
  -- Parameter by parameter: each binding is quiet, and keeps up what holds within the body.
  induction params generalizing r with
  | nil => exact ⟨r.state, rfl, .refl _, hr⟩
  | cons p params ih =>
    obtain ⟨p, i⟩ := p
    have hbound : ∃ s, (if r.state.isLocal p then .ok r.state
        else r.state.setVariable p (Value.orUnknown
          (if i = 0 then Analyzer.receivers r.state scope.parent binding else []))) = .ok s ∧ r.state.Quiet s ∧
        G.Within function cs h { r with state := s } := by
      split
      · exact ⟨r.state, rfl, .refl _, hr⟩
      · obtain ⟨current, hcurrent⟩ := hr.busy.writeScope
        have hv : G.V (Value.orUnknown
            (if i = 0 then Analyzer.receivers r.state scope.parent binding else [])) := by
          refine hC.orUnknown ?_
          split
          · exact Analyzer.receivers_of_holds hC hr.busy.holds (hG.admits.parents hscope) binding
          · exact hC.nil
        have hset := State.setVariable_of_scope hcurrent p (Value.orUnknown
          (if i = 0 then Analyzer.receivers r.state scope.parent binding else []))
        have hquiet := State.quiet_setVariable hset
        exact ⟨_, hset, hquiet, hr.quiet hG (r.quiet_state hquiet)
          (hr.busy.withState hquiet (hr.busy.holds.setMemory hv _ _) rfl)⟩
    obtain ⟨s, hs, hquiet, hr'⟩ := hbound
    obtain ⟨s', hs', hquiet', hr''⟩ := ih hr'
    rw [List.foldlM_cons]
    exact Except.exists_ok_bind hs ⟨s', hs', hquiet.trans hquiet', hr''⟩

theorem Around.pushCall (hr : G.Around function [] h r) {name : String} (hname : (a.scope? name).isSome = true)
    {c : Context} (hc : G.C c) :
    G.Within function [name] h { r with
      state := (r.state.pushCall "" name 0 r.state.context r.state.scope).setCurrent name c } ∧
    ((r.state.pushCall "" name 0 r.state.context r.state.scope).setCurrent name c).place = (some name, c) := by
  have hframes : r.state.frames = [] := List.map_eq_nil_iff.mp hr.callees
  have hpushed : G.Around function [name] h
      { r with state := r.state.pushCall "" name 0 r.state.context r.state.scope } := by
    refine ⟨⟨hr.sound.holds.pushCall hG.admits.toClosed _ _ _ _ _, hr.sound.scopes, hr.sound.policy, hr.sound.flow,
      hr.sound.oracle, hr.sound.sites, hr.sound.receivers⟩, hr.queue, ?_, hG.pushes hr.keeps hframes name⟩
    exact congrArg (name :: ·) hr.callees
  have hknown : (r.state.pushCall "" name 0 r.state.context r.state.scope).scopes.contains name = true :=
    hr.sound.scopes name hname
  refine ⟨(hpushed.setCurrent hG name hc).within (State.seated_setCurrent hknown c), ?_⟩
  rw [State.place, State.setCurrent_scope _ _ hknown, State.setCurrent_context]

theorem Around.uncalled (hr : G.Around function [] h r) {scope : Scope}
    (hscope : a.scope? scope.name = some scope) :
    ∃ r₁, Analyzer.uncalled r scope = .ok r₁ ∧ G.Within function [scope.name] h r₁ ∧
      r₁.state.place = (some scope.name, .root) ∧ r₁.state.flow.outer = r.state.flow.outer := by
  obtain ⟨hpushed, hplace⟩ := hr.pushCall hG (by rw [hscope, Option.isSome_some]) hG.root
  obtain ⟨s, hs, hquiet, hbound⟩ := hpushed.bindParameters hG hscope
    ((r.state.function? scope.name).getD default).binding
  refine ⟨{ r with state := s }, Except.bind_eq_ok.mpr ⟨s, hs, rfl⟩, hbound, ?_, ?_⟩
  · exact Eq.trans (congrArg State.place hquiet.outline :) hplace
  · exact hquiet.moves.outer.trans (State.moves_setCurrent _ _ _).outer

omit hG in
theorem Around.books (hG : G.Lawful) {r' : Run σ} (hr : G.Around function cs h r) (hstate : r'.state = r.state)
    (horacle : r'.oracle = r.oracle) (hcalls : r'.calls = r.calls)
    (hdeepest : r'.stats.deepestRecursion = r.stats.deepestRecursion) : G.Around function cs h r' := by
  obtain ⟨⟨holds, scopes, policy, flow, oracle, sites, receivers⟩, queue, callees, keeps⟩ := hr
  have hkeeps := hG.books keeps hstate hcalls hdeepest
  rw [← hstate] at holds scopes policy flow queue callees
  rw [← horacle] at oracle
  rw [← hcalls] at sites receivers
  exact ⟨⟨holds, scopes, policy, flow, oracle, sites, receivers⟩, queue, callees, hkeeps⟩

theorem Idle.note (hr : G.Idle h r) (line : Unit → String) : G.Idle h (r.note a line) :=
  ⟨fun function => (hr.around function).note hG line, by rw [Run.note_state, hr.outer]⟩

theorem Idle.books {r' : Run σ} (hr : G.Idle h r) (hstate : r'.state = r.state) (horacle : r'.oracle = r.oracle)
    (hcalls : r'.calls = r.calls) (hdeepest : r'.stats.deepestRecursion = r.stats.deepestRecursion) :
    G.Idle h r' :=
  ⟨fun function => (hr.around function).books hG hstate horacle hcalls hdeepest, hstate ▸ hr.outer⟩

omit hG in
theorem Idle.of_around {ms : List (Run.Moment σ)} {x : Except Violation (Run σ)} (hr : G.Idle h r)
    (hx : ∀ function, Follows G.Holds G.E h ms x (G.Around function []))
    (houter : ∀ r', x = .ok r' → r'.state.flow.outer = r.state.flow.outer) : Follows G.Holds G.E h ms x G.Idle :=
  (Follows.forall_result hx).mono fun r' hr' hidle => ⟨hidle, (houter r' hr').trans hr.outer⟩

theorem Idle.runScope (hr : G.Idle h r) {name : String} (hname : (a.scope? name).isSome = true) {c : Context}
    (hc : G.C c) :
    Follows G.Holds G.E h (Run.runScopeMoments (a.bodyMoments a.depthBound) r name c) (r.runScope a.body name c)
      G.Idle :=
  hr.of_around (fun function => (hr.around function).runScope hG (nested_runBody hG _) hname hc (hG.fitsFirst hname).1)
    fun _ hrun => (Run.comesBack_runScope (a.comesBack_runBody _) hrun).outer

theorem Idle.analyzeModule (hr : G.Idle h r) {scope : Scope} (hscope : a.scope? scope.name = some scope) :
    Follows G.Holds G.E h (a.analyzeModuleMoments r scope) (a.analyzeModule r scope) G.Idle := by
  unfold Analyzer.analyzeModuleMoments Analyzer.analyzeModule
  split
  · exact (hr.note hG _).runScope hG (by rw [hscope, Option.isSome_some]) hG.root
  · exact .ok hr

/-- The only call on the stack: its body is analysed, and it is left with a value that is filed. -/
theorem Idle.outermost (hr : G.Idle h r) {r₁ : Run σ} {name : String} {c : Context}
    (hr₁ : ∀ function, G.Within function [name] h r₁) (houter : r₁.state.flow.outer = r.state.flow.outer)
    (hname : (a.scope? name).isSome = true) (hplace : r₁.state.place = (some name, c)) (start : Int) {w : Value}
    (hw : G.V w) (mark : List String → List String) {left : Value → Run σ → Run.Moment σ}
    (hrun : ∀ v r, (left v r).run = r) (hfiled : ∀ v r, (left v r).filed? = some (⟨name, c⟩, v)) :
    Follows G.Holds G.E h
      (.entered r₁ :: (a.bodyMoments a.depthBound name start r₁ ++
        Except.following (a.body name start r₁) fun r₂ =>
          Except.following (Run.exit { r₂ with analyzed := mark r₂.analyzed } (r₂.state.returnValue?.getD w))
            fun x => [left x.1 x.2]))
      (a.body name start r₁ >>= fun r₂ =>
        Run.exit { r₂ with analyzed := mark r₂.analyzed } (r₂.state.returnValue?.getD w) >>= fun x => .ok x.2)
      G.Idle := by
  -- That the queues around are left as they were shows only in the result, so it is proved apart from the moments.
  refine Follows.mono (Q := fun h' r' => ∀ function, G.Around function [] h' r')
    (.forall_result fun function => ?_) fun r' hdone hidle => ⟨hidle, ?_⟩
  · have hentered : G.Within function [name] (h ++ [.entered r₁]) r₁ :=
      ⟨(hr₁ function).busy, (hr₁ function).callees, hG.observes (hr₁ function).keeps rfl rfl⟩
    refine .cons hentered.holds
      ((nested_runBody hG _ start hentered (hG.fitsFirst hname).2).bind fun r₂ hbody hr₂ => ?_)
    have hmarked : G.Within function [name] _ { r₂ with analyzed := mark r₂.analyzed } :=
      hr₂.books hG rfl rfl rfl rfl
    have hv := V_returnValue? hr₂.busy.holds hw
    obtain ⟨f, s, hexit, hsound, hqueue, hcallees⟩ := hmarked.exit hG hv
    have hplace₂ : r₂.state.place = (some name, c) :=
      ((a.comesBack_runBody _ hbody).place hentered.busy.seated).trans hplace
    have hleft := hG.leaves (r := { r₂ with analyzed := mark r₂.analyzed })
      (m := left (r₂.state.returnValue?.getD w) { r₂ with analyzed := mark r₂.analyzed, state := s })
      hmarked.keeps hv hplace₂ hexit (.refl _) (hrun _ _) (hfiled _ _)
    unfold Run.exit
    simp only [hexit, Except.ok_bind, Except.following]
    refine .cons ?_ (.ok ⟨hsound, hqueue, hcallees, hleft⟩)
    rw [hrun]
    exact ⟨hsound, hleft⟩
  · obtain ⟨r₂, hbody, hdone⟩ := Except.bind_eq_ok.mp hdone
    obtain ⟨⟨v, r₃⟩, hexit, hdone⟩ := Except.bind_eq_ok.mp hdone
    cases hdone
    obtain ⟨⟨f, s⟩, hleft, hdone⟩ := Except.bind_eq_ok.mp hexit
    cases hdone
    obtain ⟨-, -, hleft, -⟩ := Run.place_exitFunction hleft
    exact hleft.trans (((a.comesBack_runBody _ hbody).outer.trans houter).trans hr.outer)

theorem Idle.analyzeFunction (hr : G.Idle h r) {scope : Scope} (hscope : a.scope? scope.name = some scope) :
    Follows G.Holds G.E h (a.analyzeFunctionMoments r scope) (a.analyzeFunction r scope) G.Idle := by
  have hname : (a.scope? scope.name).isSome = true := by rw [hscope, Option.isSome_some]
  obtain ⟨r₁, hr₁, -, hplace, houter⟩ := (hr.around scope.name).uncalled hG hscope
  have hwithin : ∀ function, G.Within function [scope.name] h r₁ := by
    intro function
    obtain ⟨r₂, hr₂, hwithin, -⟩ := (hr.around function).uncalled hG hscope
    rw [hr₁] at hr₂
    cases hr₂
    exact hwithin
  rw [Analyzer.analyzeFunction_eq]
  unfold Analyzer.analyzeFunctionMoments
  rw [hr₁]
  exact hr.outermost hG hwithin houter hname hplace 0 hG.admits.toClosed.noneConstant (scope.name :: ·)
    (fun _ _ => rfl) fun _ _ => rfl

theorem Idle.analyzeRest (hr : G.Idle h r) {scope : Scope} (hscope : a.scope? scope.name = some scope) :
    Follows G.Holds G.E h (a.analyzeRestMoments r scope) (a.analyzeRest r scope) G.Idle := by
  unfold Analyzer.analyzeRestMoments Analyzer.analyzeRest
  split
  · exact .ok hr
  · cases scope.kind with
    | classBody =>
      have hnoted := hr.note hG fun _ => "\n### ANALYZING CLASS " ++ scope.name ++ " ###"
      refine hnoted.of_around (fun function => ?_) fun r' hrun => ?_
      · exact (hnoted.around function).runClassBody hG (nested_runBody hG _) fun hname => (hG.fitsFirst hname).1
      · exact ((Run.bodyRule_comesBack (a.comesBack_runBody _) (a.keepsStack_runBody _)).classBody hrun).outer
    | function => exact (hr.note hG _).analyzeFunction hG hscope
    | module => exact .ok hr

theorem Idle.explore (hr : G.Idle h r) (ha : a.Distinct) :
    Follows G.Holds G.E h (a.exploreMoments r) (a.explore r) G.Idle := by
  have hscopes : ∀ scope ∈ a.scopes.map (·.2), a.scope? scope.name = some scope :=
    List.forall_mem_map.mpr fun e he => ha.scope?_of_mem he
  refine Follows.bind (.foldlM (q := fun scope => a.scope? scope.name = some scope) ?_ hr hscopes)
    fun r₁ _ hr₁ => .foldlM (q := fun scope => a.scope? scope.name = some scope) ?_ hr₁ hscopes
  · exact fun h r scope hscope hr => hr.analyzeModule hG hscope
  · exact fun h r scope hscope hr => hr.analyzeRest hG hscope

theorem Idle.propagate (hr : G.Idle h r) {record : CallRecord} (hrecord : record ∈ r.calls) :
    Follows G.Holds G.E h (r.propagateMoments a record.edge) (r.propagate a record.edge) G.Idle := by
  obtain ⟨c, hsite⟩ := (hr.around "").sound.sites record hrecord
  have hname : (a.scope? record.edge.caller).isSome = true := Analyzer.isSome_scope? hsite
  have hnoted : G.Idle h _ := (hr.note hG fun _ =>
    "\n### REPROPAGATING " ++ record.edge.caller ++ " AFTER " ++ toString record.edge.index ++ " ###")
  have hc := hG.callers (hr.around "").keeps record hrecord
  rw [Run.propagate_eq]
  exact hnoted.outermost hG (fun function => ((hnoted.around function).pushCall hG hname hc).1)
    (State.moves_setCurrent _ _ _).outer hname ((hnoted.around "").pushCall hG hname hc).2 _
    hG.admits.toClosed.nil id (fun _ _ => rfl) fun _ _ => rfl

theorem Around.requeue (hr : G.Around function cs h r) (index : Nat) : G.Around function cs h (r.requeue index) := by
  unfold Run.requeue
  split
  · exact hr
  · exact hr.books hG rfl rfl rfl rfl

theorem Within.deliver (hr : G.Within function cs h r) {v : Value} (hv : G.V v) (target : String)
    (dropped : Bool) (index : Nat) :
    ∃ r', (if dropped then .ok (r.requeue index)
      else r.state.mergeVariable target v >>= fun y => .ok (Run.requeue { r with state := y.2 } index)) =
        Except.ok (ε := Violation) r' ∧ G.Around function cs h r' := by
  split
  · exact ⟨_, rfl, hr.around.requeue hG index⟩
  · obtain ⟨scope, hscope⟩ := hr.busy.writeScope
    obtain ⟨w, s, hs⟩ := State.exists_mergeVariable hscope target v
    have hflow : s.flow = r.state.flow := by
      unfold State.mergeVariable at hs
      rw [hscope] at hs
      cases hs
      rfl
    have hquiet := State.quiet_mergeVariable hs
    have hbusy := hr.busy.withState hquiet (hr.busy.holds.mergeVariable hG.admits.toClosed hv hs) (by rw [hflow])
    rw [hs]
    exact ⟨_, rfl, ((hr.quiet hG (r.quiet_state hquiet) hbusy).around).requeue hG index⟩

theorem Idle.processCall (hr : G.Idle h r) (hmax : 0 < a.maxRecursionDepth) (index : Nat) {record : CallRecord}
    (hrecord : record ∈ r.calls) :
    Follows G.Holds G.E h (r.processCallMoments a record) (r.processCall a index record) G.Idle := by
  have hC : Value.Closed G.V := hG.admits.toClosed
  obtain ⟨c, hsite⟩ := (hr.around "").sound.sites record hrecord
  have hcaller : (a.scope? record.edge.caller).isSome = true := Analyzer.isSome_scope? hsite
  refine hr.of_around (fun function => ?_) fun r' hdone => Run.outer_processCall hdone
  have hskip : G.Around function [] h r.skip := (hr.around function).books hG rfl rfl rfl rfl
  unfold Run.processCallMoments
  rw [Run.processCall_eq]
  cases r.memo.contains record.edge.key with
  | true => exact .ok hskip
  | false =>
    cases hcallable : r.callable? a record.edge with
    | none => exact .ok hskip
    | some callee =>
      obtain ⟨c, fn⟩ := callee
      obtain ⟨hfn, hscope⟩ := Run.function?_of_callable? hcallable
      have hname : fn.name = record.edge.callee := ((hr.around "").sound.holds.function? hfn).1
      rw [← hname] at hscope
      have hsender : G.Within function [] h (r.atCaller a record.edge) := by
        have hnoted := Around.note hG (r := { r with memo := record.edge.key :: r.memo })
          ((hr.around function).books hG rfl rfl rfl rfl) fun _ =>
            "\n### PROPAGATING EDGE " ++ record.edge.text ++ " ###"
        refine (hnoted.setCurrent hG record.edge.caller (hG.callers (hr.around "").keeps record hrecord)).within ?_
        exact State.seated_setCurrent (hnoted.sound.scopes _ hcaller) _
      -- The stack is empty between bodies, so no limit keeps the callee from being entered.
      have hdepth : (r.atCaller a record.edge).state.callDepth fn.name < a.maxRecursionDepth := by
        rw [State.callDepth_eq, hsender.callees]
        exact hmax
      refine (hsender.invoke hG (a.keepsStack_runBody _) (a.comesBack_runBody _) (nested_runBody hG _) hdepth
        ⟨_, hsite⟩ ?_ ((hr.around "").sound.receivers record hrecord) (hG.fitsFirst hscope).2).bind_ok fun x _ hx => ?_
      · exact List.forall_mem_map.mpr fun name _ => Run.lookup_of_holds hC hsender.busy.holds name
      · obtain ⟨v, r₁⟩ := x
        obtain ⟨hv, hr₁⟩ := hx
        exact hr₁.deliver hG hv c.target _ index

theorem Idle.processPending (hr : G.Idle h r) (hmax : 0 < a.maxRecursionDepth) (item : PendingCall) :
    Follows G.Holds G.E h (r.processPendingMoments a item) (r.processPending a item) G.Idle := by
  have hcounted : G.Idle h { r with stats.edgesProcessed := r.stats.edgesProcessed + 1 } :=
    hr.books hG rfl rfl rfl rfl
  unfold Run.processPendingMoments Run.processPending
  dsimp only
  cases hrecord : r.calls[item.index]? with
  | none => exact .ok hcounted
  | some record =>
    have hmem : record ∈ r.calls := List.mem_of_getElem? hrecord
    dsimp only
    split
    · exact hcounted.propagate hG hmem
    · exact hcounted.processCall hG hmax item.index hmem

/-- Calls are taken from the queue until none waits, or until they were too many. -/
theorem Idle.solve (hr : G.Idle h r) (hmax : 0 < a.maxRecursionDepth) (fuel : Nat) :
    Follows G.Holds (fun v => G.E v ∨ v = .endless) h (r.solveMoments a fuel) (Run.solve a fuel r) G.Idle := by
  induction fuel generalizing h r with
  | zero =>
    unfold Run.solveMoments Run.solve
    cases r.queue with
    | nil => exact .ok hr
    | cons item rest => exact .error (Or.inr rfl)
  | succ fuel ih =>
    unfold Run.solveMoments Run.solve
    cases r.queue with
    | nil => exact .ok hr
    | cons item rest =>
      have htaken : G.Idle h { r with queue := rest } := hr.books hG rfl rfl rfl rfl
      exact ((htaken.processPending hG hmax item).mono_error fun _ => Or.inl).bind fun r₁ _ hr₁ => ih hr₁

theorem Idle.analysis (hr : G.Idle h r) (ha : a.Distinct) (hmax : 0 < a.maxRecursionDepth) (bound : Nat) :
    Follows G.Holds (fun v => G.E v ∨ v = .endless) h
      (a.exploreMoments r ++ Except.following (a.explore r) fun r => r.solveMoments a bound)
      (a.explore r >>= fun r => Run.solve a bound r) G.Idle :=
  ((hr.explore hG ha).mono_error fun _ => Or.inl).bind fun _ _ hr₁ => hr₁.solve hG hmax bound

omit hG in
theorem idle_started (hV : a.Admits G.V G.U) (ha : a.Distinct) (hvalues : ∀ b ∈ a.bindings, G.V b.value)
    {oracle : Option (Oracle σ)} {start : σ} (horacle : Guarded.Says G.U ⟨oracle, start, []⟩)
    (hstarted : a.started oracle start = some r)
    (hJ : r.state.Fresh → r.state.config.depth = a.options.contextDepth → r.calls = [] → r.stats = {} → G.J [] r) :
    G.Idle [] r := by
  obtain ⟨policy, state, hpolicy, hstate, rfl⟩ := Analyzer.started_eq_some hstarted
  obtain ⟨hsound, hfresh, hconfig⟩ := Analyzer.sound_startState ha hV hvalues
    (Options.policy_of_validate hpolicy) hstate horacle
  refine ⟨fun function => ⟨hsound, ?_, ?_, hJ hfresh ?_ rfl rfl⟩, hfresh.outer⟩
  · simp [hfresh.queue]
  · simp [State.callees, hfresh.frames]
  · rw [hconfig]
    rfl

end Guide

end AbstractFlow
