import AbstractFlow.Proofs.State.Frames
import AbstractFlow.Proofs.State.Scopes
import AbstractFlow.Proofs.Value.Closed

/-! # What a state contains

Values stand in the variables, on the heap, in classes and functions, in summaries, in the calls that wait
and in the snapshots of control flow. A state holds a property if all of these values have it; besides, every
binding that a call has to restore is one of a frame that exists, and every statement that waits exists.
Each operation on a state keeps a closed property, if the values that it is given have it.
-/
namespace AbstractFlow

namespace Memory

variable {V : Value → Prop} {m : Memory}

def Holds (V : Value → Prop) (m : Memory) : Prop := ∀ e ∈ m, Attrs.Holds V e.2

theorem Holds.frame (h : Holds V m) (k : FrameKey) : Attrs.Holds V (m.frame k) := by
  unfold Memory.frame
  cases hk : Table.get? m k with
  | none => exact Dict.each_nil
  | some snap => exact h _ (Table.mem_of_get? hk)

theorem Holds.get? (h : Holds V m) {k : FrameKey} {name : String} {v : Value}
    (hv : Memory.get? m k name = some v) : V v := (h.frame k).get? hv

theorem Holds.set (h : Holds V m) {v : Value} (hv : V v) (k : FrameKey) (name : String) :
    Holds V (m.set k name v) := Table.forall_insert h ((h.frame k).insert hv)

theorem Holds.delete (h : Holds V m) (k : FrameKey) (name : String) : Holds V (m.delete k name) := by
  unfold Memory.delete
  split
  · exact Table.forall_insert h fun e he => h.frame k e (List.mem_of_mem_filter he)
  · exact h

theorem contains_set {k k' : FrameKey} (h : m.contains k' = true) (name : String) (v : Value) :
    (m.set k name v).contains k' = true := by
  rw [Memory.set, Table.contains_insert, h, Bool.or_true]

theorem contains_delete {k k' : FrameKey} (h : m.contains k' = true) (name : String) :
    (m.delete k name).contains k' = true := by
  unfold Memory.delete
  split
  · rw [Table.contains_insert, h, Bool.or_true]
  · exact h

theorem Holds.restore (h : Holds V m) {saved : Dict (Option Value)}
    (hsaved : ∀ e ∈ saved, ∀ v, e.2 = some v → V v) (k : FrameKey) :
    Holds V (saved.foldl (fun (m : Memory) e => match e.2 with
        | some v => m.set k e.1 v
        | none => m) m) ∧
      ∀ k', m.contains k' = true → (saved.foldl (fun (m : Memory) e => match e.2 with
        | some v => m.set k e.1 v
        | none => m) m).contains k' = true := by
  induction saved generalizing m with
  | nil => exact ⟨h, fun _ hk => hk⟩
  | cons e saved ih =>
    obtain ⟨he, hsaved⟩ := List.forall_mem_cons.mp hsaved
    rw [List.foldl_cons]
    split
    · rename_i v hv
      obtain ⟨hrest, hkept⟩ := ih (h.set (he v hv) k e.1) hsaved
      exact ⟨hrest, fun k' hk => hkept k' (contains_set hk _ _)⟩
    · exact ih h hsaved

end Memory

structure CallFrame.Holds (V : Value → Prop) (f : CallFrame) : Prop where
  returned : ∀ v, f.returned = some v → V v
  exception : V f.exception
  saved : ∀ e ∈ f.saved, ∀ v, e.2 = some v → V v

/-- A class of this name has a property, and so have its instances. -/
structure ClassName (V : Value → Prop) (name : String) : Prop where
  classes : ∀ bases, V [.classObject ⟨name, bases, [], []⟩]
  instances : V [.instanceObject ⟨name, "", []⟩]

structure Hierarchy.Holds (V : Value → Prop) (h : Hierarchy) : Prop where
  classes : ∀ e ∈ h.classes, e.2.name = e.1 ∧ V [.classObject e.2]
  subs : ∀ e ∈ h.subs, ∀ name ∈ e.2, V [.instanceObject ⟨name, "", []⟩]

namespace Tracker

def Has (t : Tracker) (item : WorkItem) : Prop :=
  ∃ g, t.graph? item.function = some g ∧ 0 ≤ item.index ∧ item.index < g.length

def Waits (t : Tracker) : Prop := ∀ queue ∈ t.queue :: t.outer, ∀ item ∈ queue, t.Has item

variable {t : Tracker}

theorem Waits.of_idle (hqueue : t.queue = []) (houter : t.outer = []) : t.Waits := by
  simp [Tracker.Waits, hqueue, houter]

theorem Waits.enqueue (h : t.Waits) (function : String) (index : Int) :
    (t.enqueue function index).Waits := by
  rw [enqueue_eq]
  split
  · rename_i haccepts
    obtain ⟨hrange, hnew⟩ := (t.accepts_iff function index).mp haccepts
    have hhas : t.Has ⟨function, index⟩ := (t.inRange_iff function index).mp hrange
    obtain ⟨hqueue, houter⟩ := List.forall_mem_cons.mp h
    refine List.forall_mem_cons.mpr ⟨?_, houter⟩
    rw [queue_put hnew]
    exact List.forall_mem_append.mpr ⟨hqueue, List.forall_mem_singleton.mpr hhas⟩
  · exact h

theorem Waits.enqueueSuccessors (h : t.Waits) (function : String) (index : Int) :
    (t.enqueueSuccessors function index).Waits := by
  have hfold : ∀ (js : List Nat) (t : Tracker), t.Waits →
      (js.foldl (fun t (j : Nat) => t.enqueue function j) t).Waits := by
    intro js
    induction js with
    | nil => exact fun t ht => ht
    | cons j js ih => exact fun t ht => ih _ (ht.enqueue function j)
  unfold Tracker.enqueueSuccessors
  split
  · exact hfold _ t h
  · exact h

theorem Waits.saveSnapshot (h : t.Waits) (p : Point) (snap : Snapshot) : (t.saveSnapshot p snap).Waits := by
  unfold Tracker.saveSnapshot
  split <;> exact h

section Queue

variable {function : String} (h : ∀ item ∈ t.queue, item.function = function) (index : Int)

include h

theorem queue_enqueue_of : ∀ item ∈ (t.enqueue function index).queue, item.function = function := by
  rw [queue_enqueue_eq]
  split
  · exact List.forall_mem_append.mpr ⟨h, List.forall_mem_singleton.mpr rfl⟩
  · exact h

theorem queue_enqueueSuccessors_of :
    ∀ item ∈ (t.enqueueSuccessors function index).queue, item.function = function := by
  have hfold : ∀ (js : List Nat) (t : Tracker), (∀ item ∈ t.queue, item.function = function) →
      ∀ item ∈ (js.foldl (fun t (j : Nat) => t.enqueue function j) t).queue, item.function = function := by
    intro js
    induction js with
    | nil => exact fun t ht => ht
    | cons j js ih => exact fun t ht => ih _ (queue_enqueue_of ht j)
  unfold Tracker.enqueueSuccessors
  split
  · exact hfold _ t h
  · exact h

end Queue

theorem snapshots_enqueue (t : Tracker) (function : String) (index : Int) :
    (t.enqueue function index).snapshots = t.snapshots := by
  unfold Tracker.enqueue
  split <;> rfl

theorem snapshots_enqueueSuccessors (t : Tracker) (function : String) (index : Int) :
    (t.enqueueSuccessors function index).snapshots = t.snapshots := by
  have hfold : ∀ (js : List Nat) (t : Tracker),
      (js.foldl (fun t (j : Nat) => t.enqueue function j) t).snapshots = t.snapshots := by
    intro js
    induction js with
    | nil => exact fun t => rfl
    | cons j js ih => exact fun t => (ih _).trans (t.snapshots_enqueue function j)
  unfold Tracker.enqueueSuccessors
  split
  · exact hfold _ t
  · rfl

theorem queue_saveSnapshot (t : Tracker) (p : Point) (snap : Snapshot) :
    (t.saveSnapshot p snap).queue = t.queue := by
  unfold Tracker.saveSnapshot
  split <;> rfl

theorem forall_saveSnapshot {V : Value → Prop} (hmerge : ∀ {v w : Value}, V v → V w → V (v.merge w))
    (h : ∀ e ∈ t.snapshots, Attrs.Holds V e.2) {snap : Snapshot} (hsnap : Attrs.Holds V snap) {p : Point} :
    ∀ e ∈ (t.saveSnapshot p snap).snapshots, Attrs.Holds V e.2 := by
  unfold Tracker.saveSnapshot
  split
  · rename_i known hknown
    exact Table.forall_insert h
      (Dict.Each.mergeWith (fun _ _ _ => hmerge) (h _ (Table.mem_of_get? hknown)) hsnap)
  · exact Table.forall_insert h hsnap

theorem Waits.push (h : t.Waits) : t.push.Waits :=
  List.forall_mem_cons.mpr ⟨by simp [Tracker.push, Tracker.queue], h⟩

theorem Waits.pop? (h : t.Waits) {t' : Tracker} {current : WorkItem} (hpop : t.pop? current = some t') :
    t'.Waits := by
  obtain ⟨segment, suspended, hsuspended, rfl⟩ := pop?_eq_some.mp hpop
  have hrest := (List.forall_mem_cons.mp h).2
  rw [outer, hsuspended] at hrest
  exact hrest

theorem Waits.dequeue? (h : t.Waits) {t' : Tracker} {item : WorkItem} (hitem : t.dequeue? = some (item, t')) :
    t'.Waits ∧ t.Has item := by
  obtain ⟨hqueue, rfl⟩ := dequeue?_eq_some.mp hitem
  obtain ⟨hwaits, houter⟩ := List.forall_mem_cons.mp h
  rw [hqueue] at hwaits
  obtain ⟨hhas, hrest⟩ := List.forall_mem_cons.mp hwaits
  exact ⟨List.forall_mem_cons.mpr ⟨hrest, houter⟩, hhas⟩

end Tracker

/-- All values that a state contains have a property. -/
structure State.Holds (V : Value → Prop) (s : State) : Prop where
  memory : s.memory.Holds V
  heap : ∀ e ∈ s.heap, Attrs.Holds V e.2
  functions : ∀ e ∈ s.functions, e.2.name = e.1 ∧ V [.function e.2]
  hierarchy : s.hierarchy.Holds V
  scopes : ∀ e ∈ s.scopes, e.2.kind = .classBody → ClassName V e.1
  summaries : ∀ e ∈ s.summaries, V e.2
  frames : ∀ f ∈ s.frames, f.Holds V
  returned : ∀ v, s.returned = some v → V v
  exception : V s.exception
  snapshots : ∀ e ∈ s.flow.snapshots, Attrs.Holds V e.2
  /-- A binding is restored only in a frame that exists. -/
  kept : ∀ f ∈ s.frames, ∀ e ∈ f.saved, e.2.isSome = true → s.memory.contains f.calleeKey = true
  waits : s.flow.Waits

namespace State

variable {V : Value → Prop} {s s' : State} {v : Value}

theorem Holds.withMemory (h : s.Holds V) {m : Memory} (hm : m.Holds V)
    (hkept : ∀ k, s.memory.contains k = true → m.contains k = true) : Holds V { s with memory := m } :=
  { h with memory := hm, kept := fun f hf e he hsome => hkept _ (h.kept f hf e he hsome) }

theorem Holds.withFlow (h : s.Holds V) {t : Tracker} (hsnapshots : ∀ e ∈ t.snapshots, Attrs.Holds V e.2)
    (hwaits : t.Waits) : Holds V { s with flow := t } :=
  { h with snapshots := hsnapshots, waits := hwaits }

theorem Holds.setMemory (h : s.Holds V) (hv : V v) (k : FrameKey) (name : String) :
    Holds V { s with memory := s.memory.set k name v } :=
  h.withMemory (h.memory.set hv k name) fun _ hk => Memory.contains_set hk name v

theorem Holds.find? (h : s.Holds V) {scope name : String} {k : FrameKey}
    (hv : s.find? scope name = some (k, v)) : V v := by
  unfold State.find? at hv
  simp only at hv
  split at hv
  · rename_i w hw
    cases hv
    exact h.memory.get? hw
  · split at hv
    · cases hv
    · obtain ⟨w, hw, heq⟩ := Option.map_eq_some_iff.mp hv
      cases heq
      exact h.memory.get? hw

theorem Holds.getVariable? (h : s.Holds V) {name : String} (hv : s.getVariable? name = some v) : V v := by
  obtain ⟨⟨k, w⟩, hfound, rfl⟩ := Option.map_eq_some_iff.mp hv
  obtain ⟨scope, -, hscope⟩ := List.exists_of_findSome?_eq_some hfound
  exact h.find? hscope

theorem Holds.setIn (h : s.Holds V) (hv : V v) {scope : Option String} {name : String}
    (hset : s.setIn scope name v = .ok s') : s'.Holds V := by
  unfold State.setIn at hset
  split at hset
  · cases hset
    exact h.setMemory hv _ _
  · cases hset

theorem Holds.setVariable (h : s.Holds V) (hv : V v) {name : String} (hset : s.setVariable name v = .ok s') :
    s'.Holds V := h.setIn hv hset

theorem Holds.mergeVariable (hV : Value.Closed V) (h : s.Holds V) (hv : V v) {name : String} {w : Value}
    (hmerge : s.mergeVariable name v = .ok (w, s')) : s'.Holds V := by
  unfold State.mergeVariable at hmerge
  split at hmerge
  · cases hmerge
  · rename_i scope hscope
    obtain ⟨t, ht, heq⟩ := Except.map_eq_ok.mp hmerge
    cases heq
    refine h.setIn (hV.merge ?_ hv) ht
    cases hfound : s.find? scope name with
    | none => exact hV.nil
    | some e => exact h.find? hfound

theorem Holds.updateVariable? (h : s.Holds V) (hv : V v) {name : String}
    (hupdate : s.updateVariable? name v = some s') : s'.Holds V := by
  obtain ⟨b, -, rfl⟩ := Option.map_eq_some_iff.mp hupdate
  exact h.setMemory hv _ _

theorem Holds.deleteVariable (h : s.Holds V) (name : String) : (s.deleteVariable name).Holds V := by
  unfold State.deleteVariable
  split
  · exact h.withMemory (h.memory.delete _ _) fun _ hk => Memory.contains_delete hk name
  · exact h

theorem Holds.deleteVariables (h : s.Holds V) (names : List String) :
    (names.foldl State.deleteVariable s).Holds V := by
  induction names generalizing s with
  | nil => exact h
  | cons name names ih => exact ih (h.deleteVariable name)

theorem Holds.snapshot (h : s.Holds V) : Attrs.Holds V s.snapshot := by
  unfold State.snapshot State.currentFrame
  split
  · exact h.memory.frame _
  · exact Dict.each_nil

theorem Holds.restore (h : s.Holds V) {snap : Snapshot} (hsnap : Attrs.Holds V snap)
    (hrestore : s.restore snap = .ok s') : s'.Holds V := by
  unfold State.restore at hrestore
  induction snap generalizing s with
  | nil =>
    cases hrestore
    exact h
  | cons e snap ih =>
    rw [List.foldlM_cons] at hrestore
    obtain ⟨t, ht, hrest⟩ := Except.bind_eq_ok.mp hrestore
    exact ih (h.setVariable (hsnap e List.mem_cons_self) ht) (fun x hx => hsnap x (List.mem_cons_of_mem _ hx)) hrest

theorem flow_restore {snap : Snapshot} (h : s.restore snap = .ok s') : s'.flow = s.flow := by
  unfold State.restore at h
  induction snap generalizing s with
  | nil =>
    cases h
    rfl
  | cons e snap ih =>
    rw [List.foldlM_cons] at h
    obtain ⟨t, ht, hrest⟩ := Except.bind_eq_ok.mp h
    rw [ih hrest]
    unfold State.setVariable State.setIn at ht
    split at ht <;> cases ht
    rfl

theorem flow_deleteVariables (s : State) (names : List String) :
    (names.foldl State.deleteVariable s).flow = s.flow := by
  induction names generalizing s with
  | nil => rfl
  | cons name names ih =>
    rw [List.foldl_cons, ih]
    unfold State.deleteVariable
    split <;> rfl

theorem flow_storeHeapAttr (s : State) (identity name : String) (v : Value) (strong : Bool) :
    (s.storeHeapAttr identity name v strong).flow = s.flow := by
  unfold State.storeHeapAttr
  split <;> rfl

theorem flow_addMethod (s : State) (className name : String) (v : Value) :
    (s.addMethod className name v).flow = s.flow := by
  unfold State.addMethod
  simp only
  split <;> rfl

theorem Holds.heapAttrs (h : s.Holds V) (identity : String) : Attrs.Holds V (s.heapAttrs identity) := by
  unfold State.heapAttrs
  cases hk : s.heap.get? identity with
  | none => exact Dict.each_nil
  | some as => exact h.heap _ (Table.mem_of_get? hk)

theorem Holds.heapAttr? (h : s.Holds V) {identity name : String} (hv : s.heapAttr? identity name = some v) :
    V v := (h.heapAttrs identity).get? hv

theorem Holds.storeHeapAttr (hV : Value.Closed V) (h : s.Holds V) (hv : V v) (identity name : String)
    (strong : Bool) : (s.storeHeapAttr identity name v strong).Holds V := by
  unfold State.storeHeapAttr
  split
  · exact h
  · refine { h with heap := Table.forall_insert h.heap ((h.heapAttrs identity).insert ?_) }
    split
    · rename_i old hold
      split
      · exact hv
      · exact hV.merge ((h.heapAttrs identity).get? hold) hv
    · exact hv

theorem Holds.function? (h : s.Holds V) {name : String} {f : Function Value} (hf : s.function? name = some f) :
    f.name = name ∧ V [.function f] := h.functions _ (Dict.mem_of_get? hf)

theorem Holds.class? (h : s.Holds V) {name : String} {c : Class Value} (hc : s.hierarchy.class? name = some c) :
    c.name = name ∧ V [.classObject c] := h.hierarchy.classes _ (Table.mem_of_get? hc)

theorem Holds.ownClassAttr? (hV : Value.Closed V) (h : s.Holds V) {className name : String}
    (hv : s.ownClassAttr? className name = some v) : V v := by
  unfold State.ownClassAttr? at hv
  simp only [Option.or_eq_some_iff, Option.bind_eq_some_iff] at hv
  rcases hv with (⟨c, hc, hattr | ⟨-, hmethod⟩⟩ | ⟨-, hvariable⟩) | ⟨-, hheap⟩
  · exact (hV.attrs (h.class? hc).2 List.mem_cons_self).get? hattr
  · exact (hV.methods (h.class? hc).2 List.mem_cons_self).get? hmethod
  · exact h.memory.get? hvariable
  · exact h.heapAttr? hheap

theorem Holds.lookupAttr? (hV : Value.Closed V) (h : s.Holds V) {className name : String}
    (hv : s.lookupAttr? className name = some v) : V v := by
  obtain ⟨c, -, hc⟩ := List.exists_of_findSome?_eq_some hv
  exact h.ownClassAttr? hV hc

theorem Holds.objectAttr? (hV : Value.Closed V) (h : s.Holds V) {o : Object} (ho : V [o]) {name : String}
    (hv : s.objectAttr? o name = some v) : V v := by
  have hown : ∀ w, Dict.get? o.attrs name = some w → V w :=
    fun w hw => (hV.attrs ho List.mem_cons_self).get? hw
  unfold State.objectAttr? at hv
  simp only at hv
  split at hv
  · exact hV.attr? (h.lookupAttr? hV) ho List.mem_cons_self hv
  · rename_i w hw _
    cases hv
    exact hown _ hw
  · rename_i own w hstored
    cases hv
    have hw : V w := by
      split at hstored
      · cases hstored
      · exact h.heapAttr? hstored
    refine hV.merge ?_ hw
    cases hattr : Dict.get? o.attrs name with
    | none => exact hV.nil
    | some u => exact hown u hattr

def contents (s : State) : State :=
  { s with config := ⟨.unset, 0, false⟩, callGraph := .empty, global := none, contexts := [], context := .root,
           scope := none, flow := { s.flow with visits := [], current := default } }

theorem Holds.of_contents (h : s.Holds V) (heq : s'.contents = s.contents) : s'.Holds V := by
  have hmemory : s'.memory = s.memory := (congrArg State.memory heq :)
  have hflow : s'.contents.flow = s.contents.flow := congrArg State.flow heq
  have hsnapshots : s'.flow.snapshots = s.flow.snapshots := (congrArg Tracker.snapshots hflow :)
  have hgraphs : s'.flow.graphs = s.flow.graphs := (congrArg Tracker.graphs hflow :)
  have hqueue : s'.flow.queue = s.flow.queue := (congrArg Tracker.queue hflow :)
  have houter : s'.flow.outer = s.flow.outer := (congrArg Tracker.outer hflow :)
  have hframes : s'.frames = s.frames := (congrArg State.frames heq :)
  refine ⟨hmemory ▸ h.memory, ?_, ?_, ?_, ?_, ?_, hframes ▸ h.frames, ?_, ?_, hsnapshots ▸ h.snapshots, ?_, ?_⟩
  · exact (congrArg State.heap heq :) ▸ h.heap
  · exact (congrArg State.functions heq :) ▸ h.functions
  · exact (congrArg State.hierarchy heq :) ▸ h.hierarchy
  · exact (congrArg State.scopes heq :) ▸ h.scopes
  · exact (congrArg State.summaries heq :) ▸ h.summaries
  · exact (congrArg State.returned heq :) ▸ h.returned
  · exact (congrArg State.exception heq :) ▸ h.exception
  · rw [hframes, hmemory]
    exact h.kept
  · unfold Tracker.Waits Tracker.Has Tracker.graph?
    rw [hqueue, houter, hgraphs]
    exact h.waits

theorem Holds.noteContext (h : s.Holds V) (c : Context) : (s.noteContext c).Holds V := by
  unfold State.noteContext
  split
  · exact h
  · exact h.of_contents rfl

theorem Holds.setCurrent (h : s.Holds V) (name : String) (c : Context) : (s.setCurrent name c).Holds V := by
  unfold State.setCurrent
  refine Holds.noteContext ?_ c
  exact h.of_contents rfl

theorem Holds.addScope (h : s.Holds V) {name : String} {kind : ScopeKind}
    (hname : kind = .classBody → ClassName V name) : (s.addScope name kind).Holds V := by
  unfold State.addScope
  split
  · exact h
  · exact { h with scopes := Table.forall_insert h.scopes hname }

theorem Holds.noteGlobal (h : s.Holds V) (name : String) (kind : ScopeKind) :
    (s.noteGlobal name kind).Holds V := by
  unfold State.noteGlobal
  split
  · exact h.of_contents rfl
  · exact h

theorem Holds.adopt (h : s.Holds V) (name parent : String) : (s.adopt name parent).Holds V := by
  unfold State.adopt
  split
  · rename_i entry hentry
    split
    · have hknown := h.scopes _ (Table.mem_of_get? hentry)
      exact { h with scopes := Table.forall_insert h.scopes hknown }
    · exact h
  · exact h

theorem Holds.registerScope (h : s.Holds V) {name : String} {kind : ScopeKind}
    (hname : kind = .classBody → ClassName V name) (parent : String) :
    (s.registerScope name kind parent).Holds V := by
  unfold State.registerScope
  have hadded := h.addScope hname
  generalize s.addScope name kind = t at hadded
  refine Holds.noteGlobal ?_ name kind
  simp only
  split
  · refine Holds.adopt ?_ name parent
    split
    · exact hadded
    · refine Holds.noteGlobal (hadded.addScope fun hkind => ?_) parent .module
      cases hkind
  · exact hadded

end State

namespace Hierarchy

variable {V : Value → Prop} {h : Hierarchy} {c : Class Value}

theorem Holds.addBase (hh : h.Holds V) {name : String} (hname : V [.instanceObject ⟨name, "", []⟩])
    (base : String) : (h.addBase name base).Holds V := by
  unfold Hierarchy.addBase
  simp only
  split
  · exact hh
  · refine ⟨hh.classes, Table.forall_insert hh.subs (List.forall_mem_append.mpr ⟨?_, ?_⟩)⟩
    · cases hsubs : h.subs.get? base with
      | none => simp
      | some names => exact hh.subs _ (Table.mem_of_get? hsubs)
    · exact List.forall_mem_singleton.mpr hname

theorem Holds.register (hV : Value.Closed V) (hh : h.Holds V) (hc : V [.classObject c])
    (hname : V [.instanceObject ⟨c.name, "", []⟩]) : (h.register c).Holds V := by
  have hfold : ∀ (bases : List String) (t : Hierarchy), t.Holds V →
      (bases.foldl (fun (t : Hierarchy) b => t.addBase c.name b) t).Holds V := by
    intro bases
    induction bases with
    | nil => exact fun t ht => ht
    | cons b bases ih => exact fun t ht => ih _ (ht.addBase hname b)
  have hadd : ∀ d : Class Value, d.name = c.name → V [.classObject d] →
      (d.bases.foldl (fun (t : Hierarchy) b => t.addBase d.name b)
        { h with classes := h.classes.insert d.name d }).Holds V := by
    intro d hd hdV
    rw [hd]
    exact hfold d.bases _ ⟨Table.forall_insert hh.classes ⟨hd, hdV⟩, hh.subs⟩
  unfold Hierarchy.register
  cases hknown : h.class? c.name with
  | none => exact hadd c rfl hc
  | some known =>
    obtain ⟨hkname, hkV⟩ := hh.classes _ (Table.mem_of_get? hknown)
    exact hadd (known.mergeWith Value.merge c) hkname (hV.joinClasses hkV hc hkname)

end Hierarchy

namespace State

variable {V : Value → Prop} {s s' : State} {v : Value}

theorem Holds.registerClass (hV : Value.Closed V) (h : s.Holds V) {name : String} (hname : ClassName V name)
    (bases : List String) : (s.registerClass name bases).Holds V := by
  have hscoped : (s.registerScope name .classBody s.scopeName).Holds V := h.registerScope (fun _ => hname) _
  exact { hscoped with hierarchy := hscoped.hierarchy.register hV (hname.classes bases) hname.instances }

theorem Holds.className (h : s.Holds V) {name : String} (hclass : s.isClassScope name = true) :
    ClassName V name := by
  unfold State.isClassScope at hclass
  cases hentry : s.scopes.get? name with
  | none => simp [hentry] at hclass
  | some entry =>
    rw [hentry, Option.any_some, decide_eq_true_eq] at hclass
    exact h.scopes _ (Table.mem_of_get? hentry) hclass

theorem Holds.addMethod (hV : Value.Closed V) (h : s.Holds V) {className : String}
    (hname : ClassName V className) (hv : V v) (name : String) : (s.addMethod className name v).Holds V := by
  have hknown : ∀ t : Hierarchy, t.Holds V → ∀ c, t.class? className = some c →
      (t.update (c.withMethod name v)).Holds V := by
    intro t ht c hc
    obtain ⟨hcname, hcV⟩ := ht.classes _ (Table.mem_of_get? hc)
    have hcontains : t.classes.contains (c.withMethod name v).name = true := by
      rw [show (c.withMethod name v).name = className from hcname]
      exact Table.contains_of_mem (Table.mem_of_get? hc)
    unfold Hierarchy.update
    rw [if_pos hcontains]
    exact ⟨Table.forall_insert ht.classes ⟨rfl, hV.withMethod hcV hv name⟩, ht.subs⟩
  have hregistered := h.hierarchy.register hV (hname.classes []) hname.instances
  unfold State.addMethod
  simp only
  split
  · rename_i c hc
    refine { h with hierarchy := hknown _ ?_ c hc }
    split
    · exact h.hierarchy
    · exact hregistered
  · exact h

theorem Holds.registerFunction (hV : Value.Closed V) (h : s.Holds V) {f : Function Value}
    (hf : V [.function f]) : (s.registerFunction f).Holds V := by
  have hadd : ∀ g : Function Value, g.name = f.name → V [.function g] →
      Holds V { s with functions := Dict.insert s.functions g.name g } := by
    intro g hg hgV
    rw [hg]
    have hfunctions := Dict.Each.insert (p := fun n (g : Function Value) => g.name = n ∧ V [.function g])
      h.functions (show g.name = f.name ∧ V [.function g] from ⟨hg, hgV⟩)
    exact { h with functions := hfunctions }
  unfold State.registerFunction
  simp only
  split
  · rename_i known hknown
    obtain ⟨hname, hkV⟩ := h.function? hknown
    exact hadd _ hname (hV.joinFunctions hkV hf hname)
  · exact hadd f rfl hf

theorem Holds.pushCall (hV : Value.Closed V) (h : s.Holds V) (caller callee : String) (index : Int) (c : Context)
    (scope : Option String) : (s.pushCall caller callee index c scope).Holds V :=
  { h with
    frames := List.forall_mem_cons.mpr ⟨⟨by simp, hV.nil, by simp⟩, h.frames⟩
    kept := List.forall_mem_cons.mpr ⟨by simp, h.kept⟩ }

/-- The innermost call may change, if what it has to restore stands in a frame that exists. -/
theorem Holds.withTop (h : s.Holds V) {top top' : CallFrame} {rest : List CallFrame}
    (hframes : s.frames = top :: rest) (htop : top'.Holds V)
    (hkept : ∀ e ∈ top'.saved, e.2.isSome = true → s.memory.contains top'.calleeKey = true) :
    Holds V { s with frames := top' :: rest } := by
  have hrest : ∀ {f : CallFrame}, f ∈ rest → f ∈ s.frames := fun hf => hframes ▸ List.mem_cons_of_mem _ hf
  exact { h with
    frames := List.forall_mem_cons.mpr ⟨htop, fun f hf => h.frames f (hrest hf)⟩
    kept := List.forall_mem_cons.mpr ⟨hkept, fun f hf => h.kept f (hrest hf)⟩ }

theorem Holds.top (h : s.Holds V) {top : CallFrame} {rest : List CallFrame} (hframes : s.frames = top :: rest) :
    top.Holds V ∧ ∀ e ∈ top.saved, e.2.isSome = true → s.memory.contains top.calleeKey = true :=
  have hmem : top ∈ s.frames := hframes ▸ List.mem_cons_self
  ⟨h.frames top hmem, h.kept top hmem⟩

/-- A parameter is bound in the frame in which the innermost call has to restore it. -/
theorem Holds.bindParameter (hV : Value.Closed V) (h : s.Holds V) (hv : V v) {top : CallFrame}
    {rest : List CallFrame} (hframes : s.frames = top :: rest) (name : String) :
    (s.bindParameter top.calleeKey name v).Holds V ∧
      ∃ saved, (s.bindParameter top.calleeKey name v).frames = { top with saved } :: rest := by
  obtain ⟨htop, hkept⟩ := h.top hframes
  have hexists : (Memory.get? s.memory top.calleeKey name).isSome = true →
      s.memory.contains top.calleeKey = true := by
    intro hsome
    unfold Memory.get? Memory.frame at hsome
    cases hk : Table.get? s.memory top.calleeKey with
    | none =>
      rw [hk] at hsome
      cases hsome
    | some snap => exact Table.contains_of_mem (Table.mem_of_get? hk)
  simp only [State.bindParameter, mapTop_of_frames hframes]
  split
  · exact ⟨Holds.setMemory (h.withTop hframes htop hkept) (hV.orUnknown hv) _ _, top.saved, rfl⟩
  · have hsaved : ∀ e ∈ Dict.insert top.saved name (Memory.get? s.memory top.calleeKey name), ∀ w,
        e.2 = some w → V w :=
      Dict.Each.insert (p := fun _ o => ∀ w, o = some w → V w) htop.saved fun w hw => h.memory.get? hw
    have hremembers : CallFrame.Holds V
        { top with saved := Dict.insert top.saved name (Memory.get? s.memory top.calleeKey name) } :=
      ⟨htop.returned, htop.exception, hsaved⟩
    refine ⟨Holds.setMemory (h.withTop hframes hremembers ?_) (hV.orUnknown hv) _ _, _, rfl⟩
    exact Dict.Each.insert
      (p := fun _ (o : Option Value) => o.isSome = true → s.memory.contains top.calleeKey = true) hkept hexists

theorem Holds.bindParameters (hV : Value.Closed V) (h : s.Holds V) {top : CallFrame} {rest : List CallFrame}
    (hframes : s.frames = top :: rest) {bindings : List (String × Value)} (hbindings : ∀ b ∈ bindings, V b.2) :
    (bindings.foldl (fun s b => s.bindParameter top.calleeKey b.1 b.2) s).Holds V := by
  induction bindings generalizing s top with
  | nil => exact h
  | cons b bindings ih =>
    obtain ⟨hb, hbindings⟩ := List.forall_mem_cons.mp hbindings
    obtain ⟨hbound, saved, hframes'⟩ := h.bindParameter hV hb hframes b.1
    have hrest := ih hbound hframes' hbindings
    exact hrest

/-- The arguments of a call and its receiver are what the parameters are bound to. -/
theorem forall_parameterBindings (hV : Value.Closed V) {fn : Function Value} {args : List Value}
    {receiver : Option Receiver} (hargs : ∀ v ∈ args, V v) (hreceiver : ∀ r, receiver = some r → V r.value) :
    ∀ b ∈ parameterBindings fn args receiver, V b.2 := by
  have hplain : ∀ params : List String, ∀ b ∈ params.zipIdx.map fun x =>
      (x.1, args.getD x.2 Value.noneConstant), V b.2 := by
    intro params b hb
    obtain ⟨⟨p, i⟩, -, rfl⟩ := List.mem_map.mp hb
    show V (args.getD i Value.noneConstant)
    rw [List.getD_eq_getElem?_getD]
    cases harg : args[i]? with
    | none => exact hV.noneConstant
    | some v => exact hargs v (List.mem_of_getElem? harg)
  unfold parameterBindings
  simp only
  split
  · exact List.forall_mem_cons.mpr ⟨hreceiver _ rfl, hplain _⟩
  · exact List.forall_mem_cons.mpr ⟨hreceiver _ rfl, hplain _⟩
  · exact hplain _

theorem Holds.enterFunction (hV : Value.Closed V) (h : s.Holds V) {top : CallFrame} {rest : List CallFrame}
    (hframes : s.frames = top :: rest) (hsaved : top.saved = []) {fn : Function Value} {args : List Value}
    {site : String} {receiver : Option Receiver} {c : Context} (hargs : ∀ v ∈ args, V v)
    (hreceiver : ∀ r, receiver = some r → V r.value)
    (henter : s.enterFunction fn args site receiver = .ok (c, s')) : s'.Holds V := by
  unfold State.enterFunction at henter
  obtain ⟨⟨c, s₁⟩, hcontext, henter⟩ := Except.bind_eq_ok.mp henter
  cases henter
  have hmoves := (moves_createContext hcontext).trans (s₁.moves_registerScope fn.name .function (s₁.global.getD ""))
  obtain ⟨-, rfl⟩ := createContext_eq_ok.mp hcontext
  have hscoped : ((s.noteContext c).registerScope fn.name .function ((s.noteContext c).global.getD "")).Holds V :=
    (h.noteContext c).registerScope (by simp) _
  generalize (s.noteContext c).registerScope fn.name .function ((s.noteContext c).global.getD "") = t at *
  generalize hplace : { t with scope := some fn.name, context := c } = placed
  have hplaced : placed.Holds V := hscoped.of_contents (hplace ▸ rfl)
  have hframes' : placed.frames = top :: rest := hplace ▸ hmoves.frames.trans hframes
  obtain ⟨htop, -⟩ := hplaced.top hframes'
  have hcallee : CallFrame.Holds V { top with calleeKey := placed.frameKey fn.name c } :=
    ⟨htop.returned, htop.exception, htop.saved⟩
  have hentered := hplaced.withTop hframes' hcallee (by simp [hsaved])
  rw [mapTop_of_frames hframes']
  exact hentered.bindParameters hV rfl (forall_parameterBindings hV hargs hreceiver)

/-- The innermost call can be left: there is a frame for all that it has remembered. -/
theorem Holds.exists_exitFunction (h : s.Holds V) {f : CallFrame} {rest : List CallFrame}
    (hframes : s.frames = f :: rest) (value : Option Value) : ∃ s', s.exitFunction value = .ok (f, s') := by
  unfold State.exitFunction
  rw [hframes]
  dsimp only
  split
  · rename_i hmissing
    simp only [Bool.and_eq_true, List.any_eq_true, Bool.not_eq_true'] at hmissing
    obtain ⟨⟨e, he, hsome⟩, hmissing⟩ := hmissing
    rw [(h.top hframes).2 e he hsome] at hmissing
    cases hmissing
  · exact ⟨_, rfl⟩

/-- Leaving a function restores what the innermost call has remembered. -/
theorem Holds.exitFunction (hV : Value.Closed V) (h : s.Holds V) {value : Option Value} {f : CallFrame}
    (hvalue : ∀ v, value = some v → V v) (hexit : s.exitFunction value = .ok (f, s')) : s'.Holds V := by
  unfold State.exitFunction at hexit
  split at hexit
  · cases hexit
  · rename_i top rest hframes
    split at hexit <;> cases hexit
    obtain ⟨htop, -⟩ := h.top hframes
    have hreturned : V ((value.or f.returned).getD Value.noneConstant) := by
      cases value with
      | some v => exact hvalue v rfl
      | none =>
        cases hreturned : f.returned with
        | none => exact hV.noneConstant
        | some v => exact htop.returned v hreturned
    have hsummaries : ∀ e ∈ (s.addSummary ⟨s.scopeName, s.context⟩
        ((value.or f.returned).getD Value.noneConstant)).summaries, V e.2 := by
      refine Table.forall_insert h.summaries (hV.merge ?_ hreturned)
      cases hknown : s.summaries.get? ⟨s.scopeName, s.context⟩ with
      | none => exact hV.nil
      | some v => exact h.summaries _ (Table.mem_of_get? hknown)
    obtain ⟨hrestored, hkept⟩ := h.memory.restore htop.saved f.calleeKey
    have hrest : ∀ {x : CallFrame}, x ∈ rest → x ∈ s.frames := fun hx => hframes ▸ List.mem_cons_of_mem _ hx
    exact { h with
      memory := hrestored
      summaries := hsummaries
      frames := fun x hx => h.frames x (hrest hx)
      kept := fun x hx e he hsome => hkept _ (h.kept x (hrest hx) e he hsome)
      waits := h.waits }

theorem Holds.setReturn (hV : Value.Closed V) (h : s.Holds V) (hv : V v) : (s.setReturn v).Holds V := by
  have hjoin : ∀ known : Option Value, (∀ w, known = some w → V w) → V ((known.getD []).merge v) := by
    intro known hknown
    cases known with
    | none => exact hV.merge hV.nil hv
    | some w => exact hV.merge (hknown w rfl) hv
  unfold State.setReturn
  split
  · refine { h with returned := ?_ }
    rintro w ⟨⟩
    exact hjoin _ h.returned
  · rename_i top rest hframes
    obtain ⟨htop, hkept⟩ := h.top hframes
    refine h.withTop hframes ⟨?_, htop.exception, htop.saved⟩ hkept
    rintro w ⟨⟩
    exact hjoin _ htop.returned

theorem Holds.addException (hV : Value.Closed V) (h : s.Holds V) (hv : V v) : (s.addException v).Holds V := by
  unfold State.addException
  split
  · exact { h with exception := hV.merge h.exception hv }
  · rename_i top rest hframes
    obtain ⟨htop, hkept⟩ := h.top hframes
    exact h.withTop hframes ⟨htop.returned, hV.merge htop.exception hv, htop.saved⟩ hkept

theorem Holds.returnValue? (h : s.Holds V) (hv : s.returnValue? = some v) : V v := by
  unfold State.returnValue? at hv
  split at hv
  · exact h.returned v hv
  · rename_i top rest hframes
    exact (h.top hframes).1.returned v hv

theorem Holds.returnSummary? (h : s.Holds V) {fn : String} {c : Context} (hv : s.returnSummary? fn c = some v) :
    V v := h.summaries _ (Table.mem_of_get? hv)

end State

end AbstractFlow
