import AbstractFlow.Proofs.Collection.Dict
import AbstractFlow.Proofs.Collection.Table
import AbstractFlow.Proofs.Flow.Queues
import AbstractFlow.State.Calls
import AbstractFlow.State.Objects

/-! # What changes of a state leave alone

Binding variables, storing attributes and handing control on leave alone the calls being analysed, the
scopes, the call graph and where the state stands: its outline. Going to another scope and registering
scopes leave alone what is left of the outline without them: its core. Functions that are known stay as
they are in either case.
-/
namespace AbstractFlow

theorem Except.bind_eq_ok {ε α β : Type} {x : Except ε α} {f : α → Except ε β} {b : β} :
    x >>= f = .ok b ↔ ∃ a, x = .ok a ∧ f a = .ok b := by
  cases x <;> simp [bind, Except.bind]

theorem Except.map_eq_ok {ε α β : Type} {x : Except ε α} {f : α → β} {b : β} :
    x.map f = .ok b ↔ ∃ a, x = .ok a ∧ f a = b := by
  cases x <;> simp [Except.map]

theorem Except.exists_ok_of_any {ε α : Type} {x : Except ε α} {p : α → Bool}
    (h : x.toOption.any p = true) : ∃ a, x = .ok a ∧ p a = true := by
  cases x with
  | error e => cases h
  | ok a => exact ⟨a, rfl, h⟩

namespace Tracker

def outline (t : Tracker) : Tracker :=
  { t with segment := .empty, visits := [], snapshots := [], current := default }

variable (t : Tracker) (function : String) (index : Int)

@[simp] theorem outline_enqueue : (t.enqueue function index).outline = t.outline := by
  unfold enqueue
  split <;> rfl

@[simp] theorem outline_enqueueSuccessors :
    (t.enqueueSuccessors function index).outline = t.outline := by
  have hfold : ∀ (js : List Nat) (t : Tracker),
      (js.foldl (fun t j => t.enqueue function j) t).outline = t.outline := by
    intro js
    induction js with
    | nil => exact fun t => rfl
    | cons j js ih => exact fun t => (ih _).trans (t.outline_enqueue function j)
  unfold enqueueSuccessors
  split
  · exact hfold _ t
  · rfl

@[simp] theorem outline_saveSnapshot (p : Point) (snap : Snapshot) :
    (t.saveSnapshot p snap).outline = t.outline := by
  unfold saveSnapshot
  split <;> rfl

theorem outline_foldl_saveSnapshot (p : Nat → Point) (snap : Snapshot) (js : List Nat) :
    (js.foldl (fun t j => t.saveSnapshot (p j) snap) t).outline = t.outline := by
  induction js generalizing t with
  | nil => rfl
  | cons j js ih => rw [List.foldl_cons, ih, outline_saveSnapshot]

theorem queue_enqueue : t.queue <+: (t.enqueue function index).queue := by
  rw [queue_enqueue_eq]
  split
  · exact List.prefix_append _ _
  · exact List.prefix_rfl

theorem queue_foldl_enqueue (js : List Nat) :
    t.queue <+: (js.foldl (fun t (j : Nat) => t.enqueue function j) t).queue := by
  induction js generalizing t with
  | nil => exact List.prefix_rfl
  | cons j js ih => exact (t.queue_enqueue function j).trans (ih _)

theorem queue_enqueueSuccessors : t.queue <+: (t.enqueueSuccessors function index).queue := by
  unfold enqueueSuccessors
  split
  · exact t.queue_foldl_enqueue function _
  · exact List.prefix_rfl

theorem queue_foldl_saveSnapshot (p : Nat → Point) (snap : Snapshot) (js : List Nat) :
    (js.foldl (fun t j => t.saveSnapshot (p j) snap) t).queue = t.queue := by
  induction js generalizing t with
  | nil => rfl
  | cons j js ih =>
    rw [List.foldl_cons, ih]
    unfold saveSnapshot
    split <;> rfl

end Tracker

theorem Memory.contains_of_get? {m : Memory} {key : FrameKey} {name : String} {v : Value}
    (h : m.get? key name = some v) : m.contains key = true := by
  unfold Memory.get? Memory.frame at h
  unfold Table.contains
  cases hkey : Table.get? m key with
  | none => simp [hkey, Dict.get?] at h
  | some frame => rfl

namespace State

/-- Everything but values, what is known of control flow, classes and functions. -/
def outline (s : State) : State :=
  { s with flow := s.flow.outline, hierarchy := .empty, memory := [], functions := [], heap := [] }

/-- Functions stay as they are known; one that becomes known has its own name. -/
structure Recalls (s s' : State) : Prop where
  kept : ∀ {name : String} {f : Function Value}, s.function? name = some f → s'.function? name = some f
  named : ∀ {name : String} {f : Function Value},
    s'.function? name = some f → s.function? name = some f ∨ f.name = name

theorem Recalls.of_functions {s s' : State} (h : s'.functions = s.functions) : s.Recalls s' := by
  have hsame : ∀ name, s'.function? name = s.function? name := fun name => by rw [function?, h, function?]
  exact ⟨fun hf => (hsame _).trans hf, fun hf => Or.inl ((hsame _).symm.trans hf)⟩

theorem Recalls.trans {s s' s'' : State} (h : s.Recalls s') (h' : s'.Recalls s'') : s.Recalls s'' := by
  refine ⟨fun hf => h'.kept (h.kept hf), fun hf => ?_⟩
  rcases h'.named hf with hf | hname
  · exact h.named hf
  · exact Or.inr hname

/-- No frame is there twice, and one that becomes known is of the current context. -/
structure Files (s s' : State) : Prop where
  nodup : s.memory.keys.Nodup → s'.memory.keys.Nodup
  known : ∀ {key : FrameKey}, s'.memory.contains key = true →
    s.memory.contains key = true ∨ ∃ scope, key = s.frameKey scope s.context

theorem Files.of_memory {s s' : State} (h : s'.memory = s.memory) : s.Files s' :=
  ⟨fun hs => h ▸ hs, fun hkey => Or.inl (h ▸ hkey)⟩

theorem files_set (s : State) {key : FrameKey}
    (hkey : s.memory.contains key = true ∨ ∃ scope, key = s.frameKey scope s.context) (name : String) (v : Value) :
    s.Files { s with memory := s.memory.set key name v } := by
  refine ⟨fun hs => Table.nodup_insert hs _ _, ?_⟩
  intro key' hkey'
  rw [Memory.set, Table.contains_insert, Bool.or_eq_true, decide_eq_true_eq] at hkey'
  rcases hkey' with rfl | hkey'
  · exact hkey
  · exact Or.inl hkey'

/-- A change of nothing that belongs to the outline. What waits goes on waiting. -/
structure Quiet (s s' : State) : Prop where
  outline : s'.outline = s.outline
  recalls : s.Recalls s'
  waits : s.flow.queue <+: s'.flow.queue
  files : s.Files s'

namespace Quiet

variable {s s' s'' : State}

theorem of_outline (h : s'.outline = s.outline) (hf : s'.functions = s.functions)
    (hflow : s'.flow = s.flow) (hfiles : s.Files s') : s.Quiet s' :=
  ⟨h, .of_functions hf, hflow ▸ List.prefix_rfl, hfiles⟩

theorem refl (s : State) : s.Quiet s := of_outline rfl rfl rfl (.of_memory rfl)

theorem trans (h : s.Quiet s') (h' : s'.Quiet s'') : s.Quiet s'' := by
  refine ⟨h'.outline.trans h.outline, h.recalls.trans h'.recalls, h.waits.trans h'.waits, ?_, ?_⟩
  · exact fun hs => h'.files.nodup (h.files.nodup hs)
  · intro key hkey
    have hconfig : s'.config = s.config := (congrArg State.config h.outline :)
    have hcontext : s'.context = s.context := (congrArg State.context h.outline :)
    rcases h'.files.known hkey with hkey | ⟨scope, rfl⟩
    · exact h.files.known hkey
    · refine Or.inr ⟨scope, ?_⟩
      rw [frameKey, frameKey, hconfig, hcontext]

theorem frames (h : s.Quiet s') : s'.frames = s.frames := (congrArg State.frames h.outline :)

theorem callGraph (h : s.Quiet s') : s'.callGraph = s.callGraph := (congrArg State.callGraph h.outline :)

end Quiet

theorem quiet_setIn {s s' : State} {scope : Option String} {name : String} {v : Value}
    (h : s.setIn scope name v = .ok s') : s.Quiet s' := by
  unfold setIn at h
  split at h
  · cases h
    exact .of_outline rfl rfl rfl (s.files_set (Or.inr ⟨_, rfl⟩) name v)
  · cases h

theorem quiet_setVariable {s s' : State} {name : String} {v : Value} (h : s.setVariable name v = .ok s') :
    s.Quiet s' := quiet_setIn h

theorem quiet_mergeVariable {s s' : State} {name : String} {v w : Value}
    (h : s.mergeVariable name v = .ok (w, s')) : s.Quiet s' := by
  unfold mergeVariable at h
  split at h
  · cases h
  · obtain ⟨t, ht, htw⟩ := Except.map_eq_ok.mp h
    cases htw
    exact quiet_setIn ht

theorem get?_of_find? {s : State} {scope name : String} {key : FrameKey} {v : Value}
    (h : s.find? scope name = some (key, v)) : Memory.get? s.memory key name = some v := by
  unfold find? at h
  simp only at h
  split at h
  · rename_i hv
    cases h
    exact hv
  · split at h
    · cases h
    · obtain ⟨w, hw, heq⟩ := Option.map_eq_some_iff.mp h
      cases heq
      exact hw

theorem contains_of_resolve? {s : State} {name : String} {key : FrameKey} {v : Value}
    (h : s.resolve? name = some (key, v)) : s.memory.contains key = true := by
  obtain ⟨scope, -, hfound⟩ := List.exists_of_findSome?_eq_some h
  exact Memory.contains_of_get? (get?_of_find? hfound)

theorem quiet_updateVariable? {s s' : State} {name : String} {v : Value}
    (h : s.updateVariable? name v = some s') : s.Quiet s' := by
  obtain ⟨⟨key, w⟩, hfound, hb⟩ := Option.map_eq_some_iff.mp h
  cases hb
  exact .of_outline rfl rfl rfl (s.files_set (Or.inl (contains_of_resolve? hfound)) name v)

theorem quiet_deleteVariable (s : State) (name : String) : s.Quiet (s.deleteVariable name) := by
  unfold deleteVariable
  split
  · rename_i key _
    refine .of_outline rfl rfl rfl ?_
    unfold Memory.delete
    split
    · rename_i hkey
      refine ⟨fun hs => Table.nodup_insert hs _ _, fun {key'} hkey' => Or.inl ?_⟩
      rw [Table.contains_insert, Bool.or_eq_true, decide_eq_true_eq] at hkey'
      rcases hkey' with rfl | hkey'
      · exact hkey
      · exact hkey'
    · exact .of_memory rfl
  · exact .refl s

theorem quiet_foldl_deleteVariable (s : State) (names : List String) :
    s.Quiet (names.foldl deleteVariable s) := by
  induction names generalizing s with
  | nil => exact .refl s
  | cons name names ih => exact (s.quiet_deleteVariable name).trans (ih _)

theorem quiet_restore {s s' : State} {snap : Snapshot} (h : s.restore snap = .ok s') : s.Quiet s' := by
  unfold restore at h
  induction snap generalizing s with
  | nil =>
    cases h
    exact .refl _
  | cons e snap ih =>
    rw [List.foldlM_cons] at h
    obtain ⟨t, ht, hrest⟩ := Except.bind_eq_ok.mp h
    exact (quiet_setVariable ht).trans (ih hrest)

theorem quiet_storeHeapAttr (s : State) (identity name : String) (v : Value) (strong : Bool) :
    s.Quiet (s.storeHeapAttr identity name v strong) := by
  unfold storeHeapAttr
  split
  · exact .refl s
  · exact .of_outline rfl rfl rfl (.of_memory rfl)

theorem quiet_addMethod (s : State) (className name : String) (v : Value) :
    s.Quiet (s.addMethod className name v) := by
  unfold addMethod
  simp only
  split
  · exact .of_outline rfl rfl rfl (.of_memory rfl)
  · exact .refl s

theorem function?_registerFunction {s : State} {f : Function Value} (h : s.function? f.name = none)
    (name : String) :
    (s.registerFunction f).function? name = if name = f.name then some f else s.function? name := by
  unfold registerFunction
  rw [show Dict.get? s.functions f.name = none from h]
  exact Dict.get?_insert f.name name f s.functions

theorem quiet_registerFunction {s : State} {f : Function Value} (h : s.function? f.name = none) :
    s.Quiet (s.registerFunction f) := by
  have hget := function?_registerFunction h
  refine ⟨rfl, ⟨fun {name g} hg => ?_, fun {name g} hg => ?_⟩, List.prefix_rfl, .of_memory rfl⟩
  · have hne : name ≠ f.name := by
      rintro rfl
      simp [h] at hg
    rw [hget, if_neg hne, hg]
  · rw [hget] at hg
    split at hg
    · rename_i hname
      cases hg
      exact Or.inr hname.symm
    · exact Or.inl hg

/-- The outline without the scopes and the place where a state stands. -/
def core (s : State) : State :=
  { s.outline with scopes := [], global := none, contexts := [], scope := none, context := .root }

/-- A change of values, scopes and the place only. -/
structure Moves (s s' : State) : Prop where
  core : s'.core = s.core
  recalls : s.Recalls s'
  waits : s.flow.queue <+: s'.flow.queue

namespace Moves

variable {s s' s'' : State}

theorem of_core (h : s'.core = s.core) (hf : s'.functions = s.functions)
    (hqueue : s'.flow.queue = s.flow.queue) : s.Moves s' :=
  ⟨h, .of_functions hf, hqueue ▸ List.prefix_rfl⟩

theorem refl (s : State) : s.Moves s := of_core rfl rfl rfl

theorem trans (h : s.Moves s') (h' : s'.Moves s'') : s.Moves s'' :=
  ⟨h'.core.trans h.core, h.recalls.trans h'.recalls, h.waits.trans h'.waits⟩

theorem withFrames (h : s.Moves s') (frames : List CallFrame) :
    Moves { s with frames } { s' with frames } :=
  ⟨congrArg (fun t : State => { t with frames }) h.core, ⟨h.recalls.kept, h.recalls.named⟩, h.waits⟩

theorem withCallGraph (h : s.Moves s') (callGraph : CallGraph) :
    Moves { s with callGraph } { s' with callGraph } :=
  ⟨congrArg (fun t : State => { t with callGraph }) h.core, ⟨h.recalls.kept, h.recalls.named⟩, h.waits⟩

theorem frames (h : s.Moves s') : s'.frames = s.frames := (congrArg State.frames h.core :)

theorem outer (h : s.Moves s') : s'.flow.outer = s.flow.outer :=
  (congrArg (fun t : State => t.flow.outer) h.core :)

theorem graphs (h : s.Moves s') : s'.flow.graphs = s.flow.graphs :=
  (congrArg (fun t : State => t.flow.graphs) h.core :)

theorem config (h : s.Moves s') : s'.config = s.config := (congrArg State.config h.core :)

theorem callGraph (h : s.Moves s') : s'.callGraph = s.callGraph := (congrArg State.callGraph h.core :)

theorem returned (h : s.Moves s') : s'.returned = s.returned := (congrArg State.returned h.core :)

theorem exception (h : s.Moves s') : s'.exception = s.exception := (congrArg State.exception h.core :)

end Moves

theorem Quiet.moves {s s' : State} (h : s.Quiet s') : s.Moves s' := by
  refine ⟨?_, h.recalls, h.waits⟩
  unfold State.core
  rw [h.outline]

theorem moves_noteContext (s : State) (c : Context) : s.Moves (s.noteContext c) := by
  unfold noteContext
  split
  · exact .refl s
  · exact .of_core rfl rfl rfl

theorem moves_setCurrent (s : State) (name : String) (c : Context) : s.Moves (s.setCurrent name c) := by
  refine Moves.trans ?_ (moves_noteContext _ c)
  exact .of_core rfl rfl rfl

theorem createContext_eq_ok {s s' : State} {site receiver : String} {c : Context} :
    s.createContext site receiver = .ok (c, s') ↔
      s.context.derive s.config.policy s.config.depth site receiver = .ok c ∧ s' = s.noteContext c := by
  unfold createContext
  cases s.context.derive s.config.policy s.config.depth site receiver with
  | error name => simp
  | ok d =>
    simp only [Except.ok.injEq, Prod.mk.injEq]
    constructor
    · rintro ⟨rfl, rfl⟩
      exact ⟨rfl, rfl⟩
    · rintro ⟨rfl, rfl⟩
      exact ⟨rfl, rfl⟩

theorem moves_createContext {s s' : State} {site receiver : String} {c : Context}
    (h : s.createContext site receiver = .ok (c, s')) : s.Moves s' := by
  obtain ⟨-, rfl⟩ := createContext_eq_ok.mp h
  exact s.moves_noteContext c

theorem moves_addScope (s : State) (name : String) (kind : ScopeKind) : s.Moves (s.addScope name kind) := by
  unfold addScope
  split
  · exact .refl s
  · exact .of_core rfl rfl rfl

theorem moves_noteGlobal (s : State) (name : String) (kind : ScopeKind) :
    s.Moves (s.noteGlobal name kind) := by
  unfold noteGlobal
  split
  · exact .of_core rfl rfl rfl
  · exact .refl s

theorem moves_adopt (s : State) (name parent : String) : s.Moves (s.adopt name parent) := by
  unfold adopt
  split
  · split
    · exact .of_core rfl rfl rfl
    · exact .refl s
  · exact .refl s

theorem moves_registerScope (s : State) (name : String) (kind : ScopeKind) (parent : String) :
    s.Moves (s.registerScope name kind parent) := by
  unfold registerScope
  refine (s.moves_addScope name kind).trans (Moves.trans ?_ (moves_noteGlobal _ name kind))
  split
  · refine Moves.trans ?_ (moves_adopt _ name parent)
    split
    · exact .refl _
    · exact (moves_addScope _ parent .module).trans (moves_noteGlobal _ parent .module)
  · exact .refl _

theorem moves_registerClass (s : State) (name : String) (bases : List String) :
    s.Moves (s.registerClass name bases) :=
  (s.moves_registerScope name .classBody s.scopeName).trans (.of_core rfl rfl rfl)

theorem mapTop_of_frames {s : State} {f : CallFrame} {rest : List CallFrame} (h : s.frames = f :: rest)
    (g : CallFrame → CallFrame) : s.mapTop g = { s with frames := g f :: rest } := by
  unfold mapTop
  rw [h]

/-- Binding a parameter lets the innermost call remember what it was bound to. -/
theorem moves_bindParameter {s : State} {f : CallFrame} {rest : List CallFrame} (h : s.frames = f :: rest)
    (key : FrameKey) (name : String) (v : Value) :
    ∃ saved, Moves { s with frames := { f with saved } :: rest } (s.bindParameter key name v) := by
  simp only [bindParameter, mapTop_of_frames h]
  split
  · exact ⟨f.saved, .of_core rfl rfl rfl⟩
  · exact ⟨_, .of_core rfl rfl rfl⟩

theorem moves_bindParameters {s : State} {f : CallFrame} {rest : List CallFrame} (h : s.frames = f :: rest)
    (key : FrameKey) (bindings : List (String × Value)) :
    ∃ saved, Moves { s with frames := { f with saved } :: rest }
      (bindings.foldl (fun s b => s.bindParameter key b.1 b.2) s) := by
  induction bindings generalizing s f with
  | nil => exact ⟨f.saved, .of_core (by rw [← h]; rfl) rfl rfl⟩
  | cons b bindings ih =>
    obtain ⟨saved, hb⟩ := moves_bindParameter h key b.1 b.2
    obtain ⟨saved', hrest⟩ := ih hb.frames
    exact ⟨saved', (hb.withFrames _).trans hrest⟩

/-- Entering a function changes the innermost call only in what it has to restore. -/
theorem moves_enterFunction {s s' : State} {f : CallFrame} {rest : List CallFrame}
    (hframes : s.frames = f :: rest) {fn : Function Value} {args : List Value} {site : String}
    {receiver : Option Receiver} {c : Context}
    (h : s.enterFunction fn args site receiver = .ok (c, s')) :
    ∃ calleeKey saved, Moves { s with frames := { f with calleeKey, saved } :: rest } s' := by
  unfold enterFunction at h
  obtain ⟨⟨c, s₁⟩, hcontext, h⟩ := Except.bind_eq_ok.mp h
  cases h
  have hscoped := (moves_createContext hcontext).trans
    (s₁.moves_registerScope fn.name .function (s₁.global.getD ""))
  let placed : State := { s₁.registerScope fn.name .function (s₁.global.getD "") with
    scope := some fn.name, context := c }
  have hplaced : s.Moves placed := hscoped.trans (.of_core rfl rfl rfl)
  have htop := mapTop_of_frames (hplaced.frames.trans hframes) fun top =>
    { top with calleeKey := placed.frameKey fn.name c }
  obtain ⟨saved, hbound⟩ := moves_bindParameters (congrArg State.frames htop :)
    (placed.frameKey fn.name c) (parameterBindings fn args receiver)
  refine ⟨placed.frameKey fn.name c, saved, Moves.trans ?_ hbound⟩
  rw [htop]
  exact hplaced.withFrames _

/-- Leaving a function drops the innermost call. -/
theorem moves_exitFunction {s s' : State} {value : Option Value} {f : CallFrame}
    (h : s.exitFunction value = .ok (f, s')) :
    ∃ rest summaries, s.frames = f :: rest ∧ Moves { s with frames := rest, summaries } s' := by
  unfold exitFunction at h
  split at h
  · cases h
  · rename_i g rest hframes
    split at h <;> cases h
    exact ⟨rest, _, hframes, .of_core rfl rfl rfl⟩

end State

end AbstractFlow
