import AbstractFlow.Proofs.State.Resolution

/-! # Contexts are kept apart

What is done to variables under one context writes to frames of this context only. Another context is asked for its
own frames and for those of the root context, so it finds there what it found before. Under the insensitive policy
there are only frames of the root context, and all contexts find the same.
-/
namespace AbstractFlow

/-- What is done to variables without leaving a context. -/
inductive Edit where
  /-- Goes to another scope under the same context. -/
  | goTo (scope : String)
  | set (name : String) (v : Value)
  | setIn (scope name : String) (v : Value)
  | merge (name : String) (v : Value)
  | delete (name : String)
  | snapshot
  | restore (snap : Snapshot)

namespace Edit

def apply (s : State) : Edit → Except Violation State
  | goTo scope => .ok (s.setCurrent scope s.context)
  | set name v => s.setVariable name v
  | setIn scope name v => s.setVariableIn scope name v
  | merge name v => (s.mergeVariable name v).map Prod.snd
  | delete name => .ok (s.deleteVariable name)
  | snapshot => .ok s
  | restore snap => s.restore snap

/-- The state after an edit; misuse changes nothing. -/
def after (s : State) (e : Edit) : State :=
  match e.apply s with
  | .ok s' => s'
  | .error _ => s

end Edit

theorem findSome?_congr {α β : Type} {f g : α → Option β} {l : List α} (h : ∀ a ∈ l, f a = g a) :
    l.findSome? f = l.findSome? g := by
  induction l with
  | nil => rfl
  | cons a l ih =>
    rw [List.findSome?_cons, List.findSome?_cons, h a List.mem_cons_self, ih fun b hb => h b (List.mem_cons_of_mem a hb)]

theorem Memory.frame_delete_of_ne {m : Memory} {key key' : FrameKey} (h : key ≠ key') (name : String) :
    (m.delete key name).frame key' = m.frame key' := by
  unfold Memory.delete
  split
  · unfold Memory.frame
    rw [Table.get?_insert, if_neg h]
  · rfl

namespace State

variable {s s' s'' : State}

/-- A change of the place and of frames of the current context only. -/
structure Confined (s s' : State) : Prop where
  config : s'.config = s.config
  scopes : s'.scopes = s.scopes
  global : s'.global = s.global
  context : s'.context = s.context
  frames : ∀ key : FrameKey, key.context ≠ s.context → s'.memory.frame key = s.memory.frame key

namespace Confined

theorem refl (s : State) : s.Confined s := ⟨rfl, rfl, rfl, rfl, fun _ _ => rfl⟩

theorem trans (h : s.Confined s') (h' : s'.Confined s'') : s.Confined s'' :=
  ⟨h'.config.trans h.config, h'.scopes.trans h.scopes, h'.global.trans h.global, h'.context.trans h.context,
    fun key hkey => (h'.frames key (h.context ▸ hkey)).trans (h.frames key hkey)⟩

/-- A change of the outline of nothing, and of one frame, which is of the current context. -/
theorem of_quiet {key : FrameKey} (hkey : key.context = s.context) (h : s.Quiet s')
    (hframes : ∀ key', key ≠ key' → s'.memory.frame key' = s.memory.frame key') : s.Confined s' :=
  ⟨(congrArg State.config h.outline :), (congrArg State.scopes h.outline :), (congrArg State.global h.outline :),
    (congrArg State.context h.outline :), fun key' hkey' => hframes key' fun heq => hkey' (heq ▸ hkey)⟩

end Confined

theorem context_frameKey (hs : s.config.policy ≠ .insensitive) (scope : String) (c : Context) :
    (s.frameKey scope c).context = c := by rw [frameKey, if_neg hs]

theorem confined_setCurrent (s : State) (scope : String) : s.Confined (s.setCurrent scope s.context) := by
  have hmoved := s.moves_setCurrent scope s.context
  exact ⟨hmoved.config, by simp [setCurrent], by simp [setCurrent], by simp, fun _ _ => by simp⟩

theorem confined_setIn (hs : s.config.policy ≠ .insensitive) {scope : Option String} {name : String} {v : Value}
    (h : s.setIn scope name v = .ok s') : s.Confined s' := by
  cases scope with
  | none => cases h
  | some scope =>
    refine .of_quiet (context_frameKey hs scope _) (quiet_setIn h) fun key' hkey' => ?_
    cases h
    exact (Memory.frame_set ..).trans (if_neg hkey')

theorem confined_mergeVariable (hs : s.config.policy ≠ .insensitive) {name : String} {v w : Value}
    (h : s.mergeVariable name v = .ok (w, s')) : s.Confined s' := by
  unfold mergeVariable at h
  split at h
  · cases h
  · obtain ⟨t, ht, htw⟩ := Except.map_eq_ok.mp h
    cases htw
    exact confined_setIn hs ht

theorem confined_deleteVariable (hs : s.config.policy ≠ .insensitive) (name : String) :
    s.Confined (s.deleteVariable name) := by
  have hquiet := s.quiet_deleteVariable name
  unfold deleteVariable at hquiet ⊢
  split at hquiet
  · rename_i key hkey
    obtain ⟨scope, -, rfl⟩ := Option.map_eq_some_iff.mp hkey
    exact .of_quiet (context_frameKey hs scope _) hquiet fun key' hkey' => Memory.frame_delete_of_ne hkey' name
  · exact .refl s

theorem confined_restore (hs : s.config.policy ≠ .insensitive) {snap : Snapshot} (h : s.restore snap = .ok s') :
    s.Confined s' := by
  unfold restore at h
  induction snap generalizing s with
  | nil =>
    cases h
    exact .refl _
  | cons e snap ih =>
    rw [List.foldlM_cons] at h
    obtain ⟨t, ht, hrest⟩ := Except.bind_eq_ok.mp h
    have hfirst : s.Confined t := confined_setIn hs ht
    exact hfirst.trans (ih (hfirst.config ▸ hs) hrest)

/-- No edit writes to a frame of another context. -/
theorem confined_apply (hs : s.config.policy ≠ .insensitive) {e : Edit} (h : e.apply s = .ok s') :
    s.Confined s' := by
  cases e with
  | goTo scope =>
    cases h
    exact s.confined_setCurrent scope
  | set name v => exact confined_setIn hs h
  | setIn scope name v => exact confined_setIn hs h
  | merge name v =>
    obtain ⟨⟨w, t⟩, ht, rfl⟩ := Except.map_eq_ok.mp h
    exact confined_mergeVariable hs ht
  | delete name =>
    cases h
    exact confined_deleteVariable hs name
  | snapshot =>
    cases h
    exact .refl s
  | restore snap => exact confined_restore hs h

theorem confined_after (hs : s.config.policy ≠ .insensitive) (e : Edit) : s.Confined (e.after s) := by
  unfold Edit.after
  split
  · rename_i h
    exact confined_apply hs h
  · exact .refl s

theorem confined_edits (hs : s.config.policy ≠ .insensitive) (edits : List Edit) :
    s.Confined (edits.foldl Edit.after s) := by
  induction edits generalizing s with
  | nil => exact .refl s
  | cons e edits ih =>
    have hfirst := confined_after hs e
    exact hfirst.trans (ih (hfirst.config ▸ hs))

/-- Two states in which every name is found alike, in all scopes and in each of them. -/
structure FindsAlike (s s' : State) : Prop where
  get : ∀ name, s'.getVariable? name = s.getVariable? name
  getIn : ∀ scope name, s'.getVariableIn? scope name = s.getVariableIn? scope name

/-- What is found depends on where the state stands and on the frames that are asked from there. -/
theorem findsAlike_of_frames (hscopes : s'.scopes = s.scopes) (hwrite : s'.writeScope = s.writeScope)
    (hkeys : ∀ scope, s'.framesOf scope = s.framesOf scope)
    (hframes : ∀ scope, ∀ key ∈ s.framesOf scope, s'.memory.frame key = s.memory.frame key) : s.FindsAlike s' := by
  have hfind : ∀ scope name, s'.find? scope name = s.find? scope name := by
    intro scope name
    rw [find?_eq, find?_eq, hkeys]
    refine findSome?_congr fun key hkey => ?_
    rw [Memory.get?, hframes scope key hkey, Memory.get?]
  refine ⟨fun name => ?_, fun scope name => ?_⟩
  · simp only [getVariable?, resolve?, visibleScopes_of_scopes hscopes hwrite, hfind]
  · rw [getVariableIn?, getVariableIn?, hscopes, hfind]

theorem framesOf_context {scope : String} {key : FrameKey} (h : key ∈ s.framesOf scope) :
    key.context = s.context ∨ key.context = .root := by
  simp only [framesOf, frameKey, List.mem_cons, List.not_mem_nil, or_false] at h
  rcases h with rfl | rfl
  · split
    · exact Or.inr rfl
    · exact Or.inl rfl
  · exact Or.inr rfl

/-- Under any other context, the root context included, everything is found as before a confined change. -/
theorem Confined.findsAlike (h : s.Confined s') (hs : s.context ≠ .root) {d : Context} (hd : d ≠ s.context)
    (scope : String) : (s.setCurrent scope d).FindsAlike (s'.setCurrent scope d) := by
  have hmoved := s.moves_setCurrent scope d
  have hmoved' := s'.moves_setCurrent scope d
  refine findsAlike_of_frames ?_ ?_ (fun asked => ?_) fun asked key hkey => ?_
  · simp [setCurrent, h.scopes]
  · simp [setCurrent, writeScope, h.scopes, h.global]
  · simp only [framesOf, frameKey, hmoved.config, hmoved'.config, h.config, setCurrent_context]
  · rw [setCurrent_memory, setCurrent_memory]
    refine h.frames key ?_
    rcases framesOf_context hkey with hkey | hkey
    · rwa [hkey, setCurrent_context]
    · rw [hkey]
      exact hs.symm

/-- Under the insensitive policy every context has the frames of the root. -/
theorem findsAlike_insensitive (hs : s.config.policy = .insensitive) (scope : String) (c d : Context) :
    (s.setCurrent scope c).FindsAlike (s.setCurrent scope d) := by
  refine findsAlike_of_frames (by simp [setCurrent]) (by simp [setCurrent, writeScope]) (fun asked => ?_) ?_
  · simp only [framesOf, frameKey, (s.moves_setCurrent scope c).config, (s.moves_setCurrent scope d).config, hs,
      if_true]
  · intro asked key _
    rw [setCurrent_memory, setCurrent_memory]

/-- What is done to variables under a context that is not the root changes nothing that is found under the root
context or a context of another key, from any scope. Under the insensitive policy, what is found does not depend on
the context at all. -/
theorem edits_isolated (s : State) :
    (s.config.policy ≠ .insensitive → s.context.isRoot = false → ∀ (edits : List Edit) (d : Context),
      d.isRoot = true ∨ d.key ≠ s.context.key → ∀ scope,
        (s.setCurrent scope d).FindsAlike ((edits.foldl Edit.after s).setCurrent scope d)) ∧
    (s.config.policy = .insensitive → ∀ (c d : Context) (scope : String),
      (s.setCurrent scope c).FindsAlike (s.setCurrent scope d)) := by
  refine ⟨fun hs hcontext edits d hd scope => ?_, fun hs c d scope => findsAlike_insensitive hs scope c d⟩
  have hroot : s.context ≠ .root := by
    intro heq
    rw [heq] at hcontext
    cases hcontext
  refine (confined_edits hs edits).findsAlike hroot ?_ scope
  rintro rfl
  rcases hd with hd | hd
  · rw [hd] at hcontext
    cases hcontext
  · exact hd rfl

def calledFromModule (policy : Policy) : State :=
  ((State.new ⟨policy, 1, true⟩).registerScope "m" .module "").setCurrent "m" ⟨["m:1"]⟩

theorem edits_isolated_calledFromModule :
    (([.set "x" Value.anyBool] : List Edit).foldl Edit.after (calledFromModule .callSite)).getVariable? "x" =
      some Value.anyBool ∧
    ((([.set "x" Value.anyBool] : List Edit).foldl Edit.after (calledFromModule .callSite)).setCurrent
      "m" ⟨["m:2"]⟩).getVariable? "x" = none ∧
    ((calledFromModule .insensitive).setCurrent "m" ⟨["m:1"]⟩).FindsAlike
      ((calledFromModule .insensitive).setCurrent "m" ⟨["m:2"]⟩) := by
  have hkey : Context.key ⟨["m:2"]⟩ ≠ (calledFromModule .callSite).context.key := by decide +kernel
  have halike := (edits_isolated (calledFromModule .callSite)).1 (by decide +kernel) (by decide +kernel)
    [.set "x" Value.anyBool] ⟨["m:2"]⟩ (Or.inr hkey) "m"
  exact ⟨by rfl, (halike.get "x").trans (by rfl), (edits_isolated (calledFromModule .insensitive)).2 (by rfl) _ _ "m"⟩

end State

end AbstractFlow
