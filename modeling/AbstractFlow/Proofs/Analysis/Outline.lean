import AbstractFlow.Analysis.Body
import AbstractFlow.Proofs.State.Outline

/-! # Quiet steps

Most statements bind variables, store attributes and hand control on. They leave alone the outline of
the state and the record that a run keeps of its own work; such a step is called quiet.
-/
namespace AbstractFlow

/-- What a run keeps of its own work. -/
structure Ledger where
  analyzed : List String
  memo : List FrameKey
  calls : List CallRecord
  queue : List PendingCall
  requeued : List Nat
  stats : Stats

namespace Run

variable {σ : Type}

def ledger (r : Run σ) : Ledger :=
  ⟨r.analyzed, r.memo, r.calls, r.queue, r.requeued, { r.stats with statements := 0 }⟩

structure Quiet (r r' : Run σ) : Prop where
  state : r.state.Quiet r'.state
  ledger : r'.ledger = r.ledger

namespace Quiet

variable {r r' r'' : Run σ}

theorem refl (r : Run σ) : r.Quiet r := ⟨.refl _, rfl⟩

theorem trans (h : r.Quiet r') (h' : r'.Quiet r'') : r.Quiet r'' :=
  ⟨h.state.trans h'.state, h'.ledger.trans h.ledger⟩

theorem calls (h : r.Quiet r') : r'.calls = r.calls := (congrArg Ledger.calls h.ledger :)

theorem queue (h : r.Quiet r') : r'.queue = r.queue := (congrArg Ledger.queue h.ledger :)

theorem memo (h : r.Quiet r') : r'.memo = r.memo := (congrArg Ledger.memo h.ledger :)

end Quiet

theorem quiet_state (r : Run σ) {s : State} (h : r.state.Quiet s) : r.Quiet { r with state := s } := ⟨h, rfl⟩

@[simp] theorem note_state (r : Run σ) (a : Analyzer) (line : Unit → String) :
    (r.note a line).state = r.state := by
  unfold note
  split <;> rfl

theorem oracle_note (r : Run σ) (a : Analyzer) (line : Unit → String) : (r.note a line).oracle = r.oracle := by
  unfold note
  split <;> rfl

theorem quiet_note (r : Run σ) (a : Analyzer) (line : Unit → String) : r.Quiet (r.note a line) := by
  unfold note
  split
  · exact ⟨.refl _, rfl⟩
  · exact .refl r

theorem quiet_ask (r : Run σ) (q : Query) : r.Quiet (r.ask q).2 := ⟨.refl _, rfl⟩

theorem quiet_flow (r : Run σ) {t : Tracker} (h : t.outline = r.state.flow.outline)
    (hwaits : r.state.flow.queue <+: t.queue) : r.Quiet { r with state.flow := t } := by
  refine r.quiet_state ⟨?_, .of_functions rfl, hwaits, .of_memory rfl⟩
  simp only [State.outline, h]

theorem quiet_isSingleton (r : Run σ) (a : Analyzer) (function name : String) :
    r.Quiet (r.isSingleton a function name).2 := by
  unfold isSingleton
  split
  · exact r.quiet_ask _
  · exact .refl r

/-- Where the order of statements counts, an assignment does not ask the oracle. -/
theorem overwrites_of_flowSensitive {a : Analyzer} (hf : a.options.flowSensitive = true) (r : Run σ) (s : Step)
    (target : String) :
    r.overwrites a s target = (!decide (0 < s.revisits) && decide (1 < r.predecessors s), r) := by
  unfold overwrites
  by_cases hrevisits : 0 < s.revisits <;> simp [hrevisits, hf]

theorem quiet_overwrites (r : Run σ) (a : Analyzer) (s : Step) (target : String) :
    r.Quiet (r.overwrites a s target).2 := by
  unfold overwrites
  split
  · exact .refl r
  · split
    · exact r.quiet_isSingleton a _ _
    · exact .refl r

theorem quiet_assign {r r' : Run σ} {a : Analyzer} {s : Step} {target : String} {v : Value}
    (h : r.assign a s target v = .ok r') : r.Quiet r' := by
  unfold assign at h
  split at h
  · cases h
    exact .refl _
  · have hasked := r.quiet_overwrites a s target
    simp only at h
    split at h
    · obtain ⟨t, ht, rfl⟩ := Except.map_eq_ok.mp h
      exact hasked.trans (quiet_state _ (State.quiet_setVariable ht))
    · obtain ⟨t, ht, rfl⟩ := Except.map_eq_ok.mp h
      exact hasked.trans (quiet_state _ (State.quiet_mergeVariable ht))

theorem quiet_rebind (r : Run σ) (name : String) (v : Value) : r.Quiet (r.rebind name v) := by
  unfold rebind
  split
  · rename_i s hs
    exact r.quiet_state (State.quiet_updateVariable? hs)
  · exact .refl r

theorem oracle_advance (r : Run σ) (a : Analyzer) (s : Step) : (r.advance a s).oracle = r.oracle := by
  unfold advance
  split <;> rfl

theorem quiet_advance (r : Run σ) (a : Analyzer) (s : Step) : r.Quiet (r.advance a s) := by
  unfold advance
  split
  · exact r.quiet_flow (Tracker.outline_enqueueSuccessors _ _ _) (Tracker.queue_enqueueSuccessors _ _ _)
  · exact .refl r

theorem quiet_fork (r : Run σ) (s : Step) : r.Quiet (r.fork s) := by
  refine r.quiet_flow ((Tracker.outline_enqueueSuccessors _ _ _).trans ?_) ?_
  · exact Tracker.outline_foldl_saveSnapshot _ (fun i => r.pointAt s i) _ _
  · refine List.IsPrefix.trans ?_ (Tracker.queue_enqueueSuccessors _ _ _)
    have hqueue := Tracker.queue_foldl_saveSnapshot r.state.flow fun i => r.pointAt s i
    exact (hqueue _ _).symm ▸ List.prefix_rfl

theorem quiet_branch (r : Run σ) (a : Analyzer) (s : Step) (sense : Bool) (test : Test) (label : String) :
    r.Quiet (r.branch a s sense test label) := by
  have hgo : ∀ (line : Unit → String) (j : Int),
      r.Quiet ((r.note a line).mapFlow (·.enqueue s.function j)) := fun line j =>
    (r.quiet_note a line).trans
      (quiet_flow _ (Tracker.outline_enqueue _ _ _) (Tracker.queue_enqueue _ _ _))
  unfold branch
  split
  · exact .refl r
  · simp only
    split
    · exact r.quiet_fork s
    · exact r.quiet_fork s
    · split
      · exact hgo _ _
      · exact hgo _ _

theorem quiet_jump (r : Run σ) (a : Analyzer) (s : Step) (label : String) : r.Quiet (r.jump a s label) := by
  unfold jump
  split
  · exact .refl r
  · split
    · exact r.quiet_flow (Tracker.outline_enqueue _ _ _) (Tracker.queue_enqueue _ _ _)
    · exact .refl r

theorem quiet_join {r r' : Run σ} {a : Analyzer} {s : Step} (h : r.join a s = .ok r') : r.Quiet r' := by
  unfold join at h
  obtain ⟨t, ht, hrest⟩ := Except.bind_eq_ok.mp h
  have hjoined : ∀ p snap, r.Quiet ({ r with state := t }.mapFlow (·.setSnapshot p snap)) :=
    fun p snap => (r.quiet_state (State.quiet_restore ht)).trans (quiet_flow _ rfl List.prefix_rfl)
  simp only at hrest
  -- Whatever was saved for the point, the join is found stable or handed on.
  split at hrest <;> split at hrest <;> cases hrest
  · exact (hjoined _ _).trans (quiet_note _ a _)
  · exact (hjoined _ _).trans (quiet_advance _ a s)
  · exact (hjoined _ _).trans (quiet_note _ a _)
  · exact (hjoined _ _).trans (quiet_advance _ a s)

theorem quiet_label {r r' : Run σ} {a : Analyzer} {s : Step} (h : r.label a s = .ok r') : r.Quiet r' := by
  unfold label at h
  split at h
  · cases h
    exact .refl _
  · split at h
    · exact quiet_join h
    · cases h
      exact quiet_advance _ a s

theorem quiet_isSingleField (r : Run σ) (o : Object) (attr : String) :
    r.Quiet (r.isSingleField o attr).2 := by
  unfold isSingleField
  split
  · exact r.quiet_ask _
  · exact .refl r

theorem quiet_foldl {α β : Type} {f : α × Run σ → β → α × Run σ}
    (h : ∀ (acc : α × Run σ) (b : β), acc.2.Quiet (f acc b).2) (acc : α × Run σ) (bs : List β) :
    acc.2.Quiet (bs.foldl f acc).2 := by
  induction bs generalizing acc with
  | nil => exact .refl _
  | cons b bs ih => exact (h acc b).trans (ih _)

theorem quiet_attrStore (r : Run σ) (object attr value : String) :
    r.Quiet (r.attrStore object attr value) := by
  refine (quiet_foldl (fun acc o => ?_) (r.lookup object, r) (r.lookup object)).trans (quiet_rebind _ _ _)
  exact (acc.2.quiet_isSingleField o attr).trans (quiet_state _ (State.quiet_storeHeapAttr _ _ _ _ _))

theorem quiet_attrLoad (r : Run σ) (object attr : String) : r.Quiet (r.attrLoad object attr).2 := by
  refine quiet_foldl (fun acc o => ?_) ([], r) (r.lookup object)
  unfold loadFrom
  simp only
  split
  · exact acc.2.quiet_ask _
  · exact .refl _

theorem quiet_writeBack (r : Run σ) (argument : String) (v : Value) : r.Quiet (r.writeBack argument v) := by
  unfold writeBack
  simp only
  split
  · exact .refl r
  · split
    · exact .refl r
    · split
      · exact .refl r
      · exact r.quiet_rebind _ _

theorem quiet_foldl_writeBack (r : Run σ) (arguments : List (String × Value)) :
    r.Quiet (arguments.foldl (fun r (name, v) => r.writeBack name v) r) := by
  induction arguments generalizing r with
  | nil => exact .refl r
  | cons x rest ih => exact (r.quiet_writeBack x.1 x.2).trans (ih _)

theorem quiet_functionDef {r r' : Run σ} {a : Analyzer} {s : Step} {target name : String}
    (h : r.functionDef a s target name = .ok r') : r.Quiet r' := by
  unfold functionDef at h
  obtain ⟨r₁, hassign, hrest⟩ := Except.bind_eq_ok.mp h
  -- A function that is known is not registered again.
  have hregister : ∀ f : Function Value, (r.state.function? name = none → f.name = name) →
      r.state.Quiet
        (if (r.state.function? name).isSome then r.state else r.state.registerFunction f) := by
    intro f hf
    split
    · exact .refl _
    · rename_i hnone
      rw [Bool.not_eq_true, Option.isSome_eq_false_iff, Option.isNone_iff_eq_none] at hnone
      exact State.quiet_registerFunction (by rw [hf hnone, hnone])
  have hbound : r.Quiet r₁ := by
    refine (r.quiet_state (hregister _ fun hnone => ?_)).trans (quiet_assign hassign)
    rw [hnone]
    rfl
  split at hrest
  · split at hrest
    · cases hrest
      exact hbound.trans (quiet_state _ (State.quiet_addMethod _ _ _ _))
    · cases hrest
      exact hbound
  · cases hrest
    exact hbound

end Run

end AbstractFlow
