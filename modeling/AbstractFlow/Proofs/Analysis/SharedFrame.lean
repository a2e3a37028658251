import AbstractFlow.Proofs.Insensitive.Passes
import AbstractFlow.Proofs.Scalar.Simulation
import AbstractFlow.Proofs.Value.Growth

/-! # The shared frame

Both ways of a branch that is not decided are interpreted on one frame, in turns. What the frame binds for one
way must therefore not be lost when a statement of the other way is interpreted. Values grow only, and what was
saved for a merge point stands below what the frame holds by the time the point is reached. There is one
exception: a store into a container that may be empty has it say that it is not.
-/
namespace AbstractFlow

/-- Statements that work on the variables of one module, on what these hold, and on control flow. -/
def Stmt.isDirect : Stmt → Bool
  | .assign .. | .const .. | .expr .. | .build .. | .subscriptStore .. | .subscriptLoad .. | .attrStore ..
  | .attrLoad .. | .jump .. | .goto _ | .label _ => true
  | _ => false

/-- Whether a statement stores into a variable whose value has a container that may be empty. -/
def Stmt.fills : Stmt → String → Value → Bool
  | .subscriptStore object _ _, name, v => object == name && v.containers.any (·.minSize == 0)
  | _, _, _ => false

namespace Snapshot

variable {frame frame' snap : Snapshot} {stmt : Stmt} {name : String} {v w : Value}

/-- What a statement leaves of a frame: every value has grown, and is covered by what it has grown to, unless
the statement fills a container. -/
def Keeps (frame : Snapshot) (stmt : Stmt) (frame' : Snapshot) : Prop :=
  ∀ name v, Dict.get? frame name = some v →
    ∃ w, Dict.get? frame' name = some w ∧ (stmt.fills name v = false → w.Covers v) ∧ w.Outgrows v

/-- All values of a frame have grown out of those of another one. -/
def Outgrows (frame snap : Snapshot) : Prop :=
  ∀ name v, Dict.get? snap name = some v → ∃ w, Dict.get? frame name = some w ∧ w.Outgrows v

theorem outgrows_refl (frame : Snapshot) : frame.Outgrows frame := fun _ v hv => ⟨v, hv, v.outgrows_refl⟩

theorem Outgrows.trans (hframe : frame.Modest) (h : frame.Outgrows snap) (h' : frame'.Outgrows frame) :
    frame'.Outgrows snap := by
  intro name u hu
  obtain ⟨v, hv, hvu⟩ := h name u hu
  obtain ⟨w, hw, hwv⟩ := h' name v hv
  exact ⟨w, hw, hvu.trans (hframe.values.get? hv) hwv⟩

theorem Keeps.outgrows (h : frame.Keeps stmt frame') : frame'.Outgrows frame := by
  intro name v hv
  obtain ⟨w, hw, -, hgrows⟩ := h name v hv
  exact ⟨w, hw, hgrows⟩

theorem Modest.keeps_refl (h : frame.Modest) (stmt : Stmt) : frame.Keeps stmt frame := by
  intro name v hv
  exact ⟨v, hv, fun _ => Value.covers_refl (h.values.get? hv), v.outgrows_refl⟩

theorem Modest.keeps_insert (h : frame.Modest)
    (hname : ∀ v, Dict.get? frame name = some v → (stmt.fills name v = false → w.Covers v) ∧ w.Outgrows v) :
    frame.Keeps stmt (frame.insert name w) := by
  intro name' v hv
  rw [Dict.get?_insert]
  split
  · rename_i hsame
    subst hsame
    exact ⟨w, rfl, hname v hv⟩
  · exact h.keeps_refl stmt name' v hv

theorem keeps_bind (h : frame.Modest) (stmt : Stmt) (target : String) (hw : w.Modest) :
    frame.Keeps stmt (frame.bind false target w) := by
  unfold bind
  split
  · exact h.keeps_refl stmt
  · refine h.keeps_insert fun v hv => ?_
    have hmodest := h.values.get? hv
    rw [hv]
    exact ⟨fun _ => Value.covers_merge hmodest hw, Value.outgrows_merge hmodest hw⟩

def rebind (frame : Snapshot) (name : String) (v : Value) : Snapshot :=
  if (Dict.get? frame name).isSome then frame.insert name v else frame

theorem Modest.rebind (h : frame.Modest) (name : String) (hw : w.Modest) : (frame.rebind name w).Modest := by
  unfold Snapshot.rebind
  split
  · exact h.insert name hw
  · exact h

theorem keeps_rebind (h : frame.Modest) (hunknown : (frame.lookup name).hasUnknown = true → w.hasUnknown = true)
    (hlookup : (stmt.fills name (frame.lookup name) = false → w.Covers (frame.lookup name)) ∧
      w.Outgrows (frame.lookup name)) :
    frame.Keeps stmt (frame.rebind name w) := by
  unfold Snapshot.rebind
  split
  · refine h.keeps_insert fun v hv => ?_
    -- The empty name is looked up as unknown, whatever is bound to it.
    by_cases hempty : name = ""
    · have hlost : w.hasUnknown = true := hunknown (by rw [lookup, if_pos hempty]; rfl)
      exact ⟨fun _ => Or.inl hlost, Or.inl hlost⟩
    · have hsame : frame.lookup name = v := by rw [lookup, if_neg hempty, hv]; rfl
      exact hsame ▸ hlookup
  · exact h.keeps_refl stmt

theorem Outgrows.of_merge (hsnap : snap.Modest) (hframe : frame.Modest) (h : frame.Outgrows snap) :
    frame.Outgrows (snap.merge frame) := by
  intro name u hu
  rw [merge, Dict.get?_mergeWith _ name hsnap.sorted hframe.sorted] at hu
  cases hs : Dict.get? snap name with
  | none =>
    rw [hs] at hu
    exact outgrows_refl frame name u (by cases hv : Dict.get? frame name <;> rw [hv] at hu <;> exact hu)
  | some s =>
    obtain ⟨v, hv, hvs⟩ := h name s hs
    rw [hs, hv] at hu
    obtain rfl := Option.some.inj hu
    exact ⟨v, hv, hvs.of_merge (hsnap.values.get? hs) (hframe.values.get? hv)⟩

/-- What a frame has grown out of takes nothing away when it comes back. -/
theorem Outgrows.keeps_merge (hsnap : snap.Modest) (hframe : frame.Modest) (h : frame.Outgrows snap) (stmt : Stmt) :
    frame.Keeps stmt (snap.merge frame) := by
  intro name v hv
  rw [merge, Dict.get?_mergeWith _ name hsnap.sorted hframe.sorted, hv]
  have hmodest := hframe.values.get? hv
  cases hs : Dict.get? snap name with
  | none => exact ⟨v, rfl, fun _ => Value.covers_refl hmodest, v.outgrows_refl⟩
  | some s =>
    obtain ⟨v', hv', hvs⟩ := h name s hs
    obtain rfl := Option.some.inj (hv.symm.trans hv')
    have hsmodest := hsnap.values.get? hs
    exact ⟨_, rfl, fun _ => hvs.merge_covers hsmodest hmodest, hvs.merge_left hsmodest hmodest⟩

end Snapshot

namespace Sweep

variable {m m' : Sweep} {stmt : Stmt}

/-- Frame and snapshots hold modest values, and the frame has grown out of every snapshot. -/
structure Sound (m : Sweep) : Prop where
  frame : m.frame.Modest
  saved : ∀ i snap, m.saved i = some snap → snap.Modest ∧ m.frame.Outgrows snap

namespace Sound

theorem congr (h : m.Sound) (hframe : m'.frame = m.frame) (hsaved : m'.saved = m.saved) : m'.Sound :=
  ⟨hframe ▸ h.frame, fun i snap hsnap => hframe ▸ h.saved i snap (hsaved ▸ hsnap)⟩

theorem write (h : m.Sound) {frame : Snapshot} (hframe : frame.Modest) (hkeeps : m.frame.Keeps stmt frame) :
    Sound { m with frame } := by
  refine ⟨hframe, fun i snap hsnap => ?_⟩
  obtain ⟨hmodest, hgrown⟩ := h.saved i snap hsnap
  exact ⟨hmodest, hgrown.trans h.frame hkeeps.outgrows⟩

theorem save (h : m.Sound) (j : Nat) : Sound { m with saved := Sweep.save m.frame m.saved j } := by
  refine ⟨h.frame, fun i snap hsnap => ?_⟩
  dsimp only [Sweep.save] at hsnap
  by_cases hij : i = j
  · subst hij
    rw [Function.update_self] at hsnap
    obtain rfl := Option.some.inj hsnap
    cases hold : m.saved i with
    | none => exact ⟨h.frame, Snapshot.outgrows_refl _⟩
    | some old =>
      obtain ⟨hmodest, hgrown⟩ := h.saved i old hold
      exact ⟨Snapshot.modest_merge hmodest h.frame, hgrown.of_merge hmodest h.frame⟩
  · rw [Function.update_of_ne hij] at hsnap
    exact h.saved i snap hsnap

theorem saveAll (h : m.Sound) (js : List Nat) : Sound { m with saved := js.foldl (Sweep.save m.frame) m.saved } := by
  induction js generalizing m with
  | nil => exact h
  | cons j rest ih => exact ih (h.save j)

/-- What arrives at a merge point has grown out of the frame, and binds all that the frame binds. -/
theorem arriving (h : m.Sound) (stmt : Stmt) (i : Nat) :
    (m.arriving i).Modest ∧ m.frame.Keeps stmt (m.arriving i) ∧
      Sweep.restored m.frame (m.arriving i) = m.arriving i := by
  have harriving : (m.arriving i).Modest ∧ m.frame.Keeps stmt (m.arriving i) := by
    unfold Sweep.arriving
    cases hsaved : m.saved i with
    | none => exact ⟨h.frame, h.frame.keeps_refl stmt⟩
    | some snap =>
      obtain ⟨hmodest, hgrown⟩ := h.saved i snap hsaved
      exact ⟨Snapshot.modest_merge hmodest h.frame, hgrown.keeps_merge hmodest h.frame stmt⟩
  obtain ⟨hmodest, hkeeps⟩ := harriving
  refine ⟨hmodest, hkeeps, ?_⟩
  refine Dict.ext_get? (sorted_restored h.frame.sorted) hmodest.sorted fun name => ?_
  rw [get?_restored h.frame.sorted hmodest.sorted]
  cases hv : Dict.get? m.frame name with
  | none => rw [Option.or_none]
  | some v =>
    obtain ⟨w, hw, -⟩ := hkeeps name v hv
    rw [hw]
    rfl

theorem arrive (h : m.Sound) (i : Nat) :
    Sound { m with frame := m.arriving i, saved := Function.update m.saved i (some (m.arriving i)) } := by
  obtain ⟨hmodest, hkeeps, -⟩ := h.arriving (.label "") i
  refine ⟨hmodest, fun j snap hsnap => ?_⟩
  dsimp only at hsnap
  by_cases hji : j = i
  · subst hji
    rw [Function.update_self] at hsnap
    obtain rfl := Option.some.inj hsnap
    exact ⟨hmodest, Snapshot.outgrows_refl _⟩
  · rw [Function.update_of_ne hji] at hsnap
    obtain ⟨hsmodest, hgrown⟩ := h.saved j snap hsnap
    exact ⟨hsmodest, hgrown.trans h.frame hkeeps.outgrows⟩

theorem apply (h : m.Sound) (g : Graph) (i revisits : Nat)
    (hcontrol : (∃ sense test l, stmt = .jump sense test l) ∨ (∃ l, stmt = .goto l) ∨ ∃ l, stmt = .label l) :
    (m.apply g i revisits stmt).Sound ∧ m.frame.Keeps stmt (m.apply g i revisits stmt).frame := by
  have happly : (m.apply g i revisits stmt).frame = m.frameAfter g i stmt ∧
      (m.apply g i revisits stmt).saved = m.savedAfter g i stmt := by
    unfold Sweep.apply
    split
    · exact ⟨proceed_frame .., proceed_saved ..⟩
    · exact ⟨rfl, rfl⟩
  -- Handing control on touches the queue only: frame and snapshots are what they are after the statement.
  suffices hafter : Sound { m with frame := m.frameAfter g i stmt, saved := m.savedAfter g i stmt } ∧
      m.frame.Keeps stmt (m.frameAfter g i stmt) by
    rw [happly.1]
    exact ⟨hafter.1.congr happly.1 happly.2, hafter.2⟩
  have hstays := h.frame.keeps_refl stmt
  rcases hcontrol with ⟨sense, test, l, rfl⟩ | ⟨l, rfl⟩ | ⟨l, rfl⟩
  · refine ⟨?_, hstays⟩
    have hsaved : m.savedAfter g i (.jump sense test l) = if (m.decided? g i sense test l).isSome then m.saved
        else (m.ahead g i).foldl (Sweep.save m.frame) m.saved := rfl
    rw [hsaved]
    split
    · exact h
    · exact h.saveAll _
  · exact ⟨h, hstays⟩
  · unfold Sweep.frameAfter Sweep.savedAfter
    cases g.isMergePoint i with
    | false => exact ⟨h, hstays⟩
    | true =>
      obtain ⟨-, hkeeps, hrestored⟩ := h.arriving (.label l) i
      simp only [↓reduceIte, hrestored]
      exact ⟨h.arrive i, hkeeps⟩

end Sound

end Sweep

theorem Object.Modest.identity {o : Object} (h : o.Modest) : o.identity = "" := by
  cases o with
  | unknown | constant | container => rfl
  | _ => exact h.elim

namespace Run

variable {σ : Type} {r : Run σ} {o : Object} {v base : Value}

section Modest

variable (attr : String) (horacle : r.oracle.isAvailable = false)
include horacle

/-- Without an oracle, storing an attribute on a modest object touches the base only. -/
theorem storeOn_of_modest (base : Value) (ho : o.Modest) (hinside : o.Inside Value.Modest) (hv : v.Modest) :
    ∃ new : Value, new.Modest ∧ storeOn attr v (base, r) o = (base.replace o (o.withAttr attr new), r) := by
  have hweak : r.isSingleField o attr = (false, r) := by
    rw [isSingleField, horacle, if_neg Bool.false_ne_true]
  have hheap : r.state.storeHeapAttr o.identity attr v false = r.state := if_pos ho.identity
  cases hold : Dict.get? o.attrs attr with
  | none =>
    refine ⟨v, hv, ?_⟩
    simp only [storeOn, hweak, hold]
    exact congrArg (fun state => (_, { r with state })) hheap
  | some old =>
    refine ⟨old.merge v, (hinside.attrs.get? hold).merge hv, ?_⟩
    simp only [storeOn, hweak, hold, Bool.false_eq_true, ↓reduceIte]
    exact congrArg (fun state => (_, { r with state })) hheap

theorem foldl_storeOn_of_modest (hbase : base.Modest) (hv : v.Modest) :
    ∃ w, base.foldl (storeOn attr v) (base, r) = (w, r) ∧ w.Modest ∧ (w = base ∨ w.hasUnknown = true) := by
  -- What is unknown stands alone, and is the only modest object on which an attribute can be stored.
  cases hunknown : base.hasUnknown with
  | true =>
    obtain ⟨as, rfl⟩ := hbase.tidy.alone hunknown
    obtain ⟨new, hnew, hstore⟩ := storeOn_of_modest attr horacle [.unknown as]
      (hbase.objects _ List.mem_cons_self) (hbase.inside _ List.mem_cons_self) hv
    refine ⟨_, hstore, ?_, Or.inr ?_⟩
    · exact Value.closed_modest.replace hbase (Value.closed_modest.withAttr hbase hnew attr) rfl
    · simp [Value.replace, Value.canonical, Value.place, Value.hasUnknown, Object.withAttr, Object.withAttrs,
        Object.isUnknown]
  | false =>
    have hstays : ∀ o ∈ base, storeOn attr v (base, r) o = (base, r) := by
      intro o ho
      obtain ⟨new, -, hstore⟩ :=
        storeOn_of_modest attr horacle base (hbase.objects o ho) (hbase.inside o ho) hv
      have hsame : o.withAttr attr new = o := by
        have hknown := Value.hasUnknown_eq_false.mp hunknown o ho
        have hmodest := hbase.objects o ho
        cases o with
        | unknown => cases hknown
        | constant | container => rfl
        | _ => exact hmodest.elim
      rw [hstore, hsame, Value.replace_self hbase.tidy.sorted ho]
    have hfold : ∀ objs : List Object, (∀ o ∈ objs, o ∈ base) → objs.foldl (storeOn attr v) (base, r) = (base, r) := by
      intro objs hobjs
      induction objs with
      | nil => rfl
      | cons o rest ih =>
        obtain ⟨ho, hrest⟩ := List.forall_mem_cons.mp hobjs
        rw [List.foldl_cons, hstays o ho]
        exact ih hrest
    exact ⟨base, hfold base fun _ ho => ho, hbase, Or.inl rfl⟩

theorem attrStore_of_modest (object value : String) (hbase : (r.lookup object).Modest)
    (hvalue : (r.lookup value).Modest) :
    ∃ w, r.attrStore object attr value = r.rebind object w ∧ w.Modest ∧
      (w = r.lookup object ∨ w.hasUnknown = true) := by
  obtain ⟨w, hw, hmodest, hkept⟩ := foldl_storeOn_of_modest attr horacle hbase hvalue
  refine ⟨w, ?_, hmodest, hkept⟩
  simp only [attrStore, hw]

/-- Without an oracle, what is loaded from modest objects are their own attributes. -/
theorem attrLoad_of_modest (object : String) (hbase : (r.lookup object).Modest) :
    ∃ w, r.attrLoad object attr = (w, r) ∧ w.Modest := by
  have hload : ∀ {out : Value} {o : Object}, out.Modest → o.Modest → o.Inside Value.Modest →
      ∃ w, loadFrom attr (out, r) o = (w, r) ∧ w.Modest := by
    intro out o hout ho hinside
    refine ⟨out.merge ((r.state.objectAttr? o attr).getD []), ?_, hout.merge ?_⟩
    · simp only [loadFrom, horacle, Bool.false_eq_true, ↓reduceIte, List.isEmpty_nil]
    · have hown : r.state.objectAttr? o attr = Dict.get? o.attrs attr := by
        unfold State.objectAttr?
        rw [ho.identity]
        cases o with
        | unknown as => cases hget : Dict.get? as attr <;> simp [Object.attrs, Object.attr?, hget]
        | constant | container => rfl
        | _ => exact ho.elim
      rw [hown]
      cases hget : Dict.get? o.attrs attr with
      | none => exact Value.closed_modest.nil
      | some w => exact hinside.attrs.get? hget
  have hfold : ∀ (objs : List Object) {out : Value}, out.Modest →
      (∀ o ∈ objs, o.Modest ∧ o.Inside Value.Modest) →
      ∃ w, objs.foldl (loadFrom attr) (out, r) = (w, r) ∧ w.Modest := by
    intro objs
    induction objs with
    | nil => exact fun {out} hout _ => ⟨out, rfl, hout⟩
    | cons o rest ih =>
      intro out hout hobjs
      obtain ⟨ho, hrest⟩ := List.forall_mem_cons.mp hobjs
      obtain ⟨w, hw, hmodest⟩ := hload hout ho.1 ho.2
      rw [List.foldl_cons, hw]
      exact ih hmodest hrest
  obtain ⟨w, hw, hmodest⟩ := hfold (r.lookup object) Value.closed_modest.nil
    fun o ho => ⟨hbase.objects o ho, hbase.inside o ho⟩
  refine ⟨w.orUnknown, ?_, Value.closed_modest.orUnknown hmodest⟩
  unfold attrLoad
  rw [hw]

end Modest

theorem oracle_rebind (r : Run σ) (name : String) (v : Value) : (r.rebind name v).oracle = r.oracle := by
  unfold rebind
  split <;> rfl

theorem oracle_branch (r : Run σ) (a : Analyzer) (s : Step) (sense : Bool) (test : Test) (label : String) :
    (r.branch a s sense test label).oracle = r.oracle := by
  unfold branch
  split
  · rfl
  · dsimp only
    split
    · rfl
    · rfl
    · split <;> exact r.oracle_note a _

theorem oracle_jump (r : Run σ) (a : Analyzer) (s : Step) (label : String) :
    (r.jump a s label).oracle = r.oracle := by
  unfold jump
  split
  · rfl
  · split <;> rfl

section Ok

variable {a : Analyzer} {r' : Run σ} {s : Step} {target : String}

theorem oracle_assign (hf : a.options.flowSensitive = true) (h : r.assign a s target v = .ok r') :
    r'.oracle = r.oracle := by
  unfold assign at h
  rw [overwrites_of_flowSensitive hf] at h
  split at h
  · exact Except.ok.inj h ▸ rfl
  · dsimp only at h
    split at h <;> (obtain ⟨_, -, rfl⟩ := Except.map_eq_ok.mp h; rfl)

theorem oracle_label (h : r.label a s = .ok r') : r'.oracle = r.oracle := by
  unfold label at h
  split at h
  · exact Except.ok.inj h ▸ rfl
  split at h
  · unfold join at h
    obtain ⟨state, -, h⟩ := Except.bind_eq_ok.mp h
    dsimp only at h
    generalize Option.any _ (r.state.flow.snapshot? _) = stable at h
    cases stable <;> split at h
    all_goals first
      | exact Except.ok.inj h ▸ oracle_note _ _ _
      | exact Except.ok.inj h ▸ oracle_advance _ _ _
  · exact Except.ok.inj h ▸ oracle_advance _ _ _

end Ok

/-- A run that analyses the module `f` without an oracle where the sweep `m` stands, which is sound. -/
structure Shares (f : String) (body : List Stmt) (r : Run σ) (m : Sweep) : Prop extends r.Sweeps f body m where
  sound : m.Sound
  oracle : r.oracle.isAvailable = false

namespace Shares

variable {f : String} {body : List Stmt} {m : Sweep} {a : Analyzer} {i revisits : Nat} {stmt : Stmt}

theorem lookup (h : r.Shares f body m) (name : String) : (r.lookup name).Modest := by
  rw [h.toSingle.lookup]
  exact h.sound.frame.lookup name

theorem advance (h : r.Shares f body m) (hf : a.options.flowSensitive = true) (i revisits : Nat) {r' : Run σ}
    {frame : Snapshot} (h' : r'.Sweeps f body { m with frame }) (horacle : r'.oracle = r.oracle)
    (hmodest : frame.Modest) (hkeeps : m.frame.Keeps stmt frame) :
    ∃ m', (r'.advance a ⟨f, i, revisits⟩).Shares f body m' ∧ m.frame.Keeps stmt m'.frame := by
  have hsound := (h.sound.write hmodest hkeeps).congr (Sweep.proceed_frame (.build f body) _ i _)
    (Sweep.proceed_saved _ _ i ((Graph.build f body).succsAt i))
  refine ⟨_, ⟨h'.advance hf, hsound, ?_⟩, ?_⟩
  · rw [oracle_advance, horacle, h.oracle]
  · rw [Sweep.proceed_frame]
    exact hkeeps

theorem assign (h : r.Shares f body m) (hf : a.options.flowSensitive = true) (hi : body[i]? = some stmt)
    (hlabel : ∀ l, stmt ≠ .label l) (target : String) {w : Value} (hw : w.Modest) :
    ∃ r' m', (r.assign a ⟨f, i, revisits⟩ target w >>= fun r => .ok (r.advance a ⟨f, i, revisits⟩)) = .ok r' ∧
      r'.Shares f body m' ∧ m.frame.Keeps stmt m'.frame := by
  obtain ⟨r₁, hr₁, h₁⟩ := h.toSweeps.assign hf (fun l hl => hlabel l (Option.some.inj (hi.symm.trans hl))) revisits
    target w
  have hbound : Sweep.bound m.frame target w = m.frame.bind false target w := rfl
  rw [hbound] at h₁
  obtain ⟨m', h', hkeeps⟩ := h.advance hf i revisits h₁ (oracle_assign hf hr₁)
    (Snapshot.modest_bind h.sound.frame false target hw) (Snapshot.keeps_bind h.sound.frame stmt target hw)
  exact ⟨_, m', by rw [hr₁]; rfl, h', hkeeps⟩

theorem rebind (h : r.Shares f body m) (hf : a.options.flowSensitive = true) (stmt : Stmt) (i revisits : Nat)
    (object : String) {w : Value} (hw : w.Modest) (hunknown : (r.lookup object).hasUnknown = true → w.hasUnknown = true)
    (hcovers : stmt.fills object (r.lookup object) = false → w.Covers (r.lookup object))
    (hgrows : w.Outgrows (r.lookup object)) :
    ∃ m', ((r.rebind object w).advance a ⟨f, i, revisits⟩).Shares f body m' ∧ m.frame.Keeps stmt m'.frame := by
  rw [h.toSingle.lookup] at hunknown hcovers hgrows
  have hrebound : (r.rebind object w).Sweeps f body { m with frame := m.frame.rebind object w } := by
    unfold Run.rebind Snapshot.rebind
    rw [h.updateVariable?]
    cases Dict.get? m.frame object with
    | none => exact h.toSweeps
    | some v => exact { h with toTracks := h.toTracks.write object w }
  exact h.advance hf i revisits hrebound (r.oracle_rebind object w) (h.sound.frame.rebind object hw)
    (Snapshot.keeps_rebind h.sound.frame hunknown ⟨hcovers, hgrows⟩)

theorem subscriptStore (h : r.Shares f body m) (hf : a.options.flowSensitive = true) (i revisits : Nat)
    (object index value : String) :
    ∃ m', ((r.subscriptStore object index value).advance a ⟨f, i, revisits⟩).Shares f body m' ∧
      m.frame.Keeps (.subscriptStore object index value) m'.frame := by
  have hbase := h.lookup object
  have hfilled : (Stmt.subscriptStore object index value).fills object (r.lookup object) = false →
      ∀ c ∈ (r.lookup object).containers, 0 < c.minSize := by
    intro hfills c hc
    simp only [Stmt.fills, BEq.rfl, Bool.true_and, List.any_eq_false, beq_iff_eq] at hfills
    exact Nat.pos_of_ne_zero (hfills c hc)
  have hstored := Value.closed_modest.store hbase (h.lookup value) (h.lookup index)
  refine h.rebind hf (.subscriptStore object index value) i revisits object hstored ?_ ?_ ?_
  · exact fun hunknown => (Value.hasUnknown_store hbase.tidy _ _).trans hunknown
  · exact fun hfills => Value.covers_store hbase (h.lookup value) (h.lookup index) (hfilled hfills)
  · exact Value.outgrows_store hbase (h.lookup value) (h.lookup index)

theorem attrStore (h : r.Shares f body m) (hf : a.options.flowSensitive = true) (i revisits : Nat)
    (object attr value : String) :
    ∃ m', ((r.attrStore object attr value).advance a ⟨f, i, revisits⟩).Shares f body m' ∧
      m.frame.Keeps (.attrStore object attr value) m'.frame := by
  obtain ⟨w, hstore, hw, hkept⟩ :=
    attrStore_of_modest attr h.oracle object value (h.lookup object) (h.lookup value)
  rw [hstore]
  have hrebound := h.rebind hf (.attrStore object attr value) i revisits object hw
  rcases hkept with rfl | hlost
  · exact hrebound id (fun _ => Value.covers_refl (h.lookup object)) (Value.outgrows_refl _)
  · exact hrebound (fun _ => hlost) (fun _ => Or.inl hlost) (Or.inl hlost)

theorem control (h : r.Shares f body m) {r' : Run σ} (h' : r'.Sweeps f body (m.apply (.build f body) i revisits stmt))
    (horacle : r'.oracle = r.oracle)
    (hcontrol : (∃ sense test l, stmt = .jump sense test l) ∨ (∃ l, stmt = .goto l) ∨ ∃ l, stmt = .label l) :
    ∃ m', r'.Shares f body m' ∧ m.frame.Keeps stmt m'.frame := by
  obtain ⟨hsound, hkeeps⟩ := h.sound.apply (.build f body) i revisits hcontrol
  exact ⟨_, ⟨h', hsound, horacle ▸ h.oracle⟩, hkeeps⟩

/-- One statement leaves all values covered that it does not fill, and the sweep sound. -/
theorem interpretStmt (h : r.Shares f body m) (hf : a.options.flowSensitive = true) (hi : body[i]? = some stmt)
    (hdirect : stmt.isDirect = true) (analysis : BodyAnalysis σ) (revisits : Nat) :
    ∃ r' m', r.interpretStmt a analysis ⟨f, i, revisits⟩ stmt = .ok r' ∧ r'.Shares f body m' ∧
      m.frame.Keeps stmt m'.frame := by
  -- A statement binds its target, stores into a variable, or only directs control flow.
  cases stmt with
  | assign t x => exact h.assign hf hi (by simp) t (h.lookup x)
  | const t l => exact h.assign hf hi (by simp) t (Value.closed_modest.literal l)
  | expr t os => exact h.assign hf hi (by simp) t Value.closed_modest.unknown
  | build t type elems keys =>
    refine h.assign hf hi (by simp) t ?_
    rw [h.toSingle.build]
    exact Snapshot.build_of_closed Value.closed_modest h.sound.frame.values type elems keys
  | subscriptLoad t o x => exact h.assign hf hi (by simp) t (Value.closed_modest.elements (h.lookup o))
  | attrLoad t o attr =>
    obtain ⟨w, hload, hw⟩ := attrLoad_of_modest attr h.oracle o (h.lookup o)
    simp only [Run.interpretStmt, Run.interpretSimple, hload]
    exact h.assign hf hi (by simp) t hw
  | subscriptStore o x v =>
    obtain ⟨m', h'⟩ := h.subscriptStore hf i revisits o x v
    exact ⟨_, m', rfl, h'⟩
  | attrStore o attr v =>
    obtain ⟨m', h'⟩ := h.attrStore hf i revisits o attr v
    exact ⟨_, m', rfl, h'⟩
  | jump sense test l =>
    obtain ⟨m', h'⟩ := h.control (h.toSweeps.branch hf sense test l) (r.oracle_branch a _ sense test l)
      (Or.inl ⟨sense, test, l, rfl⟩)
    exact ⟨_, m', rfl, h'⟩
  | goto l =>
    obtain ⟨m', h'⟩ := h.control (h.toSweeps.jump hf l) (r.oracle_jump a _ l) (Or.inr (Or.inl ⟨l, rfl⟩))
    exact ⟨_, m', rfl, h'⟩
  | label l =>
    obtain ⟨r', hr', hswept⟩ := h.toSweeps.label hf l
    obtain ⟨m', h'⟩ := h.control hswept (oracle_label hr') (Or.inr (Or.inr ⟨l, rfl⟩))
    exact ⟨r', m', hr', h'⟩
  | _ => cases hdirect

end Shares

def next (a : Analyzer) (analysis : BodyAnalysis σ) (r : Run σ) : Except Violation (Run σ) :=
  match r.state.flow.dequeue? with
  | none => .ok r
  | some (item, flow) => Run.interpret { r with state.flow := flow } a analysis item

def next? (r : Run σ) (body : List Stmt) : Option Stmt :=
  r.state.flow.queue.head?.bind fun item => body[item.index.toNat]?

theorem Shares.next {f : String} {body : List Stmt} {m : Sweep} {a : Analyzer} (h : r.Shares f body m)
    (hf : a.options.flowSensitive = true) (hbody : (a.scope? f).map (·.body) = some body)
    (hdirect : ∀ stmt ∈ body, stmt.isDirect = true) (analysis : BodyAnalysis σ) :
    ∃ r' m', r.next a analysis = .ok r' ∧ r'.Shares f body m' ∧
      ∀ name v, Dict.get? m.frame name = some v →
        ∃ w, Dict.get? m'.frame name = some w ∧
          ((r.next? body).any (·.fills name v) = false → w.Covers v) ∧ w.Outgrows v := by
  unfold Run.next
  cases hq : m.queue with
  | nil =>
    rw [Tracker.dequeue?_of_idle (h.flow.idle hq)]
    refine ⟨r, m, rfl, h, fun name v hv => ⟨v, hv, fun _ => ?_, v.outgrows_refl⟩⟩
    exact Value.covers_refl (h.sound.frame.values.get? hv)
  | cons i rest =>
    obtain ⟨t, ht, hcount, hvisit⟩ := h.flow.dequeue? hq
    obtain ⟨stmt, r₁, hstmt, hr₁, h₁, horacle⟩ := h.toSweeps.visit hbody hq analysis hcount hvisit
    have hshares : r₁.Shares f body (m.visit i rest) := ⟨h₁, h.sound.congr rfl rfl, horacle ▸ h.oracle⟩
    obtain ⟨r', m', hr', h', hkeeps⟩ :=
      hshares.interpretStmt hf hstmt (hdirect stmt (List.mem_of_getElem? hstmt)) analysis (m.visits i)
    have hnext : r.next? body = some stmt := by
      rw [next?, h.flow.queue, hq]
      exact hstmt
    rw [ht, hnext]
    exact ⟨r', m', hr₁.trans hr', h', hkeeps⟩

end Run

namespace Scope

variable {σ : Type} {s : Scope} {o : Options} {t : Bool} {r : Run σ}

/-- The runs that the analysis of a module goes through: its first statement waits at first, and then one
statement after the other is interpreted. -/
inductive Traverses (s : Scope) (o : Options) (t : Bool) : Run σ → Prop where
  | start {r : Run σ} (h : r.Fresh s) :
    Traverses s o t (Run.mapFlow { r with state := r.state.setCurrent s.name .root } fun t => t.push.enqueue s.name 0)
  | next {r r' : Run σ} {analysis : BodyAnalysis σ} (h : Traverses s o t r)
    (hnext : r.next (s.alone o t) analysis = .ok r') : Traverses s o t r'

theorem Traverses.shares (hdirect : ∀ stmt ∈ s.body, stmt.isDirect = true) (hf : o.flowSensitive = true)
    (h : s.Traverses o t r) : ∃ m, r.Shares s.name s.body m := by
  induction h with
  | start h =>
    refine ⟨_, sweeps_start h, ⟨?_, fun i snap hsnap => ?_⟩, h.oracle⟩
    · rw [Sweep.start, Sweep.enqueue_frame]
      exact ⟨Dict.sorted_nil, Dict.each_nil⟩
    · rw [Sweep.start, Sweep.enqueue_saved] at hsnap
      cases hsnap
  | next _ hnext ih =>
    obtain ⟨m, hm⟩ := ih
    obtain ⟨r', m', hr', h', -⟩ := hm.next (a := s.alone o t) hf body_alone hdirect _
    obtain rfl := Except.ok.inj (hr'.symm.trans hnext)
    exact ⟨m', h'⟩

/-- No statement takes anything away from the frame that both ways of a branch share, except that a container
that is stored into no longer may be empty. -/
theorem next_keeps (hdirect : ∀ stmt ∈ s.body, stmt.isDirect = true) (hf : o.flowSensitive = true)
    (h : s.Traverses o t r) (analysis : BodyAnalysis σ) :
    ∃ r', r.next (s.alone o t) analysis = .ok r' ∧
      ∀ name v, Memory.get? r.state.memory ⟨s.name, .root⟩ name = some v →
        ∃ w, Memory.get? r'.state.memory ⟨s.name, .root⟩ name = some w ∧
          ((r.next? s.body).any (·.fills name v) = false → w.Covers v) ∧ w.shape.Covers v.shape := by
  obtain ⟨m, hm⟩ := h.shares hdirect hf
  obtain ⟨r', m', hr', h', hkeeps⟩ := hm.next (a := s.alone o t) hf body_alone hdirect analysis
  refine ⟨r', hr', fun name v hv => ?_⟩
  rw [Memory.get?, hm.frame] at hv
  rw [Memory.get?, h'.frame]
  obtain ⟨w, hw, hcovers, hgrows⟩ := hkeeps name v hv
  exact ⟨w, hw, hcovers, hgrows.shape_covers (hm.sound.frame.values.get? hv)⟩

/-- The run that analyses a module without an oracle, after a number of statements. -/
def runAfter (s : Scope) (o : Options) : Nat → Except Violation (Run Unit)
  | 0 => ((s.alone o false).startState .callSite).map fun state =>
    Run.mapFlow { state := state.setCurrent s.name .root, oracle := ⟨none, (), []⟩ } fun t => t.push.enqueue s.name 0
  | n + 1 => s.runAfter o n >>= Run.next (s.alone o false) (s.alone o false).body

theorem traverses_runAfter (hmodule : s.kind = .module) {n : Nat} {r : Run Unit} (h : s.runAfter o n = .ok r) :
    s.Traverses o false r := by
  induction n generalizing r with
  | zero =>
    obtain ⟨state, hstate, hknown, hscope, hmemory, hflow⟩ :=
      startState_alone (s := s) (o := o) (t := false) hmodule .callSite
    rw [runAfter, hstate] at h
    obtain rfl := Except.ok.inj h
    exact .start (r := { state, oracle := ⟨none, (), []⟩ }) ⟨hknown, hscope, hmemory, hflow, rfl, rfl, rfl⟩
  | succ n ih =>
    obtain ⟨r₀, hr₀, hnext⟩ := Except.bind_eq_ok.mp h
    exact (ih hr₀).next hnext

def boundTwice : Scope := { emptyModule "m" with body := [.const "x" (.int 1), .const "x" (.int 2)] }

/-- After the second of two bindings, the variable may be what it was before, and more. -/
theorem next_keeps_boundTwice :
    ∃ (r r' : Run Unit) (v w : Value), boundTwice.Traverses {} false r ∧
      r.next (boundTwice.alone {} false) (boundTwice.alone {} false).body = .ok r' ∧
      Memory.get? r.state.memory ⟨"m", .root⟩ "x" = some v ∧
      Memory.get? r'.state.memory ⟨"m", .root⟩ "x" = some w ∧ w.Covers v ∧ ¬ v.Covers w := by
  have htest : (boundTwice.runAfter {} 1).toOption.any (fun r =>
      (r.next (boundTwice.alone {} false) (boundTwice.alone {} false).body).toOption.any fun r' =>
        (Memory.get? r.state.memory ⟨"m", .root⟩ "x").any fun v =>
          (Memory.get? r'.state.memory ⟨"m", .root⟩ "x").any fun w =>
            decide ((r.next? boundTwice.body).any (·.fills "x" v) = false ∧ ¬ v.Covers w)) = true := by
    decide +kernel
  obtain ⟨r, hr, htest⟩ := Except.exists_ok_of_any htest
  obtain ⟨r', hr', htest⟩ := Except.exists_ok_of_any htest
  simp only [Option.any_eq_true, decide_eq_true_eq] at htest
  obtain ⟨v, hv, w, hw, hfills, hnot⟩ := htest
  have htraverses := traverses_runAfter rfl hr
  obtain ⟨r₁, hr₁, hkeeps⟩ := next_keeps (by decide) rfl htraverses (boundTwice.alone {} false).body
  obtain rfl := Except.ok.inj (hr₁.symm.trans hr')
  obtain ⟨w₁, hw₁, hcovers, -⟩ := hkeeps "x" v hv
  obtain rfl := Option.some.inj (hw₁.symm.trans hw)
  exact ⟨r, r₁, v, w₁, htraverses, hr', hv, hw, hcovers hfills, hnot⟩

/-- A module that binds a dict and stores into it one way of a branch; the other way tests the dict, and binds `z`
if it is empty. -/
def storedOneWay : Scope :=
  { emptyModule "m" with body :=
      [.build "x" .dict [] [], .const "i" (.int 0), .const "v" (.int 1), .expr "t" [], .jump true (.name "t") "L",
        .subscriptStore "x" "i" "v", .goto "E", .label "L", .jump true (.name "x") "E", .const "z" (.int 1),
        .label "E"] }

/-- The store one way has the frame that both ways share say that the dict is not empty. -/
theorem next_forgets :
    ¬ ∀ (s : Scope) (o : Options) (r r' : Run Unit), (∀ stmt ∈ s.body, stmt.isDirect = true) →
      o.flowSensitive = true → s.Traverses o false r →
      r.next (s.alone o false) (s.alone o false).body = .ok r' →
      ∀ name v w, Memory.get? r.state.memory ⟨s.name, .root⟩ name = some v →
        Memory.get? r'.state.memory ⟨s.name, .root⟩ name = some w → w.Covers v := by
  intro hall
  have htest : (storedOneWay.runAfter {} 5).toOption.any (fun r =>
      (r.next (storedOneWay.alone {} false) (storedOneWay.alone {} false).body).toOption.any fun r' =>
        (Memory.get? r.state.memory ⟨"m", .root⟩ "x").any fun v =>
          (Memory.get? r'.state.memory ⟨"m", .root⟩ "x").any fun w => decide (¬ w.Covers v)) = true := by
    decide +kernel
  obtain ⟨r, hr, htest⟩ := Except.exists_ok_of_any htest
  obtain ⟨r', hr', htest⟩ := Except.exists_ok_of_any htest
  simp only [Option.any_eq_true, decide_eq_true_eq] at htest
  obtain ⟨v, hv, w, hw, hnot⟩ := htest
  exact hnot (hall storedOneWay {} r r' (by decide) rfl (traverses_runAfter rfl hr) hr' "x" v w hv hw)

theorem Traverses.drain (hdirect : ∀ stmt ∈ s.body, stmt.isDirect = true) (hf : o.flowSensitive = true)
    (analysis : BodyAnalysis σ) (n : Nat) (h : s.Traverses o t r) :
    ∃ r', Run.drain (s.alone o t) analysis s.name n r = .ok r' ∧ r'.state.flow.outer = [[]] ∧ r'.queue = [] ∧
      ∃ r₁ : Run σ, s.Traverses o t r₁ ∧ r'.state.memory = r₁.state.memory ∧
        (r'.stats.iterationCapHit = 0 → r₁.state.flow.queue = []) := by
  -- The induction is on what is left of the limit; a reachable run is sound, so its next statement does not fail.
  induction n generalizing r with
  | zero =>
    obtain ⟨m, hm⟩ := h.shares hdirect hf
    unfold Run.drain
    cases hq : m.queue with
    | nil =>
      have hidle := hm.flow.idle hq
      rw [Tracker.dequeue?_of_idle hidle]
      exact ⟨r, rfl, hm.flow.outer, hm.calls, r, h, rfl, fun _ => hidle⟩
    | cons i rest =>
      obtain ⟨t', ht', -, hvisit⟩ := hm.flow.dequeue? hq
      rw [ht']
      exact ⟨_, rfl, hvisit.outer, hm.calls, r, h, rfl, fun huncapped => absurd huncapped (Nat.succ_ne_zero _)⟩
  | succ n ih =>
    obtain ⟨m, hm⟩ := h.shares hdirect hf
    unfold Run.drain
    cases hd : r.state.flow.dequeue? with
    | none =>
      have hidle : r.state.flow.queue = [] := by
        rw [Tracker.dequeue?_eq, Option.map_eq_none_iff] at hd
        exact List.head?_eq_none_iff.mp hd
      exact ⟨r, rfl, hm.flow.outer, hm.calls, r, h, rfl, fun _ => hidle⟩
    | some first =>
      obtain ⟨item, flow⟩ := first
      obtain ⟨r₀, -, hr₀, -⟩ := hm.next (a := s.alone o t) hf body_alone hdirect analysis
      obtain ⟨r', hr', hrest⟩ := ih (h.next hr₀)
      refine ⟨r', ?_, hrest⟩
      rw [Run.next, hd] at hr₀
      dsimp only at hr₀ ⊢
      rw [hr₀]
      exact hr'

/-- The analysis of a module ends in the frame of a reachable run, and nothing waits there unless the iteration
limit was reached. -/
theorem analyze_traverses (hmodule : s.kind = .module) (hdirect : ∀ stmt ∈ s.body, stmt.isDirect = true)
    (hf : o.flowSensitive = true) {policy : Policy} (hvalid : o.validate = .ok policy) (start : σ) :
    ∃ (res : Result σ) (r : Run σ), (s.alone o t).analyze none none start = .ok res ∧ s.Traverses o t r ∧
      res.state.frameAt s.name .root = r.state.memory.frame ⟨s.name, .root⟩ ∧
      (res.stats.iterationCapHit = 0 → r.state.flow.queue = []) := by
  have hanalyses : s.Analyses (σ := σ) o t fun r' => ∃ r : Run σ, s.Traverses o t r ∧
      r'.state.memory = r.state.memory ∧ (r'.stats.iterationCapHit = 0 → r.state.flow.queue = []) := by
    intro r hfresh
    obtain ⟨r', flow, hr', hcalls, hreached⟩ := body_of_drain (s := s) (t := t) hf fun analysis =>
      (Traverses.start (o := o) (t := t) hfresh).drain hdirect hf analysis o.maxIterations.toNat
    exact ⟨_, hr', hcalls, hreached⟩
  obtain ⟨res, r', hres, ⟨r, htraverses, hmemory, hcapped⟩, hframe, hstats⟩ :=
    analyze_alone (t := t) hmodule hvalid hanalyses start
  exact ⟨res, r, hres, htraverses, hmemory ▸ hframe, fun huncapped => hcapped (hstats ▸ huncapped)⟩

end Scope

end AbstractFlow
