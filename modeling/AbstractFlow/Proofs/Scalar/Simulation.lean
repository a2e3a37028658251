import AbstractFlow.Proofs.Analysis.Alone
import AbstractFlow.Proofs.Scalar.Sweep
import AbstractFlow.Proofs.State.Single

/-! # Runs over scalar bodies are sweeps

A run that analyses a scalar module and the sweep over its body move in step: every statement
changes the frame, the queue, the counts and the snapshots of the run as it changes those of the
sweep, and nothing else that a result shows. The frame in which an analysis leaves the module is
therefore the frame of the sweep, and the analysis is complete just when the sweep has come to an
end within the iteration limit.
-/
namespace AbstractFlow

variable {σ : Type} {f : String} {body : List Stmt}

/-- A tracker that holds the queue, the counts and the snapshots of a sweep over the body of `f`,
inside a queue with nothing in it. -/
structure Tracker.Follows (f : String) (body : List Stmt) (t : Tracker) (m : Sweep) : Prop where
  graph : t.graph? f = some (.build f body)
  queue : t.queue = m.queue.map fun i => ⟨f, (i : Int)⟩
  inside : ∀ i ∈ m.queue, i < body.length
  visits : ∀ i : Nat, t.visitCount ⟨f, i, .root⟩ = m.visits i
  saved : ∀ i : Nat, t.snapshot? ⟨f, i, .root⟩ = m.saved i
  outer : t.outer = [[]]

namespace Tracker.Follows

variable {t : Tracker} {m : Sweep}

theorem enqueue (h : t.Follows f body m) (j : Nat) :
    (t.enqueue f j).Follows f body (m.enqueue (.build f body) j) := by
  have hwaits : ⟨f, (j : Int)⟩ ∈ t.queue ↔ j ∈ m.queue := by
    rw [h.queue, List.mem_map]
    constructor
    · rintro ⟨i, hi, heq⟩
      have hij : (i : Int) = j := congrArg WorkItem.index heq
      exact Int.ofNat.inj hij ▸ hi
    · exact fun hj => ⟨j, hj, rfl⟩
  have haccepts : t.accepts f j = true ↔ j < body.length ∧ j ∉ m.queue := by
    rw [Tracker.accepts_iff, Tracker.inRange_iff, hwaits, h.graph]
    simp [Graph.build_length]
  unfold Sweep.enqueue
  rw [Tracker.enqueue_eq, Graph.build_length]
  by_cases hj : j < body.length ∧ j ∉ m.queue
  · rw [if_pos (haccepts.mpr hj), if_pos hj]
    refine { h with queue := ?_, inside := ?_ }
    · rw [Tracker.queue_put (mt hwaits.mp hj.2), h.queue]
      simp
    · intro i hi
      rcases List.mem_append.mp hi with hi | hi
      · exact h.inside i hi
      · exact List.mem_singleton.mp hi ▸ hj.1
  · rw [if_neg (mt haccepts.mp hj), if_neg (by simpa using hj)]
    exact h

theorem leave (h : t.Follows f body m) (i : Nat) : t.Follows f body (m.leave i) := { h with }

theorem proceed (h : t.Follows f body m) (i : Nat) (js : List Nat) :
    (js.foldl (fun t (j : Nat) => t.enqueue f j) t).Follows f body (m.proceed (.build f body) i js) := by
  unfold Sweep.proceed
  have hleft := h.leave i
  clear h
  generalize m.leave i = m at hleft
  induction js generalizing t m with
  | nil => exact hleft
  | cons j rest ih => exact ih _ (hleft.enqueue j)

theorem enqueueSuccessors (h : t.Follows f body m) (i : Nat) :
    (t.enqueueSuccessors f i).Follows f body
      (m.proceed (.build f body) i ((Graph.build f body).succsAt i)) := by
  unfold Tracker.enqueueSuccessors
  rw [h.graph]
  exact h.proceed i _

theorem idle (h : t.Follows f body m) (hq : m.queue = []) : t.queue = [] := by
  rw [h.queue, hq]
  rfl

theorem dequeue? (h : t.Follows f body m) {i : Nat} {rest : List Nat} (hq : m.queue = i :: rest) :
    ∃ t', t.dequeue? = some (⟨f, i⟩, t') ∧ t'.visitCount ⟨f, i, .root⟩ = m.visits i ∧
      (t'.visit ⟨f, i, .root⟩).Follows f body (m.visit i rest) := by
  have hqueue : t.queue = ⟨f, (i : Int)⟩ :: rest.map fun (j : Nat) => ⟨f, (j : Int)⟩ := by
    rw [h.queue, hq, List.map_cons]
  refine ⟨t.taken ⟨f, i⟩, Tracker.dequeue?_of_queue hqueue, h.visits i, ?_⟩
  refine { h with queue := Tracker.queue_taken hqueue, inside := fun j hj => ?_, visits := fun j => ?_ }
  · exact h.inside j (hq ▸ List.mem_cons_of_mem i hj)
  · rw [Tracker.visitCount_visit, Sweep.visit]
    refine (congrArg (· + if j = i then 1 else 0) (h.visits j)).trans ?_
    by_cases hij : j = i
    · subst hij
      simp
    · simp [hij]

theorem setSnapshot (h : t.Follows f body m) (i : Nat) (snap : Snapshot) :
    (t.setSnapshot ⟨f, i, .root⟩ snap).Follows f body
      { m with saved := Function.update m.saved i (some snap) } := by
  refine { h with saved := fun j => ?_ }
  have hj := h.saved j
  simp only [Tracker.snapshot?, Tracker.setSnapshot, Table.get?_insert] at hj ⊢
  by_cases hij : j = i
  · subst hij
    simp
  · have hpoint := Point.ne_of_index_ne f (Ne.symm hij)
    rw [if_neg hpoint, hj, Function.update_of_ne hij]

theorem saveSnapshot (h : t.Follows f body m) (i : Nat) (snap : Snapshot) :
    (t.saveSnapshot ⟨f, i, .root⟩ snap).Follows f body { m with saved := Sweep.save snap m.saved i } := by
  unfold Tracker.saveSnapshot Sweep.save
  rw [h.saved]
  cases m.saved i with
  | none => exact h.setSnapshot i snap
  | some known => exact h.setSnapshot i (Snapshot.merge known snap)

theorem saveAll (h : t.Follows f body m) (js : List Nat) (snap : Snapshot) :
    (js.foldl (fun t (j : Nat) => t.saveSnapshot ⟨f, j, .root⟩ snap) t).Follows f body
      { m with saved := js.foldl (Sweep.save snap) m.saved } := by
  induction js generalizing t m with
  | nil => exact h
  | cons j rest ih => exact ih (h.saveSnapshot j snap)

theorem mergePointsFrom (h : t.Follows f body m) (i : Nat) :
    t.mergePointsFrom ⟨f, i, .root⟩ = m.ahead (.build f body) i := by
  unfold Tracker.mergePointsFrom Sweep.ahead
  simp only [h.graph, h.visits]

end Tracker.Follows

/-- A state analyses the module `f` where the sweep `m` stands, and binds nothing elsewhere. -/
structure Tracks (f : String) (body : List Stmt) (s : State) (m : Sweep) : Prop
    extends State.Single f s m.frame where
  flow : s.flow.Follows f body m

namespace Tracks

variable {s : State} {m : Sweep}

theorem operand {r : Run σ} (h : Tracks f body r.state m) (o : Operand) :
    r.operand o = m.operand o := by
  rcases o with name | l
  · exact h.lookup name
  · rfl

theorem evaluate {r : Run σ} (h : Tracks f body r.state m) (t : Test) :
    r.evaluate t = m.evaluate t := by
  cases t with
  | name n => exact congrArg Value.truth (h.lookup n)
  | literal l => rfl
  | compare left op right => simp only [Run.evaluate, Sweep.evaluate, h.operand]

theorem mapFlow (h : Tracks f body s m) {t : Tracker} {m' : Sweep} (ht : t.Follows f body m')
    (hm : m'.frame = m.frame) : Tracks f body { s with flow := t } m' :=
  { h with flow := ht, frame := h.frame.trans hm.symm }

theorem write (h : Tracks f body s m) (name : String) (v : Value) :
    Tracks f body { s with memory := s.memory.set ⟨f, .root⟩ name v }
      { m with frame := m.frame.insert name v } :=
  { h.toSingle.write name v with flow := { h.flow with } }

theorem restore (h : Tracks f body s m) (snap : Snapshot) :
    ∃ s', s.restore snap = .ok s' ∧
      Tracks f body s' { m with frame := Sweep.restored m.frame snap } := by
  induction snap generalizing s m with
  | nil => exact ⟨s, rfl, h⟩
  | cons e rest ih =>
    obtain ⟨s', hs', ht'⟩ := ih (h.write e.1 e.2)
    refine ⟨s', ?_, ht'⟩
    simp only [State.restore, List.foldlM_cons, h.setVariable]
    exact hs'

end Tracks

/-- A run that analyses the module `f` where the sweep `m` stands; no call waits and no limit was
reached. -/
structure Run.Sweeps (f : String) (body : List Stmt) (r : Run σ) (m : Sweep) : Prop
    extends Tracks f body r.state m where
  calls : r.queue = []
  uncapped : r.stats.iterationCapHit = 0
  uncut : r.stats.recursionCutoffs = 0

namespace Run.Sweeps

variable {r : Run σ} {m : Sweep} {a : Analyzer} {i revisits : Nat}

theorem note (h : r.Sweeps f body m) (line : Unit → String) : (r.note a line).Sweeps f body m := by
  unfold Run.note
  split
  · exact { h with }
  · exact h

theorem mapFlow (h : r.Sweeps f body m) {g : Tracker → Tracker} {m' : Sweep}
    (hg : (g r.state.flow).Follows f body m') (hm : m'.frame = m.frame) :
    (r.mapFlow g).Sweeps f body m' :=
  { h with toTracks := h.toTracks.mapFlow hg hm }

theorem advance (h : r.Sweeps f body m) (hf : a.options.flowSensitive = true) :
    (r.advance a ⟨f, i, revisits⟩).Sweeps f body
      (m.proceed (.build f body) i ((Graph.build f body).succsAt i)) := by
  unfold Run.advance
  rw [if_pos hf]
  exact h.mapFlow (g := (·.enqueueSuccessors f i)) (h.flow.enqueueSuccessors i) (Sweep.proceed_frame ..)

theorem label? (h : r.Sweeps f body m) (label : String) :
    ((r.state.flow.graph? f).bind fun g => g.label? label) = (Graph.build f body).label? label := by
  rw [h.flow.graph]
  rfl

theorem fork (h : r.Sweeps f body m) :
    (r.fork ⟨f, i, revisits⟩).Sweeps f body
      (Sweep.proceed (.build f body)
        { m with saved := (m.ahead (.build f body) i).foldl (Sweep.save m.frame) m.saved } i
        ((Graph.build f body).succsAt i)) := by
  have hpoint : ∀ j : Nat, r.pointAt ⟨f, i, revisits⟩ j = ⟨f, j, .root⟩ := by
    intro j
    simp [Run.pointAt, h.context]
  unfold Run.fork
  refine h.mapFlow ?_ (Sweep.proceed_frame ..)
  simp only [hpoint, h.flow.mergePointsFrom, h.snapshot]
  exact (h.flow.saveAll _ m.frame).enqueueSuccessors i

theorem branch (h : r.Sweeps f body m) (hf : a.options.flowSensitive = true) (sense : Bool)
    (test : Test) (label : String) :
    (r.branch a ⟨f, i, revisits⟩ sense test label).Sweeps f body
      (m.apply (.build f body) i revisits (.jump sense test label)) := by
  have hdecided : ∀ (line : Unit → String) (j : Nat),
      ((r.note a line).mapFlow (·.enqueue f j)).Sweeps f body (m.proceed (.build f body) i [j]) :=
    fun line j => (h.note line).mapFlow (((h.note line).flow.leave i).enqueue j) (Sweep.enqueue_frame ..)
  unfold Run.branch Sweep.apply Sweep.next? Sweep.savedAfter Sweep.frameAfter Sweep.decided?
  simp only [hf, Bool.not_true, Bool.false_eq_true, ↓reduceIte, h.label?, h.evaluate]
  cases (Graph.build f body).label? label with
  | none => exact h.fork
  | some t =>
    cases m.evaluate test with
    | maybe => exact h.fork
    | yes => cases sense <;> exact hdecided _ _
    | no => cases sense <;> exact hdecided _ _

theorem jump (h : r.Sweeps f body m) (hf : a.options.flowSensitive = true) (label : String) :
    (r.jump a ⟨f, i, revisits⟩ label).Sweeps f body
      (m.apply (.build f body) i revisits (.goto label)) := by
  unfold Run.jump Sweep.apply Sweep.next? Sweep.savedAfter Sweep.frameAfter
  simp only [hf, Bool.not_true, Bool.false_eq_true, ↓reduceIte, h.label?]
  cases (Graph.build f body).label? label with
  | none => exact { h with toTracks := h.toTracks.mapFlow (h.flow.leave i) rfl }
  | some t => exact h.mapFlow ((h.flow.leave i).enqueue t) (Sweep.enqueue_frame ..)

theorem join (h : r.Sweeps f body m) (hf : a.options.flowSensitive = true) {name : String}
    (hmerge : (Graph.build f body).isMergePoint i = true) :
    ∃ r', r.join a ⟨f, i, revisits⟩ = .ok r' ∧
      r'.Sweeps f body (m.apply (.build f body) i revisits (.label name)) := by
  have hpoint : r.pointAt ⟨f, i, revisits⟩ i = ⟨f, i, .root⟩ := by simp [Run.pointAt, h.context]
  -- The point is read at the root, where the tracker keeps for it what the sweep keeps.
  have hjoin : r.join a ⟨f, i, revisits⟩ = (r.state.restore (m.arriving i) >>= fun state =>
      let r := { r with state }.mapFlow (·.setSnapshot ⟨f, i, .root⟩ (m.arriving i))
      if m.isStable i revisits then .ok (r.note a fun _ => "  join at " ++ toString i ++ " is stable")
      else .ok (r.advance a ⟨f, i, revisits⟩)) := by
    unfold Run.join Sweep.isStable Sweep.arriving
    simp only [hpoint, h.flow.saved, h.snapshot]
    cases m.saved i <;> rfl
  obtain ⟨s, hs, ht⟩ := h.restore (m.arriving i)
  have hrestored : Run.Sweeps f body { r with state := s }
      { m with frame := Sweep.restored m.frame (m.arriving i) } := { h with toTracks := ht }
  have hsettled : Run.Sweeps f body
      ({ r with state := s }.mapFlow (·.setSnapshot ⟨f, i, .root⟩ (m.arriving i)))
      { m with
        frame := Sweep.restored m.frame (m.arriving i)
        saved := Function.update m.saved i (some (m.arriving i)) } :=
    hrestored.mapFlow (ht.flow.setSnapshot i _) rfl
  rw [hjoin, hs]
  unfold Sweep.apply Sweep.next? Sweep.savedAfter Sweep.frameAfter
  simp only [hmerge, ↓reduceIte, Bool.true_and]
  by_cases hstable : m.isStable i revisits = true
  · rw [if_pos hstable]
    exact ⟨_, if_pos hstable, hsettled.note _⟩
  · rw [if_neg hstable]
    exact ⟨_, if_neg hstable, hsettled.advance hf⟩

theorem label (h : r.Sweeps f body m) (hf : a.options.flowSensitive = true) (name : String) :
    ∃ r', r.label a ⟨f, i, revisits⟩ = .ok r' ∧
      r'.Sweeps f body (m.apply (.build f body) i revisits (.label name)) := by
  unfold Run.label
  simp only [hf, Bool.not_true, Bool.false_eq_true, ↓reduceIte, h.flow.graph, Option.any_some]
  by_cases hmerge : (Graph.build f body).isMergePoint i = true
  · rw [if_pos hmerge]
    exact h.join hf hmerge
  · rw [if_neg hmerge]
    unfold Sweep.apply Sweep.next? Sweep.savedAfter Sweep.frameAfter
    simp only [hmerge, Bool.false_eq_true, ↓reduceIte, Bool.false_and]
    exact ⟨_, rfl, h.advance hf⟩

/-- Control flow joins at labels only, so no assignment overwrites what its target holds. -/
theorem assign (h : r.Sweeps f body m) (hf : a.options.flowSensitive = true)
    (hi : ∀ l, body[i]? ≠ some (.label l)) (revisits : Nat) (target : String) (v : Value) :
    ∃ r', r.assign a ⟨f, i, revisits⟩ target v = .ok r' ∧
      r'.Sweeps f body { m with frame := Sweep.bound m.frame target v } := by
  have hweak : r.overwrites a ⟨f, i, revisits⟩ target = (false, r) := by
    have hone : decide (1 < r.predecessors ⟨f, i, revisits⟩) = false := by
      unfold Run.predecessors
      rw [h.flow.graph]
      exact Graph.isMergePoint_of_not_label f body hi
    rw [Run.overwrites_of_flowSensitive hf, hone, Bool.and_false]
  unfold Run.assign Sweep.bound
  by_cases ht : target = ""
  · simp only [ht, ↓reduceIte]
    exact ⟨r, rfl, h⟩
  · simp only [ht, ↓reduceIte, hweak, h.mergeVariable, Bool.false_eq_true]
    exact ⟨_, rfl, { h with toTracks := h.write target _ }⟩

theorem interpretStmt (h : r.Sweeps f body m) (hf : a.options.flowSensitive = true) {stmt : Stmt}
    (hi : body[i]? = some stmt) (hscalar : stmt.isScalar = true) (analysis : BodyAnalysis σ) :
    ∃ r', r.interpretStmt a analysis ⟨f, i, revisits⟩ stmt = .ok r' ∧
      r'.Sweeps f body (m.apply (.build f body) i revisits stmt) := by
  have hassign : (∀ l, stmt ≠ .label l) → ∀ target v, ∃ r',
      (r.assign a ⟨f, i, revisits⟩ target v >>= fun r => .ok (r.advance a ⟨f, i, revisits⟩)) = .ok r' ∧
        r'.Sweeps f body (Sweep.proceed (.build f body) { m with frame := Sweep.bound m.frame target v } i
          ((Graph.build f body).succsAt i)) := by
    intro hlabel target v
    obtain ⟨r', hr, h'⟩ := h.assign hf
      (fun l hl => hlabel l (Option.some.inj (hi.symm.trans hl))) revisits target v
    exact ⟨_, by rw [hr]; rfl, h'.advance hf⟩
  cases stmt with
  | assign t x =>
    have hlookup : m.frameAfter (.build f body) i (.assign t x) = Sweep.bound m.frame t (r.lookup x) := by
      rw [h.lookup]
      rfl
    unfold Sweep.apply
    rw [hlookup]
    exact hassign (by simp) t (r.lookup x)
  | const t l => exact hassign (by simp) t l.value
  | expr t os => exact hassign (by simp) t Value.unknown
  | jump sense test l => exact ⟨_, rfl, h.branch hf sense test l⟩
  | goto l => exact ⟨_, rfl, h.jump hf l⟩
  | label l => exact h.label hf l
  | _ => simp [Stmt.isScalar] at hscalar

/-- To interpret what was taken from the queue is to visit its statement, and to do what the statement says. -/
theorem visit (h : r.Sweeps f body m) (hbody : (a.scope? f).map (·.body) = some body) {rest : List Nat}
    (hq : m.queue = i :: rest) (analysis : BodyAnalysis σ) {t : Tracker}
    (hcount : t.visitCount ⟨f, i, .root⟩ = m.visits i)
    (ht : (t.visit ⟨f, i, .root⟩).Follows f body (m.visit i rest)) :
    ∃ stmt r', body[i]? = some stmt ∧ Run.interpret { r with state.flow := t } a analysis ⟨f, i⟩ =
      Run.interpretStmt r' a analysis ⟨f, i, m.visits i⟩ stmt ∧ r'.Sweeps f body (m.visit i rest) ∧
        r'.oracle = r.oracle := by
  obtain ⟨stmt, hstmt⟩ : ∃ stmt, body[i]? = some stmt := by
    refine ⟨_, List.getElem?_eq_getElem (h.flow.inside i ?_)⟩
    rw [hq]
    exact List.mem_cons_self
  have hvisited : Run.Sweeps f body
      { r with
        state.flow := t.visit ⟨f, i, .root⟩
        stats.statements := r.stats.statements + 1 } (m.visit i rest) :=
    { h with toTracks := h.toTracks.mapFlow ht rfl }
  obtain ⟨line, hline⟩ :=
    Run.interpret_eq { r with state.flow := t } a analysis hbody hstmt h.context hcount
  exact ⟨stmt, _, hstmt, hline, hvisited.note line, Run.oracle_note _ a line⟩

/-- A statement that was taken from the queue takes the run where the sweep goes in one step. -/
theorem interpret (h : r.Sweeps f body m) (hf : a.options.flowSensitive = true)
    (hbody : (a.scope? f).map (·.body) = some body) (hscalar : ∀ stmt ∈ body, stmt.isScalar = true)
    {rest : List Nat} (hq : m.queue = i :: rest) (analysis : BodyAnalysis σ) {t : Tracker}
    (hcount : t.visitCount ⟨f, i, .root⟩ = m.visits i)
    (ht : (t.visit ⟨f, i, .root⟩).Follows f body (m.visit i rest)) :
    ∃ r', Run.interpret { r with state.flow := t } a analysis ⟨f, i⟩ = .ok r' ∧
      r'.Sweeps f body (m.step (.build f body) body) := by
  obtain ⟨stmt, r₁, hstmt, hr₁, h₁, -⟩ := h.visit hbody hq analysis hcount ht
  have hstep : m.step (.build f body) body =
      (m.visit i rest).apply (.build f body) i (m.visits i) stmt := by
    simp only [Sweep.step, hq, hstmt]
  rw [hr₁, hstep]
  exact h₁.interpretStmt hf hstmt (hscalar stmt (List.mem_of_getElem? hstmt)) analysis

end Run.Sweeps

namespace Run

/-- A run whose analysis of the module `f` has come to an end where the sweep `m` stands: by itself
if nothing waits, and at the iteration limit otherwise. -/
structure Ended (f : String) (r : Run σ) (m : Sweep) : Prop where
  frame : r.state.memory.frame ⟨f, .root⟩ = m.frame
  calls : r.queue = []
  uncut : r.stats.recursionCutoffs = 0
  capHit : r.stats.iterationCapHit = if m.queue = [] then 0 else 1

theorem Sweeps.ended {r : Run σ} {m : Sweep} (h : r.Sweeps f body m) (hq : m.queue = []) :
    r.Ended f m := ⟨h.frame, h.calls, h.uncut, by rw [h.uncapped, if_pos hq]⟩

theorem Sweeps.ended_capped {a : Analyzer} {r : Run σ} {m : Sweep} {i : Nat} {rest : List Nat}
    (h : r.Sweeps f body m) (hq : m.queue = i :: rest) (t : Tracker) :
    (Run.capped { r with state.flow := t } a f).Ended f m := by
  refine ⟨h.frame, h.calls, h.uncut, ?_⟩
  rw [hq, if_neg (List.cons_ne_nil _ _)]
  exact congrArg (· + 1) h.uncapped

/-- The analysis of a body interprets as many statements as the sweep takes steps. -/
theorem Sweeps.drain {a : Analyzer} (hf : a.options.flowSensitive = true)
    (hbody : (a.scope? f).map (·.body) = some body) (hscalar : ∀ stmt ∈ body, stmt.isScalar = true)
    (analysis : BodyAnalysis σ) (n : Nat) {r : Run σ} {m : Sweep} (h : r.Sweeps f body m) :
    ∃ r', Run.drain a analysis f n r = .ok r' ∧ r'.state.flow.outer = [[]] ∧
      r'.Ended f ((Sweep.step (.build f body) body)^[n] m) := by
  induction n generalizing r m with
  | zero =>
    unfold Run.drain
    match hq : m.queue with
    | [] =>
      rw [Tracker.dequeue?_of_idle (h.flow.idle hq)]
      exact ⟨r, rfl, h.flow.outer, h.ended hq⟩
    | i :: rest =>
      obtain ⟨t, ht, -, hvisit⟩ := h.flow.dequeue? hq
      rw [ht]
      exact ⟨_, rfl, hvisit.outer, h.ended_capped hq t⟩
  | succ n ih =>
    unfold Run.drain
    match hq : m.queue with
    | [] =>
      rw [Tracker.dequeue?_of_idle (h.flow.idle hq), Sweep.iterate_step_of_idle _ hq]
      exact ⟨r, rfl, h.flow.outer, h.ended hq⟩
    | i :: rest =>
      obtain ⟨t, ht, hcount, hvisit⟩ := h.flow.dequeue? hq
      obtain ⟨r₁, hr₁, h₁⟩ := h.interpret hf hbody hscalar hq analysis hcount hvisit
      obtain ⟨r₂, hr₂, houter, h₂⟩ := ih h₁
      refine ⟨r₂, ?_, houter, by rwa [Function.iterate_succ_apply]⟩
      rw [ht, ← hr₂]
      exact congrArg (· >>= Run.drain a analysis f n) hr₁

end Run

namespace Scope

variable {s : Scope} {o : Options} {t : Bool}

theorem sweeps_start {r : Run σ} (h : r.Fresh s) :
    Run.Sweeps s.name s.body
      (Run.mapFlow { r with state := r.state.setCurrent s.name .root } fun t => t.push.enqueue s.name 0)
      (Sweep.start s.graph) := by
  have hfollows : r.state.flow.push.Follows s.name s.body
      ⟨[], [], fun _ => 0, fun _ => none, fun _ => none⟩ := by
    rw [h.flow]
    refine ⟨?_, rfl, by simp, fun _ => rfl, fun _ => rfl, rfl⟩
    simp [Tracker.graph?, Tracker.push, Tracker.build, Tracker.empty, Table.insert, Table.get?]
  have hframes : ∀ k, Memory.frame (r.state.setCurrent s.name .root).memory k = [] := by
    intro k
    rw [State.setCurrent_memory, h.memory]
    rfl
  have hstart : (Sweep.start s.graph).frame = [] := Sweep.enqueue_frame _ _ _
  refine ⟨⟨⟨?_, ?_, ?_, ?_⟩, ?_⟩, h.calls, by simp [Run.mapFlow, h.stats], by simp [Run.mapFlow, h.stats]⟩
  · exact r.state.setCurrent_scope .root h.known
  · exact r.state.setCurrent_context s.name .root
  · exact (hframes _).trans hstart.symm
  · exact fun k _ => hframes k
  · simp only [Run.mapFlow, State.setCurrent_flow]
    exact hfollows.enqueue 0

theorem analyses_sweep (hscalar : ∀ stmt ∈ s.body, stmt.isScalar = true) (hf : o.flowSensitive = true) :
    s.Analyses (σ := σ) o t fun r => r.Ended s.name (s.sweep o.maxIterations.toNat) := by
  intro r hfresh
  obtain ⟨r', flow, hr', h'⟩ := body_of_drain (s := s) (t := t) hf fun analysis =>
    (sweeps_start hfresh).drain (a := s.alone o t) hf body_alone hscalar analysis o.maxIterations.toNat
  exact ⟨_, hr', h'.calls, { h' with }⟩

/-- The analysis of a scalar module leaves the module in the frame of the sweep, and is stopped just
when the sweep has not come to its end within the iteration limit. -/
theorem analyze_sweep (hmodule : s.kind = .module) (hscalar : ∀ stmt ∈ s.body, stmt.isScalar = true)
    (hf : o.flowSensitive = true) {policy : Policy} (hvalid : o.validate = .ok policy) (start : σ) :
    ∃ res, (s.alone o t).analyze none none start = .ok res ∧
      res.state.frameAt s.name .root = (s.sweep o.maxIterations.toNat).frame ∧
      res.stats.recursionCutoffs = 0 ∧
      res.stats.iterationCapHit = if (s.sweep o.maxIterations.toNat).queue = [] then 0 else 1 := by
  obtain ⟨res, r', hres, h', hframe, hstats⟩ :=
    analyze_alone (t := t) hmodule hvalid (analyses_sweep hscalar hf) start
  refine ⟨res, hres, hframe.trans h'.frame, ?_, ?_⟩
  · rw [hstats]
    exact h'.uncut
  · rw [hstats]
    exact h'.capHit

end Scope

end AbstractFlow
