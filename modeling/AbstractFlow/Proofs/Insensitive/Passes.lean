import AbstractFlow.Proofs.Analysis.Alone
import AbstractFlow.Proofs.State.Single
import AbstractFlow.Proofs.Value.Ascent

/-! # Passes over a body

Where the order of statements does not count, a body is interpreted from its first statement to its last,
again and again. If its statements are local, all that this changes is the frame of the module: in the first
pass a statement overwrites its target, later it joins its value to it. A run and these frames move in step,
so the analysis ends with the first pass that leaves its frame as it was, unless it reaches the iteration
limit before.
-/
namespace AbstractFlow

/-- Statements that touch the variables of their own frame only. -/
def Stmt.isLocal : Stmt → Bool
  | .assign .. | .const .. | .build .. | .expr .. | .yield .. | .await .. | .subscriptLoad ..
  | .subscriptStore .. | .jump .. | .goto _ | .label _ => true
  | _ => false

namespace Snapshot

def build (frame : Snapshot) (type : ContainerType) (elems keys : List String) : Value :=
  match type with
  | .set => [.container (.setOf (elems.map frame.lookup))]
  | .dict => [.container (.dictOf (keys.map frame.lookup) (elems.map frame.lookup))]
  | type => [.container (.ofElems type (elems.map frame.lookup))]

def value (frame : Snapshot) : Stmt → Value
  | .assign _ source => frame.lookup source
  | .const _ l => l.value
  | .build _ type elems keys => frame.build type elems keys
  | .subscriptLoad _ object _ => Value.elements (frame.lookup object)
  | _ => Value.unknown

/-- Binds a variable, or joins a value to what it holds. -/
def bind (frame : Snapshot) (overwrites : Bool) (target : String) (v : Value) : Snapshot :=
  if target = "" then frame
  else frame.insert target (if overwrites then v else ((Dict.get? frame target).getD []).merge v)

theorem bind_eq_insert {frame : Snapshot} {target : String} (htarget : target ≠ "") (overwrites : Bool) (v : Value) :
    frame.bind overwrites target v =
      frame.insert target (if overwrites then v else ((Dict.get? frame target).getD []).merge v) :=
  if_neg htarget

def after (frame : Snapshot) (overwrites : Bool) : Stmt → Snapshot
  | .subscriptStore object index value =>
    if (Dict.get? frame object).isSome then
      frame.insert object ((frame.lookup object).store (frame.lookup value) (frame.lookup index))
    else frame
  | stmt => frame.bind overwrites stmt.target (frame.value stmt)

def afterAll (frame : Snapshot) (overwrites : Bool) (stmts : List Stmt) : Snapshot :=
  stmts.foldl (fun frame stmt => frame.after overwrites stmt) frame

@[simp] theorem afterAll_nil (frame : Snapshot) (overwrites : Bool) : frame.afterAll overwrites [] = frame := rfl

@[simp] theorem afterAll_cons (frame : Snapshot) (overwrites : Bool) (stmt : Stmt) (stmts : List Stmt) :
    frame.afterAll overwrites (stmt :: stmts) = (frame.after overwrites stmt).afterAll overwrites stmts := rfl

section Closed

variable {V : Value → Prop} (hV : Value.Closed V) {frame : Snapshot} (h : Dict.Each (fun _ v => V v) frame)
include hV h

theorem lookup_of_closed (name : String) : V (frame.lookup name) := by
  unfold lookup
  split
  · exact hV.unknown
  · cases hv : Dict.get? frame name with
    | none => exact hV.unknown
    | some v => exact h.get? hv

theorem build_of_closed (type : ContainerType) (elems keys : List String) : V (frame.build type elems keys) := by
  have hlookups : ∀ names : List String, ∀ v ∈ names.map frame.lookup, V v :=
    fun names => List.forall_mem_map.mpr fun name _ => lookup_of_closed hV h name
  unfold build
  split
  · exact hV.setOf (hlookups _)
  · exact hV.dictOf (hlookups _) (hlookups _)
  · exact hV.ofElems (hlookups _) _

/-- A local statement computes its value from constants and variables. -/
theorem value_of_closed (stmt : Stmt) : V (frame.value stmt) := by
  cases stmt with
  | assign _ source => exact lookup_of_closed hV h source
  | const _ l => exact hV.literal l
  | build _ type elems keys => exact build_of_closed hV h type elems keys
  | subscriptLoad _ object _ => exact hV.elements (lookup_of_closed hV h object)
  | _ => exact hV.unknown

end Closed

structure Modest (frame : Snapshot) : Prop where
  sorted : Dict.Sorted frame
  values : Dict.Each (fun _ v => v.Modest) frame

namespace Modest

variable {frame : Snapshot} (h : frame.Modest)
include h

theorem lookup (name : String) : (frame.lookup name).Modest := lookup_of_closed Value.closed_modest h.values name

theorem value (stmt : Stmt) : (frame.value stmt).Modest := value_of_closed Value.closed_modest h.values stmt

theorem insert (name : String) {v : Value} (hv : v.Modest) : Modest (Dict.insert frame name v) :=
  ⟨Dict.sorted_insert name v h.sorted, h.values.insert hv⟩

end Modest

theorem modest_bind {frame : Snapshot} (h : frame.Modest) (overwrites : Bool) (target : String) {v : Value}
    (hv : v.Modest) : (frame.bind overwrites target v).Modest := by
  unfold bind
  split
  · exact h
  · refine h.insert target ?_
    cases overwrites with
    | true => exact hv
    | false =>
      refine Value.closed_modest.merge ?_ hv
      cases hold : Dict.get? frame target with
      | none => exact Value.closed_modest.nil
      | some w => exact h.values.get? hold

theorem modest_merge {frame frame' : Snapshot} (h : frame.Modest) (h' : frame'.Modest) : (frame.merge frame').Modest :=
  ⟨Dict.sorted_mergeWith _ h.sorted, Dict.Each.mergeWith (fun _ _ _ => Value.closed_modest.merge) h.values h'.values⟩

end Snapshot

namespace Scope

def pass (s : Scope) (overwrites : Bool) (frame : Snapshot) : Snapshot :=
  frame.afterAll overwrites s.body

/-- The frame after a number of passes, of which the first one overwrites. -/
def frames (s : Scope) : Nat → Snapshot
  | 0 => []
  | n + 1 => s.pass (n == 0) (s.frames n)

/-- After a number of passes, the next one leaves its frame as it was. -/
def Settles (s : Scope) (n : Nat) : Prop := (s.frames (n + 1)).equal (s.frames n) = true

theorem binds_of_mem {s : Scope} {stmt : Stmt} (h : stmt ∈ s.body) (htarget : stmt.target ≠ "") :
    s.binds stmt.target = true := by
  have hdefs : stmt.target ∈ stmt.defs := by simp [Stmt.defs, Names.distinct, htarget]
  simp only [Scope.binds, Bool.or_eq_true, List.any_eq_true]
  exact Or.inr ⟨stmt, h, List.contains_iff_mem.mpr hdefs⟩

end Scope

theorem State.Single.build {σ : Type} {f : String} {r : Run σ} {frame : Snapshot} (h : r.state.Single f frame)
    (type : ContainerType) (elems keys : List String) : r.build type elems keys = frame.build type elems keys := by
  have hlookup : r.lookup = frame.lookup := funext h.lookup
  cases type <;> simp only [Run.build, Snapshot.build, hlookup]

/-- A run that analyses the module `f` with the given frame, without an oracle; no call waits and no limit
was reached. -/
structure Run.Local {σ : Type} (f : String) (r : Run σ) (frame : Snapshot) : Prop
    extends State.Single f r.state frame where
  calls : r.queue = []
  uncapped : r.stats.iterationCapHit = 0
  uncut : r.stats.recursionCutoffs = 0
  oracle : r.oracle.isAvailable = false

namespace Run.Local

variable {σ : Type} {s : Scope} {r : Run σ} {frame : Snapshot} {a : Analyzer} {i : Nat} {stmt : Stmt}

theorem note {f : String} (h : r.Local f frame) (line : Unit → String) : (r.note a line).Local f frame := by
  unfold Run.note
  split
  · exact { h with }
  · exact h

theorem write {f : String} (h : r.Local f frame) (name : String) (v : Value) :
    Run.Local f { r with state := { r.state with memory := r.state.memory.set ⟨f, .root⟩ name v } }
      (frame.insert name v) :=
  { h with toSingle := h.toSingle.write name v }

/-- The first time a statement is interpreted it overwrites its target, later it does not. -/
theorem assign (h : r.Local s.name frame) (hf : a.options.flowSensitive = false)
    (hscope : a.scope? s.name = some s) (revisits : Nat) (target : String)
    (hbinds : target ≠ "" → s.binds target = true) (v : Value) :
    ∃ r', r.assign a ⟨s.name, i, revisits⟩ target v = .ok r' ∧ r'.state.flow = r.state.flow ∧
      r'.Local s.name (frame.bind (revisits == 0) target v) := by
  unfold Run.assign Snapshot.bind
  by_cases htarget : target = ""
  · simp only [htarget, ↓reduceIte]
    exact ⟨r, rfl, rfl, h⟩
  · have hsingle : r.isSingleton a s.name target = (true, r) := by
      simp [Run.isSingleton, h.oracle, hscope, hbinds htarget]
    have hover : r.overwrites a ⟨s.name, i, revisits⟩ target = (revisits == 0, r) := by
      cases revisits with
      | zero => simp [Run.overwrites, hf, hsingle]
      | succ n => simp [Run.overwrites]
    simp only [htarget, ↓reduceIte, hover, h.setVariable, h.mergeVariable]
    cases revisits == 0 with
    | true => exact ⟨_, rfl, rfl, h.write target v⟩
    | false => exact ⟨_, rfl, rfl, h.write target _⟩

theorem subscriptStore {f : String} (h : r.Local f frame) (overwrites : Bool) (object index value : String) :
    (r.subscriptStore object index value).state.flow = r.state.flow ∧
      (r.subscriptStore object index value).Local f
        (frame.after overwrites (.subscriptStore object index value)) := by
  unfold Run.subscriptStore Run.rebind
  rw [h.updateVariable?, h.lookup, h.lookup, h.lookup]
  cases hbound : Dict.get? frame object with
  | none =>
    simp only [Snapshot.after, hbound, Option.isSome_none, Bool.false_eq_true, ↓reduceIte, Option.map_none, true_and]
    exact h
  | some v =>
    simp only [Snapshot.after, hbound, Option.isSome_some, ↓reduceIte, Option.map_some, true_and]
    exact h.write object _

theorem interpretStmt (h : r.Local s.name frame) (hf : a.options.flowSensitive = false)
    (hscope : a.scope? s.name = some s) (hstmt : stmt ∈ s.body) (hlocal : stmt.isLocal = true)
    (analysis : BodyAnalysis σ) (revisits : Nat) :
    ∃ r', r.interpretStmt a analysis ⟨s.name, i, revisits⟩ stmt = .ok r' ∧ r'.state.flow = r.state.flow ∧
      r'.Local s.name (frame.after (revisits == 0) stmt) := by
  have hstays : ∀ r' : Run σ, r'.advance a ⟨s.name, i, revisits⟩ = r' := by
    intro r'
    simp [Run.advance, hf]
  have hassign : ∀ v, ∃ r', (r.assign a ⟨s.name, i, revisits⟩ stmt.target v >>= fun r =>
      .ok (r.advance a ⟨s.name, i, revisits⟩)) = .ok r' ∧ r'.state.flow = r.state.flow ∧
        r'.Local s.name (frame.bind (revisits == 0) stmt.target v) := by
    intro v
    obtain ⟨r', hr', hflow, h'⟩ := h.assign hf hscope revisits stmt.target (Scope.binds_of_mem hstmt) v (i := i)
    refine ⟨r', ?_, hflow, h'⟩
    rw [hr']
    exact congrArg Except.ok (hstays r')
  -- Jumps and labels do nothing here, because the order of statements does not count.
  cases stmt with
  | assign t x =>
    have hlookup := h.lookup x
    simp only [Run.interpretStmt, Run.interpretSimple, hlookup]
    exact hassign _
  | const t l => exact hassign _
  | build t type elems keys =>
    have hbuild := h.build type elems keys
    simp only [Run.interpretStmt, Run.interpretSimple, hbuild]
    exact hassign _
  | expr t os => exact hassign _
  | yield t x => exact hassign _
  | await t x => exact hassign _
  | subscriptLoad t o x =>
    have hlookup := h.lookup o
    simp only [Run.interpretStmt, Run.interpretSimple, hlookup]
    exact hassign _
  | subscriptStore o x v =>
    obtain ⟨hflow, h'⟩ := h.subscriptStore (revisits == 0) o x v
    exact ⟨_, congrArg Except.ok (hstays _), hflow, h'⟩
  | jump sense test l =>
    refine ⟨r, ?_, rfl, h⟩
    simp [Run.interpretStmt, Run.branch, hf]
  | goto l =>
    refine ⟨r, ?_, rfl, h⟩
    simp [Run.interpretStmt, Run.jump, hf]
  | label l =>
    refine ⟨r, ?_, rfl, h⟩
    simp [Run.interpretStmt, Run.label, hf]
  | _ => cases hlocal

theorem interpret (h : r.Local s.name frame) (hf : a.options.flowSensitive = false)
    (hscope : a.scope? s.name = some s) (hi : s.body[i]? = some stmt) (hlocal : stmt.isLocal = true)
    (analysis : BodyAnalysis σ) :
    ∃ r', r.interpret a analysis ⟨s.name, i⟩ = .ok r' ∧
      (∀ j : Nat, r'.state.flow.visitCount ⟨s.name, j, .root⟩ =
        r.state.flow.visitCount ⟨s.name, j, .root⟩ + if j = i then 1 else 0) ∧
      r'.Local s.name (frame.after (r.state.flow.visitCount ⟨s.name, i, .root⟩ == 0) stmt) := by
  have hbody : (a.scope? s.name).map (·.body) = some s.body := by
    rw [hscope]
    rfl
  obtain ⟨line, hline⟩ := r.interpret_eq a analysis hbody hi h.context rfl
  have hcounted : Run.Local s.name
      { r with
        state.flow := r.state.flow.visit ⟨s.name, i, .root⟩
        stats.statements := r.stats.statements + 1 } frame := { h with }
  have hnoted : ∀ r : Run σ, (r.note a line).state = r.state := by
    intro r
    unfold Run.note
    split <;> rfl
  obtain ⟨r', hr', hflow, h'⟩ := (hcounted.note line).interpretStmt hf hscope (List.mem_of_getElem? hi) hlocal
    analysis (r.state.flow.visitCount ⟨s.name, i, .root⟩) (i := i)
  refine ⟨r', ?_, fun j => ?_, h'⟩
  · rw [hline, hr']
  · rw [hflow, hnoted]
    exact r.state.flow.visitCount_visit s.name i j

end Run.Local

namespace Run

variable {σ : Type} {s : Scope} {r : Run σ} {frame : Snapshot} {a : Analyzer}

structure Stopped (r : Run σ) : Prop where
  calls : r.queue = []
  capped : r.stats.iterationCapHit = 1
  uncut : r.stats.recursionCutoffs = 0

theorem Local.stopped {f : String} (h : r.Local f frame) : (r.capped a f).Stopped :=
  ⟨h.calls, congrArg (· + 1) h.uncapped, h.uncut⟩

/-- Statements that were all interpreted before, or none of them, are interpreted as far as the limit
allows. -/
theorem Local.pass (hf : a.options.flowSensitive = false) (hscope : a.scope? s.name = some s)
    (analysis : BodyAnalysis σ) (first : Bool) {indices : List Nat} {stmts : List Stmt} (h : r.Local s.name frame)
    (hstmts : indices.map (s.body[·]?) = stmts.map some) (hlocal : ∀ stmt ∈ stmts, stmt.isLocal = true)
    (hnodup : indices.Nodup)
    (hvisits : ∀ i ∈ indices, (r.state.flow.visitCount ⟨s.name, i, .root⟩ == 0) = first) (left : Nat) :
    ∃ left? r', Run.pass a analysis s.name indices left r = .ok (left?, r') ∧
      if left < indices.length then left? = none ∧ r'.Stopped
      else left? = some (left - indices.length) ∧
        r'.Local s.name (frame.afterAll first stmts) ∧
        ∀ j : Nat, r'.state.flow.visitCount ⟨s.name, j, .root⟩ =
          r.state.flow.visitCount ⟨s.name, j, .root⟩ + if j ∈ indices then 1 else 0 := by
  -- No index occurs twice, so a statement of the rest is not made an old one by those before it.
  induction indices generalizing stmts r frame left with
  | nil =>
    obtain rfl : stmts = [] := List.map_eq_nil_iff.mp hstmts.symm
    exact ⟨some left, r, rfl, by simpa using h⟩
  | cons i rest ih =>
    match stmts, hstmts with
    | stmt :: stmts, hstmts =>
      obtain ⟨hi, hrest⟩ := List.cons.inj hstmts
      obtain ⟨hstmt, hlocal⟩ := List.forall_mem_cons.mp hlocal
      obtain ⟨hnew, hnodup⟩ := List.nodup_cons.mp hnodup
      cases left with
      | zero => exact ⟨none, r.capped a s.name, rfl, by simpa using h.stopped⟩
      | succ left =>
        obtain ⟨r₁, hr₁, hcount, h₁⟩ := Local.interpret (r := { r with state.flow.current := ⟨s.name, i⟩ })
          { h with } hf hscope hi hstmt analysis
        change ∀ j : Nat, _ = r.state.flow.visitCount ⟨s.name, j, .root⟩ + _ at hcount
        change r₁.Local s.name (frame.after (r.state.flow.visitCount ⟨s.name, i, .root⟩ == 0) stmt) at h₁
        rw [hvisits i List.mem_cons_self] at h₁
        have hvisits₁ : ∀ j ∈ rest, (r₁.state.flow.visitCount ⟨s.name, j, .root⟩ == 0) = first := by
          intro j hj
          have hne : j ≠ i := fun heq => hnew (heq ▸ hj)
          rw [hcount, if_neg hne]
          exact hvisits j (List.mem_cons_of_mem i hj)
        obtain ⟨left?, r₂, hr₂, h₂⟩ := ih h₁ hrest hlocal hnodup hvisits₁ left
        refine ⟨left?, r₂, ?_, ?_⟩
        · rw [← hr₂]
          exact congrArg (· >>= Run.pass a analysis s.name rest left) hr₁
        · simp only [List.length_cons, Nat.add_lt_add_iff_right, Nat.add_sub_add_right]
          split
          · rename_i hlt
            rwa [if_pos hlt] at h₂
          · rename_i hle
            rw [if_neg hle] at h₂
            obtain ⟨hleft, hlocal₂, hcount₂⟩ := h₂
            refine ⟨hleft, hlocal₂, fun j => ?_⟩
            rw [hcount₂, hcount]
            by_cases hj : j = i
            · simp [hj, hnew]
            · simp [hj]

/-- From a frame between two passes, the passes go on until one leaves its frame as it was, or until the
limit is reached. -/
theorem Local.passes (hf : a.options.flowSensitive = false) (hscope : a.scope? s.name = some s)
    (hlocal : ∀ stmt ∈ s.body, stmt.isLocal = true) (analysis : BodyAnalysis σ) {k : Nat}
    (h : r.Local s.name (s.frames k))
    (hvisits : ∀ i < s.body.length, r.state.flow.visitCount ⟨s.name, i, .root⟩ = k) {fuel left : Nat}
    (hfuel : left < fuel) :
    ∃ r', Run.passes a analysis s.name (List.range s.body.length) fuel left r = .ok r' ∧
      ((∃ n, s.Settles n ∧ (∀ m, k ≤ m → m < n → ¬ s.Settles m) ∧
          (n + 1) * s.body.length ≤ left + k * s.body.length ∧ r'.Local s.name (s.frames (n + 1))) ∨
        (r'.Stopped ∧ ∀ n, k ≤ n → s.Settles n → left + k * s.body.length < (n + 1) * s.body.length)) := by
  induction fuel generalizing r k left with
  | zero => omega
  | succ fuel ih =>
    have hstmts : (List.range s.body.length).map (s.body[·]?) = s.body.map some := by
      refine List.ext_getElem? fun i => ?_
      by_cases hi : i < s.body.length
      · simp [hi]
      · simp [hi]
    have hfirst : ∀ i ∈ List.range s.body.length,
        (r.state.flow.visitCount ⟨s.name, i, .root⟩ == 0) = (k == 0) := by
      intro i hi
      rw [hvisits i (List.mem_range.mp hi)]
    obtain ⟨left?, r₁, hr₁, h₁⟩ :=
      Local.pass hf hscope analysis (k == 0) h hstmts hlocal List.nodup_range hfirst left
    unfold Run.passes
    simp only [hr₁, bind, Except.bind, h.snapshot]
    rw [List.length_range] at h₁
    split at h₁
    · rename_i hlt
      obtain ⟨rfl, hstopped⟩ := h₁
      refine ⟨r₁, rfl, Or.inr ⟨hstopped, fun n hn _ => ?_⟩⟩
      have hmul : (k + 1) * s.body.length ≤ (n + 1) * s.body.length := Nat.mul_le_mul_right _ (by omega)
      have hsucc : (k + 1) * s.body.length = k * s.body.length + s.body.length := Nat.succ_mul _ _
      omega
    · rename_i hle
      obtain ⟨rfl, hframe, hcount⟩ := h₁
      have hnext : r₁.Local s.name (s.frames (k + 1)) := hframe
      have hsucc : (k + 1) * s.body.length = k * s.body.length + s.body.length := Nat.succ_mul _ _
      simp only [hnext.snapshot]
      by_cases hequal : (s.frames (k + 1)).equal (s.frames k) = true
      · rw [if_pos hequal]
        exact ⟨r₁, rfl, Or.inl ⟨k, hequal, fun m hkm hmk => absurd hkm (Nat.not_le.mpr hmk), by omega, hnext⟩⟩
      · rw [if_neg hequal]
        -- A body without statements leaves every frame as it was, so this one uses up some of the limit.
        have hpos : 0 < s.body.length := by
          refine Nat.pos_of_ne_zero fun hzero => hequal ?_
          have hsame : s.frames (k + 1) = s.frames k := by
            simp [Scope.frames, Scope.pass, List.length_eq_zero_iff.mp hzero]
          rw [hsame, Snapshot.equal_refl]
        have hvisits₁ : ∀ i < s.body.length, r₁.state.flow.visitCount ⟨s.name, i, .root⟩ = k + 1 := by
          intro i hi
          rw [hcount, hvisits i hi, if_pos (List.mem_range.mpr hi)]
        have hfuel₁ : left - s.body.length < fuel := by omega
        obtain ⟨r₂, hr₂, h₂⟩ := ih hnext hvisits₁ hfuel₁
        refine ⟨r₂, hr₂, ?_⟩
        rcases h₂ with ⟨n, hsettles, hfirst, hwithin, hn⟩ | ⟨hstopped, hnone⟩
        · refine Or.inl ⟨n, hsettles, fun m hkm hmn heq => ?_, by omega, hn⟩
          have hne : k ≠ m := fun hkm => hequal (hkm ▸ heq)
          exact hfirst m (by omega) hmn heq
        · refine Or.inr ⟨hstopped, fun n hn heq => ?_⟩
          have hne : k ≠ n := fun hkn => hequal (hkn ▸ heq)
          have := hnone n (by omega) heq
          omega

end Run

namespace Scope

variable {σ : Type} {s : Scope} {o : Options} {t : Bool}

theorem local_start {r : Run σ} (h : r.Fresh s) :
    Run.Local s.name { r with state := r.state.setCurrent s.name .root } (s.frames 0) := by
  have hframes : ∀ k, Memory.frame (r.state.setCurrent s.name .root).memory k = [] := by
    intro k
    rw [State.setCurrent_memory, h.memory]
    rfl
  refine ⟨⟨?_, ?_, hframes _, fun k _ => hframes k⟩, h.calls, by simp [h.stats], by simp [h.stats], h.oracle⟩
  · exact r.state.setCurrent_scope .root h.known
  · exact r.state.setCurrent_context s.name .root

theorem analyses_passes (hlocal : ∀ stmt ∈ s.body, stmt.isLocal = true) (hf : o.flowSensitive = false) :
    s.Analyses (σ := σ) o t fun r =>
      (∃ n, s.Settles n ∧ (∀ m < n, ¬ s.Settles m) ∧ (n + 1) * s.body.length ≤ o.maxIterations.toNat ∧
          r.Local s.name (s.frames (n + 1))) ∨
        (r.Stopped ∧ ∀ n, s.Settles n → o.maxIterations.toNat < (n + 1) * s.body.length) := by
  intro r hfresh
  have hscope := s.scope?_alone o t
  have hinsensitive : (s.alone o t).options.flowSensitive = false := hf
  obtain ⟨d, hd⟩ := s.exists_depthBound_alone o t
  have hvisits : ∀ i < s.body.length,
      (r.state.setCurrent s.name .root).flow.visitCount ⟨s.name, i, .root⟩ = 0 := by
    intro i _
    rw [State.setCurrent_flow, hfresh.flow]
    rfl
  obtain ⟨r', hr', h'⟩ := (local_start hfresh).passes hinsensitive hscope hlocal ((s.alone o t).runBody d) hvisits
    (Nat.lt_succ_self o.maxIterations.toNat)
  refine ⟨{ r' with state.flow.current := (r.state.setCurrent s.name .root).flow.current }, ?_, ?_⟩
  · unfold Analyzer.body
    rw [hd, Analyzer.runBody, hinsensitive, if_neg Bool.false_ne_true, Run.runPasses]
    simp only [hscope]
    have hlimit : (s.alone o t).maxIterations = o.maxIterations.toNat := rfl
    rw [hlimit, hr']
    rfl
  · rw [Nat.zero_mul, Nat.add_zero] at h'
    rcases h' with ⟨n, hsettles, hfirst, hwithin, hn⟩ | ⟨hstopped, hnone⟩
    · exact ⟨hn.calls, Or.inl ⟨n, hsettles, fun m => hfirst m (Nat.zero_le m), hwithin, { hn with }⟩⟩
    · exact ⟨hstopped.calls, Or.inr ⟨{ hstopped with }, fun n => hnone n (Nat.zero_le n)⟩⟩

/-- The analysis of a module of local statements, without regard to their order: it leaves the module in the
frame of the first pass that changes nothing, and is stopped if the limit does not allow for that many. -/
theorem analyze_passes (hmodule : s.kind = .module) (hlocal : ∀ stmt ∈ s.body, stmt.isLocal = true)
    (hf : o.flowSensitive = false) {policy : Policy} (hvalid : o.validate = .ok policy) (start : σ) :
    ∃ res, (s.alone o t).analyze none none start = .ok res ∧ res.stats.recursionCutoffs = 0 ∧
      ((∃ n, s.Settles n ∧ (∀ m < n, ¬ s.Settles m) ∧ (n + 1) * s.body.length ≤ o.maxIterations.toNat ∧
          res.stats.iterationCapHit = 0 ∧ res.state.frameAt s.name .root = s.frames (n + 1)) ∨
        (res.stats.iterationCapHit = 1 ∧ ∀ n, s.Settles n → o.maxIterations.toNat < (n + 1) * s.body.length)) := by
  obtain ⟨res, r', hres, h', hframe, hstats⟩ :=
    analyze_alone (t := t) hmodule hvalid (analyses_passes hlocal hf) start
  refine ⟨res, hres, ?_⟩
  rw [hstats, hframe]
  rcases h' with ⟨n, hsettles, hfirst, hwithin, hn⟩ | ⟨hstopped, hnone⟩
  · exact ⟨hn.uncut, Or.inl ⟨n, hsettles, hfirst, hwithin, hn.uncapped, hn.frame⟩⟩
  · exact ⟨hstopped.uncut, Or.inr ⟨hstopped.capped, hnone⟩⟩

end Scope

end AbstractFlow
