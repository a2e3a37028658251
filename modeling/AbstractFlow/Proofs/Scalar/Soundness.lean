import AbstractFlow.Proofs.Scalar.Execution

/-! # Soundness of scalar analyses

The frame of a sweep only grows, and the frame with which a statement last handed control on is closed
under the executions of that statement. What a statement hands on is taken up by the next one: it waits,
or has handed on as much itself, unless it is a merge point that found nothing new. A merge point takes
what a branch saved for it ahead of time as old, although the statements behind it have not seen it; so
an analysis is right about all executions just if it is right about those that such a merge point
withheld.
-/
namespace AbstractFlow

namespace Sweep

variable {f : String} {body : List Stmt} {e : Extent} {m : Sweep} {i j : Nat} {rest : List Nat}
  {stmt : Stmt} {frame snap : Snapshot} {saved : Nat → Option Snapshot} {σ : Store} {p : Moment}

theorem below_frameAfter (g : Graph) (h : m.Within e) (i : Nat) (stmt : Stmt) :
    m.frame.Below (m.frameAfter g i stmt) := by
  have hframe := h.frame.plain
  cases stmt with
  | const t l => exact (allows_bound hframe l.plain_value t).1
  | assign t x => exact (allows_bound hframe (plain_lookup hframe x) t).1
  | expr t xs => exact (allows_bound hframe Value.plain_unknown t).1
  | label l =>
    simp only [frameAfter]
    split
    · have harriving := below_arriving hframe (fun i s hs => (h.saved i s hs).plain) i
      exact below_restored hframe.1 (h.arriving i).1 harriving.1
    · exact Snapshot.Below.refl _
  | _ => exact Snapshot.Below.refl _

theorem below_save (hframe : frame.Within e) (hsaved : ∀ i s, saved i = some s → s.Within e)
    (hs : saved i = some snap) (j : Nat) : ∃ t, save frame saved j i = some t ∧ snap.Below t := by
  unfold save
  by_cases hij : i = j
  · subst hij
    rw [Function.update_self, hs]
    exact ⟨_, rfl, (Snapshot.below_merge (hsaved i snap hs).plain hframe.plain).1⟩
  · rw [Function.update_of_ne hij]
    exact ⟨snap, hs, Snapshot.Below.refl snap⟩

theorem below_foldl_save (hframe : frame.Within e) (hsaved : ∀ i s, saved i = some s → s.Within e)
    (hs : saved i = some snap) (js : List Nat) :
    ∃ t, js.foldl (save frame) saved i = some t ∧ snap.Below t := by
  induction js generalizing saved snap with
  | nil => exact ⟨snap, hs, Snapshot.Below.refl snap⟩
  | cons j rest ih =>
    obtain ⟨t, ht, hbelow⟩ := below_save hframe hsaved hs j
    obtain ⟨u, hu, hbelow'⟩ := ih (save_spec hframe hsaved j).1 ht
    exact ⟨u, hu, hbelow.trans hbelow'⟩

theorem allows_of_bound {t x : String} {v : Value} {a : Concrete} (hxt : x ≠ t)
    (ha : (bound frame t v).Allows x a) : frame.Allows x a := by
  unfold bound at ha
  split at ha
  · exact ha
  · obtain ⟨w, hw, hadmits⟩ := ha
    rw [Dict.get?_insert, if_neg hxt] at hw
    exact ⟨w, hw, hadmits⟩

/-- The frame that a statement leaves admits what an execution of the statement leaves. -/
theorem admits_frameAfter (g : Graph) (h : m.Within e) (hi : body[i]? = some stmt)
    (hexact : ∀ l ∈ stmt.literals, l.isExact = true) (hσ : (m.frameAfter g i stmt).Admits σ)
    (hp : Moment.Leads body ⟨i, σ⟩ p) : (m.frameAfter g i stmt).Admits p.store := by
  have hframe := h.frame.plain
  -- Only assignments change the store; what they bind was joined into the frame.
  cases hp with
  | const hc =>
    obtain rfl := Option.some.inj (hi.symm.trans hc)
    rename_i t l
    have hl : l.isExact = true := hexact l (List.mem_singleton_self l)
    exact hσ.set fun hne => (allows_bound hframe l.plain_value t).2 hne _ (l.admits_value hl)
  | assign ha hx =>
    obtain rfl := Option.some.inj (hi.symm.trans ha)
    rename_i t x a
    refine hσ.set fun hne => ?_
    have hbound := (allows_bound hframe (plain_lookup hframe x) t).2 hne a
    by_cases hempty : x = ""
    · refine hbound ?_
      rw [lookup, if_pos hempty]
      exact Value.admits_unknown
    · have hallows := hσ x a (hx.resolve_left hempty)
      by_cases hxt : x = t
      · exact hxt ▸ hallows
      · obtain ⟨v, hv, hadmits⟩ := allows_of_bound hxt hallows
        refine hbound ?_
        rw [lookup, if_neg hempty, hv]
        exact hadmits
  | unknown a hu =>
    obtain rfl := Option.some.inj (hi.symm.trans hu)
    rename_i t xs
    exact hσ.set fun hne => (allows_bound hframe Value.plain_unknown t).2 hne a Value.admits_unknown
  | taken => exact hσ
  | passed => exact hσ
  | goto => exact hσ
  | label => exact hσ

/-- A decided jump leads where the executions lead whose test has the decided result. -/
theorem decided?_eq (g : Graph) {sense r : Bool} {test : Test} {l : String} {t : Nat}
    (hagrees : (m.evaluate test).Agrees r) (h : m.decided? g i sense test l = some t) :
    ∃ u, g.label? l = some u ∧ t = if r = sense then u else i + 1 := by
  unfold decided? at h
  split at h
  · simp at h
  · simp at h
  · rename_i u hlabel hne
    refine ⟨u, hlabel, ?_⟩
    rcases hagrees with hmaybe | hdefinite
    · exact absurd hmaybe hne
    · rw [hdefinite] at h
      rw [← Option.some.inj h]
      cases r <;> cases sense <;> rfl

/-- Control is handed on to wherever an execution leads. -/
theorem mem_next? {revisits : Nat} {js : List Nat} (h : m.Within e) (hi : body[i]? = some stmt)
    (hexact : ∀ l ∈ stmt.literals, l.isExact = true)
    (hnext : m.next? (.build f body) i revisits stmt = some js)
    (hσ : (m.frameAfter (.build f body) i stmt).Admits σ) (hp : Moment.Leads body ⟨i, σ⟩ p)
    (hlt : p.position < body.length) : p.position ∈ js := by
  have hsucc : stmt.fallsThrough = true → i + 1 < body.length →
      i + 1 ∈ (Graph.build f body).succsAt i := fun hfalls hlt =>
    (Graph.mem_succsAt f body).mpr ⟨hlt, stmt, hi, Or.inl ⟨hfalls, rfl⟩⟩
  -- For each kind of execution step, its statement is the one interpreted, and a decided test was decided rightly.
  cases hp with
  | const hc =>
    obtain rfl := Option.some.inj (hi.symm.trans hc)
    exact Option.some.inj hnext ▸ hsucc rfl hlt
  | assign ha hx =>
    obtain rfl := Option.some.inj (hi.symm.trans ha)
    exact Option.some.inj hnext ▸ hsucc rfl hlt
  | unknown a hu =>
    obtain rfl := Option.some.inj (hi.symm.trans hu)
    exact Option.some.inj hnext ▸ hsucc rfl hlt
  | taken hj ht htarget =>
    obtain rfl := Option.some.inj (hi.symm.trans hj)
    rename_i sense test l
    have hagrees := agrees_evaluate h.frame.plain hσ hexact ht
    rw [next?, Option.some.injEq] at hnext
    subst hnext
    cases hdecided : m.decided? (.build f body) i sense test l with
    | none => exact (Graph.mem_succsAt f body).mpr ⟨hlt, _, hi, Or.inr ⟨l, rfl, htarget⟩⟩
    | some t =>
      obtain ⟨u, hu, ht⟩ := decided?_eq _ hagrees hdecided
      rw [(Graph.label?_build f body).mpr htarget, Option.some.injEq] at hu
      rw [ht, if_pos rfl, ← hu]
      exact List.mem_singleton_self _
  | passed hj ht =>
    obtain rfl := Option.some.inj (hi.symm.trans hj)
    rename_i sense test l
    have hagrees := agrees_evaluate h.frame.plain hσ hexact ht
    rw [next?, Option.some.injEq] at hnext
    subst hnext
    cases hdecided : m.decided? (.build f body) i sense test l with
    | none => exact hsucc rfl hlt
    | some t =>
      obtain ⟨u, -, ht⟩ := decided?_eq _ hagrees hdecided
      rw [ht, if_neg (by simp)]
      exact List.mem_singleton_self _
  | goto hg htarget =>
    obtain rfl := Option.some.inj (hi.symm.trans hg)
    rw [next?, Option.some.injEq] at hnext
    rw [← hnext, (Graph.label?_build f body).mpr htarget]
    exact List.mem_singleton_self _
  | label hl =>
    obtain rfl := Option.some.inj (hi.symm.trans hl)
    simp only [next?] at hnext
    split at hnext
    · simp at hnext
    · exact Option.some.inj hnext ▸ hsucc rfl hlt

/-- Where a snapshot was handed on to a statement, the statement waits, or has handed on as much, or is
a merge point that keeps as much. -/
def TakenUp (g : Graph) (m : Sweep) (s : Snapshot) (j : Nat) : Prop :=
  j ∈ m.queue ∨ (∃ t, m.left j = some t ∧ s.Below t) ∨
    (g.isMergePoint j = true ∧ ∃ t, m.saved j = some t ∧ s.Below t)

/-- What a sweep keeps true of all that was handed on. -/
structure Forwards (f : String) (body : List Stmt) (m : Sweep) : Prop where
  below : ∀ i s, m.left i = some s → s.Below m.frame
  closed : ∀ i s, m.left i = some s → ∀ σ p, s.Admits σ → Moment.Leads body ⟨i, σ⟩ p → s.Admits p.store
  takenUp : ∀ i s, m.left i = some s → ∀ σ p, s.Admits σ → Moment.Leads body ⟨i, σ⟩ p →
    p.position < body.length → m.TakenUp (.build f body) s p.position
  entry : 0 < body.length → m.TakenUp (.build f body) [] 0

section Step

variable (hq : m.queue = i :: rest) (hi : body[i]? = some stmt)

include hq hi

theorem step_left :
    (m.step (.build f body) body).left =
      if ((m.visit i rest).next? (.build f body) i (m.visits i) stmt).isSome
      then Function.update m.left i (some (m.frameAfter (.build f body) i stmt)) else m.left := by
  rw [step_eq f hq hi, apply]
  cases (m.visit i rest).next? (.build f body) i (m.visits i) stmt with
  | none => rfl
  | some js =>
    simp only [proceed_left]
    rfl

theorem mem_step_queue_of_mem_rest (hj : j ∈ rest) : j ∈ (m.step (.build f body) body).queue := by
  rw [step_eq f hq hi, apply]
  split
  · exact (mem_proceed ..).mpr (Or.inl hj)
  · exact hj

theorem exists_step_saved (h : m.Within e) (hs : m.saved j = some snap) :
    ∃ t, (m.step (.build f body) body).saved j = some t ∧ snap.Below t := by
  obtain ⟨js, hjs⟩ := exists_savedAfter_eq (.build f body) (m.visit i rest) i stmt
  rw [step_saved hq hi, hjs]
  exact below_foldl_save h.frame h.saved hs js

/-- A statement that has its turn takes up all that the frame covers. -/
theorem takenUp_of_turn (h : m.Within e) (hs : snap.Below m.frame) :
    (m.step (.build f body) body).TakenUp (.build f body) snap i := by
  have hafter := below_frameAfter (.build f body) h i stmt
  cases hnext : (m.visit i rest).next? (.build f body) i (m.visits i) stmt with
  | some js =>
    refine Or.inr (Or.inl ⟨m.frameAfter (.build f body) i stmt, ?_, hs.trans hafter⟩)
    rw [step_left hq hi, hnext, Option.isSome_some, if_pos rfl, Function.update_self]
  | none =>
    have hmerge : (Graph.build f body).isMergePoint i = true := by
      cases stmt with
      | label l =>
        simp only [next?] at hnext
        split at hnext
        · rename_i hstop
          exact (Bool.and_eq_true _ _ ▸ hstop).1
        · simp at hnext
      | _ => simp [next?] at hnext
    have harriving := below_arriving h.frame.plain (fun i s hs => (h.saved i s hs).plain) i
    exact Or.inr (Or.inr ⟨hmerge, m.arriving i, step_saved_of_isMergePoint hq hi hmerge, hs.trans harriving.1⟩)

theorem TakenUp.step (h : m.Within e) (hs : snap.Below m.frame) (ht : m.TakenUp (.build f body) snap j) :
    (m.step (.build f body) body).TakenUp (.build f body) snap j := by
  by_cases hji : j = i
  · rw [hji]
    exact takenUp_of_turn hq hi h hs
  rcases ht with hj | ⟨t, ht, hbelow⟩ | ⟨hmerge, t, ht, hbelow⟩
  · rw [hq, List.mem_cons] at hj
    exact Or.inl (mem_step_queue_of_mem_rest hq hi (hj.resolve_left hji))
  · refine Or.inr (Or.inl ⟨t, ?_, hbelow⟩)
    rw [step_left hq hi]
    split
    · rw [Function.update_of_ne hji, ht]
    · exact ht
  · obtain ⟨u, hu, hbelow'⟩ := exists_step_saved hq hi h ht
    exact Or.inr (Or.inr ⟨hmerge, u, hu, hbelow.trans hbelow'⟩)

/-- What a statement last handed on it handed on before, or has handed on just now. -/
theorem left_step_cases (hs : (m.step (.build f body) body).left j = some snap) :
    m.left j = some snap ∨ (j = i ∧ snap = m.frameAfter (.build f body) i stmt ∧
      ∃ js, (m.visit i rest).next? (.build f body) i (m.visits i) stmt = some js ∧
        ∀ k ∈ js, k < body.length → k ∈ (m.step (.build f body) body).queue) := by
  rw [step_left hq hi] at hs
  cases hnext : (m.visit i rest).next? (.build f body) i (m.visits i) stmt with
  | none =>
    rw [hnext, Option.isSome_none, if_neg Bool.false_ne_true] at hs
    exact Or.inl hs
  | some js =>
    rw [hnext, Option.isSome_some, if_pos rfl] at hs
    by_cases hji : j = i
    · subst hji
      rw [Function.update_self, Option.some.injEq] at hs
      refine Or.inr ⟨rfl, hs.symm, js, rfl, fun k hk hlt => ?_⟩
      rw [step_eq f hq hi, apply, hnext]
      exact (mem_proceed ..).mpr (Or.inr ⟨hk, hlt⟩)
    · rw [Function.update_of_ne hji] at hs
      exact Or.inl hs

end Step

theorem forwards_start : (start (.build f body)).Forwards f body := by
  have hleft : ∀ i, (start (.build f body)).left i = none := by
    intro i
    rw [start, enqueue_left]
  refine ⟨fun i s hs => ?_, fun i s hs => ?_, fun i s hs => ?_, fun hlt => Or.inl ?_⟩
  · rw [hleft] at hs
    simp at hs
  · rw [hleft] at hs
    simp at hs
  · rw [hleft] at hs
    simp at hs
  · exact (mem_enqueue ..).mpr (Or.inr ⟨rfl, hlt⟩)

theorem Forwards.step (hexact : ∀ stmt ∈ body, ∀ l ∈ stmt.literals, l.isExact = true)
    (hregular : m.Regular (.build f body)) (hwithin : m.Within e) (h : m.Forwards f body) :
    (m.step (.build f body) body).Forwards f body := by
  match hq : m.queue with
  | [] =>
    rw [step_of_idle _ hq]
    exact h
  | i :: rest =>
    obtain ⟨stmt, hi⟩ := hregular.exists_stmt hq
    have hliterals := hexact stmt (List.mem_of_getElem? hi)
    have hgrows : m.frame.Below (m.step (.build f body) body).frame := by
      rw [step_frame hq hi]
      exact below_frameAfter _ hwithin i stmt
    -- A snapshot that was handed on is an old one, for which all held before, or the frame that was handed on
    -- just now.
    refine ⟨fun j s hs => ?_, fun j s hs σ p hσ hp => ?_, fun j s hs σ p hσ hp hlt => ?_, fun hlt => ?_⟩
    · rcases left_step_cases hq hi hs with hs | ⟨-, hs, -⟩
      · exact (h.below j s hs).trans hgrows
      · rw [hs, step_frame hq hi]
        exact Snapshot.Below.refl _
    · rcases left_step_cases hq hi hs with hs | ⟨rfl, hs, -⟩
      · exact h.closed j s hs σ p hσ hp
      · rw [hs] at hσ ⊢
        exact admits_frameAfter _ hwithin hi hliterals hσ hp
    · rcases left_step_cases hq hi hs with hs | ⟨rfl, hs, js, hnext, hjs⟩
      · exact (h.takenUp j s hs σ p hσ hp hlt).step hq hi hwithin (h.below j s hs)
      · rw [hs] at hσ
        have hvisit : (m.visit j rest).Within e := ⟨hwithin.frame, hwithin.saved⟩
        exact Or.inl (hjs _ (mem_next? hvisit hi hliterals hnext hσ hp hlt) hlt)
    · exact (h.entry hlt).step hq hi hwithin (Snapshot.nil_below m.frame)

/-- A store that a merge point keeps, although the frame with which it last handed control on does not
admit it. -/
def Withholds (m : Sweep) (p : Moment) : Prop :=
  (∃ s, m.saved p.position = some s ∧ s.Admits p.store) ∧
    ∀ s, m.left p.position = some s → ¬ s.Admits p.store

/-- What is taken up when nothing waits is admitted by what was handed on, or withheld. -/
theorem TakenUp.admits_or_withholds (hidle : m.queue = []) (h : m.TakenUp (.build f body) snap p.position)
    (hσ : snap.Admits p.store) :
    (∃ s, m.left p.position = some s ∧ s.Admits p.store) ∨
      ((Graph.build f body).isMergePoint p.position = true ∧ m.Withholds p) := by
  rcases h with hwaits | ⟨t, ht, hbelow⟩ | ⟨hmerge, t, ht, hbelow⟩
  · simp [hidle] at hwaits
  · exact Or.inl ⟨t, ht, hσ.mono hbelow⟩
  · by_cases hleft : ∃ s, m.left p.position = some s ∧ s.Admits p.store
    · exact Or.inl hleft
    · refine Or.inr ⟨hmerge, ⟨t, ht, hσ.mono hbelow⟩, fun s hs hadmits => hleft ⟨s, hs, hadmits⟩⟩

end Sweep

namespace Scope

variable {s : Scope}

theorem forwards_sweep (hexact : ∀ stmt ∈ s.body, ∀ l ∈ stmt.literals, l.isExact = true) (n : Nat) :
    (s.sweep n).Forwards s.name s.body := by
  induction n with
  | zero => exact Sweep.forwards_start
  | succ n ih =>
    rw [sweep_succ]
    exact ih.step hexact (s.regular_sweep n) (s.within_sweep n)

/-- Every moment of an execution lies behind one that a merge point withheld, or is admitted by what
its statement handed on. -/
theorem admitted_or_withheld (hexact : ∀ stmt ∈ s.body, ∀ l ∈ stmt.literals, l.isExact = true) {n : Nat}
    (hidle : (s.sweep n).queue = []) {p : Moment} (hp : s.Reaches p) :
    (∃ q, s.Reaches q ∧ s.graph.isMergePoint q.position = true ∧ (s.sweep n).Withholds q ∧ s.LeadsTo q p) ∨
      ((s.sweep n).frame.Admits p.store ∧ (p.position < s.body.length →
        ∃ t, (s.sweep n).left p.position = some t ∧ t.Admits p.store)) := by
  have hforwards := forwards_sweep hexact n
  induction hp with
  | refl =>
    by_cases hlt : 0 < s.body.length
    · rcases (hforwards.entry hlt).admits_or_withholds hidle (p := ⟨0, fun _ => none⟩)
        (Snapshot.admits_unassigned _) with h | ⟨hmerge, h⟩
      · exact Or.inr ⟨Snapshot.admits_unassigned _, fun _ => h⟩
      · exact Or.inl ⟨_, .refl, hmerge, h, .refl⟩
    · exact Or.inr ⟨Snapshot.admits_unassigned _, fun h => absurd h hlt⟩
  | tail hp hstep ih =>
    rename_i p q
    rcases ih with ⟨w, hw, hmerge, hwithholds, hwp⟩ | ⟨-, hleft⟩
    · exact Or.inl ⟨w, hw, hmerge, hwithholds, hwp.tail hstep⟩
    · obtain ⟨t, ht, hadmits⟩ := hleft hstep.lt
      have hq := hforwards.closed p.position t ht p.store q hadmits hstep
      have hframe := hq.mono (hforwards.below p.position t ht)
      by_cases hlt' : q.position < s.body.length
      · rcases (hforwards.takenUp p.position t ht p.store q hadmits hstep hlt').admits_or_withholds hidle hq
          with h | ⟨hmerge, h⟩
        · exact Or.inr ⟨hframe, fun _ => h⟩
        · exact Or.inl ⟨q, hp.tail hstep, hmerge, h, .refl⟩
      · exact Or.inr ⟨hframe, fun h => absurd h hlt'⟩

/-- A frame admits the stores of all executions. -/
def SoundFor (s : Scope) (frame : Snapshot) : Prop := ∀ p, s.Reaches p → frame.Admits p.store

variable {σ : Type} {o : Options}

theorem queue_of_isComplete (hmodule : s.kind = .module) (hscalar : ∀ stmt ∈ s.body, stmt.isScalar = true)
    (hf : o.flowSensitive = true) {policy : Policy} (hvalid : o.validate = .ok policy) (t : Bool) (start : σ) :
    ∃ res, (s.alone o t).analyze none none start = .ok res ∧
      res.state.frameAt s.name .root = (s.sweep o.maxIterations.toNat).frame ∧
      (res.isComplete = true ↔ (s.sweep o.maxIterations.toNat).queue = []) := by
  obtain ⟨res, hres, hframe, hcut, hcap⟩ := analyze_sweep (t := t) hmodule hscalar hf hvalid start
  refine ⟨res, hres, hframe, ?_⟩
  simp only [Result.isComplete, hcut, hcap]
  split <;> simp_all

/-- The analysis of a scalar module is right about all executions just if it is right about what becomes
of the stores that merge points withhold. -/
theorem soundFor_iff (hmodule : s.kind = .module) (hscalar : ∀ stmt ∈ s.body, stmt.isScalar = true)
    (hexact : ∀ stmt ∈ s.body, ∀ l ∈ stmt.literals, l.isExact = true) (hf : o.flowSensitive = true)
    {policy : Policy} (hvalid : o.validate = .ok policy) (tracing : Bool) (start : σ) :
    ∃ res, (s.alone o tracing).analyze none none start = .ok res ∧
      (res.isComplete = true → (s.SoundFor (res.state.frameAt s.name .root) ↔
        ∀ p, s.Reaches p → s.graph.isMergePoint p.position = true →
          (s.sweep o.maxIterations.toNat).Withholds p →
            ∀ q, s.LeadsTo p q → (res.state.frameAt s.name .root).Admits q.store)) := by
  obtain ⟨res, hres, hframe, hcomplete⟩ := queue_of_isComplete hmodule hscalar hf hvalid tracing start
  refine ⟨res, hres, fun h => ⟨fun hsound p hp _ _ q hq => hsound q (hp.trans hq), fun hwithheld p hp => ?_⟩⟩
  rw [hframe] at hwithheld ⊢
  rcases admitted_or_withheld hexact (hcomplete.mp h) hp with ⟨q, hq, hmerge, hwithholds, hqp⟩ | ⟨hadmits, -⟩
  · exact hwithheld q hq hmerge hwithholds p hqp
  · exact hadmits

/-- Two ways to a merge point, on which a variable gets a number or a text. -/
def forkedAssignment : Scope :=
  { Scope.emptyModule "m" with
    body := [.expr "c" [], .const "x" (.int 1), .jump true (.name "c") "A", .const "x" (.str (.ofString "a")),
      .label "A", .assign "y" "x"] }

theorem soundFor_iff_forkedAssignment :
    forkedAssignment.kind = .module ∧ (∀ stmt ∈ forkedAssignment.body, stmt.isScalar = true) ∧
      (∀ stmt ∈ forkedAssignment.body, ∀ l ∈ stmt.literals, l.isExact = true) ∧
      Options.validate {} = .ok .callSite ∧
      ∃ res : Result Unit, (forkedAssignment.alone {} false).analyze none none () = .ok res ∧
        (res.isComplete = true → (forkedAssignment.SoundFor (res.state.frameAt "m" .root) ↔
          ∀ p, forkedAssignment.Reaches p → forkedAssignment.graph.isMergePoint p.position = true →
            (forkedAssignment.sweep 10000).Withholds p →
              ∀ q, forkedAssignment.LeadsTo p q → (res.state.frameAt "m" .root).Admits q.store)) := by
  have hvalid := Options.validate_iterations (n := 10000) (by decide)
  have hscalar : ∀ stmt ∈ forkedAssignment.body, stmt.isScalar = true := by decide
  have hexact : ∀ stmt ∈ forkedAssignment.body, ∀ l ∈ stmt.literals, l.isExact = true := by decide
  exact ⟨rfl, hscalar, hexact, hvalid, soundFor_iff rfl hscalar hexact rfl hvalid false ()⟩

/-- A loop that copies a number before it replaces it by a text, so that the copy is a text in the
second round. -/
def staleLoop : Scope :=
  { Scope.emptyModule "m" with
    body := [.expr "c" [], .const "x" (.int 1), .label "L", .assign "y" "x", .const "x" (.str (.ofString "a")),
      .jump true (.name "c") "L"] }

/-- In the second round of the loop the copy is a text. -/
theorem exists_reached_staleLoop :
    ∃ σ : Store, staleLoop.Reaches ⟨4, σ⟩ ∧ σ "y" = some (.str (.ofString "a")) := by
  have htarget : IsTarget staleLoop.body "L" 2 := (Graph.label?_build "m" staleLoop.body).mp rfl
  have hround : ∀ (σ : Store) (a : Concrete), σ "c" = some (.bool true) → σ "x" = some a →
      staleLoop.LeadsTo ⟨2, σ⟩ ⟨2, (σ.set "y" a).set "x" (.str (.ofString "a"))⟩ := by
    intro σ a hc hx
    refine .head (.label rfl) (.head (.assign rfl (Or.inr hx)) (.head (.const rfl) (.single ?_)))
    refine .taken rfl ⟨.bool true, Or.inr ?_, rfl⟩ htarget
    simpa [Store.set] using hc
  have hentry : staleLoop.Reaches ⟨2, Store.set (Store.set (fun _ => none) "c" (.bool true)) "x" (.int 1)⟩ :=
    .head (.unknown (.bool true) rfl) (.single (.const (l := .int 1) rfl))
  have hsecond := hentry.trans (hround _ (.int 1) (by simp [Store.set]) (by simp [Store.set]))
  have hcopy := (hsecond.tail (.label rfl)).tail
    (.assign (a := .str (.ofString "a")) rfl (Or.inr (by simp [Store.set])))
  exact ⟨_, hcopy, by simp [Store.set]⟩

/-- The analysis ends with a number as all that the copy can be. -/
theorem sweep_staleLoop : (staleLoop.sweep 14).queue = [] ∧
    (Dict.get? (staleLoop.sweep 14).frame "y").map (·.map Object.key) = some ["const:int"] := by
  decide +kernel

theorem not_soundFor_staleLoop :
    ∃ res : Result Unit, (staleLoop.alone {} false).analyze none none () = .ok res ∧
      res.isComplete = true ∧ ¬ staleLoop.SoundFor (res.state.frameAt "m" .root) := by
  obtain ⟨hidle, hkeys⟩ := sweep_staleLoop
  have hvalid := Options.validate_iterations (n := 10000) (by decide)
  have hscalar : ∀ stmt ∈ staleLoop.body, stmt.isScalar = true := by decide
  obtain ⟨res, hres, hframe, hcomplete⟩ := queue_of_isComplete (s := staleLoop) rfl hscalar rfl hvalid false ()
  -- After the last statement that waited, the limit makes no difference.
  have hlimit : staleLoop.sweep (10000 : Int).toNat = staleLoop.sweep 14 :=
    staleLoop.sweep_of_idle hidle (by decide)
  rw [hlimit] at hframe hcomplete
  refine ⟨res, hres, hcomplete.mpr hidle, fun hsound => ?_⟩
  obtain ⟨σ, hσ, hy⟩ := exists_reached_staleLoop
  obtain ⟨v, hv, hadmits⟩ := hframe ▸ hsound _ hσ "y" _ hy
  rw [hv] at hkeys
  have hkey : ∀ k ∈ v, k.key = "const:int" := by
    intro k hk
    have := List.mem_map_of_mem (f := Object.key) hk
    simpa [Option.some.inj hkeys] using this
  rcases hadmits with hunknown | ⟨c, hc, hadmits⟩
  · obtain ⟨k, hk, as, rfl⟩ := Value.exists_unknown hunknown
    exact absurd (hkey _ hk) (by simp [Object.key])
  · obtain ⟨hnumber, -⟩ | ⟨set, x, rfl, -, -⟩ | ⟨rfl, hnone⟩ := Constant.shape_of_admits hadmits
    · simp [Concrete.isNumber] at hnumber
    · have htext : (Object.constant (.string set)).key = "const:str" := rfl
      exact absurd (htext.symm.trans (hkey _ hc)) (by decide)
    · simp at hnone

end Scope

end AbstractFlow
