import AbstractFlow.Proofs.Analysis.StackBound
import AbstractFlow.Proofs.State.Single
import AbstractFlow.Proofs.Value.Cover

/-! # What functions are known to return

When a function is left, its value is joined into what the function is known to return under the context at
which it was analysed. So the summary of a function under a context is the join of exactly the values that were
filed there, in their order. Where merging obeys the laws of a semilattice, it covers all of them.
-/
namespace AbstractFlow

theorem SemilatticeOn.foldl_absorbs {α : Type} {P : α → Prop} {f : α → α → α} (h : SemilatticeOn P f) {s x : α}
    {l : List α} (hs : P s) (hx : P x) (hl : ∀ y ∈ l, P y) (habsorbs : f s x = s) :
    f (l.foldl f s) x = l.foldl f s := by
  induction l generalizing s with
  | nil => exact habsorbs
  | cons y l ih =>
    obtain ⟨hy, hl⟩ := List.forall_mem_cons.mp hl
    refine ih (h.closed hs hy) hl ?_
    calc f (f s y) x = f s (f y x) := h.assoc hs hy hx
      _ = f s (f x y) := by rw [h.comm hy hx]
      _ = f (f s x) y := (h.assoc hs hx hy).symm
      _ = f s y := by rw [habsorbs]

theorem SemilatticeOn.foldl_absorbs_mem {α : Type} {P : α → Prop} {f : α → α → α} (h : SemilatticeOn P f) {s x : α}
    {l : List α} (hs : P s) (hl : ∀ y ∈ l, P y) (hx : x ∈ l) : f (l.foldl f s) x = l.foldl f s := by
  induction l generalizing s with
  | nil => cases hx
  | cons y l ih =>
    obtain ⟨hy, hrest⟩ := List.forall_mem_cons.mp hl
    have hsy := h.closed hs hy
    rw [List.foldl_cons]
    rcases List.mem_cons.mp hx with rfl | hx
    · refine h.foldl_absorbs hsy hy hrest ?_
      rw [h.assoc hs hy hy, h.idem hy]
    · exact ih hsy hrest hx

deriving instance DecidableEq for Object.Subject

namespace Object

instance (o : Object) : Decidable o.Neat :=
  match o with
  | .constant (.number _ s) =>
    decidable_of_iff (s.lower ≠ .negZero ∧ s.upper ≠ .negZero ∧ ∀ x ∈ s.exact, x ≠ .negZero)
      ⟨fun h => ⟨h.1, h.2.1, h.2.2⟩, fun h => ⟨h.lower, h.upper, h.exact⟩⟩
  | .constant (.string s) => inferInstanceAs (Decidable (-1 ≤ s.maxLen))
  | .function f => inferInstanceAs (Decidable (Names.CommaFree f.params))
  | .classObject c => inferInstanceAs (Decidable (c.bases.Nodup ∧ Names.CommaFree c.bases))
  | .unknown _ | .constant .none | .container _ | .instanceObject _ | .external _ => isTrue trivial

instance (o : Object) : Decidable o.Named :=
  match o with
  | .classObject c => inferInstanceAs (Decidable (c.bases ≠ [""]))
  | .unknown _ | .constant _ | .container _ | .function _ | .instanceObject _ | .external _ => isTrue trivial

end Object

namespace Value

/-- Objects that are neat and named, and that are about the same where their keys are the same. -/
structure Orderly (vs : List Value) : Prop where
  neat : ∀ v ∈ vs, ∀ o, Occurs o v → o.Neat
  named : ∀ v ∈ vs, ∀ o, Occurs o v → o.Named
  keys : ∀ v ∈ vs, ∀ w ∈ vs, ∀ x y, Occurs x v → Occurs y w → x.key = y.key → x.subject = y.subject

variable {vs : List Value}

theorem Orderly.left {l l' : List Value} (h : Orderly (l ++ l')) : Orderly l where
  neat v hv := h.neat v (List.mem_append_left _ hv)
  named v hv := h.named v (List.mem_append_left _ hv)
  keys v hv w hw := h.keys v (List.mem_append_left _ hv) w (List.mem_append_left _ hw)

theorem occurs_nil {o : Object} : ¬ Occurs o [] := by
  intro h
  cases h with
  | here h => cases h
  | inside hx => cases hx

theorem occurs_cons {o x : Object} {v : Value} :
    Occurs o (x :: v) ↔ o = x ∨ (∃ w ∈ x.inner, Occurs o w) ∨ Occurs o v := by
  constructor
  · intro h
    cases h with
    | here h => exact (List.mem_cons.mp h).imp_right fun h => .inr (.here h)
    | inside hx hw h =>
      rcases List.mem_cons.mp hx with rfl | hx
      · exact .inr (.inl ⟨_, hw, h⟩)
      · exact .inr (.inr (.inside hx hw h))
  · rintro (rfl | ⟨w, hw, h⟩ | h)
    · exact .here List.mem_cons_self
    · exact .inside List.mem_cons_self hw h
    · cases h with
      | here h => exact .here (List.mem_cons_of_mem _ h)
      | inside hx hw h => exact .inside (List.mem_cons_of_mem _ hx) hw h

/-- Whether values are orderly shows in the objects that occur in them. -/
theorem orderly_of_mem (objs : List Object) (h : ∀ v ∈ vs, ∀ o, Occurs o v → o ∈ objs)
    (hclean : ∀ o ∈ objs, o.Neat ∧ o.Named)
    (hkeys : ∀ x ∈ objs, ∀ y ∈ objs, x.key = y.key → x.subject = y.subject) : Orderly vs where
  neat v hv o ho := (hclean o (h v hv o ho)).1
  named v hv o ho := (hclean o (h v hv o ho)).2
  keys v hv w hw x y hx hy := hkeys x (h v hv x hx) y (h w hw y hy)

/-- A property of canonical values that values share with what is nested in them, and on which merging obeys its
laws. -/
structure Lawful (P : Value → Prop) : Prop where
  laws : SemilatticeOn P merge
  nil : P []
  tidy : ∀ {v : Value}, P v → v.Tidy
  inside : ∀ {v : Value}, P v → v.Inside P

theorem Orderly.lawful (h : Orderly vs) (hcanonical : ∀ v ∈ vs, v.Canonical) :
    ∃ P : Value → Prop, Lawful P ∧ ∀ v ∈ vs, P v := by
  obtain ⟨χ, hunknown, hχ⟩ := exists_subject (P := fun o => ∃ v ∈ vs, Occurs o v)
    fun x y ⟨v, hv, hx⟩ ⟨w, hw, hy⟩ => h.keys v hv w hw x y hx hy
  refine ⟨_, ⟨semilattice_merge hunknown (vs.map depth).sum, ⟨Nat.zero_le _, ?_⟩, ?_, ?_⟩, fun v hv => ⟨?_, ?_⟩⟩
  · exact everywhere_nil ⟨canonical_nil.tidy, by simp, by simp⟩
  · exact fun hv => (everywhere_iff.mp hv.2).1.tidy
  · exact fun hv o ho w hw =>
      ⟨depth_le_succ.mp (Nat.le_succ_of_le hv.1) o ho w hw, (everywhere_iff.mp hv.2).2 o ho w hw⟩
  · exact List.le_sum_of_mem (List.mem_map.mpr ⟨v, hv, rfl⟩)
  · exact (hcanonical v hv).regular (fun o ho => (h.neat v hv o ho).clean (h.named v hv o ho))
      fun o ho => hχ o ⟨v, hv, ho⟩

theorem Orderly.covers_prefix {l l' : List Value} (h : Orderly (l ++ l'))
    (hcanonical : ∀ v ∈ l ++ l', v.Canonical) : (mergeAll (l ++ l')).Covers (mergeAll l) := by
  obtain ⟨P, hP, hmem⟩ := h.lawful hcanonical
  obtain ⟨hl, hl'⟩ := List.forall_mem_append.mp hmem
  have hfirst : P (mergeAll l) := mergeAll_of_forall hP.nil hP.laws.closed hl
  refine covers_of_merge_eq ?_
  unfold mergeAll at hfirst ⊢
  rw [List.foldl_append]
  exact hP.laws.foldl_absorbs hfirst hfirst hl' (hP.laws.idem hfirst)

theorem Orderly.covers_mem (h : Orderly vs) (hcanonical : ∀ v ∈ vs, v.Canonical) {v : Value} (hv : v ∈ vs) :
    (mergeAll vs).Covers v := by
  obtain ⟨P, hP, hmem⟩ := h.lawful hcanonical
  exact covers_of_merge_eq (hP.laws.foldl_absorbs_mem hP.nil hmem hv)

/-- Whether a value is an integer without a negative zero. -/
def isUnsignedInt : Value → Bool
  | [.constant (.number .int s)] => decide (s.lower ≠ .negZero ∧ s.upper ≠ .negZero ∧ ∀ x ∈ s.exact, x ≠ .negZero)
  | _ => false

theorem orderly_of_isUnsignedInt (h : ∀ v ∈ vs, isUnsignedInt v = true) : Orderly vs := by
  have hint : ∀ v ∈ vs, ∀ o, Occurs o v → ∃ s : NumberSet, o = .constant (.number .int s) ∧ s.Unsigned := by
    intro v hv o ho
    have hint := h v hv
    unfold isUnsignedInt at hint
    split at hint
    · rename_i s
      obtain ⟨hlower, hupper, hexact⟩ := of_decide_eq_true hint
      cases ho with
      | here ho => exact ⟨s, List.mem_singleton.mp ho, hlower, hupper, hexact⟩
      | inside hx hw _ =>
        rw [List.mem_singleton.mp hx] at hw
        cases hw
    · cases hint
  refine ⟨fun v hv o ho => ?_, fun v hv o ho => ?_, fun v hv w hw x y hx hy _ => ?_⟩
  · obtain ⟨s, rfl, hs⟩ := hint v hv o ho
    exact hs
  · obtain ⟨s, rfl, -⟩ := hint v hv o ho
    trivial
  · obtain ⟨s, rfl, -⟩ := hint v hv x hx
    obtain ⟨t, rfl, -⟩ := hint w hw y hy
    rfl

/-- What comes of joining values, if there are any. -/
def joined? (vs : List Value) : Option Value := if vs.isEmpty then none else some (mergeAll vs)

theorem joined?_append (vs : List Value) (v : Value) :
    joined? (vs ++ [v]) = some (((joined? vs).getD []).merge v) := by
  have hknown : (joined? vs).getD [] = mergeAll vs := by
    cases vs <;> rfl
  rw [hknown, joined?, mergeAll, mergeAll, List.foldl_append]
  simp

/-- What is known later says no less. -/
def Grown (earlier later : Option Value) : Prop := ∀ v, earlier = some v → ∃ w, later = some w ∧ w.Covers v

theorem Orderly.grown {l l' : List Value} (h : Orderly (l ++ l')) (hcanonical : ∀ v ∈ l ++ l', v.Canonical) :
    Grown (joined? l) (joined? (l ++ l')) := by
  intro v hv
  unfold joined? at hv
  split at hv <;> cases hv
  rename_i hne
  refine ⟨mergeAll (l ++ l'), ?_, h.covers_prefix hcanonical⟩
  unfold joined?
  cases l with
  | nil => exact absurd rfl hne
  | cons x l => rfl

end Value

namespace Run.Moment

variable {σ : Type}

def filedUnder (key : FrameKey) (h : List (Run.Moment σ)) : List Value :=
  h.filterMap fun m => m.filed?.bind fun e => if e.1 = key then some e.2 else none

theorem filedUnder_append (key : FrameKey) (h h' : List (Run.Moment σ)) :
    filedUnder key (h ++ h') = filedUnder key h ++ filedUnder key h' := List.filterMap_append

end Run.Moment

namespace Analyzer

open Run.Moment Value

variable {σ : Type} {a : Analyzer} {h : List (Run.Moment σ)} {r r' : Run σ}

/-- The summaries are the joins of what was filed, and that was in canonical form. -/
structure Summarises (h : List (Run.Moment σ)) (r : Run σ) : Prop where
  summaries : ∀ key, r.state.summaries.get? key = joined? (filedUnder key h)
  canonical : ∀ key, ∀ v ∈ filedUnder key h, v.Canonical

theorem Summarises.of_summaries (hr : Summarises h r) (hsame : r'.state.summaries = r.state.summaries) :
    Summarises h r' := ⟨fun key => hsame ▸ hr.summaries key, hr.canonical⟩

theorem Summarises.observe (hr : Summarises h r) {m : Run.Moment σ} (hm : m.filed? = none) : Summarises (h ++ [m]) r := by
  have hnothing : ∀ key, filedUnder key (h ++ [m]) = filedUnder key h := by
    intro key
    rw [filedUnder_append]
    simp [filedUnder, hm]
  exact ⟨fun key => hnothing key ▸ hr.summaries key, fun key => hnothing key ▸ hr.canonical key⟩

/-- The value with which a call is left is joined into the summary of the place where the state stands. -/
theorem Summarises.leave (hr : Summarises h r) {key : FrameKey} {v : Value} (hv : v.Canonical) {f : CallFrame}
    {s : State} (hplace : r.state.place = (some key.scope, key.context))
    (hexit : r.state.exitFunction (some v) = .ok (f, s)) {m : Run.Moment σ} (hm : m.filed? = some (key, v)) :
    Summarises (h ++ [m]) { r with state := s } := by
  have hname : r.state.scopeName = key.scope := by
    rw [State.scopeName, show r.state.scope = some key.scope from congrArg Prod.fst hplace]
    rfl
  have hcontext : r.state.context = key.context := congrArg Prod.snd hplace
  have hsummaries : s.summaries = r.state.summaries.insert key (((r.state.summaries.get? key).getD []).merge v) := by
    unfold State.exitFunction at hexit
    split at hexit
    · cases hexit
    · split at hexit <;> cases hexit
      simp only [State.addSummary, hname, hcontext]
      rfl
  -- The moment files its value under one key, and the summary of this key alone has changed.
  have hfiled : ∀ k, filedUnder k (h ++ [m]) = filedUnder k h ++ if key = k then [v] else [] := by
    intro k
    rw [filedUnder_append]
    by_cases hk : key = k <;> simp [filedUnder, hm, hk]
  refine ⟨fun k => ?_, fun k => ?_⟩
  · rw [hfiled, hsummaries, Table.get?_insert]
    split
    · rename_i hk
      rw [joined?_append, hr.summaries, hk]
    · rw [List.append_nil]
      exact hr.summaries k
  · rw [hfiled]
    refine List.forall_mem_append.mpr ⟨hr.canonical k, ?_⟩
    split
    · exact List.forall_mem_singleton.mpr hv
    · simp

theorem admits_canonical (a : Analyzer) : a.Admits Value.Canonical fun _ => True := by
  rw [← Value.consists_true]
  have hclass : ∀ name, ClassName (Value.Consists fun _ => True) name := fun name =>
    ⟨fun _ => consists_bare ⟨Dict.sorted_nil, Dict.sorted_nil⟩ rfl trivial, consists_bare Dict.sorted_nil rfl trivial⟩
  exact
    { toClosed := Value.closed_consists ⟨trivial, fun _ => trivial, trivial, trivial, fun _ => trivial⟩
      functions := fun _ => consists_bare Dict.sorted_nil rfl trivial
      functionScopes := fun _ _ => consists_bare Dict.sorted_nil rfl trivial
      classes := fun _ => hclass _
      classScopes := fun _ _ => hclass _
      nothing := consists_bare ⟨Dict.sorted_nil, Dict.sorted_nil⟩ rfl trivial
      instances := fun _ _ => consists_bare Dict.sorted_nil rfl trivial
      parents := fun _ => consists_bare Dict.sorted_nil rfl trivial
      externals := fun _ => consists_bare Dict.sorted_nil rfl trivial
      answers := fun _ => ⟨consists_bare Dict.sorted_nil rfl trivial, fun _ =>
        ⟨consists_bare Dict.sorted_nil rfl trivial, consists_bare Dict.sorted_nil rfl trivial⟩⟩ }

def summaryGuide (a : Analyzer) (σ : Type) : Guide a σ where
  V := Value.Canonical
  U _ := True
  C _ := True
  J := Summarises
  Fits _ _ _ := True
  E v := v = .endless

theorem lawful_summaryGuide (a : Analyzer) (σ : Type) : (a.summaryGuide σ).Lawful where
  admits := a.admits_canonical
  quiet h hquiet := h.of_summaries (congrArg State.summaries hquiet.state.outline :)
  books h hstate _ _ := h.of_summaries (by rw [hstate])
  flows h _ := h.of_summaries rfl
  returns {h r} hr v := by
    refine hr.of_summaries ?_
    show (r.state.setReturn v).summaries = _
    unfold State.setReturn
    split <;> rfl
  raises {h r} hr v := by
    refine hr.of_summaries ?_
    show (r.state.addException v).summaries = _
    unfold State.addException
    split <;> rfl
  registers {h r} hr name bases := hr.of_summaries
    (congrArg State.summaries (r.state.moves_registerClass name (a.basesOf name bases)).core :)
  places {h r c} hr _ name := hr.of_summaries (congrArg State.summaries (r.state.moves_setCurrent name c).core :)
  root := trivial
  here _ := trivial
  callers _ _ _ := trivial
  records h _ _ _ hrecord := h.of_summaries (congrArg State.summaries (Run.record_spec hrecord).1 :)
  enters h _ _ _ henter := by
    obtain ⟨c, hentered⟩ := Run.enterFunction_of_enter henter
    obtain ⟨_, _, hmoves⟩ := State.moves_enterFunction rfl hentered
    exact h.of_summaries (congrArg State.summaries hmoves.core :)
  pushes h _ _ := h.of_summaries rfl
  observes h _ hm := h.observe hm
  leaves h hv hplace hexit hquiet _ hm :=
    (h.leave hv hplace hexit hm).of_summaries (congrArg State.summaries hquiet.state.outline :)
  fitsCall _ _ _ := trivial
  fitsClass _ _ _ := trivial
  fitsFirst _ := ⟨trivial, trivial⟩
  exhausted _ := rfl

theorem summarises_analysis (ha : a.Distinct) (hbindings : ∀ b ∈ a.bindings, b.value.Canonical)
    {oracle : Option (Oracle σ)} {start : σ} {r₀ : Run σ} (hstarted : a.started oracle start = some r₀) (bound : Nat) :
    Follows (a.summaryGuide σ).Holds (fun v => v = .endless ∨ v = .endless) [] (a.momentsWith bound σ oracle start)
      (a.explore r₀ >>= fun r => Run.solve a bound r) (a.summaryGuide σ).Idle := by
  obtain ⟨policy, state, hpolicy, -, -⟩ := started_eq_some hstarted
  have hidle : (a.summaryGuide σ).Idle [] r₀ := by
    refine Guide.idle_started a.admits_canonical ha hbindings says_true hstarted fun hfresh _ _ _ => ⟨fun key => ?_, ?_⟩
    · rw [hfresh.summaries]
      rfl
    · simp [filedUnder]
  unfold momentsWith
  rw [hstarted]
  exact hidle.analysis (a.lawful_summaryGuide σ) ha (Options.recursion_of_validate hpolicy) bound

/-- What a function is known to return under a context, as it changes in the course of an analysis. -/
def summaryTrace (ms : List (Run.Moment σ)) (key : FrameKey) : List (Option Value) :=
  ms.map fun m => m.run.state.returnSummary? key.scope key.context

theorem exists_filed {ms : List (Run.Moment σ)} (htrail : Trail (a.summaryGuide σ).Holds h ms) {key : FrameKey}
    {summary : Option Value} (hsummary : summary ∈ summaryTrace ms key) :
    ∃ l l', filedUnder key ms = l ++ l' ∧ summary = joined? (filedUnder key h ++ l) := by
  obtain ⟨m, hm, rfl⟩ := List.mem_map.mp hsummary
  obtain ⟨before, after, rfl⟩ := List.append_of_mem hm
  refine ⟨filedUnder key (before ++ [m]), filedUnder key after, ?_, ?_⟩
  · rw [← filedUnder_append, List.append_assoc, List.singleton_append]
  · rw [← filedUnder_append]
    exact htrail.at_moment.2.summaries key

/-- Later summaries cover earlier ones, as long as what is filed is orderly. -/
theorem pairwise_grown {ms : List (Run.Moment σ)} (htrail : Trail (a.summaryGuide σ).Holds h ms) {key : FrameKey}
    (hcanonical : ∀ v ∈ filedUnder key (h ++ ms), v.Canonical) (horderly : Orderly (filedUnder key (h ++ ms))) :
    (summaryTrace ms key ++ [joined? (filedUnder key (h ++ ms))]).Pairwise Grown := by
  induction ms generalizing h with
  | nil => exact List.pairwise_singleton _ _
  | cons m ms ih =>
    obtain ⟨hm, hrest⟩ := htrail
    have hsplit : h ++ m :: ms = h ++ [m] ++ ms := by simp
    rw [hsplit] at hcanonical horderly ⊢
    refine List.pairwise_cons.mpr ⟨fun later hlater => ?_, ih hrest hcanonical horderly⟩
    -- What comes later joins what was filed so far and possibly more.
    have hmore : ∃ l l', filedUnder key ms = l ++ l' ∧ later = joined? (filedUnder key (h ++ [m]) ++ l) := by
      rcases List.mem_append.mp hlater with hlater | hlater
      · exact exists_filed hrest hlater
      · refine ⟨filedUnder key ms, [], by simp, ?_⟩
        rw [List.mem_singleton.mp hlater, filedUnder_append]
    obtain ⟨l, l', hl, rfl⟩ := hmore
    rw [filedUnder_append, hl, ← List.append_assoc] at hcanonical horderly
    show Grown (m.run.state.returnSummary? key.scope key.context) _
    rw [State.returnSummary?, hm.2.summaries key]
    exact horderly.left.grown (List.forall_mem_append.mp hcanonical).1

/-- What a function is known to return under a context, in the course of an analysis and in the end: the join of
the values that were filed there. If these are orderly, then later summaries cover earlier ones, and the last one
covers every value with which the function was left under the context. -/
structure Summary (ms : List (Run.Moment σ)) (s : State) (key : FrameKey) : Prop where
  during : ∀ before m after, ms = before ++ m :: after →
    m.run.state.returnSummary? key.scope key.context = joined? (filedUnder key (before ++ [m]))
  atEnd : s.returnSummary? key.scope key.context = joined? (filedUnder key ms)
  grown : Orderly (filedUnder key ms) →
    (summaryTrace ms key ++ [s.returnSummary? key.scope key.context]).Pairwise Grown
  covered : Orderly (filedUnder key ms) → ∀ v r, .left key v r ∈ ms →
    ∃ w, s.returnSummary? key.scope key.context = some w ∧ w.Covers v

/-- In every analysis that has a result, the summary of every function under every context joins what was filed. -/
theorem summaries_joined {o : Options} {bindings : List Prebinding} (hbindings : ∀ b ∈ bindings, b.value.Built)
    {tracing : Bool} {p : Program} {oracle : Option (Oracle σ)} {start : σ} {res : Result σ}
    (hres : (ofProgram o bindings tracing p).analyze none oracle start = .ok res) (key : FrameKey) :
    (ofProgram o bindings tracing p).asking (fun τ oracle start =>
      Summary ((ofProgram o bindings tracing p).momentsWith callBound τ oracle start) res.state key) oracle start := by
  obtain ⟨ha, -⟩ := distinct_ofProgram o bindings tracing p
  have hvalues : ∀ b ∈ (ofProgram o bindings tracing p).bindings, b.value.Canonical := by
    rw [bindings_ofProgram]
    exact fun b hb => (hbindings b hb).canonical
  generalize ofProgram o bindings tracing p = a at *
  obtain ⟨τ, oracle', start', r₀, r, r', hstarted, hexplore, hsolve, hstate, -, hasking⟩ := exists_solved hres
  rw [hasking]
  have hfollows := summarises_analysis ha hvalues hstarted callBound
  have hdone := hfollows.done r' (Except.bind_eq_ok.mpr ⟨r, hexplore, hsolve⟩)
  have htrail := hfollows.trail
  rw [List.nil_append] at hdone
  generalize a.momentsWith callBound τ oracle' start' = ms at *
  obtain ⟨hsummaries, hcanonical⟩ := (hdone.around "").keeps
  have hend : res.state.returnSummary? key.scope key.context = joined? (filedUnder key ms) := by
    rw [hstate]
    exact hsummaries key
  refine ⟨fun before m after hms => ?_, hend, fun horderly => ?_, fun horderly v x hleft => ?_⟩
  · rw [hms] at htrail
    exact htrail.at_moment.2.summaries key
  · rw [hend]
    exact pairwise_grown htrail (hcanonical key) horderly
  · have hfiled : v ∈ filedUnder key ms := List.mem_filterMap.mpr ⟨_, hleft, by simp [filed?]⟩
    refine ⟨mergeAll (filedUnder key ms), ?_, horderly.covers_mem (hcanonical key) hfiled⟩
    rw [hend, joined?, if_neg (by simpa using List.ne_nil_of_mem hfiled)]

def identityCalls (body : List Stmt) : Program where
  scopes :=
    [{ Scope.emptyModule "m" with body := .functionDef "f" "m.f" :: body },
      ⟨"m.f", .function, "m", ["p"], [], [], false, [.ret "p"]⟩]

def insensitive : Options := { context := .ofString "insensitive" }

def twoNumbers : Program :=
  identityCalls [.const "a" (.int 1), .call ⟨"r", "f", "", ["a"], []⟩, .const "b" (.int 2),
    .call ⟨"s", "f", "", ["b"], []⟩]

/-- Several numbers are filed, and the summary covers all that the function was left with. -/
theorem summaries_joined_twoNumbers :
    ∃ res : Result Unit, (ofProgram insensitive [] false twoNumbers).analyze none none () = .ok res ∧
      1 < (filedUnder ⟨"m.f", .root⟩
        ((ofProgram insensitive [] false twoNumbers).momentsWith callBound Unit none ())).length ∧
      ∀ v r, .left ⟨"m.f", .root⟩ v r ∈ (ofProgram insensitive [] false twoNumbers).momentsWith callBound Unit none () →
        ∃ w, res.state.returnSummary? "m.f" .root = some w ∧ w.Covers v := by
  let numbers (vs : List Value) : Bool := decide (1 < vs.length) && vs.all isUnsignedInt
  have htest : ((ofProgram insensitive [] false twoNumbers).analyze none none ()).toOption.any (fun _ =>
      numbers (filedUnder ⟨"m.f", .root⟩
        ((ofProgram insensitive [] false twoNumbers).momentsWith callBound Unit none ()))) = true := by decide +kernel
  obtain ⟨res, hres, hfiled⟩ := Except.exists_ok_of_any htest
  obtain ⟨hlength, hfiled⟩ := (Bool.and_eq_true _ _).mp hfiled
  have hsummary := summaries_joined (by simp) hres ⟨"m.f", .root⟩
  exact ⟨res, hres, of_decide_eq_true hlength,
    hsummary.covered (orderly_of_isUnsignedInt (List.all_eq_true.mp hfiled))⟩

/-- Calls with zero, with a fraction below zero that is cut to an integer, and with a length. -/
def vanishingFraction : Program :=
  identityCalls [.const "a" (.int 0), .call ⟨"r", "f", "", ["a"], []⟩,
    .const "h" (.float ⟨true, 0x3FE0000000000000⟩), .call ⟨"b", "int", "", ["h"], []⟩,
    .call ⟨"s", "f", "", ["b"], []⟩, .expr "x" [], .call ⟨"c", "len", "", ["x"], []⟩,
    .call ⟨"t", "f", "", ["c"], []⟩]

/-- What is left of the fraction is a zero below zero. Zeros are one member of a set, whichever came first, but
two bounds of an interval. So the summary takes it in with the zero that was there before, and does not cover it
any more when it becomes an interval that starts from that zero. -/
theorem summary_loses_sign :
    ∃ (res : Result Unit) (v w : Value) (r : Run Unit),
      (ofProgram insensitive [] false vanishingFraction).analyze none none () = .ok res ∧
      .left ⟨"m.f", .root⟩ v r ∈
        (ofProgram insensitive [] false vanishingFraction).momentsWith callBound Unit none () ∧
      res.state.returnSummary? "m.f" .root = some w ∧ ¬ w.Covers v := by
  let misses (res : Result Unit) (m : Run.Moment Unit) : Bool :=
    match m with
    | .left key v _ =>
      key = ⟨"m.f", .root⟩ && (res.state.returnSummary? "m.f" .root).any fun w => !decide (w.Covers v)
    | _ => false
  have htest : ((ofProgram insensitive [] false vanishingFraction).analyze none none ()).toOption.any (fun res =>
      ((ofProgram insensitive [] false vanishingFraction).momentsWith callBound Unit none ()).any (misses res)) =
        true := by decide +kernel
  obtain ⟨res, hres, hmisses⟩ := Except.exists_ok_of_any htest
  obtain ⟨m, hm, hmisses⟩ := List.any_eq_true.mp hmisses
  cases m with
  | left key v r =>
    simp only [misses, Bool.and_eq_true, decide_eq_true_eq, Option.any_eq_true, Bool.not_eq_true',
      decide_eq_false_iff_not] at hmisses
    obtain ⟨rfl, w, hw, hcovers⟩ := hmisses
    exact ⟨res, v, w, r, hres, hm, hw, hcovers⟩
  | _ => cases hmisses

end Analyzer

end AbstractFlow
