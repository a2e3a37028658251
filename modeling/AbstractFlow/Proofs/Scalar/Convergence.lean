import AbstractFlow.Proofs.Scalar.Rank
import AbstractFlow.Proofs.Scalar.Simulation
import AbstractFlow.Proofs.Scalar.Step

/-! # Convergence of scalar analyses

A statement is interpreted only after one that leads to it has handed control on. Merge points hand
control on a bounded number of times, since every time but the first raises the rank of what is kept
for them. A statement that is no merge point has one predecessor, so it can only be interpreted without
end if its predecessor is, and so back to the first statement. An analysis can thus only fail to
converge by coming back to the first statement again and again through statements none of which is a
merge point.
-/
namespace AbstractFlow

namespace Sweep

variable {f : String} {body : List Stmt} {e : Extent} {m : Sweep} {i j : Nat} {rest : List Nat}
  {stmt : Stmt} {frame : Snapshot} {saved : Nat → Option Snapshot}

/-- A sweep over variables and values within an extent. -/
structure Within (e : Extent) (m : Sweep) : Prop where
  frame : m.frame.Within e
  saved : ∀ i s, m.saved i = some s → s.Within e

theorem Within.lookup (h : m.Within e) (name : String) : (m.lookup name).Within e := by
  unfold Sweep.lookup
  split
  · exact Value.plain_unknown
  · cases hv : Dict.get? m.frame name with
    | none => exact Value.plain_unknown
    | some v => exact (h.frame.2.get? hv).2

theorem within_bound (h : frame.Within e) {target : String} (htarget : target ∈ e.names) {v : Value}
    (hv : v.Within e) : (bound frame target v).Within e := by
  unfold bound
  split
  · exact h
  · refine h.insert htarget (Value.plain_merge Constant.within_join ?_ hv)
    cases hold : Dict.get? frame target with
    | none => exact Value.plain_nil
    | some w => exact (h.2.get? hold).2

theorem within_restored (h : frame.Within e) {snap : Snapshot} (hsnap : snap.Within e) :
    (restored frame snap).Within e := by
  have heach := hsnap.2
  clear hsnap
  unfold restored
  induction snap generalizing frame with
  | nil => exact h
  | cons x rest ih =>
    have hx := heach x List.mem_cons_self
    exact ih (h.insert hx.1 hx.2) fun y hy => heach y (List.mem_cons_of_mem x hy)

theorem Within.arriving (h : m.Within e) (i : Nat) : (m.arriving i).Within e := by
  unfold Sweep.arriving
  cases hs : m.saved i with
  | none => exact h.frame
  | some s => exact (h.saved i s hs).merge h.frame

def keptRank (e : Extent) (saved : Nat → Option Snapshot) (i : Nat) : Nat :=
  ((saved i).map (Snapshot.rank e)).getD 0

/-- What saving a frame for a point does: ranks do not fall, and nothing is lost. -/
theorem save_spec (hframe : frame.Within e) (hsaved : ∀ i s, saved i = some s → s.Within e) (j : Nat) :
    (∀ i s, save frame saved j i = some s → s.Within e) ∧
      ∀ i, keptRank e saved i ≤ keptRank e (save frame saved j) i ∧
        ((saved i).isSome = true → (save frame saved j i).isSome = true) := by
  have hother : ∀ i, i ≠ j → save frame saved j i = saved i := fun i hi => Function.update_of_ne hi _ _
  have hsame : save frame saved j j = some (((saved j).map (Snapshot.merge · frame)).getD frame) :=
    Function.update_self ..
  refine ⟨fun i s hs => ?_, fun i => ?_⟩
  -- Only the point that is saved for changes, and a merge lets its rank rise or leaves it.
  · by_cases hij : i = j
    · subst hij
      rw [hsame, Option.some.injEq] at hs
      subst hs
      cases hold : saved i with
      | none => exact hframe
      | some s => exact (hsaved i s hold).merge hframe
    · exact hsaved i s (hother i hij ▸ hs)
  · by_cases hij : i = j
    · subst hij
      refine ⟨?_, fun _ => by simp [hsame]⟩
      unfold keptRank
      rw [hsame]
      cases hold : saved i with
      | none => simp
      | some s =>
        simp only [Option.map_some, Option.getD_some]
        rcases Snapshot.merge_eq_or_rank_lt (hsaved i s hold) hframe with h | h
        · rw [h]
        · exact h.le
    · unfold keptRank
      rw [hother i hij]
      exact ⟨Nat.le_refl _, id⟩

theorem foldl_save_spec (hframe : frame.Within e) (hsaved : ∀ i s, saved i = some s → s.Within e)
    (js : List Nat) :
    (∀ i s, js.foldl (save frame) saved i = some s → s.Within e) ∧
      ∀ i, keptRank e saved i ≤ keptRank e (js.foldl (save frame) saved) i ∧
        ((saved i).isSome = true → (js.foldl (save frame) saved i).isSome = true) := by
  induction js generalizing saved with
  | nil => exact ⟨hsaved, fun _ => ⟨Nat.le_refl _, id⟩⟩
  | cons j rest ih =>
    obtain ⟨hwithin, hgrows⟩ := save_spec hframe hsaved j
    obtain ⟨hwithin', hgrows'⟩ := ih hwithin
    exact ⟨hwithin', fun i => ⟨(hgrows i).1.trans (hgrows' i).1, fun h => (hgrows' i).2 ((hgrows i).2 h)⟩⟩

/-- A statement saves the frame for some points, and nothing else. -/
theorem exists_savedAfter_eq (g : Graph) (m : Sweep) (i : Nat) (stmt : Stmt) :
    ∃ js : List Nat, m.savedAfter g i stmt = js.foldl (save m.frame) m.saved := by
  cases stmt with
  | jump sense test l =>
    simp only [savedAfter]
    split
    · exact ⟨[], rfl⟩
    · exact ⟨_, rfl⟩
  | label l =>
    simp only [savedAfter]
    split
    · exact ⟨[i], rfl⟩
    · exact ⟨[], rfl⟩
  | _ => exact ⟨[], rfl⟩

theorem Within.frameAfter (g : Graph) (h : m.Within (.ofBody body)) (hi : body[i]? = some stmt) :
    (m.frameAfter g i stmt).Within (.ofBody body) := by
  have hmem := List.mem_of_getElem? hi
  have htarget : stmt.target ∈ (Extent.ofBody body).names := List.mem_map_of_mem hmem
  cases stmt with
  | const t l => exact within_bound h.frame htarget (Extent.within_ofBody hmem)
  | assign t x => exact within_bound h.frame htarget (h.lookup x)
  | expr t os => exact within_bound h.frame htarget Value.plain_unknown
  | label l =>
    simp only [Sweep.frameAfter]
    split
    · exact within_restored h.frame (h.arriving i)
    · exact h.frame
  | _ => exact h.frame

theorem Within.step (hregular : m.Regular (.build f body)) (h : m.Within (.ofBody body)) :
    (m.step (.build f body) body).Within (.ofBody body) := by
  match hq : m.queue with
  | [] =>
    rw [step_of_idle _ hq]
    exact h
  | i :: rest =>
    obtain ⟨stmt, hi⟩ := hregular.exists_stmt hq
    obtain ⟨js, hjs⟩ := exists_savedAfter_eq (.build f body) (m.visit i rest) i stmt
    refine ⟨?_, ?_⟩
    · rw [step_frame hq hi]
      exact h.frameAfter _ hi
    · rw [step_saved hq hi, hjs]
      exact (foldl_save_spec h.frame h.saved js).1

/-- Whatever a step does, the ranks of what is kept do not fall. -/
theorem keptRank_le_step (hregular : m.Regular (.build f body)) (h : m.Within (.ofBody body)) (j : Nat) :
    keptRank (.ofBody body) m.saved j ≤ keptRank (.ofBody body) (m.step (.build f body) body).saved j ∧
      ((m.saved j).isSome = true → ((m.step (.build f body) body).saved j).isSome = true) := by
  match hq : m.queue with
  | [] =>
    rw [step_of_idle _ hq]
    exact ⟨Nat.le_refl _, id⟩
  | i :: rest =>
    obtain ⟨stmt, hi⟩ := hregular.exists_stmt hq
    obtain ⟨js, hjs⟩ := exists_savedAfter_eq (.build f body) (m.visit i rest) i stmt
    rw [step_saved hq hi, hjs]
    exact (foldl_save_spec h.frame h.saved js).2 j

/-- A merge point keeps what arrives. -/
theorem step_saved_of_isMergePoint (hq : m.queue = i :: rest) (hi : body[i]? = some stmt)
    (hmerge : (Graph.build f body).isMergePoint i = true) :
    (m.step (.build f body) body).saved i = some (m.arriving i) := by
  obtain ⟨l, hl⟩ := Graph.exists_label_of_isMergePoint f body hmerge
  obtain rfl := Option.some.inj (hi.symm.trans hl)
  rw [step_saved hq hi]
  simp only [savedAfter, hmerge, ↓reduceIte, Function.update_self]
  rfl

end Sweep

namespace Sweep

variable {f : String} {body : List Stmt} {m : Sweep} {i : Nat} {rest : List Nat} {stmt : Stmt}

/-- A merge point that was reached before hands control on only with a rank that has risen. -/
theorem keptRank_lt_step (h : m.Within (.ofBody body)) (hq : m.queue = i :: rest)
    (hi : body[i]? = some stmt) (hmerge : (Graph.build f body).isMergePoint i = true)
    (hon : m.handsOn (.build f body) i = true) (hvisited : 0 < m.visits i)
    (hkept : (m.saved i).isSome = true) :
    keptRank (.ofBody body) m.saved i < keptRank (.ofBody body) (m.step (.build f body) body).saved i := by
  obtain ⟨s, hs⟩ := Option.isSome_iff_exists.mp hkept
  have harriving : m.arriving i = s.merge m.frame := by simp [arriving, hs]
  have hunstable : Snapshot.equal (m.arriving i) s = false := by
    simpa [handsOn, hq, hmerge, isStable, hvisited, hs] using hon
  have hchanged : s.merge m.frame ≠ s := by
    intro heq
    rw [harriving, heq, Snapshot.equal_refl] at hunstable
    simp at hunstable
  unfold keptRank
  rw [step_saved_of_isMergePoint hq hi hmerge, hs, harriving]
  exact (Snapshot.merge_eq_or_rank_lt (h.saved i s hs) h.frame).resolve_left hchanged

end Sweep

namespace Scope

variable (s : Scope)

/-- How often a statement has handed control on after `n` steps. -/
def passes (n i : Nat) : Nat := (List.range n).countP fun k => (s.sweep k).handsOn s.graph i

theorem passes_succ (n i : Nat) :
    s.passes (n + 1) i = s.passes n i + if (s.sweep n).handsOn s.graph i then 1 else 0 := by
  simp [passes, List.range_succ, List.countP_append]

theorem within_sweep (n : Nat) : (s.sweep n).Within (.ofBody s.body) := by
  induction n with
  | zero =>
    refine ⟨?_, ?_⟩
    · rw [show s.sweep 0 = Sweep.start s.graph from rfl, Sweep.start, Sweep.enqueue_frame]
      exact Snapshot.within_nil
    · intro i snap h
      rw [show s.sweep 0 = Sweep.start s.graph from rfl, Sweep.start, Sweep.enqueue_saved] at h
      simp at h
  | succ n ih =>
    rw [sweep_succ]
    exact ih.step (s.regular_sweep n)

theorem visits_zero (i : Nat) : (s.sweep 0).visits i = 0 := by
  rw [show s.sweep 0 = Sweep.start s.graph from rfl, Sweep.start, Sweep.enqueue_visits]

theorem visits_le_succ (n i : Nat) : (s.sweep n).visits i ≤ (s.sweep (n + 1)).visits i := by
  rw [sweep_succ]
  match hq : (s.sweep n).queue with
  | [] => rw [Sweep.step_of_idle _ hq]
  | j :: rest =>
    obtain ⟨stmt, hj⟩ := (s.regular_sweep n).exists_stmt hq
    rw [graph, Sweep.step_visits hq hj]
    by_cases hij : i = j
    · simp [hij]
    · rw [Function.update_of_ne hij]

theorem visits_mono {n k : Nat} (h : n ≤ k) (i : Nat) : (s.sweep n).visits i ≤ (s.sweep k).visits i :=
  monotone_nat_of_le_succ (fun n => s.visits_le_succ n i) h

theorem passes_le_visits (n i : Nat) : s.passes n i ≤ (s.sweep n).visits i := by
  induction n with
  | zero => simp [passes]
  | succ n ih =>
    rw [passes_succ]
    split
    · rename_i hon
      have hhead : (s.sweep n).queue.head? = some i := by
        simp only [Sweep.handsOn, Bool.and_eq_true, beq_iff_eq] at hon
        exact hon.1
      obtain ⟨rest, hq⟩ := List.head?_eq_some_iff.mp hhead
      obtain ⟨stmt, hi⟩ := (s.regular_sweep n).exists_stmt hq
      rw [sweep_succ, graph, Sweep.step_visits hq hi, Function.update_self]
      omega
    · exact ih.trans (s.visits_le_succ n i)

/-- The predecessors of a statement account for all its visits, but for the one that starts. -/
theorem visits_le_passes (n j : Nat) :
    (s.sweep n).visits j + (if j ∈ (s.sweep n).queue then 1 else 0) ≤
      1 + ((s.graph.predsAt j).map (s.passes n)).sum := by
  induction n with
  | zero =>
    rw [visits_zero]
    split <;> omega
  | succ n ih =>
    have hmono : ∀ i, s.passes n i ≤ s.passes (n + 1) i := by
      intro i
      rw [passes_succ]
      omega
    have hsum : ((s.graph.predsAt j).map (s.passes n)).sum ≤ ((s.graph.predsAt j).map (s.passes (n + 1))).sum :=
      List.sum_le_sum fun i _ => hmono i
    match hq : (s.sweep n).queue with
    | [] =>
      rw [sweep_of_idle s hq (Nat.le_succ n)]
      omega
    | i :: rest =>
      obtain ⟨stmt, hi⟩ := (s.regular_sweep n).exists_stmt hq
      have hnodup := (s.regular_sweep n).nodup
      rw [hq] at hnodup ih
      have hi' : i ∉ rest := (List.nodup_cons.mp hnodup).1
      have hvisits : (s.sweep (n + 1)).visits = Function.update (s.sweep n).visits i ((s.sweep n).visits i + 1) := by
        rw [sweep_succ, graph, Sweep.step_visits hq hi]
      have hwaits : j ∈ (s.sweep (n + 1)).queue → j ∈ rest ∨
          ((s.sweep n).handsOn s.graph i = true ∧ i ∈ s.graph.predsAt j) := by
        intro hj
        rw [sweep_succ] at hj
        exact (Sweep.mem_step_queue hq hi hj).imp_right
          fun h => ⟨h.1, (Graph.mem_predsAt s.name s.body).mpr h.2⟩
      -- A statement that has come to wait was led to by the one whose turn it was.
      have hnew : j ∈ (s.sweep (n + 1)).queue → j ∉ rest →
          ((s.graph.predsAt j).map (s.passes n)).sum < ((s.graph.predsAt j).map (s.passes (n + 1))).sum := by
        intro hj hrest
        obtain ⟨hon, hpred⟩ := (hwaits hj).resolve_left hrest
        refine List.sum_lt_sum _ _ (fun k _ => hmono k) ⟨i, hpred, ?_⟩
        rw [passes_succ, if_pos hon]
        omega
      rw [hvisits]
      by_cases hji : j = i
      · subst hji
        simp only [List.mem_cons, true_or, ↓reduceIte, Function.update_self] at ih ⊢
        split
        · have := hnew (by assumption) hi'
          omega
        · omega
      · rw [Function.update_of_ne hji]
        simp only [List.mem_cons, hji, false_or] at ih
        by_cases hrest : j ∈ rest
        · rw [if_pos hrest] at ih
          split <;> omega
        · rw [if_neg hrest] at ih
          split
          · have := hnew (by assumption) hrest
            omega
          · omega

theorem keptRank_le_succ (n i : Nat) :
    Sweep.keptRank (.ofBody s.body) (s.sweep n).saved i ≤
        Sweep.keptRank (.ofBody s.body) (s.sweep (n + 1)).saved i ∧
      (((s.sweep n).saved i).isSome = true → ((s.sweep (n + 1)).saved i).isSome = true) := by
  rw [sweep_succ]
  exact Sweep.keptRank_le_step (s.regular_sweep n) (s.within_sweep n) i

theorem isSome_saved {i : Nat} (hmerge : s.graph.isMergePoint i = true) (n : Nat)
    (hvisited : 0 < (s.sweep n).visits i) : ((s.sweep n).saved i).isSome = true := by
  induction n with
  | zero => simp [visits_zero] at hvisited
  | succ n ih =>
    have hkeeps := (s.keptRank_le_succ n i).2
    rw [sweep_succ] at hvisited hkeeps ⊢
    match hq : (s.sweep n).queue with
    | [] =>
      rw [Sweep.step_of_idle _ hq] at hvisited ⊢
      exact ih hvisited
    | j :: rest =>
      obtain ⟨stmt, hj⟩ := (s.regular_sweep n).exists_stmt hq
      by_cases hij : i = j
      · subst hij
        rw [graph, Sweep.step_saved_of_isMergePoint hq hj hmerge]
        rfl
      · rw [graph, Sweep.step_visits hq hj, Function.update_of_ne hij] at hvisited
        exact hkeeps (ih hvisited)

/-- Every time but the first, a merge point hands control on with a higher rank. -/
theorem passes_le_keptRank {i : Nat} (hmerge : s.graph.isMergePoint i = true) (n : Nat) :
    s.passes n i ≤ (if (s.sweep n).visits i = 0 then 0 else 1) +
      Sweep.keptRank (.ofBody s.body) (s.sweep n).saved i := by
  induction n with
  | zero => simp [passes]
  | succ n ih =>
    have hrises := (s.keptRank_le_succ n i).1
    have hvisits := s.visits_le_succ n i
    rw [passes_succ]
    -- The first time costs nothing; every later time what is kept has risen in rank.
    by_cases hon : (s.sweep n).handsOn s.graph i = true
    · have hhead : (s.sweep n).queue.head? = some i := by
        simp only [Sweep.handsOn, Bool.and_eq_true, beq_iff_eq] at hon
        exact hon.1
      obtain ⟨rest, hq⟩ := List.head?_eq_some_iff.mp hhead
      obtain ⟨stmt, hi⟩ := (s.regular_sweep n).exists_stmt hq
      have hcounted : (s.sweep (n + 1)).visits i = (s.sweep n).visits i + 1 := by
        rw [sweep_succ, graph, Sweep.step_visits hq hi, Function.update_self]
      rw [if_pos hon, if_neg (by omega : (s.sweep (n + 1)).visits i ≠ 0)]
      by_cases hfirst : (s.sweep n).visits i = 0
      · rw [if_pos hfirst] at ih
        omega
      · rw [if_neg hfirst] at ih
        have hvisited := Nat.pos_of_ne_zero hfirst
        have hrisen := Sweep.keptRank_lt_step (s.within_sweep n) hq hi hmerge hon hvisited
          (s.isSome_saved hmerge n hvisited)
        rw [sweep_succ, graph]
        omega
    · rw [if_neg hon]
      split at ih <;> split <;> omega

theorem passes_le_of_isMergePoint {i : Nat} (hmerge : s.graph.isMergePoint i = true) (n : Nat) :
    s.passes n i ≤ 1 + (Extent.ofBody s.body).snapshotBound := by
  have hpasses := s.passes_le_keptRank hmerge n
  have hkept : Sweep.keptRank (.ofBody s.body) (s.sweep n).saved i ≤ (Extent.ofBody s.body).snapshotBound := by
    unfold Sweep.keptRank
    cases hs : (s.sweep n).saved i with
    | none => exact Nat.zero_le _
    | some snap => exact Snapshot.rank_le ((s.within_sweep n).saved i snap hs)
  split at hpasses <;> omega

end Scope

def Bounded (u : Nat → Nat) : Prop := ∃ b, ∀ n, u n ≤ b

theorem bounded_sum {u : Nat → Nat → Nat} {l : List Nat} (h : ∀ i ∈ l, Bounded fun n => u n i) :
    Bounded fun n => (l.map (u n)).sum := by
  induction l with
  | nil => exact ⟨0, fun _ => Nat.le_refl _⟩
  | cons i rest ih =>
    obtain ⟨b, hb⟩ := h i List.mem_cons_self
    obtain ⟨c, hc⟩ := ih fun j hj => h j (List.mem_cons_of_mem i hj)
    refine ⟨b + c, fun n => ?_⟩
    dsimp only
    rw [List.map_cons, List.sum_cons]
    exact Nat.add_le_add (hb n) (hc n)

namespace Graph

/-- One statement leads to another that is no merge point. -/
def PlainEdge (g : Graph) (i j : Nat) : Prop := g.Edge i j ∧ g.isMergePoint j = false

/-- The first statement lies on a loop without a merge point. -/
def EntryLoops (g : Graph) : Prop := Relation.TransGen g.PlainEdge 0 0

/-- Nothing leads to a first statement that is no label. -/
theorem not_entryLoops {function : String} {body : List Stmt} (h : ∀ l, body[0]? ≠ some (.label l)) :
    ¬ (build function body).EntryLoops := by
  intro hloops
  obtain ⟨i, -, hedge⟩ := Relation.TransGen.tail'_iff.mp hloops
  exact absurd (eq_succ_of_mem_succsAt function body h hedge.1) (by omega)

end Graph

namespace Scope

variable (s : Scope)

theorem isMergePoint_eq_false {j : Nat} (h : ¬ Bounded fun n => s.passes n j) :
    s.graph.isMergePoint j = false := by
  by_contra hmerge
  exact h ⟨_, s.passes_le_of_isMergePoint (Bool.eq_true_of_not_eq_false hmerge)⟩

theorem bounded_visits {j : Nat} (h : ∀ i, s.graph.Edge i j → Bounded fun n => s.passes n i) :
    Bounded fun n => (s.sweep n).visits j := by
  obtain ⟨b, hb⟩ := bounded_sum (u := s.passes) (l := s.graph.predsAt j) fun i hi =>
    h i ((Graph.mem_predsAt s.name s.body).mp hi)
  refine ⟨1 + b, fun n => ?_⟩
  have hvisits := s.visits_le_passes n j
  exact (Nat.le_add_right _ _).trans (hvisits.trans (Nat.add_le_add_left (hb n) 1))

/-- A statement that hands control on without end is led to by one that does. -/
theorem exists_unbounded_pred {j : Nat} (h : ¬ Bounded fun n => s.passes n j) :
    ∃ i, s.graph.Edge i j ∧ ¬ Bounded fun n => s.passes n i := by
  by_contra hno
  simp only [not_exists, not_and, not_not] at hno
  obtain ⟨b, hb⟩ := s.bounded_visits hno
  exact h ⟨b, fun n => (s.passes_le_visits n j).trans (hb n)⟩

/-- Such a statement is no merge point, so every statement that leads to it is the one. -/
theorem unbounded_of_edge {i j : Nat} (hedge : s.graph.Edge i j) (h : ¬ Bounded fun n => s.passes n j) :
    ¬ Bounded fun n => s.passes n i := by
  obtain ⟨k, hk, hunbounded⟩ := s.exists_unbounded_pred h
  by_cases hik : i = k
  · exact hik ▸ hunbounded
  · have hmerge := Graph.isMergePoint_of_two s.name s.body hik hedge hk
    have hnot := s.isMergePoint_eq_false h
    rw [graph, hmerge] at hnot
    simp at hnot

theorem reached_of_unbounded {j : Nat} (h : ¬ Bounded fun n => s.passes n j) :
    Relation.ReflTransGen s.graph.Edge 0 j := by
  by_contra hno
  refine h ⟨0, fun n => ?_⟩
  have hvisits : (s.sweep n).visits j = 0 := by
    by_contra hne
    exact hno ((s.regular_sweep n).reached j (Or.inr (Nat.pos_of_ne_zero hne)))
  exact hvisits ▸ s.passes_le_visits n j

/-- The way from the first statement to such a statement has no merge point on it. -/
theorem plain_path {j : Nat} (hpath : Relation.ReflTransGen s.graph.Edge 0 j)
    (h : ¬ Bounded fun n => s.passes n j) :
    Relation.ReflTransGen s.graph.PlainEdge 0 j ∧ ¬ Bounded fun n => s.passes n 0 := by
  induction hpath with
  | refl => exact ⟨.refl, h⟩
  | tail hpath hedge ih =>
    obtain ⟨hplain, hfirst⟩ := ih (s.unbounded_of_edge hedge h)
    exact ⟨hplain.tail ⟨hedge, s.isMergePoint_eq_false h⟩, hfirst⟩

theorem entryLoops_of_unbounded {j : Nat} (h : ¬ Bounded fun n => s.passes n j) :
    s.graph.EntryLoops ∧ ¬ Bounded fun n => (s.sweep n).visits 0 := by
  obtain ⟨-, hfirst⟩ := s.plain_path (s.reached_of_unbounded h) h
  obtain ⟨i, hedge, hunbounded⟩ := s.exists_unbounded_pred hfirst
  obtain ⟨hplain, -⟩ := s.plain_path (s.reached_of_unbounded hunbounded) hunbounded
  refine ⟨Relation.TransGen.tail' hplain ⟨hedge, s.isMergePoint_eq_false hfirst⟩, ?_⟩
  rintro ⟨b, hb⟩
  exact hfirst ⟨b, fun n => (s.passes_le_visits n 0).trans (hb n)⟩

/-- As long as something waits, every step is a visit. -/
theorem le_sum_visits {n : Nat} (h : ∀ k < n, (s.sweep k).queue ≠ []) :
    n ≤ ((List.range s.body.length).map (s.sweep n).visits).sum := by
  induction n with
  | zero => exact Nat.zero_le _
  | succ n ih =>
    have hn := ih fun k hk => h k (hk.trans (Nat.lt_succ_self n))
    obtain ⟨i, rest, hq⟩ := List.exists_cons_of_ne_nil (h n (Nat.lt_succ_self n))
    obtain ⟨stmt, hi⟩ := (s.regular_sweep n).exists_stmt hq
    have hlt : ((List.range s.body.length).map (s.sweep n).visits).sum <
        ((List.range s.body.length).map (s.sweep (n + 1)).visits).sum := by
      refine List.sum_lt_sum _ _ (fun j _ => s.visits_le_succ n j) ⟨i, ?_, ?_⟩
      · exact List.mem_range.mpr ((s.regular_sweep n).inside i (by simp [hq]))
      · rw [sweep_succ, graph, Sweep.step_visits hq hi, Function.update_self]
        exact Nat.lt_succ_self _
    omega

/-- A sweep comes to its end unless the first statement, on a loop without a merge point, is
interpreted again and again. -/
theorem exists_idle_iff :
    (∃ n, (s.sweep n).queue = []) ↔
      ¬ s.graph.EntryLoops ∨ Bounded fun n => (s.sweep n).visits 0 := by
  constructor
  · rintro ⟨n, hidle⟩
    refine Or.inr ⟨(s.sweep n).visits 0, fun k => ?_⟩
    rcases Nat.le_total k n with hk | hk
    · exact s.visits_mono hk 0
    · dsimp only
      rw [s.sweep_of_idle hidle hk]
  · intro h
    have hpasses : ∀ j, Bounded fun n => s.passes n j := by
      intro j
      by_contra hunbounded
      obtain ⟨hloops, hvisits⟩ := s.entryLoops_of_unbounded hunbounded
      exact h.elim (fun hno => hno hloops) hvisits
    obtain ⟨b, hb⟩ := bounded_sum (u := fun n => (s.sweep n).visits) (l := List.range s.body.length)
      fun j _ => s.bounded_visits fun i _ => hpasses i
    by_contra hbusy
    simp only [not_exists] at hbusy
    have hmany : b + 1 ≤ b := (s.le_sum_visits fun k _ => hbusy k).trans (hb (b + 1))
    omega

/-- From some iteration limit on, no analysis of the scope as a module is stopped. -/
def Converges : Prop :=
  ∃ limit : Nat, ∀ (o : Options) (policy : Policy) (tracing : Bool), o.validate = .ok policy →
    o.flowSensitive = true → (limit : Int) ≤ o.maxIterations →
    ∃ res : Result Unit, (s.alone o tracing).analyze none none () = .ok res ∧
      res.stats.iterationCapHit = 0 ∧ res.isComplete = true

variable {s}

theorem converges_iff_exists_idle (hmodule : s.kind = .module)
    (hscalar : ∀ stmt ∈ s.body, stmt.isScalar = true) :
    s.Converges ↔ ∃ n, (s.sweep n).queue = [] := by
  constructor
  · rintro ⟨limit, hlimit⟩
    have hvalid := Options.validate_iterations (n := limit + 1) (by omega)
    obtain ⟨res, hres, hcap, -⟩ := hlimit _ .callSite false hvalid rfl (by dsimp only; omega)
    obtain ⟨res', hres', -, -, hcap'⟩ := analyze_sweep (t := false) hmodule hscalar rfl hvalid ()
    refine ⟨((limit : Int) + 1).toNat, ?_⟩
    have hsame : res = res' := Except.ok.inj (hres.symm.trans hres')
    rw [hsame, hcap'] at hcap
    by_contra hbusy
    rw [if_neg hbusy] at hcap
    omega
  · rintro ⟨n, hidle⟩
    refine ⟨n, fun o policy tracing hvalid hf hlimit => ?_⟩
    obtain ⟨res, hres, -, hcut, hcap⟩ := analyze_sweep (t := tracing) hmodule hscalar hf hvalid ()
    rw [s.sweep_of_idle hidle (by omega), if_pos hidle] at hcap
    exact ⟨res, hres, hcap, by simp [Result.isComplete, hcap, hcut]⟩

/-- The analysis of a scalar module converges by itself, whatever its labels and loops, unless its
first statement lies on a loop without a merge point and is interpreted again and again. -/
theorem converges_iff (hmodule : s.kind = .module) (hscalar : ∀ stmt ∈ s.body, stmt.isScalar = true) :
    s.Converges ↔ ¬ s.graph.EntryLoops ∨ ∃ k, ∀ n, (s.sweep n).visits 0 ≤ k := by
  rw [converges_iff_exists_idle hmodule hscalar]
  exact s.exists_idle_iff

/-- A loop behind the first statement, from which no jump leads out. -/
def endlessLoop : Scope :=
  { Scope.emptyModule "m" with body := [.const "x" (.int 1), .label "L", .goto "L"] }

theorem converges_endlessLoop :
    endlessLoop.kind = .module ∧ (∀ stmt ∈ endlessLoop.body, stmt.isScalar = true) ∧
      endlessLoop.Converges :=
  ⟨rfl, by decide, (converges_iff rfl (by decide)).mpr (Or.inl (Graph.not_entryLoops (by simp [endlessLoop])))⟩

/-- The same loop with nothing before it: its label has one predecessor only. -/
def endlessEntry : Scope := { Scope.emptyModule "m" with body := [.label "L", .goto "L"] }

theorem not_converges_endlessEntry : ¬ endlessEntry.Converges := by
  have hstep : ∀ m : Sweep, (m.queue = [0] → (m.step endlessEntry.graph endlessEntry.body).queue = [1]) ∧
      (m.queue = [1] → (m.step endlessEntry.graph endlessEntry.body).queue = [0]) := by
    rintro ⟨frame, queue, visits, saved, left⟩
    constructor <;> rintro rfl <;> rfl
  have hwaits : ∀ n, (endlessEntry.sweep n).queue = [0] ∨ (endlessEntry.sweep n).queue = [1] := by
    intro n
    induction n with
    | zero => exact Or.inl rfl
    | succ n ih =>
      rw [sweep_succ]
      rcases ih with hq | hq
      · exact Or.inr ((hstep _).1 hq)
      · exact Or.inl ((hstep _).2 hq)
  rw [converges_iff_exists_idle rfl (by decide)]
  rintro ⟨n, hidle⟩
  rcases hwaits n with h | h <;> simp [h] at hidle

end Scope

end AbstractFlow
