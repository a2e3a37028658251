import AbstractFlow.Proofs.Scalar.Sweep
import Mathlib.Logic.Relation

/-! # Steps of a sweep

One step takes the oldest statement from the queue and counts it. What waits afterwards waited before
or is a successor of the statement, and every statement that waits or was interpreted can be reached
from the first one.
-/
namespace AbstractFlow

variable {f : String} {body : List Stmt}

def Graph.Edge (g : Graph) (i j : Nat) : Prop := j ∈ g.succsAt i

namespace Sweep

def handsOn (g : Graph) (m : Sweep) (i : Nat) : Bool :=
  m.queue.head? == some i && !(g.isMergePoint i && m.isStable i (m.visits i))

variable {m : Sweep} {i j : Nat} {rest : List Nat} {stmt : Stmt}

theorem mem_succsAt_of_next? {revisits : Nat} {js : List Nat} (hi : body[i]? = some stmt)
    (h : m.next? (.build f body) i revisits stmt = some js) (hj : j ∈ js) (hlt : j < body.length) :
    j ∈ (Graph.build f body).succsAt i := by
  cases stmt with
  | jump sense test l =>
    simp only [next?, Option.some.injEq] at h
    subst h
    cases hdecided : m.decided? (.build f body) i sense test l with
    | none => simpa [hdecided] using hj
    | some t =>
      obtain rfl : j = t := by simpa [hdecided] using hj
      unfold decided? at hdecided
      split at hdecided
      · simp at hdecided
      · simp at hdecided
      · rename_i t verdict hlabel hne
        rw [Option.some.injEq] at hdecided
        refine (Graph.mem_succsAt f body).mpr ⟨hlt, _, hi, ?_⟩
        split at hdecided
        · exact Or.inr ⟨l, rfl, hdecided ▸ (Graph.label?_build f body).mp hlabel⟩
        · exact Or.inl ⟨rfl, hdecided.symm⟩
  | goto l =>
    simp only [next?, Option.some.injEq] at h
    subst h
    refine (Graph.mem_succsAt f body).mpr ⟨hlt, _, hi, Or.inr ⟨l, rfl, ?_⟩⟩
    exact (Graph.label?_build f body).mp (Option.mem_toList.mp hj)
  | label l =>
    simp only [next?] at h
    split at h
    · simp at h
    · exact Option.some.inj h ▸ hj
  | _ => exact Option.some.inj h ▸ hj

/-- Only a merge point can keep control to itself. -/
theorem next?_eq_none (hi : body[i]? = some stmt) (hq : m.queue = i :: rest)
    (h : m.handsOn (.build f body) i = false) :
    (m.visit i rest).next? (.build f body) i (m.visits i) stmt = none := by
  have hstop : (Graph.build f body).isMergePoint i = true ∧ m.isStable i (m.visits i) = true := by
    simpa [handsOn, hq] using h
  obtain ⟨l, hl⟩ := Graph.exists_label_of_isMergePoint f body hstop.1
  obtain rfl := Option.some.inj (hi.symm.trans hl)
  have hstable : (m.visit i rest).isStable i (m.visits i) = true := hstop.2
  simp [next?, hstop.1, hstable]

theorem next?_isSome (hi : body[i]? = some stmt) (h : m.handsOn (.build f body) i = true)
    (rest : List Nat) :
    ((m.visit i rest).next? (.build f body) i (m.visits i) stmt).isSome = true := by
  have hgo : (Graph.build f body).isMergePoint i = true → m.isStable i (m.visits i) = false := by
    simp only [handsOn, Bool.and_eq_true, Bool.not_eq_true', Bool.and_eq_false_iff] at h
    intro hmerge
    simpa [hmerge] using h.2
  cases stmt with
  | label l =>
    have hsame : (m.visit i rest).isStable i (m.visits i) = m.isStable i (m.visits i) := rfl
    simp only [next?, hsame]
    split
    · rename_i hstop
      rw [Bool.and_eq_true] at hstop
      simp [hgo hstop.1] at hstop
    · rfl
  | _ => rfl

variable (f) in
theorem step_eq (hq : m.queue = i :: rest) (hi : body[i]? = some stmt) :
    m.step (.build f body) body = (m.visit i rest).apply (.build f body) i (m.visits i) stmt := by
  simp only [step, hq, hi]

theorem step_visits (hq : m.queue = i :: rest) (hi : body[i]? = some stmt) :
    (m.step (.build f body) body).visits = Function.update m.visits i (m.visits i + 1) := by
  rw [step_eq f hq hi]
  unfold apply
  split <;> simp [visit]

theorem step_frame (hq : m.queue = i :: rest) (hi : body[i]? = some stmt) :
    (m.step (.build f body) body).frame = m.frameAfter (.build f body) i stmt := by
  rw [step_eq f hq hi]
  unfold apply
  split
  · simp only [proceed_frame]
    rfl
  · rfl

theorem step_saved (hq : m.queue = i :: rest) (hi : body[i]? = some stmt) :
    (m.step (.build f body) body).saved = (m.visit i rest).savedAfter (.build f body) i stmt := by
  rw [step_eq f hq hi]
  unfold apply
  split
  · simp only [proceed_saved]
  · rfl

theorem mem_step_queue (hq : m.queue = i :: rest) (hi : body[i]? = some stmt)
    (h : j ∈ (m.step (.build f body) body).queue) :
    j ∈ rest ∨ (m.handsOn (.build f body) i = true ∧ (Graph.build f body).Edge i j) := by
  rw [step_eq f hq hi] at h
  cases hon : m.handsOn (.build f body) i with
  | false =>
    rw [apply, next?_eq_none hi hq hon] at h
    exact Or.inl h
  | true =>
    obtain ⟨js, hjs⟩ := Option.isSome_iff_exists.mp (next?_isSome hi hon rest)
    rw [apply, hjs] at h
    rcases (mem_proceed ..).mp h with h | ⟨hj, hlt⟩
    · exact Or.inl h
    · exact Or.inr ⟨rfl, mem_succsAt_of_next? hi hjs hj hlt⟩

theorem nodup_enqueue (g : Graph) (h : m.queue.Nodup) (j : Nat) : (m.enqueue g j).queue.Nodup := by
  unfold enqueue
  split
  · rename_i hj
    rw [List.nodup_append]
    refine ⟨h, by simp, ?_⟩
    intro a ha b hb
    rw [List.mem_singleton.mp hb]
    rintro rfl
    exact hj.2 ha
  · exact h

theorem nodup_foldl_enqueue (g : Graph) (js : List Nat) (h : m.queue.Nodup) :
    (js.foldl (enqueue g) m).queue.Nodup := by
  induction js generalizing m with
  | nil => exact h
  | cons j rest ih => exact ih (nodup_enqueue g h j)

/-- What a sweep keeps true of its queue and its counts. -/
structure Regular (g : Graph) (m : Sweep) : Prop where
  nodup : m.queue.Nodup
  inside : ∀ i ∈ m.queue, i < g.length
  reached : ∀ i, i ∈ m.queue ∨ 0 < m.visits i → Relation.ReflTransGen g.Edge 0 i

theorem regular_start (g : Graph) : (start g).Regular g := by
  refine ⟨nodup_enqueue g List.nodup_nil 0, fun i hi => ?_, fun i hi => ?_⟩
  · rcases (mem_enqueue ..).mp hi with hi | ⟨rfl, hlt⟩
    · simp at hi
    · exact hlt
  · rcases hi with hi | hi
    · rcases (mem_enqueue ..).mp hi with hi | ⟨rfl, -⟩
      · simp at hi
      · exact .refl
    · simp [start] at hi

theorem Regular.exists_stmt (h : m.Regular (.build f body)) (hq : m.queue = i :: rest) :
    ∃ stmt, body[i]? = some stmt :=
  ⟨_, List.getElem?_eq_getElem (h.inside i (by simp [hq]))⟩

theorem Regular.step (h : m.Regular (.build f body)) : (m.step (.build f body) body).Regular (.build f body) := by
  match hq : m.queue with
  | [] =>
    rw [step_of_idle _ hq]
    exact h
  | i :: rest =>
    obtain ⟨stmt, hi⟩ := h.exists_stmt hq
    have hreached := h.reached i (Or.inl (by simp [hq]))
    have hwaits : ∀ j ∈ (m.step (.build f body) body).queue, j ∈ m.queue ∨ (Graph.build f body).Edge i j := by
      intro j hj
      rcases mem_step_queue hq hi hj with hj | ⟨-, hj⟩
      · exact Or.inl (by simp [hq, hj])
      · exact Or.inr hj
    refine ⟨?_, fun j hj => ?_, fun j hj => ?_⟩
    · have hrest : (m.visit i rest).queue.Nodup := (List.nodup_cons.mp (hq ▸ h.nodup)).2
      rw [step_eq f hq hi, apply]
      split
      · exact nodup_foldl_enqueue _ _ hrest
      · exact hrest
    · rcases hwaits j hj with hj | hj
      · exact h.inside j hj
      · exact ((Graph.mem_succsAt f body).mp hj).1
    · rcases hj with hj | hj
      · rcases hwaits j hj with hj | hj
        · exact h.reached j (Or.inl hj)
        · exact hreached.tail hj
      · rw [step_visits hq hi] at hj
        by_cases hji : j = i
        · exact hji ▸ hreached
        · rw [Function.update_of_ne hji] at hj
          exact h.reached j (Or.inr hj)

end Sweep

namespace Scope

variable (s : Scope)

theorem sweep_succ (n : Nat) : s.sweep (n + 1) = (s.sweep n).step s.graph s.body :=
  Function.iterate_succ_apply' ..

theorem regular_sweep (n : Nat) : (s.sweep n).Regular s.graph := by
  induction n with
  | zero => exact Sweep.regular_start s.graph
  | succ n ih =>
    rw [sweep_succ]
    exact ih.step

theorem sweep_of_idle {n k : Nat} (h : (s.sweep n).queue = []) (hk : n ≤ k) : s.sweep k = s.sweep n := by
  obtain ⟨d, rfl⟩ := Nat.exists_eq_add_of_le hk
  rw [sweep, Nat.add_comm, Function.iterate_add_apply]
  exact Sweep.iterate_step_of_idle _ h d

end Scope

end AbstractFlow
