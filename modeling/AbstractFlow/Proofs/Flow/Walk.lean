import AbstractFlow.Flow.Tracker
import AbstractFlow.Proofs.Collection.Sorted
import AbstractFlow.Proofs.Flow.Graph
import Mathlib.Algebra.BigOperators.Fin
import Mathlib.Algebra.Order.BigOperators.Group.Finset

/-! # Merge points ahead

A walk from a statement finds the merge points that paths lead to, as far as all statements between the ends
were not visited. Along the walk every statement that was gone on from has its successors seen or on the
stack, so none is missed. What the unseen statements could still put on the stack, together with what is on it,
shrinks at every step, so the walk ends on every graph.
-/
namespace AbstractFlow

namespace Graph

variable {g : Graph} {visited : Nat → Bool} {i : Int} {n k : Nat}

/-- A path from `i` to `n` with the given statements in between. -/
def IsPath (g : Graph) (i : Int) : List Nat → Nat → Prop
  | [], n => n ∈ g.succsAt i
  | k :: between, n => k ∈ g.succsAt i ∧ g.IsPath k between n

theorem IsPath.snoc {between : List Nat} (h : g.IsPath i between n) (hk : k ∈ g.succsAt n) :
    g.IsPath i (between ++ [n]) k := by
  induction between generalizing i with
  | nil => exact ⟨h, hk⟩
  | cons j between ih => exact ⟨h.1, ih h.2⟩

/-- A path leads from `i` to `n` through statements that were not visited. -/
def Leads (g : Graph) (visited : Nat → Bool) (i : Int) (n : Nat) : Prop :=
  ∃ between, g.IsPath i between n ∧ ∀ k ∈ between, visited k = false

theorem Leads.of_mem (h : n ∈ g.succsAt i) : g.Leads visited i n := ⟨[], h, by simp⟩

theorem Leads.snoc (h : g.Leads visited i n) (hn : visited n = false) (hk : k ∈ g.succsAt n) :
    g.Leads visited i k := by
  obtain ⟨between, hpath, hbetween⟩ := h
  refine ⟨between ++ [n], hpath.snoc hk, fun j hj => ?_⟩
  rcases List.mem_append.mp hj with hj | hj
  · exact hbetween j hj
  · exact List.mem_singleton.mp hj ▸ hn

namespace Walk

/-- The walk goes on from its start, and from what was not visited. -/
def GoesOn (visited : Nat → Bool) (i : Int) (a : Int) : Prop := a = i ∨ ∃ k : Nat, a = k ∧ visited k = false

/-- What holds all along a walk from `i`. -/
structure Sound (g : Graph) (visited : Nat → Bool) (i : Int) (w : Walk) : Prop where
  start : i ∈ w.seen
  stack : ∀ n ∈ w.stack, g.Leads visited i n
  seen : ∀ n : Nat, (n : Int) ∈ w.seen → (n : Int) = i ∨ g.Leads visited i n
  /-- The successors of what the walk went on from are seen or on the stack. -/
  closed : ∀ a ∈ w.seen, GoesOn visited i a → ∀ n ∈ g.succsAt a, (n : Int) ∈ w.seen ∨ n ∈ w.stack
  found : ∀ n, n ∈ w.found ↔ (n : Int) ∈ w.seen ∧ (n : Int) ≠ i ∧ g.isMergePoint n = true
  nodup : w.found.Nodup

theorem sound_start (g : Graph) (visited : Nat → Bool) (i : Int) : (start g i).Sound g visited i where
  start := List.mem_cons_self
  stack n hn := .of_mem hn
  seen n hn := .inl (List.mem_singleton.mp hn)
  closed a ha _ n hn := .inr (List.mem_singleton.mp ha ▸ hn)
  found n := by
    simp only [Walk.start, List.not_mem_nil, List.mem_singleton, false_iff]
    exact fun h => h.2.1 h.1
  nodup := .nil

variable {w : Walk} {stack : List Nat}

/-- A statement that was seen before is dropped. -/
theorem Sound.drop (h : w.Sound g visited i) (hw : w.stack = n :: stack) (hn : (n : Int) ∈ w.seen) :
    Sound g visited i { w with stack } where
  start := h.start
  stack m hm := h.stack m (hw ▸ List.mem_cons_of_mem n hm)
  seen := h.seen
  closed a ha hgoes m hm := by
    rcases h.closed a ha hgoes m hm with hm | hm
    · exact .inl hm
    · rcases List.mem_cons.mp (hw ▸ hm) with rfl | hm
      · exact .inl hn
      · exact .inr hm
  found := h.found
  nodup := h.nodup

theorem mem_enter {found : List Nat} {m : Nat} (merges : Bool) (hm : m ≠ n) :
    (m ∈ if merges then n :: found else found) ↔ m ∈ found := by
  split
  · rw [List.mem_cons, or_iff_right hm]
  · rfl

/-- A statement that was not seen is entered, and its successors come on the stack unless it was visited. -/
theorem Sound.enter (h : w.Sound g visited i) (hw : w.stack = n :: stack) (hn : (n : Int) ∉ w.seen) :
    Sound g visited i
      { stack := if visited n then stack else g.succsAt n ++ stack
        seen := n :: w.seen
        found := if g.isMergePoint n then n :: w.found else w.found } := by
  have hleads : g.Leads visited i n := h.stack n (hw ▸ List.mem_cons_self)
  have hne : (n : Int) ≠ i := fun heq => hn (heq ▸ h.start)
  have hnew : n ∉ w.found := fun hmem => hn ((h.found n).mp hmem).1
  refine
    { start := List.mem_cons_of_mem _ h.start, stack := fun m hm => ?stack, seen := fun m hm => ?seen,
      closed := fun a ha hgoes m hm => ?closed, found := fun m => ?found, nodup := ?nodup }
  case stack =>
    split at hm
    · exact h.stack m (hw ▸ List.mem_cons_of_mem n hm)
    · rename_i hunvisited
      rcases List.mem_append.mp hm with hm | hm
      · exact hleads.snoc (Bool.eq_false_iff.mpr hunvisited) hm
      · exact h.stack m (hw ▸ List.mem_cons_of_mem n hm)
  case seen =>
    rcases List.mem_cons.mp hm with hm | hm
    · exact .inr (Int.ofNat.inj hm ▸ hleads)
    · exact h.seen m hm
  case closed =>
    rcases List.mem_cons.mp ha with rfl | ha
    · -- The walk goes on from the statement just entered, so its successors were put on the stack.
      have hunvisited : visited n = false := by
        rcases hgoes with heq | ⟨k, hk, hunvisited⟩
        · exact absurd heq hne
        · exact Int.ofNat.inj hk ▸ hunvisited
      rw [hunvisited]
      exact .inr (List.mem_append_left _ hm)
    · rcases h.closed a ha hgoes m hm with hm | hm
      · exact .inl (List.mem_cons_of_mem _ hm)
      · rcases List.mem_cons.mp (hw ▸ hm) with rfl | hm
        · exact .inl List.mem_cons_self
        · refine .inr ?_
          split
          · exact hm
          · exact List.mem_append_right _ hm
  case found =>
    by_cases hm : m = n
    · subst hm
      by_cases hmerge : g.isMergePoint m = true <;> simp [hmerge, hne, hnew]
    · have hm' : (m : Int) ≠ n := fun heq => hm (Int.ofNat.inj heq)
      rw [mem_enter _ hm, List.mem_cons, or_iff_right hm', h.found]
  case nodup =>
    show (if g.isMergePoint n then n :: w.found else w.found).Nodup
    split
    · exact List.nodup_cons.mpr ⟨hnew, h.nodup⟩
    · exact h.nodup

theorem Sound.step (h : w.Sound g visited i) : (w.step g visited).Sound g visited i := by
  unfold Walk.step
  cases hw : w.stack with
  | nil => exact h
  | cons n stack =>
    dsimp only
    split
    · rename_i hn
      exact h.drop hw hn
    · rename_i hn
      exact h.enter hw hn

theorem Sound.run (h : w.Sound g visited i) (fuel : Nat) : (w.run g visited fuel).Sound g visited i := by
  induction fuel generalizing w with
  | zero => exact h
  | succ fuel ih =>
    unfold Walk.run
    split
    · exact h
    · exact ih h.step

/-- When nothing is left to look at, everything was seen that paths lead to. -/
theorem Sound.seen_of_leads (h : w.Sound g visited i) (hdone : w.stack = []) (hn : g.Leads visited i n) :
    (n : Int) ∈ w.seen := by
  have hnext : ∀ a ∈ w.seen, GoesOn visited i a → ∀ m ∈ g.succsAt a, (m : Int) ∈ w.seen := by
    intro a ha hgoes m hm
    refine (h.closed a ha hgoes m hm).resolve_right ?_
    rw [hdone]
    exact List.not_mem_nil
  -- The induction follows the path from a statement that the walk went on from.
  have hfollow : ∀ (between : List Nat) (a : Int), a ∈ w.seen → GoesOn visited i a → g.IsPath a between n →
      (∀ k ∈ between, visited k = false) → (n : Int) ∈ w.seen := by
    intro between
    induction between with
    | nil => exact fun a ha hgoes hpath _ => hnext a ha hgoes n hpath
    | cons k between ih =>
      intro a ha hgoes hpath hbetween
      obtain ⟨hk, hrest⟩ := List.forall_mem_cons.mp hbetween
      exact ih k (hnext a ha hgoes k hpath.1) (.inr ⟨k, rfl, hk⟩) hpath.2 hrest
  obtain ⟨between, hpath, hbetween⟩ := hn
  exact hfollow between i h.start (.inl rfl) hpath hbetween

theorem Sound.mem_found (h : w.Sound g visited i) (hdone : w.stack = []) :
    n ∈ w.found ↔ (n : Int) ≠ i ∧ g.isMergePoint n = true ∧ g.Leads visited i n := by
  rw [h.found]
  constructor
  · rintro ⟨hseen, hne, hmerge⟩
    exact ⟨hne, hmerge, (h.seen n hseen).resolve_left hne⟩
  · rintro ⟨hne, hmerge, hleads⟩
    exact ⟨h.seen_of_leads hdone hleads, hne, hmerge⟩

/-! ## Termination -/

/-- How many statements can still be put on the stack. -/
def ahead (g : Graph) (seen : List Int) : Nat :=
  ∑ n ∈ Finset.range g.succs.length, if (n : Int) ∈ seen then 0 else (g.succsAt n).length

theorem ahead_cons {seen : List Int} (hn : (n : Int) ∉ seen) :
    ahead g (n :: seen) + (g.succsAt n).length = ahead g seen := by
  have hother : ∀ m ∈ Finset.range g.succs.length, m ≠ n →
      (if (m : Int) ∈ (n : Int) :: seen then 0 else (g.succsAt m).length) =
        if (m : Int) ∈ seen then 0 else (g.succsAt m).length := by
    intro m _ hm
    have hm' : (m : Int) ≠ n := fun heq => hm (Int.ofNat.inj heq)
    simp [hm']
  by_cases hlt : n ∈ Finset.range g.succs.length
  · unfold ahead
    rw [← Finset.add_sum_erase _ _ hlt, ← Finset.add_sum_erase (Finset.range g.succs.length)
      (fun m => if (m : Int) ∈ seen then 0 else (g.succsAt m).length) hlt]
    rw [Finset.sum_congr rfl fun m hm => hother m (Finset.mem_of_mem_erase hm) (Finset.ne_of_mem_erase hm)]
    simp [hn, Nat.add_comm]
  · have hnone : g.succsAt n = [] := by
      rw [Finset.mem_range, Nat.not_lt] at hlt
      rw [succsAt, if_pos (Int.natCast_nonneg n), Int.toNat_natCast, List.getD_eq_default _ _ hlt]
    rw [hnone, List.length_nil, Nat.add_zero]
    exact Finset.sum_congr rfl fun m hm => hother m hm fun heq => hlt (heq ▸ hm)

theorem ahead_le (g : Graph) (seen : List Int) : ahead g seen ≤ g.succs.flatten.length := by
  have hall : ∑ n ∈ Finset.range g.succs.length, (g.succsAt n).length = g.succs.flatten.length := by
    rw [List.length_flatten, Finset.sum_range, ← Fin.sum_univ_fun_getElem g.succs List.length]
    exact Finset.sum_congr rfl fun n _ => by simp [succsAt]
  rw [← hall]
  exact Finset.sum_le_sum fun n _ => by split <;> omega

theorem step_lt (hw : w.stack ≠ []) :
    (w.step g visited).stack.length + ahead g (w.step g visited).seen < w.stack.length + ahead g w.seen := by
  obtain ⟨n, stack, hstack⟩ := List.exists_cons_of_ne_nil hw
  unfold step
  rw [hstack]
  dsimp only
  split
  · exact Nat.add_lt_add_right (Nat.lt_succ_self _) _
  · rename_i hn
    have hshrinks := ahead_cons (g := g) hn
    dsimp only
    split
    · rw [List.length_cons]
      omega
    · rw [List.length_append, List.length_cons]
      omega

theorem stack_run (fuel : Nat) (h : w.stack.length + ahead g w.seen ≤ fuel) :
    (w.run g visited fuel).stack = [] := by
  induction fuel generalizing w with
  | zero =>
    rw [Nat.le_zero, Nat.add_eq_zero_iff, List.length_eq_zero_iff] at h
    exact h.1
  | succ fuel ih =>
    unfold run
    split
    · rename_i hdone
      exact List.isEmpty_iff.mp hdone
    · rename_i hw
      have hlt : (w.step g visited).stack.length + ahead g (w.step g visited).seen < _ :=
        step_lt fun hnil => hw (List.isEmpty_iff.mpr hnil)
      exact ih (by omega)

/-- A walk comes to its end on every graph. -/
theorem stack_run_start (g : Graph) (visited : Nat → Bool) (i : Int) :
    ((start g i).run g visited (g.walkLength i)).stack = [] := by
  refine stack_run _ ?_
  have hle := ahead_le g [i]
  unfold walkLength
  show (g.succsAt i).length + ahead g [i] ≤ _
  omega

end Walk

theorem pairwise_mergePointsAhead (g : Graph) (visited : Nat → Bool) (i : Int) :
    (g.mergePointsAhead visited i).Pairwise (· < ·) :=
  Sorted.pairwise_sort ((Walk.sound_start g visited i).run _).nodup

theorem mem_mergePointsAhead :
    n ∈ g.mergePointsAhead visited i ↔ (n : Int) ≠ i ∧ g.isMergePoint n = true ∧ g.Leads visited i n := by
  rw [mergePointsAhead, (Sorted.perm_sort _).mem_iff]
  exact ((Walk.sound_start g visited i).run _).mem_found (Walk.stack_run_start g visited i)

theorem isMergePoint_build {function : String} {body : List Stmt} :
    (build function body).isMergePoint n = true ↔
      ∃ j k : Nat, j ≠ k ∧ n ∈ (build function body).succsAt j ∧ n ∈ (build function body).succsAt k := by
  constructor
  · intro h
    simp only [isMergePoint, decide_eq_true_eq] at h
    have hnodup := nodup_predsAt function body n
    have hpreds : ∀ j ∈ (build function body).predsAt n, n ∈ (build function body).succsAt j :=
      fun j => (mem_predsAt function body).mp
    obtain ⟨j, k, rest, htwo⟩ : ∃ j k rest, (build function body).predsAt n = j :: k :: rest := by
      cases hpred : (build function body).predsAt n with
      | nil => simp [hpred] at h
      | cons j others =>
        cases others with
        | nil => simp [hpred] at h
        | cons k rest => exact ⟨j, k, rest, rfl⟩
    rw [htwo] at hnodup hpreds
    refine ⟨j, k, ?_, hpreds j (by simp), hpreds k (by simp)⟩
    rintro rfl
    simp at hnodup
  · rintro ⟨j, k, hne, hj, hk⟩
    exact isMergePoint_of_two function body hne hj hk

end Graph

namespace Tracker

variable (t : Tracker) (p : Point)

theorem mem_mergePointsFrom {g : Graph} (hg : t.graph? p.function = some g) {n : Nat} :
    n ∈ t.mergePointsFrom p ↔ (n : Int) ≠ p.index ∧ g.isMergePoint n = true ∧
      ∃ between, g.IsPath p.index between n ∧ ∀ k ∈ between, t.visitCount { p with index := k } = 0 := by
  have hvisited : ∀ k : Nat, decide (0 < t.visitCount { p with index := k }) = false ↔
      t.visitCount { p with index := k } = 0 := by
    intro k
    rw [decide_eq_false_iff_not, Nat.pos_iff_ne_zero, not_not]
  unfold mergePointsFrom
  rw [hg]
  simp only [Graph.mem_mergePointsAhead, Graph.Leads, hvisited]

/-- The merge points ahead of a statement, in strictly increasing order, are the other statements that several
statements lead to and that a path from it reaches through statements that were not interpreted under the
context; the walk that finds them comes to its end on every graph. -/
theorem mergePointsFrom_correct (body : List Stmt) :
    ((t.build p.function body).mergePointsFrom p).Pairwise (· < ·) ∧
    (∀ n : Nat, n ∈ (t.build p.function body).mergePointsFrom p ↔
      (n : Int) ≠ p.index ∧
      (∃ j k : Nat, j ≠ k ∧ n ∈ (Graph.build p.function body).succsAt j ∧
        n ∈ (Graph.build p.function body).succsAt k) ∧
      ∃ between, (Graph.build p.function body).IsPath p.index between n ∧
        ∀ k ∈ between, t.visitCount { p with index := k } = 0) ∧
    ∀ (g : Graph) (visited : Nat → Bool) (i : Int),
      ((Graph.Walk.start g i).run g visited (g.walkLength i)).stack = [] := by
  have hg : (t.build p.function body).graph? p.function = some (.build p.function body) := by
    rw [graph?, build, Table.get?_insert, if_pos rfl]
  refine ⟨?_, fun n => ?_, Graph.Walk.stack_run_start⟩
  · unfold mergePointsFrom
    rw [hg]
    exact Graph.pairwise_mergePointsAhead _ _ _
  · rw [mem_mergePointsFrom _ p hg, Graph.isMergePoint_build]
    rfl

/-- From the test of a loop a path leads back to its head, until the body between them was interpreted. -/
example :
    let body : List Stmt :=
      [.expr "i" [], .label "head", .jump false (.name "c") "done", .expr "x" [], .goto "head", .label "done"]
    let t := empty.build "loop" body
    t.mergePointsFrom ⟨"loop", 2, .root⟩ = [1] ∧
      (t.visit ⟨"loop", 3, .root⟩).mergePointsFrom ⟨"loop", 2, .root⟩ = [] := by decide

end Tracker

end AbstractFlow
