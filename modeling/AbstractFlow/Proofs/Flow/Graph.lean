import AbstractFlow.Flow.Graph
import AbstractFlow.Proofs.Collection.Dict
import Mathlib

/-! # Edges of control-flow graphs

The graph of a body has exactly the edges that its statements ask for. Every statement but a jump
leads to the next one, and only a label can be led to from elsewhere, so that a statement with
several predecessors is always a label.
-/
namespace AbstractFlow

/-- The place that a name of a label stands for: the last one of several. -/
def IsTarget (body : List Stmt) (l : String) (t : Nat) : Prop :=
  body[t]? = some (.label l) ∧ ∀ u, body[u]? = some (.label l) → u ≤ t

theorem IsTarget.lt {body : List Stmt} {l : String} {t : Nat} (h : IsTarget body l t) :
    t < body.length := (List.getElem?_eq_some_iff.mp h.1).1

theorem isTarget_append_label {body : List Stmt} {l : String} {t : Nat} :
    IsTarget (body ++ [.label l]) l t ↔ t = body.length := by
  have hlast : (body ++ [Stmt.label l])[body.length]? = some (.label l) := by simp
  have hbound : ∀ u, (body ++ [Stmt.label l])[u]? = some (.label l) → u ≤ body.length := by
    intro u hu
    have hlt := (List.getElem?_eq_some_iff.mp hu).1
    rw [List.length_append, List.length_singleton] at hlt
    exact Nat.le_of_lt_succ hlt
  constructor
  · rintro ⟨h, hmax⟩
    exact le_antisymm (hbound t h) (hmax _ hlast)
  · rintro rfl
    exact ⟨hlast, hbound⟩

theorem isTarget_append_of_ne {body : List Stmt} {s : Stmt} {l : String} {t : Nat} (hs : s ≠ .label l) :
    IsTarget (body ++ [s]) l t ↔ IsTarget body l t := by
  have hsame : ∀ u : Nat, (body ++ [s])[u]? = some (.label l) ↔ body[u]? = some (.label l) := by
    intro u
    rcases Nat.lt_trichotomy u body.length with hu | rfl | hu
    · rw [List.getElem?_append_left hu]
    · simp [hs]
    · rw [List.getElem?_eq_none (by simp; omega), List.getElem?_eq_none (by omega)]
  simp only [IsTarget, hsame]

/-- Where a jump of a statement may lead to besides the next statement. -/
def Stmt.jumpLabel? : Stmt → Option String
  | .jump _ _ l | .goto l => some l
  | _ => none

def Stmt.fallsThrough : Stmt → Bool
  | .goto _ => false
  | _ => true

theorem Stmt.fallsThrough_iff {s : Stmt} : s.fallsThrough = true ↔ ∀ l, s ≠ .goto l := by
  cases s <;> simp [fallsThrough]

theorem Stmt.jumpLabel?_eq_some {s : Stmt} {l : String} :
    s.jumpLabel? = some l ↔ s = .goto l ∨ ∃ sense test, s = .jump sense test l := by
  cases s <;> simp [jumpLabel?]

namespace Graph

private def enter (d : Dict Nat) (e : Stmt × Nat) : Dict Nat :=
  match e.1 with
  | .label name => d.insert name e.2
  | _ => d

private theorem labelsOf_eq (body : List Stmt) : labelsOf body = body.zipIdx.foldl enter [] := rfl

private theorem labelsOf_append_singleton (body : List Stmt) (s : Stmt) :
    labelsOf (body ++ [s]) = enter (labelsOf body) (s, body.length) := by
  rw [labelsOf_eq, labelsOf_eq, List.zipIdx_append, List.foldl_append]
  simp

private theorem get?_enter_of_ne {s : Stmt} {l : String} (hs : s ≠ .label l) (d : Dict Nat) (n : Nat) :
    Dict.get? (enter d (s, n)) l = Dict.get? d l := by
  unfold enter
  split
  · rename_i name hname
    have hne : l ≠ name := by
      rintro rfl
      exact hs hname
    rw [Dict.get?_insert, if_neg hne]
  · rfl

theorem get?_labelsOf (body : List Stmt) (l : String) (t : Nat) :
    Dict.get? (labelsOf body) l = some t ↔ IsTarget body l t := by
  -- From the end of the body: its last statement takes a name away from all earlier labels.
  induction body using List.reverseRecOn generalizing t with
  | nil => simp [labelsOf, Dict.get?, IsTarget]
  | append_singleton body s ih =>
    rw [labelsOf_append_singleton]
    by_cases hs : s = .label l
    · subst hs
      rw [enter, Dict.get?_insert, if_pos rfl, Option.some.injEq, isTarget_append_label, eq_comm]
    · rw [get?_enter_of_ne hs, ih, isTarget_append_of_ne hs]

variable (function : String) (body : List Stmt)

@[simp] theorem build_length : (build function body).length = body.length := rfl

theorem label?_build {l : String} {t : Nat} :
    (build function body).label? l = some t ↔ IsTarget body l t := get?_labelsOf body l t

theorem succsAt_build (i : Nat) : (build function body).succsAt i =
    match body[i]? with
    | some s => succsOf (labelsOf body) body.length i s
    | none => [] := by
  simp only [succsAt, build, Int.natCast_nonneg, ↓reduceIte, Int.toNat_natCast, List.getD_eq_getElem?_getD,
    List.getElem?_map, List.getElem?_zipIdx, Nat.zero_add]
  cases body[i]? <;> rfl

private theorem mem_succsOf_jump {labels : Dict Nat} {length i j : Nat} {sense : Bool} {test : Test} {l : String} :
    j ∈ succsOf labels length i (.jump sense test l) ↔
      j ∈ (if i + 1 < length then [i + 1] else []) ∨ j ∈ (Dict.get? labels l).toList := by
  simp only [succsOf]
  generalize (if i + 1 < length then [i + 1] else []) = next
  cases Dict.get? labels l with
  | none => simp
  | some t =>
    simp only [Option.toList_some, List.mem_singleton]
    -- A jump to the next statement is one edge, not two.
    by_cases ht : t ∈ next
    · rw [if_pos ht]
      exact ⟨Or.inl, fun h => h.elim id fun h => h ▸ ht⟩
    · rw [if_neg ht]
      simp

/-- The edges of a graph: to the next statement, and to the label of a jump. -/
theorem mem_succsAt {i j : Nat} : j ∈ (build function body).succsAt i ↔
    j < body.length ∧ ∃ s, body[i]? = some s ∧
      ((s.fallsThrough = true ∧ j = i + 1) ∨ ∃ l, s.jumpLabel? = some l ∧ IsTarget body l j) := by
  rw [succsAt_build]
  cases hs : body[i]? with
  | none => simp
  | some s =>
    have htarget : ∀ l, j ∈ (Dict.get? (labelsOf body) l).toList ↔ IsTarget body l j := by
      intro l
      rw [Option.mem_toList, get?_labelsOf]
    have hnext : j ∈ (if i + 1 < body.length then [i + 1] else []) ↔ j < body.length ∧ j = i + 1 := by
      split
      · simp only [List.mem_singleton]
        omega
      · simp only [List.not_mem_nil, false_iff]
        omega
    have hlt : ∀ l, IsTarget body l j → j < body.length := fun _ h => h.lt
    simp only [Option.some.injEq, exists_eq_left']
    cases s with
    | goto l =>
      simp only [succsOf, htarget, Stmt.fallsThrough, Stmt.jumpLabel?, Bool.false_eq_true, false_and,
        false_or, Option.some.injEq, exists_eq_left']
      exact ⟨fun h => ⟨hlt l h, h⟩, fun h => h.2⟩
    | jump sense test l =>
      rw [mem_succsOf_jump, hnext, htarget]
      simp only [Stmt.fallsThrough, Stmt.jumpLabel?, true_and, Option.some.injEq, exists_eq_left']
      constructor
      · rintro (⟨h, rfl⟩ | h)
        · exact ⟨h, Or.inl rfl⟩
        · exact ⟨hlt l h, Or.inr h⟩
      · rintro ⟨h, rfl | h'⟩
        · exact Or.inl ⟨h, rfl⟩
        · exact Or.inr h'
    | _ => simp [succsOf, hnext, Stmt.fallsThrough, Stmt.jumpLabel?]

theorem mem_predsAt {i j : Nat} :
    i ∈ (build function body).predsAt j ↔ j ∈ (build function body).succsAt i := by
  have hsuccs : ∀ i : Nat, (build function body).succsAt i = (build function body).succs.getD i [] := by
    intro i
    simp [succsAt]
  rw [hsuccs]
  -- Predecessors are read off the successors of all statements, for places of the body only.
  by_cases hj : j < body.length
  · have hpreds : (build function body).predsAt j =
        (build function body).succs.zipIdx.filterMap fun e => if j ∈ e.1 then some e.2 else none := by
      simp [predsAt, build, List.getD_eq_getElem?_getD, hj]
    rw [hpreds, List.mem_filterMap]
    constructor
    · rintro ⟨⟨ts, k⟩, hmem, hk⟩
      have hts := List.mem_zipIdx_iff_getElem?.mp hmem
      dsimp only at hk
      split at hk
      · rename_i hjt
        obtain rfl := Option.some.inj hk
        rw [List.getD_eq_getElem?_getD, hts]
        exact hjt
      · simp at hk
    · intro h
      rw [List.getD_eq_getElem?_getD] at h
      cases hts : (build function body).succs[i]? with
      | none => simp [hts] at h
      | some ts =>
        simp only [hts, Option.getD_some] at h
        exact ⟨(ts, i), List.mem_zipIdx_iff_getElem?.mpr hts, by simp [h]⟩
  · have hnone : (build function body).predsAt j = [] := by
      simp [predsAt, build, List.getD_eq_getElem?_getD, hj]
    rw [hnone, ← hsuccs, mem_succsAt]
    simp [hj]

theorem nodup_predsAt (j : Nat) : ((build function body).predsAt j).Nodup := by
  unfold predsAt build
  simp only [List.getD_eq_getElem?_getD, List.getElem?_map]
  cases h : (List.range body.length)[j]? with
  | none => simp
  | some k =>
    generalize (body.zipIdx.map fun e => succsOf (labelsOf body) body.length e.2 e.1) = succs
    have hmap : (succs.zipIdx.filterMap fun e => if k ∈ e.1 then some e.2 else none) =
        (succs.zipIdx.filter fun e => k ∈ e.1).map Prod.snd := by
      rw [← List.filterMap_eq_map, List.filterMap_filter]
      refine List.filterMap_congr fun e _ => ?_
      by_cases he : k ∈ e.1 <;> simp [he]
    have hsub : ((succs.zipIdx.filter fun e => k ∈ e.1).map Prod.snd).Sublist (List.range succs.length) := by
      have := (List.filter_sublist (p := fun e : List Nat × Nat => k ∈ e.1) (l := succs.zipIdx)).map Prod.snd
      simpa [List.range_eq_range'] using this
    simp only [Option.map_some, Option.getD_some, hmap]
    exact hsub.nodup List.nodup_range

theorem nodup_succsAt (i : Int) : ((build function body).succsAt i).Nodup := by
  by_cases hi : 0 ≤ i
  · obtain ⟨i, rfl⟩ := Int.eq_ofNat_of_zero_le hi
    rw [succsAt_build]
    have hnext : (if i + 1 < body.length then [i + 1] else []).Nodup := by
      split
      · exact List.nodup_singleton _
      · exact List.nodup_nil
    split
    · rename_i s _
      unfold succsOf
      extract_lets next
      split
      · exact Option.toList_nodup _
      · split
        · split
          · exact hnext
          · rename_i hnew
            exact List.nodup_append.mpr ⟨hnext, List.nodup_singleton _, by
              rintro x hx y hy rfl
              exact hnew (List.mem_singleton.mp hy ▸ hx)⟩
        · exact hnext
      · exact hnext
    · exact List.nodup_nil
  · rw [succsAt, if_neg hi]
    exact List.nodup_nil

/-- Only the statement before it leads to a statement that is no label. -/
theorem eq_succ_of_mem_succsAt {i j : Nat} (hj : ∀ l, body[j]? ≠ some (.label l))
    (h : j ∈ (build function body).succsAt i) : j = i + 1 := by
  obtain ⟨-, s, -, ⟨-, hnext⟩ | ⟨l, -, ht⟩⟩ := (mem_succsAt function body).mp h
  · exact hnext
  · exact absurd ht.1 (hj l)

/-- Control flow joins only at labels. -/
theorem exists_label_of_isMergePoint {j : Nat} (h : (build function body).isMergePoint j = true) :
    ∃ l, body[j]? = some (.label l) := by
  by_contra hno
  simp only [not_exists] at hno
  have hpred : ∀ i ∈ (build function body).predsAt j, j = i + 1 := fun i hi =>
    eq_succ_of_mem_succsAt function body hno ((mem_predsAt function body).mp hi)
  have hnodup := nodup_predsAt function body j
  simp only [isMergePoint, decide_eq_true_eq] at h
  match hp : (build function body).predsAt j with
  | [] => simp [hp] at h
  | [_] => simp [hp] at h
  | a :: b :: rest =>
    have ha := hpred a (by simp [hp])
    have hb := hpred b (by simp [hp])
    rw [hp] at hnodup
    have hab : a = b := by omega
    simp [hab] at hnodup

theorem isMergePoint_of_not_label {j : Nat} (hj : ∀ l, body[j]? ≠ some (.label l)) :
    (build function body).isMergePoint j = false := by
  by_contra hmerge
  obtain ⟨l, hl⟩ := exists_label_of_isMergePoint function body (Bool.eq_true_of_not_eq_false hmerge)
  exact hj l hl

theorem isMergePoint_of_two {i k j : Nat} (hik : i ≠ k) (hi : j ∈ (build function body).succsAt i)
    (hk : j ∈ (build function body).succsAt k) : (build function body).isMergePoint j = true := by
  have hi := (mem_predsAt function body).mpr hi
  have hk := (mem_predsAt function body).mpr hk
  simp only [isMergePoint, decide_eq_true_eq]
  match hp : (build function body).predsAt j with
  | [] => simp [hp] at hi
  | [a] =>
    simp only [hp, List.mem_singleton] at hi hk
    exact absurd (hi.trans hk.symm) hik
  | a :: b :: rest => simp

/-- A graph that has the edges of a body and no others, each of them once and from both ends, and that joins control
flow only at labels. -/
structure Exact (body : List Stmt) (g : Graph) : Prop where
  succs : ∀ (i : Int) (j : Nat), j ∈ g.succsAt i ↔ 0 ≤ i ∧ j < body.length ∧ ∃ s, body[i.toNat]? = some s ∧
    ((∀ l, s ≠ .goto l) ∧ j = i + 1 ∨
      ∃ l, (s = .goto l ∨ ∃ sense test, s = .jump sense test l) ∧ IsTarget body l j)
  preds : ∀ i j : Nat, j ∈ g.succsAt i ↔ i ∈ g.predsAt j
  nodupSuccs : ∀ i : Int, (g.succsAt i).Nodup
  nodupPreds : ∀ j : Nat, (g.predsAt j).Nodup
  joins : ∀ j : Nat, g.isMergePoint j = true → ∃ l, body[j]? = some (.label l)

theorem exact_build : (build function body).Exact body where
  succs i j := by
    by_cases hi : 0 ≤ i
    · obtain ⟨i, rfl⟩ := Int.eq_ofNat_of_zero_le hi
      rw [mem_succsAt]
      simp only [hi, true_and, Int.toNat_natCast, Stmt.fallsThrough_iff, Stmt.jumpLabel?_eq_some]
      norm_cast
    · simp [succsAt, hi]
  preds i j := (mem_predsAt function body).symm
  nodupSuccs := nodup_succsAt function body
  nodupPreds := nodup_predsAt function body
  joins _ := exists_label_of_isMergePoint function body

end Graph

end AbstractFlow
