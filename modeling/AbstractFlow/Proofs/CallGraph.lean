import AbstractFlow.CallGraph
import AbstractFlow.Proofs.Collection.Sorted
import AbstractFlow.Proofs.Context

/-! # Registers of a call graph

The registers beside the list of calls tell what a look at the whole list would tell: whether a call is
known, and which calls lead from and to a function. The list itself has every call once, where it was added
first.
-/
namespace AbstractFlow

namespace Edge

/-- What a call is known by: its ends, its place, and the keys of its contexts. -/
def signature (e : Edge) : String × String × Int × String × String :=
  (e.caller, e.callee, e.index, e.callerContext.key, e.calleeContext.key)

theorem identity_inj {e f : Edge} : e.identity = f.identity ↔ e.signature = f.signature := by
  simp [identity, signature, Context.key_inj]

theorem same_iff {e f : Edge} : e.same f = true ↔ e.signature = f.signature := by
  rw [same, beq_iff_eq, identity_inj]

/-- The calls of a list that have no call of the same signature before them. -/
def firsts (es : List Edge) : List Edge :=
  (es.zipIdx.filter fun e => e.1.signature ∉ (es.take e.2).map signature).map Prod.fst

theorem firsts_append_singleton (es : List Edge) (e : Edge) :
    firsts (es ++ [e]) = firsts es ++ if e.signature ∈ es.map signature then [] else [e] := by
  have hold : es.zipIdx.filter (fun f => f.1.signature ∉ ((es ++ [e]).take f.2).map signature) =
      es.zipIdx.filter fun f => f.1.signature ∉ (es.take f.2).map signature := by
    refine List.filter_congr fun f hf => ?_
    have hlt := (List.getElem?_eq_some_iff.mp (List.mem_zipIdx_iff_getElem?.mp hf)).1
    rw [List.take_append_of_le_length hlt.le]
  simp only [firsts, List.zipIdx_append, List.filter_append, List.map_append, hold]
  congr 1
  by_cases hknown : e.signature ∈ es.map signature <;> simp [hknown]

end Edge

namespace Register

theorem filterMap_placesOf (picks : Edge → Bool) (edges : List Edge) :
    (placesOf picks edges).filterMap (edges[·]?) = edges.filter picks := by
  induction edges using List.reverseRecOn with
  | nil => rfl
  | append_singleton edges e ih =>
    have hold : (placesOf picks edges).filterMap ((edges ++ [e])[·]?) = edges.filter picks := by
      rw [← ih]
      refine List.filterMap_congr fun i hi => ?_
      obtain ⟨⟨f, j⟩, hmem, rfl⟩ := List.mem_map.mp hi
      have hlt := List.getElem?_eq_some_iff.mp (List.mem_zipIdx_iff_getElem?.mp (List.mem_filter.mp hmem).1)
      exact List.getElem?_append_left hlt.1
    rw [placesOf_append_singleton, List.filterMap_append, hold, List.filter_append]
    cases hpicks : picks e <;> simp [hpicks]

end Register

namespace CallGraph

variable (g : CallGraph) (e : Edge)

theorem contains_eq : g.contains e = g.edges.any e.same := by
  rw [contains, Table.contains, g.placed, List.findIdx?_isSome]
  congr 1
  funext f
  exact decide_eq_decide.mpr eq_comm

theorem collect_of_files {r : Register} {name : Edge → String} (h : r.Files name g.edges) (n : String)
    (keeps : Edge → Bool) : g.collect (r.under n) keeps = (g.edges.filter (name · = n)).filter keeps := by
  rw [collect, h, Register.filterMap_placesOf]

theorem contains_iff : g.contains e = true ↔ e.signature ∈ g.edges.map Edge.signature := by
  rw [contains_eq, List.any_eq_true, List.mem_map]
  exact exists_congr fun f => and_congr_right fun _ => Edge.same_iff.trans eq_comm

theorem insert_isNew : (g.insert e).2 = !g.contains e := by
  unfold insert
  split
  · rename_i h
    rw [h]
    rfl
  · rename_i h
    rw [Bool.eq_false_iff.mpr h]
    rfl

theorem add_of_contains (h : g.contains e = true) : g.add e = g := by rw [add, insert, dif_pos h]

theorem edges_add : (g.add e).edges = if g.contains e then g.edges else g.edges ++ [e] := by
  unfold add insert
  split <;> rfl

theorem size_add : (g.add e).size = if g.contains e then g.size else g.size + 1 := by
  unfold size
  rw [edges_add]
  split
  · rfl
  · rw [List.length_append, List.length_singleton]

/-- The graph grows exactly when the call is new. -/
theorem size_add_le_iff : (g.add e).size ≤ g.size ↔ g.contains e = true := by
  rw [size_add]
  split
  · rename_i h
    simp [h]
  · rename_i h
    simp [h]

def addAll (es : List Edge) : CallGraph := es.foldl add empty

theorem addAll_append_singleton (es : List Edge) : addAll (es ++ [e]) = (addAll es).add e := List.foldl_concat ..

theorem signatures_addAll (es : List Edge) (k : String × String × Int × String × String) :
    k ∈ (addAll es).edges.map Edge.signature ↔ k ∈ es.map Edge.signature := by
  induction es using List.reverseRecOn with
  | nil => rfl
  | append_singleton es e ih =>
    rw [addAll_append_singleton, edges_add, List.map_append, List.mem_append, ← ih]
    split
    · rename_i hknown
      have hold := ((addAll es).contains_iff e).mp hknown
      simp only [List.map_cons, List.map_nil, List.mem_singleton, iff_self_or]
      rintro rfl
      exact hold
    · rw [List.map_append, List.mem_append]

theorem contains_addAll (es : List Edge) :
    (addAll es).contains e = true ↔ e.signature ∈ es.map Edge.signature := by
  rw [contains_iff, signatures_addAll]

theorem edges_addAll (es : List Edge) : (addAll es).edges = Edge.firsts es := by
  induction es using List.reverseRecOn with
  | nil => rfl
  | append_singleton es e ih =>
    rw [addAll_append_singleton, edges_add, Edge.firsts_append_singleton, ← ih]
    by_cases hknown : e.signature ∈ es.map Edge.signature
    · rw [if_pos hknown, if_pos ((contains_addAll e es).mpr hknown), List.append_nil]
    · rw [if_neg hknown, if_neg (mt (contains_addAll e es).mp hknown)]

theorem nodup_signatures_addAll (es : List Edge) : ((addAll es).edges.map Edge.signature).Nodup := by
  induction es using List.reverseRecOn with
  | nil => exact List.nodup_nil
  | append_singleton es e ih =>
    rw [addAll_append_singleton, edges_add]
    split
    · exact ih
    · rename_i hnew
      rw [List.map_append, List.map_cons, List.map_nil]
      exact List.nodup_append_comm.mp (List.nodup_cons.mpr ⟨mt ((addAll es).contains_iff e).mpr hnew, ih⟩)

/-- Whatever calls are added, the graph lists the first one of every signature, in the order in which they
came; a call is new, and the graph grows, just when no call of its signature was added before; and what is
filed under a function are the calls of the list that a filter by callee or caller finds, also under one
context. The names of the callees are those of the calls from a function, sorted. -/
theorem registers_agree (es : List Edge) :
    (addAll es).edges = Edge.firsts es ∧
    ((addAll es).edges.map Edge.signature).Nodup ∧
    (∀ k, k ∈ (addAll es).edges.map Edge.signature ↔ k ∈ es.map Edge.signature) ∧
    (∀ e, addAll (es ++ [e]) = ((addAll es).insert e).1 ∧
      (((addAll es).insert e).2 = true ↔ e.signature ∉ es.map Edge.signature) ∧
      ((addAll es).size < ((addAll es).insert e).1.size ↔ ((addAll es).insert e).2 = true)) ∧
    (∀ f, (addAll es).callers f = (addAll es).edges.filter fun e => e.callee = f) ∧
    (∀ f, (addAll es).callees f = (addAll es).edges.filter fun e => e.caller = f) ∧
    (∀ f (ctx : Context), (addAll es).callersIn f ctx =
      (addAll es).edges.filter fun e => e.callee = f ∧ e.calleeContext.key = ctx.key) ∧
    (∀ f (ctx : Context), (addAll es).calleesIn f ctx =
      (addAll es).edges.filter fun e => e.caller = f ∧ e.callerContext.key = ctx.key) ∧
    ∀ f, ((addAll es).calleeNames f).Pairwise (· < ·) ∧
      ∀ name, name ∈ (addAll es).calleeNames f ↔ ∃ e ∈ (addAll es).callees f, e.callee = name := by
  refine ⟨edges_addAll es, nodup_signatures_addAll es, signatures_addAll es, fun e => ⟨?_, ?_, ?_⟩, fun f => ?_,
    fun f => ?_, fun f ctx => ?_, fun f ctx => ?_, fun f => ⟨Sorted.pairwise_ofList _, fun name => ?_⟩⟩
  · exact addAll_append_singleton e es
  · rw [insert_isNew, Bool.not_eq_true', ← Bool.not_eq_true, contains_addAll]
  · rw [insert_isNew, Bool.not_eq_true', ← Bool.not_eq_true, ← size_add_le_iff, Nat.not_le]
    rfl
  · rw [callers, collect_of_files _ (addAll es).filedByCallee, List.filter_true]
  · rw [callees, collect_of_files _ (addAll es).filedByCaller, List.filter_true]
  · rw [callersIn, collect_of_files _ (addAll es).filedByCallee, List.filter_filter]
    exact List.filter_congr fun e _ => by rw [Bool.decide_and, Bool.and_comm]
  · rw [calleesIn, collect_of_files _ (addAll es).filedByCaller, List.filter_filter]
    exact List.filter_congr fun e _ => by rw [Bool.decide_and, Bool.and_comm]
  · rw [calleeNames, Sorted.mem_ofList, List.mem_map]

end CallGraph

end AbstractFlow
