import AbstractFlow.Proofs.State.Outline
import AbstractFlow.Proofs.State.Scopes

/-! # Frames of variables

Binding a variable changes one binding of one frame. Entering a function binds its parameters in the
frame of the function under the context of the callee: each parameter holds the argument at its last
place among the parameters, and what is empty may be anything.
-/
namespace AbstractFlow

namespace Memory

theorem frame_set (m : Memory) (k k' : FrameKey) (name : String) (v : Value) :
    (m.set k name v).frame k' = if k = k' then (m.frame k).insert name v else m.frame k' := by
  unfold set frame
  rw [Table.get?_insert]
  split <;> rfl

theorem get?_set (m : Memory) (k k' : FrameKey) (name name' : String) (v : Value) :
    (m.set k name v).get? k' name' = if k = k' ∧ name' = name then some v else m.get? k' name' := by
  unfold get?
  rw [frame_set]
  by_cases hk : k = k'
  · subst hk
    simp only [↓reduceIte, true_and]
    exact Dict.get?_insert name name' v (m.frame k)
  · simp [hk]

def setAll (m : Memory) (k : FrameKey) (bindings : List (String × Value)) : Memory :=
  bindings.foldl (fun m b => m.set k b.1 b.2.orUnknown) m

theorem get?_setAll_of_not_mem (m : Memory) (k : FrameKey) {bindings : List (String × Value)}
    {name : String} (h : name ∉ bindings.map Prod.fst) :
    (m.setAll k bindings).get? k name = m.get? k name := by
  induction bindings generalizing m with
  | nil => rfl
  | cons b rest ih =>
    rw [List.map_cons, List.mem_cons, not_or] at h
    have hfirst := m.get?_set k k b.1 name b.2.orUnknown
    rw [if_neg fun hb => h.1 hb.2] at hfirst
    exact (ih _ h.2).trans hfirst

theorem get?_setAll (m : Memory) (k : FrameKey) (front rest : List (String × Value)) {name : String}
    (v : Value) (h : name ∉ rest.map Prod.fst) :
    (m.setAll k (front ++ (name, v) :: rest)).get? k name = some v.orUnknown := by
  have hsplit : m.setAll k (front ++ (name, v) :: rest) =
      (((m.setAll k front).set k name v.orUnknown).setAll k rest) := by
    simp only [setAll, List.foldl_append, List.foldl_cons]
  rw [hsplit, get?_setAll_of_not_mem _ k h, get?_set, if_pos ⟨rfl, rfl⟩]

end Memory

/-- The parameters that positional arguments are bound to: all but a bound receiver. -/
def Function.positional (fn : Function Value) (receiver : Option Receiver) : List String :=
  match receiver, fn.binding with
  | some _, .onInstance | some _, .onClass => fn.params.drop 1
  | _, _ => fn.params

namespace State

variable {s s' : State} {fn : Function Value} {args : List Value} {receiver : Option Receiver}

/-- The parameters at the places of the arguments come last. -/
theorem parameterBindings_eq (fn : Function Value) (args : List Value) (receiver : Option Receiver) :
    ∃ front, parameterBindings fn args receiver = front ++
      (fn.positional receiver).zipIdx.map fun (p, i) => (p, args.getD i Value.noneConstant) := by
  unfold parameterBindings Function.positional
  cases receiver with
  | none => exact ⟨[], by simp⟩
  | some r =>
    cases hparams : fn.params with
    | nil => cases fn.binding <;> exact ⟨[], by simp⟩
    | cons p params =>
      cases fn.binding with
      | onInstance => exact ⟨[(p, r.value)], by simp⟩
      | onClass => exact ⟨[(p, r.value)], by simp⟩
      | _ => exact ⟨[], by simp⟩

/-- A parameter holds the argument at its last place. -/
theorem get?_parameter (m : Memory) (key : FrameKey) {i : Nat} {p : String}
    (hp : (fn.positional receiver)[i]? = some p)
    (hlast : ∀ j, i < j → (fn.positional receiver)[j]? ≠ some p) :
    (m.setAll key (parameterBindings fn args receiver)).get? key p =
      some (args.getD i Value.noneConstant).orUnknown := by
  obtain ⟨front, hbindings⟩ := parameterBindings_eq fn args receiver
  generalize hplain : (fn.positional receiver).zipIdx.map
    (fun (p, i) => (p, args.getD i Value.noneConstant)) = plain at hbindings
  have hget : ∀ j, plain[j]? =
      (fn.positional receiver)[j]?.map fun q => (q, args.getD j Value.noneConstant) := by
    intro j
    rw [← hplain, List.getElem?_map, List.getElem?_zipIdx]
    cases (fn.positional receiver)[j]? <;> simp
  have hi : plain[i]? = some (p, args.getD i Value.noneConstant) := by rw [hget, hp, Option.map_some]
  obtain ⟨hlt, hvalue⟩ := List.getElem?_eq_some_iff.mp hi
  have hsplit : plain = plain.take i ++ (p, args.getD i Value.noneConstant) :: plain.drop (i + 1) := by
    rw [← hvalue, ← List.drop_eq_getElem_cons hlt, List.take_append_drop]
  have hrest : p ∉ (plain.drop (i + 1)).map Prod.fst := by
    intro hmem
    obtain ⟨b, hb, rfl⟩ := List.mem_map.mp hmem
    obtain ⟨j, hj⟩ := List.mem_iff_getElem?.mp hb
    rw [List.getElem?_drop, hget] at hj
    obtain ⟨q, hq, rfl⟩ := Option.map_eq_some_iff.mp hj
    exact hlast (i + 1 + j) (by omega) hq
  rw [hbindings, hsplit, ← List.append_assoc]
  exact m.get?_setAll key _ _ _ hrest

theorem memory_mapTop (s : State) (f : CallFrame → CallFrame) : (s.mapTop f).memory = s.memory := by
  unfold mapTop
  split <;> rfl

theorem memory_bindParameters (s : State) (key : FrameKey) (bindings : List (String × Value)) :
    (bindings.foldl (fun s b => s.bindParameter key b.1 b.2) s).memory = s.memory.setAll key bindings := by
  induction bindings generalizing s with
  | nil => rfl
  | cons b rest ih =>
    have hfirst : (s.bindParameter key b.1 b.2).memory = s.memory.set key b.1 b.2.orUnknown := by
      simp only [bindParameter, memory_mapTop]
    rw [List.foldl_cons, ih, hfirst]
    rfl

def place (s : State) : Option String × Context := (s.scope, s.context)

theorem place_setCurrent (s : State) (name : String) (c : Context) :
    (s.setCurrent name c).place = (if (s.setCurrent name c).scopes.contains name then some name
      else (s.setCurrent name c).global, c) := by
  simp [place, setCurrent]

theorem place_mapTop (s : State) (f : CallFrame → CallFrame) : (s.mapTop f).place = s.place := by
  unfold mapTop
  split <;> rfl

theorem place_bindParameters (s : State) (key : FrameKey) (bindings : List (String × Value)) :
    (bindings.foldl (fun s b => s.bindParameter key b.1 b.2) s).place = s.place := by
  induction bindings generalizing s with
  | nil => rfl
  | cons b rest ih =>
    have hfirst : (s.bindParameter key b.1 b.2).place = s.place := place_mapTop s _
    rw [List.foldl_cons, ih, hfirst]

/-- A function is entered under the context that the call leads to, with its parameters bound there. -/
theorem enterFunction_spec {site : String} {c : Context}
    (h : s.enterFunction fn args site receiver = .ok (c, s')) :
    s.context.derive s.config.policy s.config.depth site ((receiver.map (·.id)).getD "") = .ok c ∧
      s'.place = (some fn.name, c) ∧
      s'.memory = s.memory.setAll (s.frameKey fn.name c) (parameterBindings fn args receiver) := by
  unfold enterFunction at h
  obtain ⟨⟨c, s₁⟩, hcontext, h⟩ := Except.bind_eq_ok.mp h
  cases h
  obtain ⟨hderive, rfl⟩ := createContext_eq_ok.mp hcontext
  have hmoved := (s.moves_noteContext c).trans ((s.noteContext c).moves_registerScope fn.name .function
    ((s.noteContext c).global.getD ""))
  have hmemory : ((s.noteContext c).registerScope fn.name .function
      ((s.noteContext c).global.getD "")).memory = s.memory :=
    (widens_registerScope _ _ _ _).memory.trans (noteContext_memory s c)
  refine ⟨hderive, ?_, ?_⟩
  · rw [place_bindParameters, place_mapTop]
    rfl
  · rw [memory_bindParameters, memory_mapTop]
    simp only [frameKey, hmoved.config, hmemory]

end State

end AbstractFlow
