import AbstractFlow.Proofs.State.Frames
import Mathlib.Data.List.Perm.Subperm
import Mathlib.Logic.Relation

/-! # Where names are found

A name is looked up in the current scope and then in the scopes around it that are not class bodies, in each of
them under the current context first and under the root context second. If no scope stands inside itself, the
scopes around a scope come to an end within as many steps as scopes are registered. A name is rebound in the very
frame in which it is found, and nothing else changes.
-/
namespace AbstractFlow

/-- What is found first in some frames is found there again after it was rebound in its frame. -/
theorem Memory.findSome?_set {m : Memory} {keys : List FrameKey} {key : FrameKey} {name : String} {v : Value}
    (h : keys.findSome? (fun k => (Memory.get? m k name).map fun x => (k, x)) = some (key, v)) (w : Value) :
    keys.findSome? (fun k => (Memory.get? (m.set key name w) k name).map fun x => (k, x)) = some (key, w) := by
  induction keys with
  | nil => cases h
  | cons k keys ih =>
    rw [List.findSome?_cons] at h ⊢
    cases hk : Memory.get? m k name with
    | some x =>
      rw [hk] at h
      obtain ⟨rfl, rfl⟩ : k = key ∧ x = v := by simpa using h
      rw [Memory.get?_set, if_pos ⟨rfl, rfl⟩]
      rfl
    | none =>
      rw [hk] at h
      -- The frame that is written binds the name, so it is not this one.
      have hne : key ≠ k := by
        rintro rfl
        obtain ⟨k, -, hbound⟩ := List.exists_of_findSome?_eq_some h
        obtain ⟨x, hx, heq⟩ := Option.map_eq_some_iff.mp hbound
        cases heq
        rw [hk] at hx
        cases hx
      rw [Memory.get?_set, if_neg fun heq => hne heq.1, hk]
      exact ih h

namespace State

variable {s s' : State} {name : String} {key : FrameKey} {v : Value}

def parent? (s : State) (name : String) : Option String := (s.scopes.get? name).bind (·.parent)

abbrev Inside (s : State) (x y : String) : Prop := s.parent? x = some y

/-- No scope stands inside itself, over any number of parents. -/
def Acyclic (s : State) : Prop := ∀ x, ¬ Relation.TransGen s.Inside x x

/-- The scopes from one outwards, up to one that has no parent. -/
inductive Outward (s : State) : Option String → List String → Prop
  | nil : Outward s none []
  | cons {name : String} {around : List String} :
    Outward s (s.parent? name) around → Outward s (some name) (name :: around)

theorem mem_scopes_of_inside {x y : String} (h : s.Inside x y) : ∃ e, (x, e) ∈ s.scopes ∧ e.parent = some y := by
  obtain ⟨e, he, hparent⟩ := Option.bind_eq_some_iff.mp h
  exact ⟨e, Table.mem_of_get? he, hparent⟩

/-- Scopes whose parents are all of a lower rank are not inside themselves. -/
theorem acyclic_of_rank (rank : String → Nat)
    (h : ∀ e ∈ s.scopes, ∀ parent ∈ e.2.parent, rank parent < rank e.1) : s.Acyclic := by
  have hinside : ∀ {x y}, s.Inside x y → rank y < rank x := by
    intro x y hxy
    obtain ⟨e, he, hparent⟩ := mem_scopes_of_inside hxy
    exact h _ he y hparent
  intro x hx
  have hlt : ∀ y, Relation.TransGen s.Inside x y → rank y < rank x := by
    intro y hy
    induction hy with
    | single hstep => exact hinside hstep
    | tail _ hstep ih => exact (hinside hstep).trans ih
  exact Nat.lt_irrefl _ (hlt x hx)

/-- The chain of a scope is complete if the steps left are more than the scopes that were not passed on the way
there. -/
theorem Acyclic.outward_chain (h : s.Acyclic) {fuel : Nat} {passed : List String} {start : Option String}
    (hnodup : passed.Nodup) (hknown : passed ⊆ s.scopes.keys)
    (hpassed : ∀ x ∈ passed, ∀ name, start = some name → Relation.TransGen s.Inside x name)
    (hfuel : s.scopes.length < fuel + passed.length) : s.Outward start (s.chain fuel start) := by
  induction fuel generalizing passed start with
  | zero =>
    have hle := (hnodup.subperm hknown).length_le
    rw [Table.keys, List.length_map] at hle
    omega
  | succ fuel ih =>
    cases start with
    | none => exact .nil
    | some name =>
      refine .cons ?_
      show s.Outward (s.parent? name) (s.chain fuel (s.parent? name))
      cases hparent : s.parent? name with
      | none => cases fuel <;> exact .nil
      | some parent =>
        -- The scope has a parent, so it is registered, and no scope comes twice on the way outwards.
        obtain ⟨e, he, -⟩ := mem_scopes_of_inside hparent
        have hnew : name ∉ passed := fun hmem => h name (hpassed name hmem name rfl)
        refine @ih (name :: passed) (some parent) (List.nodup_cons.mpr ⟨hnew, hnodup⟩)
          (List.cons_subset.mpr ⟨Table.contains_iff.mp (Table.contains_of_mem he), hknown⟩) ?_ ?_
        · rintro x hx _ ⟨⟩
          rcases List.mem_cons.mp hx with rfl | hx
          · exact .single hparent
          · exact (hpassed x hx name rfl).tail hparent
        · rw [List.length_cons]
          omega

/-- Of the scopes around the innermost one, those that are class bodies are passed over. -/
def visible (s : State) : List String → List String
  | [] => []
  | here :: around => here :: around.filter fun n => !s.isClassScope n

/-- The frames of a scope that are asked for a name, in their order. -/
def framesOf (s : State) (scope : String) : List FrameKey := [s.frameKey scope s.context, ⟨scope, .root⟩]

theorem Acyclic.exists_outward (h : s.Acyclic) :
    ∃ scopes, s.Outward s.writeScope scopes ∧ s.visibleScopes = s.visible scopes :=
  ⟨_, h.outward_chain List.nodup_nil (List.nil_subset _) (by simp) (by simp), rfl⟩

theorem eq_root_of_isRoot {c : Context} (h : c.isRoot = true) : c = .root :=
  congrArg Context.mk (List.isEmpty_iff.mp h)

theorem find?_eq (s : State) (scope name : String) :
    s.find? scope name = (s.framesOf scope).findSome? fun key =>
      (Memory.get? s.memory key name).map fun v => (key, v) := by
  simp only [find?, framesOf, List.findSome?_cons, List.findSome?_nil]
  cases hhere : Memory.get? s.memory (s.frameKey scope s.context) name with
  | some v => simp
  | none =>
    simp only [Option.map_none]
    by_cases hroot : s.context.isRoot = true
    · -- Under the root context there is one frame only.
      have hsame : s.frameKey scope s.context = ⟨scope, .root⟩ := by
        unfold frameKey
        rw [eq_root_of_isRoot hroot, ite_self]
      rw [hsame] at hhere
      simp [hroot, hhere]
    · rw [if_neg hroot]
      cases Memory.get? s.memory ⟨scope, .root⟩ name <;> rfl

/-- The frames that are asked for a name, in their order. -/
def searched (s : State) : List FrameKey := s.visibleScopes.flatMap s.framesOf

theorem resolve?_eq (s : State) (name : String) :
    s.resolve? name = s.searched.findSome? fun key => (Memory.get? s.memory key name).map fun v => (key, v) := by
  unfold resolve? searched
  simp only [find?_eq]
  induction s.visibleScopes with
  | nil => rfl
  | cons scope scopes ih =>
    rw [List.findSome?_cons, List.flatMap_cons, List.findSome?_append, ih]
    cases List.findSome? _ (s.framesOf scope) <;> rfl

theorem getVariable?_eq (s : State) (name : String) :
    s.getVariable? name = s.searched.findSome? fun key => Memory.get? s.memory key name := by
  unfold getVariable?
  rw [resolve?_eq, List.map_findSome?]
  congr 1
  funext key
  simp

theorem chain_of_scopes (h : s'.scopes = s.scopes) (fuel : Nat) (scope : Option String) :
    s'.chain fuel scope = s.chain fuel scope := by
  induction fuel generalizing scope with
  | zero => rfl
  | succ fuel ih =>
    cases scope with
    | none => rfl
    | some name => rw [chain, chain, h, ih]

theorem visibleScopes_of_scopes (h : s'.scopes = s.scopes) (hwrite : s'.writeScope = s.writeScope) :
    s'.visibleScopes = s.visibleScopes := by
  unfold visibleScopes isClassScope
  rw [chain_of_scopes h, h, hwrite]

theorem searched_set (s : State) (key : FrameKey) (name : String) (w : Value) :
    State.searched { s with memory := s.memory.set key name w } = s.searched := by
  have hvisible : State.visibleScopes { s with memory := s.memory.set key name w } = s.visibleScopes :=
    visibleScopes_of_scopes rfl rfl
  unfold searched
  rw [hvisible]
  rfl

theorem resolve?_set (h : s.resolve? name = some (key, v)) (w : Value) :
    State.resolve? { s with memory := s.memory.set key name w } name = some (key, w) := by
  rw [resolve?_eq] at h ⊢
  rw [searched_set]
  exact Memory.findSome?_set h w

/-- A name is looked up in the current scope and outwards, in each scope under the current context first, and is
rebound exactly where it is found: afterwards that is what is found, and no other binding of any frame has changed.
A name that is not found is not bound. -/
theorem rebinds_what_it_finds (hs : s.Acyclic) (name : String) (v : Value) :
    (∃ scopes, s.Outward s.writeScope scopes ∧ s.getVariable? name =
      ((s.visible scopes).flatMap s.framesOf).findSome? fun key => Memory.get? s.memory key name) ∧
    (s.updateVariable? name v).isSome = (s.getVariable? name).isSome ∧
    (∀ s', s.updateVariable? name v = some s' → s'.getVariable? name = some v ∧ s' = { s with memory := s'.memory } ∧
      ∃ key, ∀ key' name', Memory.get? s'.memory key' name' =
          (if key' = key ∧ name' = name then some v else Memory.get? s.memory key' name') ∧
        (Memory.get? s'.memory key' name').isSome = (Memory.get? s.memory key' name').isSome) ∧
    (s.getVariable? name = none → (s.updateVariable? name v).getD s = s) := by
  have hupdate : ∀ {found}, s.resolve? name = found → s.updateVariable? name v =
      found.map fun e => { s with memory := s.memory.set e.1 name v } := fun h => by rw [updateVariable?, h]
  have hget : ∀ {found}, s.resolve? name = found → s.getVariable? name = found.map Prod.snd := fun h => by
    rw [getVariable?, h]
  refine ⟨?_, ?_, ?_, ?_⟩
  · obtain ⟨scopes, houtward, hvisible⟩ := hs.exists_outward
    exact ⟨scopes, houtward, by rw [getVariable?_eq, searched, hvisible]⟩
  · rw [hupdate rfl, hget rfl, Option.isSome_map, Option.isSome_map]
  · intro s' hs'
    cases hfound : s.resolve? name with
    | none =>
      rw [hupdate hfound] at hs'
      cases hs'
    | some e =>
      obtain ⟨key, old⟩ := e
      rw [hupdate hfound] at hs'
      cases hs'
      -- The name is written where it was found, so the frames that are asked before still do not bind it.
      obtain ⟨scope, -, hfind⟩ := List.exists_of_findSome?_eq_some hfound
      have hbound : Memory.get? s.memory key name = some old := get?_of_find? hfind
      refine ⟨by rw [getVariable?, resolve?_set hfound, Option.map_some], rfl, key, fun key' name' => ?_⟩
      rw [Memory.get?_set]
      by_cases hsame : key = key' ∧ name' = name
      · obtain ⟨rfl, rfl⟩ := hsame
        simp [hbound]
      · rw [if_neg hsame, if_neg fun h => hsame ⟨h.1.symm, h.2⟩]
        exact ⟨rfl, rfl⟩
  · intro hnone
    rw [hget rfl] at hnone
    rw [hupdate (Option.map_eq_none_iff.mp hnone)]
    rfl

/-- In a method, called from a line of its module: `x` is bound in the body of the class and in the module. -/
def methodInClass : State :=
  let s := (((State.new ⟨.callSite, 1, true⟩).registerScope "m" .module "").registerScope "m.C" .classBody "m")
  let s := (s.registerScope "m.C.f" .function "m.C").setCurrent "m.C.f" ⟨["m:3"]⟩
  { s with memory := (s.memory.set ⟨"m.C", .root⟩ "x" Value.anyBool).set ⟨"m", .root⟩ "x" Value.anyBool }

theorem updateVariable?_methodInClass : methodInClass.Acyclic ∧
    ∃ s, methodInClass.updateVariable? "x" Value.noneConstant = some s ∧
      s.getVariable? "x" = some Value.noneConstant ∧ Memory.get? s.memory ⟨"m.C", .root⟩ "x" = some Value.anyBool := by
  have hacyclic : methodInClass.Acyclic := acyclic_of_rank String.length (by decide +kernel)
  obtain ⟨-, -, hafter, -⟩ := rebinds_what_it_finds hacyclic "x" Value.noneConstant
  exact ⟨hacyclic, _, rfl, (hafter _ rfl).1, by rfl⟩

end State

end AbstractFlow
