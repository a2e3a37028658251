import AbstractFlow.Analysis.Access
import AbstractFlow.Proofs.Analysis.Summaries
import AbstractFlow.Proofs.Collection.Table
import AbstractFlow.Proofs.State.ClassAttributes

/-! # Loading an attribute from a merged base

An attribute is loaded from every object of the base, and from each object the search ends at the first place that
has it. Merging another value into the base keeps what its objects hold themselves. It keeps all that was loaded
if the search in each object still ends where it ended before: what is found early hides what would be found late,
and what is unknown carries attributes, but has no identity and no class.
-/
namespace AbstractFlow

namespace SemilatticeOn

variable {α : Type} {P : α → Prop} {f : α → α → α} {s t u : α}

theorem absorbs_left (h : SemilatticeOn P f) (hs : P s) (ht : P t) : f (f s t) s = f s t := by
  rw [h.comm (h.closed hs ht) hs, ← h.assoc hs hs ht, h.idem hs]

theorem absorbs_trans (h : SemilatticeOn P f) (hs : P s) (ht : P t) (hu : P u) (hst : f s t = s) (htu : f t u = t) :
    f s u = s := by
  calc f s u = f (f s t) u := by rw [hst]
    _ = f s (f t u) := h.assoc hs ht hu
    _ = s := by rw [htu, hst]

theorem absorbs_join (h : SemilatticeOn P f) (hs : P s) (ht : P t) (hu : P u) (hst : f s t = s) (hsu : f s u = s) :
    f s (f t u) = s := by
  rw [← h.assoc hs ht hu, hst, hsu]

theorem absorbs_foldl (h : SemilatticeOn P f) (hs : P s) (ht : P t) {l : List α} (hst : f s t = s)
    (hl : ∀ x ∈ l, P x ∧ f s x = s) : f s (l.foldl f t) = s := by
  induction l generalizing t with
  | nil => exact hst
  | cons x l ih =>
    obtain ⟨⟨hx, hsx⟩, hl⟩ := List.forall_mem_cons.mp hl
    exact ih (h.closed ht hx) (h.absorbs_join hs ht hx hst hsx) hl

end SemilatticeOn

namespace Object

/-- The methods of a class object; other objects have none. -/
def methods : Object → Attrs
  | .classObject c => c.methods
  | _ => []

theorem identity_of_key {x y : Object} (h : x.key = y.key) : x.identity = y.identity := by
  have hidentity : ∀ o : Object, o.identity =
      if o.kind = .unknown ∨ o.kind = .constant ∨ o.kind = .container then "" else o.key := by
    intro o
    rcases o with _ | _ | _ | _ | _ | _ | ⟨⟨⟩, _, _, _⟩ <;> rfl
  rw [hidentity, hidentity, kind_of_key h, h]

theorem methods_of_kind {o : Object} (h : o.kind ≠ .classObject) : o.methods = [] := by
  cases o with
  | classObject c => exact absurd rfl h
  | _ => rfl

theorem methods_mergeWith {m : Value → Value → Value} {x y : Object} (hkey : x.key = y.key) :
    (x.mergeWith m y).methods = Dict.mergeWith m x.methods y.methods := by
  have hkind := kind_of_key hkey
  by_cases hclass : x.kind = .classObject
  · rcases x with _ | _ | _ | _ | c | _ | ⟨⟨⟩, _, _, _⟩ <;> try cases hclass
    rcases y with _ | _ | _ | _ | d | _ | ⟨⟨⟩, _, _, _⟩ <;> try cases hkind
    rw [mergeWith, if_neg (not_not_intro hkey)]
    rfl
  · have hmerged : (x.mergeWith m y).kind ≠ .classObject := kind_of_key (key_mergeWith m hkey) ▸ hclass
    rw [methods_of_kind hmerged, methods_of_kind hclass, methods_of_kind (hkind ▸ hclass)]
    rfl

end Object

namespace Attrs

/-- What stands under a name; empty if nothing does. -/
def entry (as : Attrs) (name : String) : Value := (Dict.get? as name).getD []

/-- Attributes that absorb others name by name. -/
def Absorb (as bs : Attrs) : Prop := ∀ name, (as.entry name).merge (bs.entry name) = as.entry name

end Attrs

namespace Value

variable {P : Value → Prop} {a b : Value} {o : Object} {as bs cs : Attrs}

theorem exists_mem_merge (ha : a.Tidy) (hb : b.Tidy) (hknown : (a.merge b).hasUnknown = false) (ho : o ∈ a) :
    ∃ o' ∈ a.merge b, o'.key = o.key ∧ (o' = o ∨ ∃ p ∈ b, p.key = o.key ∧ o' = o.mergeWith merge p) := by
  have hkeyed := keyed_merge_of_known ha hb hknown
  have hget : Dict.get? a.keyed o.key = some o := Dict.get?_of_mem ha.sorted (mem_keyed.mpr ⟨ho, rfl⟩)
  have hmerged := Dict.get?_mergeWith (Object.mergeWith merge) o.key ha.sorted hb.sorted
  rw [← hkeyed, hget] at hmerged
  cases hother : Dict.get? b.keyed o.key with
  | none =>
    rw [hother] at hmerged
    exact ⟨o, (mem_keyed.mp (Dict.mem_of_get? hmerged)).1, rfl, .inl rfl⟩
  | some p =>
    rw [hother] at hmerged
    obtain ⟨hmem, hkey⟩ := mem_keyed.mp (Dict.mem_of_get? hmerged)
    obtain ⟨hp, hpkey⟩ := mem_keyed.mp (Dict.mem_of_get? hother)
    exact ⟨_, hmem, hkey, .inr ⟨p, hp, hpkey, rfl⟩⟩

namespace Lawful

variable (hP : Lawful P)
include hP

theorem getD {x : Option Value} (hx : ∀ v, x = some v → P v) : P (x.getD []) := by
  cases x with
  | none => exact hP.nil
  | some v => exact hx v rfl

theorem entry (has : Attrs.Holds P as) (name : String) : P (as.entry name) := hP.getD fun _ hv => has.get? hv

theorem fine_attrs (ha : P a) : ∀ o ∈ a, Attrs.Fine P o.attrs := fun o ho =>
  ⟨((hP.tidy ha).objects o ho).attrs, (hP.inside ha o ho).attrs⟩

theorem fine_methods (ha : P a) (ho : o ∈ a) : Attrs.Fine P o.methods := by
  have htidy := (hP.tidy ha).objects o ho
  have hinside := hP.inside ha o ho
  cases o with
  | classObject c => exact ⟨htidy.1, (Object.inside_classObject.mp hinside).1⟩
  | _ => exact ⟨Dict.sorted_nil, Dict.each_nil⟩

theorem absorb_refl (has : Attrs.Fine P as) : as.Absorb as := fun name => hP.laws.idem (hP.entry has.2 name)

theorem absorb_trans (has : Attrs.Fine P as) (hbs : Attrs.Fine P bs) (hcs : Attrs.Fine P cs) (hab : as.Absorb bs)
    (hbc : bs.Absorb cs) : as.Absorb cs := fun name =>
  hP.laws.absorbs_trans (hP.entry has.2 name) (hP.entry hbs.2 name) (hP.entry hcs.2 name) (hab name) (hbc name)

theorem absorb_mergeWith (has : Attrs.Fine P as) (hbs : Attrs.Fine P bs) :
    Attrs.Absorb (Dict.mergeWith merge as bs) as := by
  intro name
  rw [Attrs.entry, Attrs.entry, Dict.get?_mergeWith _ _ has.1 hbs.1]
  cases hv : Dict.get? as name with
  | none => exact merge_nil _
  | some v =>
    cases hw : Dict.get? bs name with
    | none => exact hP.laws.idem (has.2.get? hv)
    | some w => exact hP.laws.absorbs_left (has.2.get? hv) (hbs.2.get? hw)

theorem absorb_absorbed (ha : ∀ o ∈ a, Attrs.Fine P o.attrs) (ho : o ∈ a) :
    Attrs.Absorb (absorbed merge a) o.attrs := by
  induction a with
  | nil => cases ho
  | cons x rest ih =>
    obtain ⟨hx, hrest⟩ := List.forall_mem_cons.mp ha
    have hattrs := Attrs.semilattice hP.laws
    have hall := fine_absorbed hP.laws hrest
    rw [absorbed_cons hP.laws hx hrest]
    rcases List.mem_cons.mp ho with rfl | ho
    · exact hP.absorb_mergeWith hx hall
    · rw [hattrs.comm hx hall]
      exact hP.absorb_trans (hattrs.closed hall hx) hall (hrest o ho) (hP.absorb_mergeWith hall hx) (ih hrest ho)

/-- An object of a value comes to one of its key in a known merge, whose attributes and methods absorb its own. -/
theorem exists_absorb (ha : P a) (hb : P b) (ho : o ∈ a) (hknown : (a.merge b).hasUnknown = false) :
    ∃ o' ∈ a.merge b, o'.key = o.key ∧ o'.attrs.Absorb o.attrs ∧ o'.methods.Absorb o.methods := by
  obtain ⟨o', ho', hkey, rfl | ⟨p, hp, hpkey, rfl⟩⟩ := exists_mem_merge (hP.tidy ha) (hP.tidy hb) hknown ho
  · exact ⟨o', ho', rfl, hP.absorb_refl (hP.fine_attrs ha o' ho), hP.absorb_refl (hP.fine_methods ha ho)⟩
  · refine ⟨_, ho', hkey, ?_, ?_⟩
    · rw [Object.attrs_mergeWith hpkey.symm]
      exact hP.absorb_mergeWith (hP.fine_attrs ha o ho) (hP.fine_attrs hb p hp)
    · rw [Object.methods_mergeWith hpkey.symm]
      exact hP.absorb_mergeWith (hP.fine_methods ha ho) (hP.fine_methods hb hp)

/-- An unknown merge is one object, whose attributes absorb those of every object. -/
theorem eq_unknown_merge (ha : P a) (hb : P b) (hunknown : (a.merge b).hasUnknown = true) :
    ∃ as : Attrs, a.merge b = [.unknown as] ∧ ∀ o ∈ a, as.Absorb o.attrs := by
  obtain ⟨as, heq⟩ := (hP.tidy (hP.laws.closed ha hb)).alone hunknown
  have hfine : Attrs.Fine P as := hP.fine_attrs (hP.laws.closed ha hb) (.unknown as) (by simp [heq])
  have habsorbed := absorbed_mergeWith hP.laws (hP.fine_attrs ha) (hP.fine_attrs hb)
  rw [← merge_eq, heq, absorbed_unknown hfine.1] at habsorbed
  subst habsorbed
  have hall := fine_absorbed hP.laws (hP.fine_attrs ha)
  exact ⟨_, heq, fun o ho => hP.absorb_trans hfine hall (hP.fine_attrs ha o ho)
    (hP.absorb_mergeWith hall (fine_absorbed hP.laws (hP.fine_attrs hb))) (hP.absorb_absorbed (hP.fine_attrs ha) ho)⟩

end Lawful

end Value

/-- Where the search for an attribute of an object ends: at what the object holds itself or under its identity, at
its methods, at its bases, at its class, or nowhere. -/
inductive Route where
  | held
  | method
  | bases (names : List String)
  | inherited (className : String)
  | nowhere
deriving DecidableEq

namespace State

variable {P : Value → Prop} {s : State} {o : Object} {a b v : Value} {name : String}

def stored? (s : State) (o : Object) (name : String) : Option Value :=
  if o.identity = "" then none else s.heapAttr? o.identity name

def route (s : State) (o : Object) (name : String) : Route :=
  if (Dict.get? o.attrs name).isSome || (s.stored? o name).isSome then .held
  else match o with
    | .classObject c => if (Dict.get? c.methods name).isSome then .method else .bases c.bases
    | .instanceObject i => .inherited i.className
    | _ => .nowhere

/-- What is loaded from one object; empty if it does not have the attribute. -/
def attrOf (s : State) (o : Object) (name : String) : Value := (s.objectAttr? o name).getD []

/-- Whether an object gives the attribute also as part of a value that it was merged into: where it is absorbed, by
holding itself what is loaded from it, and else if the search ends where it ended before. -/
def Keeps (s : State) (m : Value) (o : Object) (name : String) : Prop :=
  if m.hasUnknown = true then Dict.get? o.attrs name = some (s.attrOf o name)
  else ∀ o' ∈ m, o'.key = o.key → s.route o' name = s.route o name

/-- What is loaded from all objects of a value; empty if none has the attribute. -/
def attrIn (s : State) (v : Value) (name : String) : Value := Value.mergeAll (v.map fun o => s.attrOf o name)

/-- All that is kept by names on the heap, in the frames and in the classes. -/
def tables (s : State) : List Attrs :=
  s.heap.map Prod.snd ++ s.memory.map Prod.snd ++ s.hierarchy.classes.flatMap fun e => [e.2.attrs, e.2.methods]

/-- The values that a state keeps under a name. -/
def attrValues (s : State) (name : String) : List Value := s.tables.filterMap fun as => Dict.get? as name

theorem attrOf_eq (s : State) (o : Object) (name : String) : s.attrOf o name =
    match s.route o name with
    | .held => (o.attrs.entry name).merge ((s.stored? o name).getD [])
    | .method => o.methods.entry name
    | .bases names => (names.findSome? fun base => s.lookupAttr? base name).getD []
    | .inherited className => (s.lookupAttr? className name).getD []
    | .nowhere => [] := by
  have hstored : (if o.identity = "" then none else s.heapAttr? o.identity name) = s.stored? o name := rfl
  simp only [attrOf, objectAttr?, hstored]
  unfold route
  cases hown : Dict.get? o.attrs name with
  | some v =>
    cases s.stored? o name <;> simp [Attrs.entry, hown]
  | none =>
    cases s.stored? o name with
    | some w => simp [Attrs.entry, hown]
    | none =>
      simp only [Option.isSome_none, Bool.or_self, Bool.false_eq_true, ↓reduceIte, Object.attr?, hown, Option.none_or]
      cases o with
      | classObject c =>
        cases hmethod : Dict.get? c.methods name with
        | some v => simp [Attrs.entry, Object.methods, hmethod]
        | none => simp [State.resolver, hmethod]
      | _ => rfl

theorem mem_tables {as : Attrs} : as ∈ s.tables ↔ as ∈ s.heap.map Prod.snd ∨ as ∈ s.memory.map Prod.snd ∨
    ∃ e ∈ s.hierarchy.classes, as ∈ [e.2.attrs, e.2.methods] := by
  rw [tables, List.append_assoc, List.mem_append, List.mem_append, List.mem_flatMap]

theorem mem_attrValues {as : Attrs} (has : as ∈ s.tables) (hget : Dict.get? as name = some v) :
    v ∈ s.attrValues name :=
  List.mem_filterMap.mpr ⟨as, has, hget⟩

theorem mem_attrValues_of_heapAttr? {identity : String} (h : s.heapAttr? identity name = some v) :
    v ∈ s.attrValues name := by
  rw [heapAttr?, heapAttrs] at h
  cases hattrs : s.heap.get? identity with
  | none => simp [hattrs, Dict.get?] at h
  | some as =>
    rw [hattrs] at h
    exact mem_attrValues (mem_tables.mpr (.inl (List.mem_map.mpr ⟨_, Table.mem_of_get? hattrs, rfl⟩))) h

theorem mem_attrValues_of_memory {key : FrameKey} (h : Memory.get? s.memory key name = some v) :
    v ∈ s.attrValues name := by
  rw [Memory.get?, Memory.frame] at h
  cases hframe : Table.get? s.memory key with
  | none => simp [hframe, Dict.get?] at h
  | some as =>
    rw [hframe] at h
    exact mem_attrValues (mem_tables.mpr (.inr (.inl (List.mem_map.mpr ⟨_, Table.mem_of_get? hframe, rfl⟩)))) h

theorem mem_attrValues_of_lookupAttr? {className : String} (h : s.lookupAttr? className name = some v) :
    v ∈ s.attrValues name := by
  obtain ⟨cls, -, hown⟩ := List.exists_of_findSome?_eq_some h
  simp only [ownClassAttr?, Option.or_eq_some_iff, Option.bind_eq_some_iff] at hown
  rcases hown with (⟨c, hc, hmember⟩ | ⟨-, hbound⟩) | ⟨-, hstored⟩
  · have hentry := Table.mem_of_get? hc
    rcases hmember with hattr | ⟨-, hmethod⟩
    · exact mem_attrValues (mem_tables.mpr (.inr (.inr ⟨_, hentry, by simp⟩))) hattr
    · exact mem_attrValues (mem_tables.mpr (.inr (.inr ⟨_, hentry, by simp⟩))) hmethod
  · exact mem_attrValues_of_memory hbound
  · exact mem_attrValues_of_heapAttr? hstored

theorem stored?_of_key {o' : Object} (hkey : o'.key = o.key) : s.stored? o' name = s.stored? o name := by
  rw [stored?, stored?, Object.identity_of_key hkey]

section Loaded

variable (hP : Value.Lawful P) (hs : ∀ v ∈ s.attrValues name, P v)
include hP hs

theorem lawful_stored (o : Object) : P ((s.stored? o name).getD []) := by
  refine hP.getD fun v hv => hs v ?_
  unfold stored? at hv
  split at hv
  · cases hv
  · exact mem_attrValues_of_heapAttr? hv

theorem lawful_attrOf (ho : o.Inside P) : P (s.attrOf o name) := by
  rw [attrOf_eq]
  cases s.route o name with
  | held => exact hP.laws.closed (hP.entry ho.attrs name) (lawful_stored hP hs o)
  | method =>
    cases o with
    | classObject c => exact hP.entry (Object.inside_classObject.mp ho).1 name
    | _ => exact hP.nil
  | bases names =>
    refine hP.getD fun v hv => ?_
    obtain ⟨base, -, hbase⟩ := List.exists_of_findSome?_eq_some hv
    exact hs v (mem_attrValues_of_lookupAttr? hbase)
  | inherited className => exact hP.getD fun v hv => hs v (mem_attrValues_of_lookupAttr? hv)
  | nowhere => exact hP.nil

theorem lawful_attrIn (hv : P v) : P (s.attrIn v name) := by
  refine Value.mergeAll_of_forall hP.nil hP.laws.closed fun w hw => ?_
  obtain ⟨o, ho, rfl⟩ := List.mem_map.mp hw
  exact lawful_attrOf hP hs (hP.inside hv o ho)

theorem attrIn_absorbs (hv : P v) (ho : o ∈ v) :
    (s.attrIn v name).merge (s.attrOf o name) = s.attrIn v name := by
  refine hP.laws.foldl_absorbs_mem hP.nil (fun w hw => ?_) (List.mem_map_of_mem ho)
  obtain ⟨x, hx, rfl⟩ := List.mem_map.mp hw
  exact lawful_attrOf hP hs (hP.inside hv x hx)

theorem attrIn_absorbs_own (hv : P v) (ho : o ∈ v) :
    (s.attrIn v name).merge (o.attrs.entry name) = s.attrIn v name := by
  have hinside := hP.inside hv o ho
  refine hP.laws.absorbs_trans (lawful_attrIn hP hs hv) (lawful_attrOf hP hs hinside) (hP.entry hinside.attrs name)
    (attrIn_absorbs hP hs hv ho) ?_
  cases hown : Dict.get? o.attrs name with
  | none =>
    rw [Attrs.entry, hown]
    exact Value.merge_nil _
  | some v =>
    have hroute : s.route o name = .held := by simp [route, hown]
    rw [attrOf_eq, hroute]
    exact hP.laws.absorbs_left (hP.entry hinside.attrs name) (lawful_stored hP hs o)

theorem attrIn_merge_absorbs_own (ha : P a) (hb : P b) (ho : o ∈ a) :
    (s.attrIn (a.merge b) name).merge (o.attrs.entry name) = s.attrIn (a.merge b) name := by
  have hmerge := hP.laws.closed ha hb
  obtain ⟨o', ho', habsorb⟩ : ∃ o' ∈ a.merge b, o'.attrs.Absorb o.attrs := by
    cases hunknown : (a.merge b).hasUnknown with
    | true =>
      obtain ⟨as, heq, habsorb⟩ := hP.eq_unknown_merge ha hb hunknown
      exact ⟨.unknown as, by simp [heq], habsorb o ho⟩
    | false =>
      obtain ⟨o', ho', -, habsorb, -⟩ := hP.exists_absorb ha hb ho hunknown
      exact ⟨o', ho', habsorb⟩
  exact hP.laws.absorbs_trans (lawful_attrIn hP hs hmerge) (hP.entry (hP.inside hmerge o' ho').attrs name)
    (hP.entry (hP.inside ha o ho).attrs name) (attrIn_absorbs_own hP hs hmerge ho') (habsorb name)

/-- What is loaded from a merge absorbs what is loaded from an object that keeps the attribute. -/
theorem attrIn_merge_absorbs (ha : P a) (hb : P b) (ho : o ∈ a) (hkeeps : s.Keeps (a.merge b) o name) :
    (s.attrIn (a.merge b) name).merge (s.attrOf o name) = s.attrIn (a.merge b) name := by
  have hmerge := hP.laws.closed ha hb
  unfold Keeps at hkeeps
  split at hkeeps
  · have habsorbs := attrIn_merge_absorbs_own hP hs ha hb ho
    rwa [Attrs.entry, hkeeps] at habsorbs
  · rename_i hknown
    rw [Bool.not_eq_true] at hknown
    obtain ⟨o', ho', hkey, hattrs, hmethods⟩ := hP.exists_absorb ha hb ho hknown
    have hinside := hP.inside ha o ho
    have hinside' := hP.inside hmerge o' ho'
    refine hP.laws.absorbs_trans (lawful_attrIn hP hs hmerge) (lawful_attrOf hP hs hinside')
      (lawful_attrOf hP hs hinside) (attrIn_absorbs hP hs hmerge ho') ?_
    have hidem := hP.laws.idem (lawful_attrOf hP hs hinside)
    rw [attrOf_eq s o', attrOf_eq s o, hkeeps o' ho' hkey]
    rw [attrOf_eq s o] at hidem
    -- Only what is held or a method depends on the object itself; other searches end where they ended before.
    cases hroute : s.route o name with
    | held =>
      have hown := hP.entry hinside.attrs name
      have hown' := hP.entry hinside'.attrs name
      have hstored := lawful_stored hP hs o
      have hboth := hP.laws.closed hown' hstored
      simp only [stored?_of_key hkey]
      refine hP.laws.absorbs_join hboth hown hstored ?_ ?_
      · exact hP.laws.absorbs_trans hboth hown' hown (hP.laws.absorbs_left hown' hstored) (hattrs name)
      · rw [hP.laws.comm hown' hstored]
        exact hP.laws.absorbs_left hstored hown'
    | method => exact hmethods name
    | bases names => simpa only [hroute] using hidem
    | inherited className => simpa only [hroute] using hidem
    | nowhere => rfl

end Loaded

/-- Another state that knows the same classes, the same of what is stored on objects, and the same bound to a name
in the bodies of classes. -/
structure SameMembers (s s' : State) (name : String) : Prop where
  hierarchy : s'.hierarchy = s.hierarchy
  heap : s'.heap = s.heap
  bodies : ∀ cls, Memory.get? s'.memory ⟨cls, .root⟩ name = Memory.get? s.memory ⟨cls, .root⟩ name

theorem SameMembers.attrIn_eq {s' : State} (h : s.SameMembers s' name) (v : Value) :
    s'.attrIn v name = s.attrIn v name := by
  have hheap : ∀ identity, s'.heapAttr? identity name = s.heapAttr? identity name := by
    intro identity
    rw [heapAttr?, heapAttrs, h.heap]
    rfl
  have hlookup : ∀ cls, s'.resolver cls name = s.resolver cls name := by
    intro cls
    simp only [resolver, lookupAttr?, ownClassAttr?, h.hierarchy, h.bodies, hheap]
  have hattr : ∀ o : Object, o.attr? s'.resolver name = o.attr? s.resolver name := by
    intro o
    simp only [Object.attr?, hlookup]
  have hobject : ∀ o, s'.attrOf o name = s.attrOf o name := by
    intro o
    simp only [attrOf, objectAttr?, hheap, hattr]
  simp only [attrIn, hobject]

end State

namespace Run

variable {σ : Type} {r r' : Run σ} {x x' name : String} {a b v : Value}

theorem attrLoad_eq (horacle : r.oracle.isAvailable = false) :
    r.attrLoad x name = ((r.state.attrIn (r.lookup x) name).orUnknown, r) := by
  have hstep : ∀ out o, loadFrom name (out, r) o = (out.merge (r.state.attrOf o name), r) := by
    intro out o
    simp only [loadFrom, horacle, Bool.false_eq_true, ↓reduceIte, List.isEmpty_nil]
    rfl
  have hfold : ∀ (objs : List Object) (out : Value), objs.foldl (loadFrom name) (out, r) =
      ((objs.map fun o => r.state.attrOf o name).foldl Value.merge out, r) := by
    intro objs
    induction objs with
    | nil => exact fun out => rfl
    | cons o rest ih =>
      intro out
      rw [List.foldl_cons, hstep, ih]
      rfl
  rw [attrLoad, hfold]
  rfl

theorem sameMembers_rebind (r : Run σ) (hne : x ≠ name) (v : Value) :
    r.state.SameMembers (r.rebind x v).state name := by
  unfold rebind
  cases hstate : r.state.updateVariable? x v with
  | none => exact ⟨rfl, rfl, fun _ => rfl⟩
  | some s =>
    obtain ⟨⟨key, old⟩, -, rfl⟩ := Option.map_eq_some_iff.mp hstate
    refine ⟨rfl, rfl, fun cls => ?_⟩
    simp only [Memory.get?, Memory.frame, Memory.set, Table.get?_insert]
    split
    · rename_i hkey
      rw [Option.getD_some, Dict.get?_insert, if_neg hne.symm, hkey]
    · rfl

theorem covers_orUnknown_of_absorbs (h : v.merge a = v) : v.orUnknown.Covers a := by
  unfold Value.orUnknown
  split
  · exact .inl rfl
  · exact Value.covers_of_merge_eq h

/-- What is loaded from a base into which something was merged covers what the objects of the base hold themselves.
It covers all that was loaded before if nothing is found in the merge, or if something was found before and each
object that had the attribute keeps it. -/
theorem attrLoad_merge_covers (horacle : r.oracle.isAvailable = false) (horacle' : r'.oracle.isAvailable = false)
    (hsame : r.state.SameMembers r'.state name) (hx : r.lookup x = a) (hx' : r'.lookup x' = a.merge b)
    (hcanonical : ∀ v ∈ a :: b :: r.state.attrValues name, v.Canonical)
    (horderly : Value.Orderly (a :: b :: r.state.attrValues name)) :
    (∀ o ∈ a, ∀ v, Dict.get? o.attrs name = some v → (r'.attrLoad x' name).1.Covers v) ∧
    ((r.state.attrIn (a.merge b) name = [] ∨ r.state.attrIn a name ≠ [] ∧
        ∀ o ∈ a, r.state.attrOf o name ≠ [] → r.state.Keeps (a.merge b) o name) →
      (r'.attrLoad x' name).1.Covers (r.attrLoad x name).1) := by
  obtain ⟨P, hP, hmem⟩ := horderly.lawful hcanonical
  obtain ⟨ha, hmem⟩ := List.forall_mem_cons.mp hmem
  obtain ⟨hb, hs⟩ := List.forall_mem_cons.mp hmem
  rw [attrLoad_eq horacle, attrLoad_eq horacle', hx, hx', hsame.attrIn_eq]
  refine ⟨fun o ho v hv => ?_, ?_⟩
  · have habsorbs := State.attrIn_merge_absorbs_own hP hs ha hb ho
    rw [Attrs.entry, hv] at habsorbs
    exact covers_orUnknown_of_absorbs habsorbs
  · rintro (hnothing | ⟨hfound, hkeeps⟩)
    · rw [hnothing]
      exact .inl rfl
    · have hload : (r.state.attrIn a name).orUnknown = r.state.attrIn a name := if_neg (by simpa using hfound)
      rw [hload]
      refine covers_orUnknown_of_absorbs ?_
      refine hP.laws.absorbs_foldl (State.lawful_attrIn hP hs (hP.laws.closed ha hb)) hP.nil (Value.merge_nil _) ?_
      intro v hv
      obtain ⟨o, ho, rfl⟩ := List.mem_map.mp hv
      refine ⟨State.lawful_attrOf hP hs (hP.inside ha o ho), ?_⟩
      by_cases hempty : r.state.attrOf o name = []
      · rw [hempty, Value.merge_nil]
      · exact State.attrIn_merge_absorbs hP hs ha hb ho (hkeeps o ho hempty)

/-- A run of a module in which a variable holds a value. -/
def loading (s : State) (v : Value) : Run Unit where
  state := { s with scope := some "m", context := .root, memory := s.memory.set ⟨"m", .root⟩ "x" v }
  oracle := ⟨none, (), []⟩

theorem lookup_loading (s : State) (v : Value) : (loading s v).lookup "x" = v := by
  have hscopes : ∃ rest, (loading s v).state.visibleScopes = "m" :: rest := ⟨_, rfl⟩
  obtain ⟨rest, hscopes⟩ := hscopes
  have hkey : (loading s v).state.frameKey "m" .root = ⟨"m", .root⟩ := by
    unfold State.frameKey
    split <;> rfl
  have hget : Memory.get? (loading s v).state.memory ⟨"m", .root⟩ "x" = some v := by
    simp [loading, Memory.get?, Memory.frame, Memory.set, Table.get?_insert]
  have hfind : (loading s v).state.find? "m" "x" = some (⟨"m", .root⟩, v) := by
    rw [State.find?, show (loading s v).state.context = .root from rfl, hkey, hget]
  simp only [lookup, State.getVariable?, State.resolve?, hscopes, List.findSome?_cons, hfind]
  rfl

def sized (className : String) (size : Option Value) : Value :=
  [.instanceObject ⟨className, "", (size.map fun v => ("size", v)).toList⟩]

def classOf (bases : List String) (size : Option Value) : Value :=
  [.classObject ⟨"C", bases, (size.map fun v => ("size", v)).toList, []⟩]

theorem canonical_sized {className : String} {size : Option Value} (h : ∀ v, size = some v → v.Canonical) :
    (sized className size).Canonical := by
  cases size with
  | none => exact Value.canonical_object Dict.sorted_nil (Object.inside_instanceObject.mpr Dict.each_nil)
  | some v =>
    exact Value.canonical_object (List.pairwise_singleton _ _)
      (Object.inside_instanceObject.mpr (List.forall_mem_singleton.mpr (h v rfl)))

theorem canonical_classOf {bases : List String} {size : Option Value} (h : ∀ v, size = some v → v.Canonical) :
    (classOf bases size).Canonical := by
  cases size with
  | none =>
    exact Value.canonical_object ⟨Dict.sorted_nil, Dict.sorted_nil⟩
      (Object.inside_classObject.mpr ⟨Dict.each_nil, Dict.each_nil⟩)
  | some v =>
    exact Value.canonical_object ⟨List.pairwise_singleton _ _, Dict.sorted_nil⟩
      (Object.inside_classObject.mpr ⟨List.forall_mem_singleton.mpr (h v rfl), Dict.each_nil⟩)

theorem canonical_ints (n : Int) : (Value.ints [n]).Canonical :=
  (Value.Built.number .int ⟨[.ofInt n], .negInf, .posInf⟩).canonical

/-- Two classes whose sizes are known, and a class that inherits from the first. -/
def family : State :=
  ((((State.fresh.registerClass "A" []).addMethod "A" "size" Value.noneConstant).registerClass "B" []).addMethod
    "B" "size" Value.anyBool).registerClass "C" ["A"]

/-- A class that inherits its size, or an instance with a size of its own. -/
def classOrInstance : Value := classOf ["A"] none ++ sized "C" (some (Value.ints [1]))

def resized : Value := sized "C" (some (Value.ints [2]))

theorem canonical_classOrInstance : classOrInstance.Canonical := by
  have hmerge : classOrInstance = (classOf ["A"] none).merge (sized "C" (some (Value.ints [1]))) := by rfl
  rw [hmerge]
  exact (canonical_classOf (by simp)).merge (canonical_sized (by simpa using canonical_ints 1))

theorem orderly_classOrInstance : Value.Orderly [classOrInstance, resized, Value.noneConstant, Value.anyBool] := by
  refine Value.orderly_of_mem
    (classOrInstance ++ resized ++ Value.ints [1] ++ Value.ints [2] ++ Value.noneConstant ++ Value.anyBool)
    ?_ (by decide +kernel) (by decide +kernel)
  simp [Value.occurs_nil, Value.occurs_cons, classOrInstance, resized, classOf, sized, Object.inner, Value.ints,
    Value.noneConstant, Value.anyBool, Object.attrs]

/-- The class still inherits its size, and the instance has one of two. -/
theorem attrLoad_merge_covers_resized :
    (((loading family classOrInstance).rebind "x" (classOrInstance.merge resized)).attrLoad "x" "size").1.Covers
      ((loading family classOrInstance).attrLoad "x" "size").1 := by
  have hvalues : (loading family classOrInstance).state.attrValues "size" = [Value.noneConstant, Value.anyBool] := rfl
  have hcanonical : ∀ v ∈ [classOrInstance, resized, Value.noneConstant, Value.anyBool], v.Canonical := by
    simp only [List.forall_mem_cons]
    exact ⟨canonical_classOrInstance, canonical_sized (by simpa using canonical_ints 2), Value.Built.none.canonical,
      (Value.Built.number .bool ⟨[.zero, .one], .negInf, .posInf⟩).canonical, by simp⟩
  have hroutes : ∀ o ∈ classOrInstance, ∀ o' ∈ classOrInstance.merge resized, o'.key = o.key →
      (loading family classOrInstance).state.route o' "size" =
        (loading family classOrInstance).state.route o "size" := by
    decide +kernel
  have hkeeps : ∀ o ∈ classOrInstance,
      (loading family classOrInstance).state.Keeps (classOrInstance.merge resized) o "size" := by
    intro o ho
    rw [State.Keeps, if_neg (by decide +kernel)]
    exact hroutes o ho
  have hfound : ((loading family classOrInstance).state.attrIn classOrInstance "size").isEmpty = false := by
    decide +kernel
  refine (attrLoad_merge_covers rfl rfl (sameMembers_rebind _ (by decide) _) (lookup_loading family classOrInstance)
    rfl (hvalues ▸ hcanonical) (hvalues ▸ orderly_classOrInstance)).2
    (.inr ⟨fun hnil => ?_, fun o ho _ => hkeeps o ho⟩)
  rw [hnil] at hfound
  cases hfound

def hidingMerges : List (State × Value × Value) :=
  let one := some (Value.ints [1])
  [(.fresh, .unknown, sized "C" one), (.fresh, sized "C" none, sized "C" one), (family, sized "C" none, sized "C" one),
    (family, classOf ["A"] none, classOf ["A"] one), (family, classOf ["B"] none, classOf ["A"] none),
    (State.fresh.storeHeapAttr "instance:C@" "size" Value.noneConstant true, sized "C" none,
      (sized "C" one).merge .unknown),
    (.fresh, sized "C" (some (.numeric .int ⟨[.negZero], .negInf, .posInf⟩)),
      (sized "A" (some (.ints [0]))).merge (sized "D" (some (.numeric .int ⟨[], .zero, .posInf⟩))))]

theorem canonical_hidingMerges : ∀ c ∈ hidingMerges, c.2.1.Canonical ∧ c.2.2.Canonical := by
  have hunknown : Value.unknown.Canonical := (Value.Built.unknown Dict.sorted_nil (by simp)).canonical
  have hnumber : ∀ (className : String) (s : NumberSet), (sized className (some (.numeric .int s))).Canonical :=
    fun className s => canonical_sized fun v hv => Option.some.inj hv ▸ (Value.Built.number .int s).canonical
  have hone := hnumber "C" ⟨[.ofInt 1], .negInf, .posInf⟩
  have hnone : (sized "C" none).Canonical := canonical_sized (by simp)
  have hclass : ∀ bases, (classOf bases none).Canonical := fun bases => canonical_classOf (by simp)
  have hmethod : (classOf ["A"] (some (.ints [1]))).Canonical := canonical_classOf (by simpa using canonical_ints 1)
  have hzeros := (hnumber "A" ⟨[.ofInt 0], .negInf, .posInf⟩).merge (hnumber "D" ⟨[], .zero, .posInf⟩)
  simp only [hidingMerges, List.forall_mem_cons]
  exact ⟨⟨hunknown, hone⟩, ⟨hnone, hone⟩, ⟨hnone, hone⟩, ⟨hclass _, hmethod⟩, ⟨hclass _, hclass _⟩,
    ⟨hnone, hone.merge hunknown⟩, ⟨hnumber _ _, hzeros⟩, by simp⟩

/-- Something merged into a base may hide what was loaded from it: what is unknown has the attributes that it
absorbed, and only these; an instance has its own before those of its class, and a class its methods before those of
its bases, which are sorted when they are joined; and where nothing was found, anything that is found counts. -/
theorem attrLoad_not_monotone :
    ((loading .fresh (Value.unknown.merge (sized "C" (some (.ints [1]))))).attrLoad "x" "size").1 = .ints [1] ∧
    ∀ c ∈ hidingMerges, c.2.1.Canonical ∧ c.2.2.Canonical ∧ c.2.1 ≠ [] ∧
      (loading c.1 c.2.1).lookup "x" = c.2.1 ∧ (loading c.1 (c.2.1.merge c.2.2)).lookup "x" = c.2.1.merge c.2.2 ∧
      ¬ ((loading c.1 (c.2.1.merge c.2.2)).attrLoad "x" "size").1.Covers
        ((loading c.1 c.2.1).attrLoad "x" "size").1 := by
  have hhidden : ∀ c ∈ hidingMerges, c.2.1.isEmpty = false ∧
      ¬ ((loading c.1 (c.2.1.merge c.2.2)).attrLoad "x" "size").1.Covers
        ((loading c.1 c.2.1).attrLoad "x" "size").1 := by
    decide +kernel
  refine ⟨by rfl, fun c hc => ?_⟩
  obtain ⟨ha, hb⟩ := canonical_hidingMerges c hc
  obtain ⟨hne, hnot⟩ := hhidden c hc
  exact ⟨ha, hb, by simpa using hne, lookup_loading _ _, lookup_loading _ _, hnot⟩

end Run

end AbstractFlow
