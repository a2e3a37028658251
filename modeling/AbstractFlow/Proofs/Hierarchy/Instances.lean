import AbstractFlow.Analysis.Builtin
import AbstractFlow.Proofs.Hierarchy.Walk
import AbstractFlow.Proofs.Value.Joins

/-! # Definite tests of classes

The bases that a hierarchy knows of a class are those that its class object lists, whatever was registered. So a
class is found to be a subclass only through a chain of bases, and, unless the walk is given up, whenever there is
one. A definite answer of `isinstance` about several objects is therefore right of each of them. It is right of each
class that may be meant as well exactly if the answer would be the same for every one of these alone: the
alternatives are taken together as if they were the elements of a tuple.
-/
namespace AbstractFlow

namespace Hierarchy

def ofClasses (cs : List (Class Value)) : Hierarchy := cs.foldl register empty

def Declares (h : Hierarchy) (x y : String) : Prop := ∃ c, h.class? x = some c ∧ y ∈ c.bases

variable {h : Hierarchy} {c : Class Value} {name base x y : String} {bases : List String}

theorem directSupers_addBase : (h.addBase name base).directSupers x =
    if x = name ∧ base ∉ h.directSupers name then h.directSupers x ++ [base] else h.directSupers x := by
  simp only [addBase]
  split
  · rename_i hknown
    rw [if_neg (by simp [hknown])]
  · rename_i hnew
    rw [directSupers, Table.get?_insert]
    by_cases hx : x = name
    · simp [hx, hnew]
    · simp [hx, Ne.symm hx, directSupers]

theorem inherits_addBases : (bases.foldl (fun h b => h.addBase name b) h).Inherits x y ↔
    h.Inherits x y ∨ x = name ∧ y ∈ bases := by
  induction bases generalizing h with
  | nil => simp
  | cons base bases ih =>
    have hone : (h.addBase name base).Inherits x y ↔ h.Inherits x y ∨ x = name ∧ y = base := by
      simp only [Inherits, Edge, directSupers_addBase]
      split
      · simp_all
      · rename_i hknown
        simp only [not_and, not_not] at hknown
        exact ⟨.inl, fun h => h.elim id fun ⟨hx, hy⟩ => by subst hx; exact hy ▸ hknown rfl⟩
    rw [List.foldl_cons, ih, hone, List.mem_cons]
    tauto

theorem class?_addBases : (bases.foldl (fun h b => h.addBase name b) h).class? x = h.class? x := by
  induction bases generalizing h with
  | nil => rfl
  | cons base bases ih =>
    have hone : (h.addBase name base).class? x = h.class? x := by
      simp only [addBase]
      split <;> rfl
    rw [List.foldl_cons, ih, hone]

theorem subset_joinBases {bs cs : List String} : bs ⊆ Class.joinBases bs cs := by
  intro b hb
  unfold Class.joinBases
  split
  · exact hb
  · exact Class.mem_allBases.mpr (.inl hb)

/-- Every class is known by its name, and what is known of its bases is what its object lists. -/
structure Entered (h : Hierarchy) : Prop where
  names : ∀ {x c}, h.class? x = some c → c.name = x
  bases : ∀ x y, h.Inherits x y ↔ h.Declares x y

/-- A class that is registered is joined with what was known of it, and its bases become known. -/
theorem register_spec (hnames : ∀ {known}, h.class? c.name = some known → known.name = c.name) :
    ∃ new : Class Value, new.name = c.name ∧
      new.bases = ((h.class? c.name).map fun known => Class.joinBases known.bases c.bases).getD c.bases ∧
      (∀ x, (h.register c).class? x = if c.name = x then some new else h.class? x) ∧
      ∀ x y, (h.register c).Inherits x y ↔ h.Inherits x y ∨ x = c.name ∧ y ∈ new.bases := by
  obtain ⟨new, hname, hbases, heq⟩ : ∃ new : Class Value, new.name = c.name ∧
      new.bases = ((h.class? c.name).map fun known => Class.joinBases known.bases c.bases).getD c.bases ∧
      h.register c =
        new.bases.foldl (fun h b => h.addBase c.name b) { h with classes := h.classes.insert c.name new } := by
    unfold Hierarchy.register
    cases hknown : h.class? c.name with
    | none => exact ⟨c, rfl, rfl, rfl⟩
    | some known =>
      have hname : (joinClasses known c).name = c.name := (hnames hknown :)
      exact ⟨joinClasses known c, hname, rfl, by simp only [hname]⟩
  refine ⟨new, hname, hbases, fun x => ?_, fun x y => ?_⟩
  · rw [heq, class?_addBases, class?, Table.get?_insert, class?]
  · rw [heq, inherits_addBases]
    rfl

theorem Entered.register (hh : h.Entered) (c : Class Value) : (h.register c).Entered := by
  obtain ⟨new, hname, hbases, hclass, hinherits⟩ := register_spec (c := c) hh.names
  have hold : ∀ known, h.class? c.name = some known → known.bases ⊆ new.bases := by
    intro known hknown
    rw [hbases, hknown]
    exact subset_joinBases
  constructor
  · intro x d hd
    rw [hclass] at hd
    split at hd
    · cases hd
      exact hname.trans ‹_›
    · exact hh.names hd
  · intro x y
    rw [hinherits, hh.bases]
    simp only [Declares, hclass]
    by_cases hx : c.name = x
    · subst hx
      simp only [if_true, Option.some.injEq, exists_eq_left', true_and]
      exact ⟨fun h => h.elim (fun ⟨known, hknown, hy⟩ => hold known hknown hy) id, .inr⟩
    · simp [hx, Ne.symm hx]

theorem Entered.inherits_eq (hh : h.Entered) : h.Inherits = h.Declares :=
  funext fun x => funext fun y => propext (hh.bases x y)

theorem entered_ofClasses (cs : List (Class Value)) : (ofClasses cs).Entered := by
  unfold ofClasses
  induction cs using List.reverseRecOn with
  | nil =>
    have hnone : ∀ x, empty.class? x = none := fun _ => rfl
    have hsupers : ∀ x y, ¬ empty.Inherits x y := fun _ _ => List.not_mem_nil
    exact ⟨by simp [hnone], fun x y => by simp [Declares, hnone, hsupers]⟩
  | append_singleton cs c ih =>
    rw [List.foldl_append, List.foldl_cons, List.foldl_nil]
    exact ih.register c

end Hierarchy

namespace Builtin

variable {h : Hierarchy} {v cls : Value} {b : Bool} {k o : Object}

theorem agreed?_eq_some {answers : List (Option Bool)} :
    agreed? answers = some b ↔ answers ≠ [] ∧ ∀ x ∈ answers, x = some b := by
  unfold agreed?
  split
  · simp
  · simp
  · rename_i x rest _
    simp only [List.all_eq_true, beq_iff_eq, ne_eq, reduceCtorEq, not_false_eq_true, true_and, List.forall_mem_cons]
    split
    · rename_i hall
      exact ⟨fun hx => ⟨hx, fun y hy => (hall y hy).trans hx⟩, And.left⟩
    · rename_i hsome
      simp only [reduceCtorEq, false_iff]
      rintro ⟨rfl, hrest⟩
      exact hsome hrest

/-- The classes that are meant by a class argument. -/
def meant (k : Object) : List String := (classesOf? k).getD []

theorem mapM_classesOf? {classes : List (List String)} :
    cls.mapM classesOf? = some classes ↔ (∀ k ∈ cls, (classesOf? k).isSome = true) ∧ cls.map meant = classes := by
  induction cls generalizing classes with
  | nil => simp
  | cons k cls ih =>
    rw [List.mapM_cons, List.forall_mem_cons, List.map_cons]
    cases hk : classesOf? k with
    | none => simp
    | some names =>
      have hmeant : meant k = names := by rw [meant, hk, Option.getD_some]
      simp only [hmeant, Option.bind_eq_bind, Option.bind_some, Option.bind_eq_some_iff, ih, Option.pure_def,
        Option.some.injEq, Option.isSome_some, true_and]
      exact ⟨fun ⟨_, ⟨hall, hrest⟩, heq⟩ => ⟨hall, hrest ▸ heq⟩, fun ⟨hall, heq⟩ => ⟨_, ⟨hall, rfl⟩, heq⟩⟩

theorem isInstanceOf?_eq_some {names : List String} : isInstanceOf? h names o = some b ↔
    ∃ i, o = .instanceObject i ∧ ((∃ c ∈ names, h.isSubclass i.className c = true) ↔ b = true) := by
  cases o with
  | instanceObject i =>
    simp only [isInstanceOf?, Option.some.injEq, Object.instanceObject.injEq, exists_eq_left']
    rw [Bool.eq_iff_iff, List.any_eq_true]
  | _ => simp [isInstanceOf?]

theorem bool_eq_bool {a b : Bool} : Value.bool a = Value.bool b ↔ a = b := by
  simp only [Value.bool, List.cons.injEq, Object.constant.injEq, and_true]
  revert a b
  decide

theorem anyBool_ne_bool {b : Bool} : Value.anyBool ≠ Value.bool b := by
  simp only [Value.anyBool, Value.bool, ne_eq, List.cons.injEq, Object.constant.injEq, and_true]
  revert b
  decide

/-- An answer is definite if every object is an instance and every class argument is known, and if all instances
agree about the classes that are meant by any of these arguments. -/
theorem isInstance_eq_bool : isInstance h v cls = Value.bool b ↔
    (∀ k ∈ cls, (classesOf? k).isSome = true) ∧ v ≠ [] ∧ ∀ o ∈ v, ∃ i, o = .instanceObject i ∧
      ((∃ k ∈ cls, ∃ c ∈ meant k, h.isSubclass i.className c = true) ↔ b = true) := by
  cases hcls : cls.mapM classesOf? with
  | none =>
    simp only [isInstance, hcls, anyBool_ne_bool, false_iff]
    rintro ⟨hall, -⟩
    rw [mapM_classesOf?.mpr ⟨hall, rfl⟩] at hcls
    cases hcls
  | some classes =>
    obtain ⟨hall, rfl⟩ := mapM_classesOf?.mp hcls
    have hflat : ∀ P : String → Prop, (∃ c ∈ (cls.map meant).flatten, P c) ↔ ∃ k ∈ cls, ∃ c ∈ meant k, P c := by
      intro P
      simp only [← List.flatMap_def, List.mem_flatMap]
      exact ⟨fun ⟨c, ⟨k, hk, hc⟩, h⟩ => ⟨k, hk, c, hc, h⟩, fun ⟨k, hk, c, hc, h⟩ => ⟨c, ⟨k, hk, hc⟩, h⟩⟩
    have hagreed : agreed? (v.map (isInstanceOf? h (cls.map meant).flatten)) = some b ↔
        v ≠ [] ∧ ∀ o ∈ v, isInstanceOf? h (cls.map meant).flatten o = some b := by
      rw [agreed?_eq_some, List.forall_mem_map, ne_eq, List.map_eq_nil_iff]
    simp only [isInstanceOf?_eq_some, hflat] at hagreed
    rw [← hagreed]
    simp only [isInstance, hcls]
    split
    · rename_i c hc
      simp only [hc, bool_eq_bool, Option.some.injEq, iff_and_self]
      exact fun _ => hall
    · rename_i hnone
      simp [hnone, anyBool_ne_bool]

/-- Each class argument that may be meant has by itself an answer. -/
def Alone (h : Hierarchy) (v cls : Value) (b : Bool) : Prop := ∀ k ∈ cls, isInstance h v [k] = Value.bool b

theorem isInstance_singleton : isInstance h v [k] = Value.bool b ↔
    (classesOf? k).isSome = true ∧ v ≠ [] ∧ ∀ o ∈ v, ∃ i, o = .instanceObject i ∧
      ((∃ c ∈ meant k, h.isSubclass i.className c = true) ↔ b = true) := by
  simp [isInstance_eq_bool]

/-- An answer about a value is right if, whatever instance the value is and whichever class argument is meant, the
class of the instance inherits from one of the classes that this stands for just when the answer is so. -/
def RightAnswer (h : Hierarchy) (v cls : Value) (b : Bool) : Prop :=
  ∀ i, .instanceObject i ∈ v → ∀ k ∈ cls, ∃ classes, classesOf? k = some classes ∧
    ((∃ c ∈ classes, Relation.ReflTransGen h.Declares i.className c) ↔ b = true)

/-- No walk is given up from the class of an instance that a value may be. -/
def Walked (h : Hierarchy) (v : Value) : Prop := ∀ i, .instanceObject i ∈ v → (h.walk i.className).stopped = false

theorem meant_eq {classes : List String} (hk : classesOf? k = some classes) : meant k = classes := by
  rw [meant, hk, Option.getD_some]

theorem alone_of_false (hdefinite : isInstance h v cls = Value.bool false) : Alone h v cls false := by
  obtain ⟨hknown, hne, hall⟩ := isInstance_eq_bool.mp hdefinite
  intro k hk
  refine isInstance_singleton.mpr ⟨hknown k hk, hne, fun o ho => ?_⟩
  obtain ⟨i, hi, hanswer⟩ := hall o ho
  refine ⟨i, hi, iff_of_false (fun ⟨c, hc, hsub⟩ => ?_) Bool.false_ne_true⟩
  exact Bool.false_ne_true (hanswer.mp ⟨k, hk, c, hc, hsub⟩)

theorem right_of_alone (hh : h.Entered) (hwalk : b = false → Walked h v) (halone : Alone h v cls b) :
    RightAnswer h v cls b := by
  intro i hi k hk
  obtain ⟨hknown, -, hall⟩ := isInstance_singleton.mp (halone k hk)
  obtain ⟨classes, hclasses⟩ := Option.isSome_iff_exists.mp hknown
  obtain ⟨j, hj, hanswer⟩ := hall _ hi
  cases hj
  rw [meant_eq hclasses] at hanswer
  refine ⟨classes, hclasses, ?_⟩
  rw [← hh.inherits_eq]
  cases b with
  | true =>
    obtain ⟨c, hc, hsub⟩ := hanswer.mpr rfl
    exact iff_of_true ⟨c, hc, Hierarchy.inherits_of_isSubclass hsub⟩ rfl
  | false => simpa only [Hierarchy.isSubclass_iff (hwalk rfl i hi)] using hanswer

theorem alone_of_right (hh : h.Entered) (hwalk : Walked h v) (hdefinite : isInstance h v cls = Value.bool b)
    (hright : RightAnswer h v cls b) : Alone h v cls b := by
  obtain ⟨hknown, hne, hall⟩ := isInstance_eq_bool.mp hdefinite
  intro k hk
  refine isInstance_singleton.mpr ⟨hknown k hk, hne, fun o ho => ?_⟩
  obtain ⟨i, rfl, -⟩ := hall o ho
  obtain ⟨classes, hclasses, hanswer⟩ := hright i ho k hk
  rw [← hh.inherits_eq] at hanswer
  refine ⟨i, rfl, ?_⟩
  rw [meant_eq hclasses]
  simpa only [Hierarchy.isSubclass_iff (hwalk i ho)] using hanswer

/-- A definite answer is right of every instance and, if it is positive, of one of the classes that may be meant; if
it is negative, of all of them unless a walk is given up. A positive one is right of all of them if each alone has
that answer; and if no walk is given up, any answer is right just then. -/
theorem isInstance_right (cs : List (Class Value)) (v cls : Value) (b : Bool)
    (hdefinite : isInstance (.ofClasses cs) v cls = Value.bool b) :
    (b = true → ∀ i, .instanceObject i ∈ v → ∃ k ∈ cls, ∃ classes, classesOf? k = some classes ∧
      ∃ c ∈ classes, Relation.ReflTransGen (Hierarchy.ofClasses cs).Declares i.className c) ∧
    (b = true → Alone (.ofClasses cs) v cls true → RightAnswer (.ofClasses cs) v cls true) ∧
    (b = false → Walked (.ofClasses cs) v → RightAnswer (.ofClasses cs) v cls false) ∧
    (Walked (.ofClasses cs) v →
      (RightAnswer (.ofClasses cs) v cls b ↔ Alone (.ofClasses cs) v cls b)) := by
  have hh := Hierarchy.entered_ofClasses cs
  refine ⟨?_, fun _ => right_of_alone hh (by simp), ?_,
    fun hwalk => ⟨alone_of_right hh hwalk hdefinite, right_of_alone hh fun _ => hwalk⟩⟩
  · rintro rfl i hi
    obtain ⟨hknown, -, hall⟩ := isInstance_eq_bool.mp hdefinite
    obtain ⟨j, hj, hanswer⟩ := hall _ hi
    cases hj
    obtain ⟨k, hk, c, hc, hsub⟩ := hanswer.mpr rfl
    obtain ⟨classes, hclasses⟩ := Option.isSome_iff_exists.mp (hknown k hk)
    refine ⟨k, hk, classes, hclasses, c, meant_eq hclasses ▸ hc, ?_⟩
    exact hh.inherits_eq ▸ Hierarchy.inherits_of_isSubclass hsub
  · rintro rfl hwalk
    exact right_of_alone hh (fun _ => hwalk) (alone_of_false hdefinite)

def bare (name : String) (bases : List String) : Class Value := ⟨name, bases, [], []⟩

def plainInstance (className : String) : Object := .instanceObject ⟨className, "", []⟩

theorem isInstance_right_derived :
    RightAnswer (.ofClasses [bare "A" [], bare "B" ["A"], bare "C" ["B"]]) [plainInstance "C", plainInstance "B"]
      [.classObject (bare "A" [])] true := by
  have hwalk : Walked (.ofClasses [bare "A" [], bare "B" ["A"], bare "C" ["B"]])
      [plainInstance "C", plainInstance "B"] := by
    intro i hi
    rcases List.mem_pair.mp hi with hi | hi <;> cases hi <;> decide +kernel
  have hright := (isInstance_right [bare "A" [], bare "B" ["A"], bare "C" ["B"]] [plainInstance "C", plainInstance "B"]
    [.classObject (bare "A" [])] true rfl).2.2.2 hwalk
  exact hright.mpr fun k hk => by
    obtain rfl := List.mem_singleton.mp hk
    rfl

def chained (length : Nat) : List (Class Value) :=
  (List.range length).map fun n => bare ("C" ++ toString n) ["C" ++ toString (n + 1)]

/-- Of two classes one of which may be meant, an instance is taken to be of both because it is of one; and a class is
taken not to inherit from another because the walk to it is given up. -/
theorem isInstance_overlooks :
    (isInstance (.ofClasses [bare "A" [], bare "B" []]) [plainInstance "A"]
        [.classObject (bare "A" []), .classObject (bare "B" [])] = Value.bool true ∧
      ¬ RightAnswer (.ofClasses [bare "A" [], bare "B" []]) [plainInstance "A"]
        [.classObject (bare "A" []), .classObject (bare "B" [])] true) ∧
    (isInstance (.ofClasses (chained 66)) [plainInstance "C0"] [.classObject (bare "C66" [])] = Value.bool false ∧
      ¬ RightAnswer (.ofClasses (chained 66)) [plainInstance "C0"] [.classObject (bare "C66" [])] false) := by
  have hchain : (Hierarchy.ofClasses (chained 66)).isSubclass "C0" "C65" = true ∧
      (Hierarchy.ofClasses (chained 66)).Inherits "C65" "C66" ∧
      (Hierarchy.ofClasses (chained 66)).isSubclass "C0" "C66" = false := by decide +kernel
  obtain ⟨hfound, hlast, hmissed⟩ := hchain
  refine ⟨⟨rfl, fun hright => ?_⟩, ?_, fun hright => ?_⟩
  · have hwalk : Walked (.ofClasses [bare "A" [], bare "B" []]) [plainInstance "A"] := by
      intro i hi
      cases List.mem_singleton.mp hi
      decide +kernel
    have halone := alone_of_right (Hierarchy.entered_ofClasses _) hwalk rfl hright
      (.classObject (bare "B" [])) (by simp)
    exact absurd (bool_eq_bool.mp halone) (by decide)
  · refine isInstance_eq_bool.mpr ⟨by simp [classesOf?], by simp, fun o ho => ?_⟩
    refine ⟨⟨"C0", "", []⟩, List.mem_singleton.mp ho, ?_⟩
    simp [meant, classesOf?, bare, hmissed]
  · have hreach := (Hierarchy.inherits_of_isSubclass hfound).tail hlast
    rw [(Hierarchy.entered_ofClasses _).inherits_eq] at hreach
    obtain ⟨classes, hclasses, hanswer⟩ := hright ⟨"C0", "", []⟩ (List.mem_singleton.mpr rfl) _ List.mem_cons_self
    cases hclasses
    exact Bool.false_ne_true (hanswer.mp ⟨"C66", List.mem_singleton.mpr rfl, hreach⟩)

end Builtin

end AbstractFlow
