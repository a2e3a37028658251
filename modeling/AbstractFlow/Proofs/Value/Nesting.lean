import AbstractFlow.Proofs.Collection.Weight
import AbstractFlow.Proofs.Value.Keys

/-! # Values inside of values

Containers, attributes and methods nest values in each other. Merging two values merges what is nested in
them, one level deeper, and never makes the nesting deeper. So the bound on the depth with which a merge
starts is of no account: a merge is one level of merging whose nested values are merged the same way.
-/
namespace AbstractFlow

namespace Object

/-- The values nested directly in an object. -/
def inner : Object → List Value
  | .container c => [c.elem, c.key]
  | .classObject c => c.methods.map Prod.snd ++ c.attrs.map Prod.snd
  | o => o.attrs.map Prod.snd

def Inside (p : Value → Prop) (o : Object) : Prop := ∀ w ∈ o.inner, p w

end Object

def Value.Inside (p : Value → Prop) (v : Value) : Prop := ∀ o ∈ v, o.Inside p

abbrev Attrs.Holds (p : Value → Prop) (as : Attrs) : Prop := Dict.Each (fun _ => p) as

variable {p q : Value → Prop} {m m' : Value → Value → Value}

namespace Object

theorem Inside.attrs {o : Object} (h : o.Inside p) : Attrs.Holds p o.attrs := by
  intro e he
  refine h e.2 ?_
  have hmem : e.2 ∈ o.attrs.map Prod.snd := List.mem_map_of_mem he
  cases o with
  | container c => simp [Object.attrs] at he
  | classObject c => exact List.mem_append_right _ hmem
  | _ => exact hmem

theorem inside_of_attrs {o : Object} (h : o.inner = o.attrs.map Prod.snd) :
    o.Inside p ↔ Attrs.Holds p o.attrs := by
  rw [Inside, h]
  exact List.forall_mem_map

theorem inside_constant (c : Constant) : (Object.constant c).Inside p := by
  simp [Inside, inner, attrs]

theorem inside_unknown {as : Attrs} : (Object.unknown as).Inside p ↔ Attrs.Holds p as :=
  inside_of_attrs rfl

theorem inside_container {c : Container Value} : (Object.container c).Inside p ↔ p c.elem ∧ p c.key := by
  simp [Inside, inner]

theorem inside_function {f : Function Value} : (Object.function f).Inside p ↔ Attrs.Holds p f.attrs :=
  inside_of_attrs rfl

theorem inside_instanceObject {i : Instance Value} :
    (Object.instanceObject i).Inside p ↔ Attrs.Holds p i.attrs :=
  inside_of_attrs rfl

theorem inside_external {e : External Value} : (Object.external e).Inside p ↔ Attrs.Holds p e.attrs :=
  inside_of_attrs rfl

theorem inside_classObject {c : Class Value} :
    (Object.classObject c).Inside p ↔ Attrs.Holds p c.methods ∧ Attrs.Holds p c.attrs := by
  rw [Inside, inner, List.forall_mem_append]
  exact and_congr List.forall_mem_map List.forall_mem_map

theorem inside_withAttrs {o : Object} {as : Attrs} (h : o.Inside p) (has : Attrs.Holds p as) :
    (o.withAttrs as).Inside p := by
  cases o with
  | unknown => exact inside_unknown.mpr has
  | constant | container => exact h
  | function => exact inside_function.mpr has
  | classObject => exact inside_classObject.mpr ⟨(inside_classObject.mp h).1, has⟩
  | instanceObject => exact inside_instanceObject.mpr has
  | external => exact inside_external.mpr has

end Object

theorem attrsDepth_le {as : Attrs} {n : Nat} : attrsDepth as ≤ n ↔ Attrs.Holds (fun v => v.depth ≤ n) as := by
  induction as with
  | nil => simp [attrsDepth, Dict.Each]
  | cons e rest ih =>
    simp only [attrsDepth, Nat.max_le, ih, Dict.Each, List.forall_mem_cons]
    rfl

theorem Object.depth_le {o : Object} {n : Nat} : o.depth ≤ n + 1 ↔ o.Inside fun v => v.depth ≤ n := by
  cases o with
  | unknown as => simp only [depth, Nat.add_le_add_iff_right, attrsDepth_le, inside_unknown]
  | constant c => simp [depth, inside_constant]
  | container c => simp only [depth, Nat.add_le_add_iff_right, Nat.max_le, inside_container, Value.depth]
  | function f => simp only [depth, Nat.add_le_add_iff_right, attrsDepth_le, inside_function]
  | classObject c =>
    simp only [depth, Nat.add_le_add_iff_right, Nat.max_le, attrsDepth_le, inside_classObject]
  | instanceObject i => simp only [depth, Nat.add_le_add_iff_right, attrsDepth_le, inside_instanceObject]
  | external e => simp only [depth, Nat.add_le_add_iff_right, attrsDepth_le, inside_external]

namespace Value

theorem depth_le_iff {v : Value} {n : Nat} : v.depth ≤ n ↔ ∀ o ∈ v, o.depth ≤ n := by
  unfold depth
  induction v with
  | nil => simp [valueDepth]
  | cons o rest ih => simp only [valueDepth, Nat.max_le, ih, List.forall_mem_cons]

theorem depth_le_succ {v : Value} {n : Nat} : v.depth ≤ n + 1 ↔ v.Inside fun w => w.depth ≤ n := by
  rw [depth_le_iff]
  exact forall₂_congr fun o _ => o.depth_le

theorem depth_eq_zero {v : Value} : v.depth = 0 ↔ v = [] := by
  constructor
  · intro h
    cases v with
    | nil => rfl
    | cons o rest =>
      have ho := depth_le_iff.mp h.le o List.mem_cons_self
      cases o <;> simp [Object.depth] at ho
  · rintro rfl
    rfl

end Value

/-- Two ways of merging agree on values with a property, and keep the property. -/
structure AgreeOn (p : Value → Prop) (m m' : Value → Value → Value) : Prop where
  eq : ∀ {a b : Value}, p a → p b → m a b = m' a b
  keeps : ∀ {a b : Value}, p a → p b → p (m a b)

theorem AgreeOn.refl (h : ∀ {a b : Value}, p a → p b → p (m a b)) : AgreeOn p m m := ⟨fun _ _ => rfl, h⟩

theorem Dict.insertWith_agree (h : AgreeOn p m m') {d : Attrs} (hd : Attrs.Holds p d) {name : String}
    {v : Value} (hv : p v) : Dict.insertWith m name v d = Dict.insertWith m' name v d := by
  induction d with
  | nil => rfl
  | cons e rest ih =>
    have he : p e.2 := hd e List.mem_cons_self
    have hrest := ih fun x hx => hd x (List.mem_cons_of_mem _ hx)
    simp only [Dict.insertWith, h.eq he hv, hrest]

theorem Attrs.Holds.mergeWith (h : AgreeOn p m m') {d e : Attrs} (hd : Attrs.Holds p d)
    (he : Attrs.Holds p e) : Attrs.Holds p (Dict.mergeWith m d e) :=
  Dict.Each.mergeWith (fun _ _ _ => h.keeps) hd he

theorem Dict.mergeWith_agree (h : AgreeOn p m m') {d e : Attrs} (hd : Attrs.Holds p d)
    (he : Attrs.Holds p e) : Dict.mergeWith m d e = Dict.mergeWith m' d e := by
  unfold Dict.mergeWith
  induction e generalizing d with
  | nil => rfl
  | cons x rest ih =>
    have hx : p x.2 := he x List.mem_cons_self
    rw [List.foldl_cons, List.foldl_cons, ← insertWith_agree h hd hx]
    exact ih (Dict.Each.insertWith (fun _ _ _ => h.keeps) hd hx) fun y hy => he y (List.mem_cons_of_mem _ hy)

namespace Object

theorem mergeWith_agree (h : AgreeOn p m m') {x y : Object} (hx : x.Inside p) (hy : y.Inside p) :
    x.mergeWith m y = x.mergeWith m' y := by
  have hattrs := Dict.mergeWith_agree h hx.attrs hy.attrs
  unfold mergeWith
  split
  · rw [hattrs]
  · split
    · rfl
    · obtain ⟨helem, hkey⟩ := inside_container.mp hx
      obtain ⟨helem', hkey'⟩ := inside_container.mp hy
      rw [Container.mergeWith, Container.mergeWith, h.eq helem helem', h.eq hkey hkey']
    · rw [Function.mergeWith, Function.mergeWith]
      exact congrArg (fun as => Object.function { attrs := as, .. }) hattrs
    · have hmethods := Dict.mergeWith_agree h (inside_classObject.mp hx).1 (inside_classObject.mp hy).1
      rw [Class.mergeWith, Class.mergeWith, hmethods]
      exact congrArg (fun as => Object.classObject { attrs := as, .. }) hattrs
    · rw [hattrs]

theorem inside_mergeWith (h : AgreeOn p m m') {x y : Object} (hx : x.Inside p) (hy : y.Inside p) :
    (x.mergeWith m y).Inside p := by
  have hattrs := hx.attrs.mergeWith h hy.attrs
  unfold mergeWith
  split
  · exact inside_unknown.mpr hattrs
  · split
    · exact inside_constant _
    · obtain ⟨helem, hkey⟩ := inside_container.mp hx
      obtain ⟨helem', hkey'⟩ := inside_container.mp hy
      exact inside_container.mpr ⟨h.keeps helem helem', h.keeps hkey hkey'⟩
    · exact inside_function.mpr hattrs
    · have hmethods := (inside_classObject.mp hx).1.mergeWith h (inside_classObject.mp hy).1
      exact inside_classObject.mpr ⟨hmethods, hattrs⟩
    · exact inside_withAttrs hx hattrs

end Object

namespace Value

theorem absorbWith_agree (h : AgreeOn p m m') {objs : List Object} (hobjs : Inside p objs) {o : Object}
    (ho : o.Inside p) :
    absorbWith m objs o = absorbWith m' objs o ∧ Inside p (absorbWith m objs o) := by
  induction objs with
  | nil => exact ⟨rfl, List.forall_mem_singleton.mpr ho⟩
  | cons x rest ih =>
    obtain ⟨hx, hrest⟩ := List.forall_mem_cons.mp hobjs
    obtain ⟨heq, hinside⟩ := ih hrest
    unfold absorbWith
    split
    · exact ⟨by rw [Object.mergeWith_agree h hx ho],
        List.forall_mem_cons.mpr ⟨Object.inside_mergeWith h hx ho, hrest⟩⟩
    · exact ⟨by rw [heq], List.forall_mem_cons.mpr ⟨hx, hinside⟩⟩

theorem foldl_absorbWith_agree (h : AgreeOn p m m') {a b : Value} (ha : a.Inside p) (hb : b.Inside p) :
    b.foldl (absorbWith m) a = b.foldl (absorbWith m') a ∧ Inside p (b.foldl (absorbWith m) a) := by
  induction b generalizing a with
  | nil => exact ⟨rfl, ha⟩
  | cons o rest ih =>
    obtain ⟨ho, hrest⟩ := List.forall_mem_cons.mp hb
    obtain ⟨heq, hinside⟩ := absorbWith_agree h ha ho
    rw [List.foldl_cons, List.foldl_cons, ← heq]
    exact ih hinside hrest

theorem foldl_attrs_agree (h : AgreeOn p m m') {objs : List Object} (hobjs : Inside p objs) {as : Attrs}
    (has : Attrs.Holds p as) :
    objs.foldl (fun as o => Dict.mergeWith m as o.attrs) as =
        objs.foldl (fun as o => Dict.mergeWith m' as o.attrs) as ∧
      Attrs.Holds p (objs.foldl (fun as o => Dict.mergeWith m as o.attrs) as) := by
  induction objs generalizing as with
  | nil => exact ⟨rfl, has⟩
  | cons o rest ih =>
    obtain ⟨ho, hrest⟩ := List.forall_mem_cons.mp hobjs
    rw [List.foldl_cons, List.foldl_cons, ← Dict.mergeWith_agree h has ho.attrs]
    exact ih hrest (has.mergeWith h ho.attrs)

theorem collapseWith_agree (h : AgreeOn p m m') {objs : List Object} (hobjs : Inside p objs) :
    collapseWith m objs = collapseWith m' objs ∧ Inside p (collapseWith m objs) := by
  obtain ⟨heq, hholds⟩ := foldl_attrs_agree h hobjs Dict.each_nil
  unfold collapseWith
  exact ⟨by rw [heq], List.forall_mem_singleton.mpr (Object.inside_unknown.mpr hholds)⟩

theorem inside_canonical {objs : List Object} (h : Inside p objs) : Inside p (canonical objs) :=
  fun o ho => h o (mem_canonical.mp ho)

theorem mergeWith_agree (h : AgreeOn p m m') {a b : Value} (ha : a.Inside p) (hb : b.Inside p) :
    mergeWith m a b = mergeWith m' a b ∧ (mergeWith m a b).Inside p := by
  obtain ⟨heq, hinside⟩ := foldl_absorbWith_agree h ha hb
  obtain ⟨hall, hall'⟩ := collapseWith_agree h (List.forall_mem_append.mpr ⟨ha, hb⟩)
  obtain ⟨hobjs, hobjs'⟩ := collapseWith_agree h hinside
  simp only [mergeWith, ← hall, ← heq, ← hobjs, true_and]
  split
  · exact hb
  · split
    · exact ha
    · split
      · exact hall'
      · split
        · exact hobjs'
        · exact inside_canonical hinside

/-- A larger bound on the depth changes nothing. -/
theorem agreeOn_mergeAt_succ (n : Nat) : AgreeOn (fun v => v.depth ≤ n) (mergeAt n) (mergeAt (n + 1)) := by
  induction n with
  | zero =>
    have hnil : ∀ {a : Value}, a.depth ≤ 0 → a = [] := fun h => depth_eq_zero.mp (Nat.le_zero.mp h)
    refine ⟨fun ha hb => ?_, fun ha _ => ha⟩
    rw [hnil ha, hnil hb]
    rfl
  | succ n ih =>
    refine ⟨fun ha hb => ?_, fun ha hb => ?_⟩
    · exact (mergeWith_agree ih (depth_le_succ.mp ha) (depth_le_succ.mp hb)).1
    · exact depth_le_succ.mpr (mergeWith_agree ih (depth_le_succ.mp ha) (depth_le_succ.mp hb)).2

theorem mergeAt_eq {a b : Value} {n k : Nat} (ha : a.depth ≤ n) (hb : b.depth ≤ n) (h : n ≤ k) :
    mergeAt k a b = mergeAt n a b := by
  induction k, h using Nat.le_induction with
  | base => rfl
  | succ k hk ih => rw [← (agreeOn_mergeAt_succ k).eq (ha.trans hk) (hb.trans hk), ih]

theorem merge_eq_mergeAt {a b : Value} {n : Nat} (ha : a.depth ≤ n) (hb : b.depth ≤ n) :
    a.merge b = mergeAt n a b :=
  (mergeAt_eq (Nat.le_max_left _ _) (Nat.le_max_right _ _) (Nat.max_le.mpr ⟨ha, hb⟩)).symm

theorem agreeOn_mergeAt (n : Nat) : AgreeOn (fun v => v.depth ≤ n) (mergeAt n) merge :=
  ⟨fun ha hb => (merge_eq_mergeAt ha hb).symm, (agreeOn_mergeAt_succ n).keeps⟩

/-- A merge is one level of merging, in which nested values are merged alike. -/
theorem merge_eq (a b : Value) : a.merge b = mergeWith merge a b := by
  have ha : a.depth ≤ max a.depth b.depth + 1 := (Nat.le_max_left _ _).trans (Nat.le_succ _)
  have hb : b.depth ≤ max a.depth b.depth + 1 := (Nat.le_max_right _ _).trans (Nat.le_succ _)
  rw [merge_eq_mergeAt ha hb]
  exact (mergeWith_agree (agreeOn_mergeAt _) (depth_le_succ.mp ha) (depth_le_succ.mp hb)).1

theorem mergeWith_merge : mergeWith merge = merge := by
  funext a b
  exact (merge_eq a b).symm

theorem mergeAll_of_forall (hnil : p []) (hmerge : ∀ {a b : Value}, p a → p b → p (a.merge b)) {vs : List Value}
    (h : ∀ v ∈ vs, p v) : p (mergeAll vs) := by
  have hfold : ∀ w : Value, p w → p (vs.foldl merge w) := by
    induction vs with
    | nil => exact fun w hw => hw
    | cons v rest ih =>
      obtain ⟨hv, hrest⟩ := List.forall_mem_cons.mp h
      exact fun w hw => ih hrest _ (hmerge hw hv)
  exact hfold [] hnil

theorem depth_merge_le {a b : Value} {n : Nat} (ha : a.depth ≤ n) (hb : b.depth ≤ n) :
    (a.merge b).depth ≤ n := by
  rw [merge_eq_mergeAt ha hb]
  exact (agreeOn_mergeAt n).keeps ha hb

end Value

end AbstractFlow
