import AbstractFlow.Proofs.Collection.Weight
import AbstractFlow.Proofs.Value.Nesting
import AbstractFlow.Value.Build

/-! # Plain values

A value is uniform if it is unknown, or its objects belong to one family and have strictly increasing keys.
If a family has few keys and no attributes, and is closed under merging objects of one key, then its uniform
values never overflow: they merge into uniform values, by merging the objects of each key. A plain value is
one of constants only, of which there are five types.
-/
namespace AbstractFlow

def Constant.typeNames : List String := ["int", "float", "bool", "str", "NoneType"]

theorem Constant.typeName_mem (c : Constant) : c.typeName ∈ Constant.typeNames := by
  rcases c with ⟨_ | _ | _, _⟩ | _ | _ <;> simp [Constant.typeName, NumericType.name, Constant.typeNames]

namespace Object

theorem key_constant_inj {c d : Constant} (h : (Object.constant c).key = (Object.constant d).key) :
    c.typeName = d.typeName := by
  have h : ("const:" ++ c.typeName).toList = ("const:" ++ d.typeName).toList := congrArg String.toList h
  rw [String.toList_append, String.toList_append] at h
  exact String.toList_inj.mp (List.append_cancel_left h)

theorem mergeWith_constant (m : Value → Value → Value) {c d : Constant}
    (h : (Object.constant c).key = (Object.constant d).key) :
    (Object.constant c).mergeWith m (.constant d) = .constant (c.join d) := by
  unfold mergeWith
  rw [if_neg (not_not_intro h)]

/-- Known objects without attributes, of few keys; objects of one key merge into such objects. -/
structure Family (P : Object → Prop) (keys : List String) : Prop where
  attrs : ∀ {o : Object}, P o → o.attrs = []
  known : ∀ {o : Object}, P o → o.isUnknown = false
  key : ∀ {o : Object}, P o → o.key ∈ keys
  few : keys.length ≤ Value.objectLimit
  merge : ∀ {x y : Object}, P x → P y → x.key = y.key → P (x.mergeWith Value.merge y)

/-- A family with a positive and bounded weight: a merge that changes an object, as far as a map can see,
makes it heavier. -/
structure Ranked {β : Type} (P : Object → Prop) (keys : List String) (g : Object → β) (w : Object → Nat)
    (bound : Nat) : Prop extends Family P keys where
  sees : ∀ {x y : Object}, g x = g y → w x = w y
  pos : ∀ {o : Object}, P o → 0 < w o
  le : ∀ {o : Object}, P o → w o ≤ bound
  rises : ∀ {x y : Object}, P x → P y → x.key = y.key →
    g (x.mergeWith Value.merge y) = g x ∨ w x < w (x.mergeWith Value.merge y)

end Object

namespace Value

variable {P : Object → Prop} {keys : List String} {a b : Value}

@[simp] theorem nil_merge (b : Value) : merge [] b = b := by
  rw [merge_eq]
  rfl

@[simp] theorem merge_nil (a : Value) : merge a [] = a := by
  rw [merge_eq]
  cases a with
  | nil => rfl
  | cons => rfl

/-- Unknown, or objects of a family under strictly increasing keys. -/
def Uniform (P : Object → Prop) (v : Value) : Prop := v = unknown ∨ (Dict.Sorted v.keyed ∧ ∀ o ∈ v, P o)

theorem uniform_unknown : Uniform P unknown := Or.inl rfl

theorem uniform_nil : Uniform P [] := Or.inr ⟨Dict.sorted_nil, by simp⟩

theorem hasUnknown_unknown : unknown.hasUnknown = true := rfl

theorem collapseWith_of_attrs {m : Value → Value → Value} {objs : List Object}
    (h : ∀ o ∈ objs, o.attrs = []) : collapseWith m objs = unknown := by
  have hfold : ∀ as : Attrs, objs.foldl (fun as o => Dict.mergeWith m as o.attrs) as = as := by
    intro as
    induction objs with
    | nil => rfl
    | cons o rest ih =>
      rw [List.foldl_cons, h o List.mem_cons_self]
      exact ih fun x hx => h x (List.mem_cons_of_mem _ hx)
  rw [collapseWith, hfold]
  rfl

theorem each_keyed (h : ∀ o ∈ a, P o) : Dict.Each (fun k o => P o ∧ o.key = k) a.keyed := by
  intro e he
  obtain ⟨o, ho, rfl⟩ := List.mem_map.mp he
  exact ⟨h o ho, rfl⟩

section Family

variable (hP : Object.Family P keys)
include hP

theorem hasUnknown_of_family (h : ∀ o ∈ a, P o) : a.hasUnknown = false := by
  simp only [hasUnknown, List.any_eq_false]
  intro o ho
  simp [hP.known (h o ho)]

theorem Uniform.attrs (h : a.Uniform P) {o : Object} (ho : o ∈ a) : o.attrs = [] := by
  rcases h with rfl | ⟨-, hall⟩
  · rw [List.mem_singleton.mp ho]
    rfl
  · exact hP.attrs (hall o ho)

/-- What is unknown absorbs every uniform value. -/
theorem merge_of_unknown (ha : a.Uniform P) (hb : b.Uniform P) (hne : a ≠ []) (hne' : b ≠ [])
    (h : a.hasUnknown = true ∨ b.hasUnknown = true) : a.merge b = unknown := by
  have hany : (a.hasUnknown || b.hasUnknown) = true := by
    rcases h with h | h <;> simp [h]
  rw [merge_eq, mergeWith, if_neg (by simpa using hne), if_neg (by simpa using hne'), if_pos hany]
  refine collapseWith_of_attrs fun o ho => ?_
  rcases List.mem_append.mp ho with ho | ho
  · exact ha.attrs hP ho
  · exact hb.attrs hP ho

theorem entry_mergeWith (k : String) (x y : Object) (hx : P x ∧ x.key = k) (hy : P y ∧ y.key = k) :
    P (x.mergeWith merge y) ∧ (x.mergeWith merge y).key = k := by
  have hkey : x.key = y.key := hx.2.trans hy.2.symm
  exact ⟨hP.merge hx.1 hy.1 hkey, (Object.key_mergeWith merge hkey).trans hx.2⟩

theorem length_le_of_each {d : Dict Object} (hd : Dict.Sorted d) (h : Dict.Each (fun k o => P o ∧ o.key = k) d) :
    d.length ≤ keys.length := by
  refine hd.length_le fun e he => ?_
  obtain ⟨hmem, hkey⟩ := h e he
  rw [← hkey]
  exact hP.key hmem

theorem keyed_merge (ha : Dict.Sorted a.keyed) (hao : ∀ o ∈ a, P o) (hbo : ∀ o ∈ b, P o) (hne : a ≠ [])
    (hne' : b ≠ []) : (a.merge b).keyed = Dict.mergeWith (Object.mergeWith merge) a.keyed b.keyed := by
  rw [merge_eq]
  refine keyed_mergeWith ha hne hne' (hasUnknown_of_family hP hao) (hasUnknown_of_family hP hbo) ?_
  have hlength := length_le_of_each hP (Dict.sorted_mergeWith (Object.mergeWith merge) ha)
    (Dict.Each.mergeWith (entry_mergeWith hP) (each_keyed hao) (each_keyed hbo))
  exact hlength.trans hP.few

theorem uniform_merge (ha : a.Uniform P) (hb : b.Uniform P) : (a.merge b).Uniform P := by
  by_cases hne : a = []
  · rw [hne, nil_merge]
    exact hb
  by_cases hne' : b = []
  · rw [hne', merge_nil]
    exact ha
  rcases ha with rfl | ⟨hsa, hao⟩
  · exact Or.inl (merge_of_unknown hP uniform_unknown hb hne hne' (Or.inl hasUnknown_unknown))
  rcases hb with rfl | ⟨-, hbo⟩
  · exact Or.inl (merge_of_unknown hP (Or.inr ⟨hsa, hao⟩) uniform_unknown hne hne' (Or.inr hasUnknown_unknown))
  have hkeyed := keyed_merge hP hsa hao hbo hne hne'
  refine Or.inr ⟨hkeyed ▸ Dict.sorted_mergeWith _ hsa, fun o ho => ?_⟩
  have heach := Dict.Each.mergeWith (entry_mergeWith hP) (each_keyed hao) (each_keyed hbo)
  rw [← hkeyed] at heach
  exact (heach (o.key, o) (mem_keyed.mpr ⟨ho, rfl⟩)).1

end Family

theorem map_eq_of_image_eq {β : Type} {g : Object → β} (h : Dict.image g a.keyed = Dict.image g b.keyed) :
    a.map g = b.map g := by
  have hmap : ∀ v : Value, (Dict.image g v.keyed).map Prod.snd = v.map g := by
    intro v
    simp [Dict.image, keyed]
  rw [← hmap, h, hmap]

/-- The weight of all objects, or that of what is unknown. -/
def measure (top : Nat) (w : Object → Nat) (v : Value) : Nat :=
  if v.hasUnknown then top else Dict.weight w v.keyed

theorem measure_eq_of_map_eq {β : Type} {g : Object → β} {w : Object → Nat} (top : Nat)
    (hsees : ∀ {x y : Object}, g x = g y → w x = w y ∧ x.isUnknown = y.isUnknown) (h : a.map g = b.map g) :
    measure top w a = measure top w b := by
  have hboth : a.hasUnknown = b.hasUnknown ∧ Dict.weight w a.keyed = Dict.weight w b.keyed := by
    induction a generalizing b with
    | nil =>
      cases b with
      | nil => exact ⟨rfl, rfl⟩
      | cons y b => cases h
    | cons x a ih =>
      cases b with
      | nil => cases h
      | cons y b =>
        simp only [List.map_cons, List.cons.injEq] at h
        obtain ⟨hunknown, hweight⟩ := ih h.2
        obtain ⟨hw, hisUnknown⟩ := hsees h.1
        simp only [hasUnknown, List.any_cons, keyed_cons, Dict.weight_cons] at hunknown hweight ⊢
        rw [hisUnknown, hunknown, hw, hweight]
        exact ⟨rfl, rfl⟩
  rw [measure, measure, hboth.1, hboth.2]

section Ranked

variable {β : Type} {g : Object → β} {w : Object → Nat} {bound top : Nat} (hP : Object.Ranked P keys g w bound)
include hP

theorem measure_of_family (h : ∀ o ∈ a, P o) : measure top w a = Dict.weight w a.keyed := by
  rw [measure, hasUnknown_of_family hP.toFamily h, if_neg Bool.false_ne_true]

theorem measure_lt_of_family (htop : keys.length * bound < top) (hsorted : Dict.Sorted a.keyed)
    (h : ∀ o ∈ a, P o) : measure top w a < top := by
  rw [measure_of_family hP h]
  have hlength := length_le_of_each hP.toFamily hsorted (each_keyed h)
  have hweight : Dict.weight w a.keyed ≤ a.keyed.length * bound :=
    Dict.weight_le fun e he => hP.le (each_keyed h e he).1
  exact (hweight.trans (Nat.mul_le_mul_right bound hlength)).trans_lt htop

theorem measure_le (htop : keys.length * bound < top) (h : a.Uniform P) : measure top w a ≤ top := by
  rcases h with rfl | ⟨hsorted, hall⟩
  · exact Nat.le_refl top
  · exact (measure_lt_of_family hP htop hsorted hall).le

theorem measure_pos (htop : keys.length * bound < top) (h : a.Uniform P) (hne : a ≠ []) :
    0 < measure top w a := by
  rcases h with rfl | ⟨-, hall⟩
  · exact Nat.zero_lt_of_lt htop
  · obtain ⟨o, rest, rfl⟩ := List.exists_cons_of_ne_nil hne
    rw [measure_of_family hP hall, keyed_cons, Dict.weight_cons]
    exact Nat.lt_of_lt_of_le (hP.pos (hall o List.mem_cons_self)) (Nat.le_add_right _ _)

/-- A merge that changes a value, as far as a map can see, raises its measure. -/
theorem merge_map_eq_or_measure_lt (htop : keys.length * bound < top) (ha : a.Uniform P) (hb : b.Uniform P) :
    (a.merge b).map g = a.map g ∨ measure top w a < measure top w (a.merge b) := by
  by_cases hne : a = []
  · subst hne
    rw [nil_merge]
    by_cases hne' : b = []
    · exact Or.inl (by rw [hne'])
    · exact Or.inr (measure_pos hP htop hb hne')
  by_cases hne' : b = []
  · exact Or.inl (by rw [hne', merge_nil])
  have hmerge := uniform_merge hP.toFamily ha hb
  rcases ha with rfl | ⟨hsa, hao⟩
  · left
    rw [merge_of_unknown hP.toFamily uniform_unknown hb hne hne' (Or.inl hasUnknown_unknown)]
  rcases hb with rfl | ⟨hsb, hbo⟩
  · right
    rw [merge_of_unknown hP.toFamily (Or.inr ⟨hsa, hao⟩) uniform_unknown hne hne' (Or.inr hasUnknown_unknown)]
    exact measure_lt_of_family hP htop hsa hao
  have hkeyed := keyed_merge hP.toFamily hsa hao hbo hne hne'
  have hrises : ∀ k x y, (P x ∧ x.key = k) → (P y ∧ y.key = k) →
      g (x.mergeWith merge y) = g x ∨ w x < w (x.mergeWith merge y) :=
    fun k x y hx hy => hP.rises hx.1 hy.1 (hx.2.trans hy.2.symm)
  have hdict := Dict.mergeWith_image_eq_or_weight_lt (fun _ _ => hP.sees) (fun _ _ hx => hP.pos hx.1)
    (entry_mergeWith hP.toFamily) hrises (each_keyed hao) (each_keyed hbo)
  rw [← hkeyed] at hdict
  rcases hdict with h | h
  · exact Or.inl (map_eq_of_image_eq h)
  · right
    rcases hmerge with hunknown | ⟨-, hall⟩
    · rw [hunknown]
      exact measure_lt_of_family hP htop hsa hao
    · rwa [measure_of_family hP hao, measure_of_family hP hall]

end Ranked

variable {p : Constant → Prop}

/-- Unknown, or constants with a property, under strictly increasing keys. -/
def Plain (p : Constant → Prop) (v : Value) : Prop :=
  v = unknown ∨ (Dict.Sorted v.keyed ∧ ∀ o ∈ v, ∃ c, o = .constant c ∧ p c)

/-- Whether a property survives the join of two constants of one type. -/
def Joins (p : Constant → Prop) : Prop :=
  ∀ c d : Constant, c.typeName = d.typeName → p c → p d → p (c.join d)

theorem family_constants (hp : Joins p) :
    Object.Family (fun o => ∃ c, o = .constant c ∧ p c) (Constant.typeNames.map ("const:" ++ ·)) := by
  refine ⟨?_, ?_, ?_, by decide, ?_⟩
  · rintro o ⟨c, rfl, -⟩
    rfl
  · rintro o ⟨c, rfl, -⟩
    rfl
  · rintro o ⟨c, rfl, -⟩
    exact List.mem_map_of_mem c.typeName_mem
  · rintro x y ⟨c, rfl, hc⟩ ⟨d, rfl, hd⟩ hkey
    exact ⟨c.join d, Object.mergeWith_constant merge hkey, hp c d (Object.key_constant_inj hkey) hc hd⟩

theorem plain_unknown : Plain p unknown := uniform_unknown

theorem plain_nil : Plain p [] := uniform_nil

theorem plain_constant {c : Constant} (h : p c) : Plain p [.constant c] :=
  Or.inr ⟨List.pairwise_singleton _ _, fun _ ho => ⟨c, List.mem_singleton.mp ho, h⟩⟩

theorem Plain.mono {q : Constant → Prop} (h : Plain p a) (hpq : ∀ c, p c → q c) : Plain q a := by
  rcases h with h | ⟨hsorted, hall⟩
  · exact Or.inl h
  · refine Or.inr ⟨hsorted, fun o ho => ?_⟩
    obtain ⟨c, hc, hp⟩ := hall o ho
    exact ⟨c, hc, hpq c hp⟩

theorem plain_merge (hp : Joins p) (ha : Plain p a) (hb : Plain p b) : Plain p (a.merge b) :=
  uniform_merge (family_constants hp) ha hb

end Value

end AbstractFlow
