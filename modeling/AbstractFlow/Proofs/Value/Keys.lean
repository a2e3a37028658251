import AbstractFlow.Proofs.Collection.Dict
import AbstractFlow.Value.Merge

/-! # Values by the keys of their objects

A key tells the kind of its object. A value whose objects have strictly increasing keys is a dictionary.
Merging two such values, as long as nothing is absorbed, is merging dictionaries: objects of the same key
are merged, all others stay.
-/
namespace AbstractFlow

namespace Object

/-- How the keys of a kind of objects begin. -/
def Kind.tag : Kind → String
  | .unknown => "~unknown"
  | .constant => "const:"
  | .container => "container:"
  | .function => "func:"
  | .classObject => "class:"
  | .instanceObject => "instance:"
  | .externalFunction => "extfunc:"
  | .externalClass => "extclass:"
  | .externalInstance => "extinstance:"

theorem Kind.eq_of_tag {k k' : Kind} (h : k.tag.toList <+: k'.tag.toList) : k = k' := by
  have hall : ∀ k ∈ Kind.all, ∀ k' ∈ Kind.all, k.tag.toList.isPrefixOf k'.tag.toList = true → k = k' := by
    decide
  have hmem : ∀ k : Kind, k ∈ Kind.all := by
    intro k
    cases k <;> decide
  exact hall k (hmem k) k' (hmem k') (List.isPrefixOf_iff_prefix.mpr h)

theorem tag_prefix_key (o : Object) : o.kind.tag.toList <+: o.key.toList := by
  suffices hrest : ∃ rest, o.key = o.kind.tag ++ rest by
    obtain ⟨rest, hrest⟩ := hrest
    rw [hrest, String.toList_append]
    exact List.prefix_append _ _
  cases o with
  | unknown as => exact ⟨"", rfl⟩
  | constant c => exact ⟨c.typeName, rfl⟩
  | container c => exact ⟨c.type.name, rfl⟩
  | function f => exact ⟨f.name, rfl⟩
  | classObject c => exact ⟨c.name, rfl⟩
  | instanceObject i =>
    refine ⟨i.className ++ ("@" ++ i.site), ?_⟩
    rw [← String.append_assoc, ← String.append_assoc]
    rfl
  | external e =>
    obtain ⟨kind, module, name, attrs⟩ := e
    refine ⟨module ++ ("." ++ name), ?_⟩
    rw [← String.append_assoc, ← String.append_assoc]
    cases kind <;> rfl

/-- Objects of one key are of one kind. -/
theorem kind_of_key {x y : Object} (h : x.key = y.key) : x.kind = y.kind := by
  have hx := x.tag_prefix_key
  have hy := y.tag_prefix_key
  rw [← h] at hy
  rcases Nat.le_total x.kind.tag.toList.length y.kind.tag.toList.length with hle | hle
  · exact Kind.eq_of_tag (List.prefix_of_prefix_length_le hx hy hle)
  · exact (Kind.eq_of_tag (List.prefix_of_prefix_length_le hy hx hle)).symm

theorem isUnknown_of_kind {x y : Object} (h : y.kind = x.kind) (hx : x.isUnknown = true) :
    y.isUnknown = true := by
  cases x with
  | unknown as =>
    cases y with
    | unknown bs => rfl
    | external e =>
      obtain ⟨kind, module, name, attrs⟩ := e
      cases kind <;> cases h
    | _ => cases h
  | _ => cases hx

theorem exists_constant_of_kind {y : Object} (h : y.kind = .constant) : ∃ d, y = .constant d := by
  cases y with
  | constant d => exact ⟨d, rfl⟩
  | external e =>
    obtain ⟨kind, module, name, attrs⟩ := e
    cases kind <;> cases h
  | _ => cases h

theorem exists_container_of_kind {y : Object} (h : y.kind = .container) : ∃ d, y = .container d := by
  cases y with
  | container d => exact ⟨d, rfl⟩
  | external e =>
    obtain ⟨kind, module, name, attrs⟩ := e
    cases kind <;> cases h
  | _ => cases h

theorem key_container_inj {c d : Container Value} (h : (Object.container c).key = (Object.container d).key) :
    c.type = d.type := by
  have hnames : ("container:" ++ c.type.name).toList = ("container:" ++ d.type.name).toList :=
    congrArg String.toList h
  rw [String.toList_append, String.toList_append] at hnames
  have hname := String.toList_inj.mp (List.append_cancel_left hnames)
  revert hname
  cases c.type <;> cases d.type <;> decide

end Object

theorem Constant.typeName_join (c d : Constant) : (c.join d).typeName = c.typeName := by
  cases c <;> cases d <;> rfl

/-- Merging objects of one key gives an object of that key. -/
theorem Object.key_mergeWith (m : Value → Value → Value) {x y : Object} (h : x.key = y.key) :
    (x.mergeWith m y).key = x.key := by
  have hattrs : ∀ as, (x.withAttrs as).key = x.key := by
    intro as
    cases x <;> rfl
  unfold mergeWith
  rw [if_neg (not_not_intro h)]
  split
  · rename_i c d
    exact congrArg ("const:" ++ ·) (Constant.typeName_join c d)
  · rfl
  · rfl
  · rfl
  · exact hattrs _

namespace Value

variable {m : Value → Value → Value}

def keyed (v : Value) : Dict Object := v.map fun o => (o.key, o)

@[simp] theorem keyed_nil : keyed [] = [] := rfl

@[simp] theorem keyed_cons (o : Object) (v : Value) : keyed (o :: v) = (o.key, o) :: keyed v := rfl

@[simp] theorem length_keyed (v : Value) : (keyed v).length = v.length := List.length_map _

theorem keys_keyed (v : Value) : (keyed v).map Prod.fst = v.map Object.key := by
  simp [keyed]

theorem keyed_injective {v w : Value} (h : keyed v = keyed w) : v = w := by
  have hmap : ∀ u : Value, (keyed u).map Prod.snd = u := by
    intro u
    simp [keyed, Function.comp_def]
  rw [← hmap v, h, hmap w]

theorem mem_keyed {v : Value} {k : String} {o : Object} : (k, o) ∈ keyed v ↔ o ∈ v ∧ o.key = k := by
  simp only [keyed, List.mem_map, Prod.mk.injEq]
  constructor
  · rintro ⟨x, hx, hk, rfl⟩
    exact ⟨hx, hk⟩
  · rintro ⟨ho, hk⟩
    exact ⟨o, ho, hk, rfl⟩

theorem nodup_keys {v : Value} (h : Dict.Sorted (keyed v)) : (v.map Object.key).Nodup := by
  rw [← keys_keyed]
  exact (List.pairwise_map.mpr h).imp fun hlt => hlt.ne

/-- Where keys differ, an object is merged into the one of its key, or added. -/
theorem get?_keyed_absorbWith {objs : List Object} (h : (objs.map Object.key).Nodup) (o : Object)
    (k : String) :
    Dict.get? (keyed (absorbWith m objs o)) k =
      if k = o.key then some (Dict.joined (Object.mergeWith m) o (Dict.get? (keyed objs) o.key))
      else Dict.get? (keyed objs) k := by
  induction objs with
  | nil =>
    by_cases hk : k = o.key
    · simp [absorbWith, Dict.get?, Dict.joined, hk]
    · simp [absorbWith, Dict.get?, hk, Ne.symm hk]
  | cons x rest ih =>
    obtain ⟨hx, hrest⟩ := List.nodup_cons.mp h
    unfold absorbWith
    by_cases hxo : x.key = o.key
    · have hall : rest.all (·.key != o.key) = true := by
        simp only [List.all_eq_true, bne_iff_ne, ne_eq]
        intro y hy hyo
        exact hx (List.mem_map.mpr ⟨y, hy, hyo.trans hxo.symm⟩)
      rw [if_pos ⟨hxo, hall⟩]
      simp only [keyed_cons, Object.key_mergeWith m hxo, Dict.get?, hxo, ↓reduceIte, Dict.joined]
      by_cases hk : k = o.key
      · simp [hk]
      · simp [hk, Ne.symm hk]
    · rw [if_neg fun hc => hxo hc.1]
      simp only [keyed_cons, Dict.get?, ih hrest, hxo, ↓reduceIte]
      by_cases hk : k = o.key
      · simp [hk, hxo]
      · simp [hk]

theorem keys_absorbWith {objs : List Object} (h : (objs.map Object.key).Nodup) (o : Object) :
    (absorbWith m objs o).map Object.key =
      if o.key ∈ objs.map Object.key then objs.map Object.key else objs.map Object.key ++ [o.key] := by
  induction objs with
  | nil => simp [absorbWith]
  | cons x rest ih =>
    obtain ⟨hx, hrest⟩ := List.nodup_cons.mp h
    unfold absorbWith
    by_cases hxo : x.key = o.key
    · have hall : rest.all (·.key != o.key) = true := by
        simp only [List.all_eq_true, bne_iff_ne, ne_eq]
        intro y hy hyo
        exact hx (List.mem_map.mpr ⟨y, hy, hyo.trans hxo.symm⟩)
      rw [if_pos ⟨hxo, hall⟩, List.map_cons, Object.key_mergeWith m hxo]
      simp [hxo]
    · rw [if_neg fun hc => hxo hc.1, List.map_cons, ih hrest]
      by_cases ho : o.key ∈ rest.map Object.key
      · simp [ho]
      · simp [ho, Ne.symm hxo]

theorem nodup_keys_absorbWith {objs : List Object} (h : (objs.map Object.key).Nodup) (o : Object) :
    ((absorbWith m objs o).map Object.key).Nodup := by
  rw [keys_absorbWith h]
  split
  · exact h
  · rename_i ho
    rw [List.nodup_append]
    refine ⟨h, by simp, ?_⟩
    intro k hk k' hk'
    rw [List.mem_singleton.mp hk']
    rintro rfl
    exact ho hk

/-- Where keys differ, sorting by them is entering objects under their keys. -/
theorem keyed_place {o : Object} {objs : List Object} (h : o.key ∉ objs.map Object.key) :
    keyed (place o objs) = (keyed objs).insert o.key o := by
  induction objs with
  | nil => rfl
  | cons x rest ih =>
    simp only [List.map_cons, List.mem_cons, not_or] at h
    unfold place
    split
    · rename_i hlt
      rw [keyed_cons, keyed_cons, ih h.2, Dict.insert, Dict.insert, Dict.insertWith, if_neg (lt_asymm hlt), if_neg h.1]
    · rename_i hlt
      have hlt' : o.key < x.key := lt_of_le_of_ne (not_lt.mp hlt) h.1
      rw [keyed_cons, keyed_cons, Dict.insert, Dict.insertWith, if_pos hlt']

theorem mem_place {o x : Object} {objs : List Object} : x ∈ place o objs ↔ x = o ∨ x ∈ objs := by
  induction objs with
  | nil => simp [place]
  | cons y rest ih =>
    unfold place
    split
    · simp only [List.mem_cons, ih]
      exact or_left_comm
    · simp

theorem mem_canonical {x : Object} {objs : List Object} : x ∈ canonical objs ↔ x ∈ objs := by
  unfold canonical
  induction objs with
  | nil => simp
  | cons o rest ih => simp [mem_place, ih]

theorem length_place (o : Object) (objs : List Object) : (place o objs).length = objs.length + 1 := by
  induction objs with
  | nil => rfl
  | cons y rest ih =>
    unfold place
    split <;> simp [ih]

theorem length_canonical (objs : List Object) : (canonical objs).length = objs.length := by
  unfold canonical
  induction objs with
  | nil => rfl
  | cons o rest ih => simp [length_place, ih]

theorem canonical_spec {objs : List Object} (h : (objs.map Object.key).Nodup) :
    Dict.Sorted (keyed (canonical objs)) ∧
      ∀ k, Dict.get? (keyed (canonical objs)) k = Dict.get? (keyed objs) k := by
  induction objs with
  | nil => exact ⟨Dict.sorted_nil, fun _ => rfl⟩
  | cons o rest ih =>
    obtain ⟨ho, hrest⟩ := List.nodup_cons.mp h
    obtain ⟨hsorted, hget⟩ := ih hrest
    have hplace : keyed (canonical (o :: rest)) = (keyed (canonical rest)).insert o.key o := by
      refine keyed_place fun hmem => ho ?_
      obtain ⟨x, hx, hk⟩ := List.mem_map.mp hmem
      exact List.mem_map.mpr ⟨x, mem_canonical.mp hx, hk⟩
    rw [hplace]
    refine ⟨Dict.sorted_insert _ _ hsorted, fun k => ?_⟩
    rw [Dict.get?_insert, keyed_cons, Dict.get?, hget]
    by_cases hk : k = o.key
    · simp [hk]
    · simp [hk, Ne.symm hk]

theorem keyed_canonical_absorb {a b : Value} (ha : Dict.Sorted (keyed a)) :
    keyed (canonical (b.foldl (absorbWith m) a)) =
      Dict.mergeWith (Object.mergeWith m) (keyed a) (keyed b) := by
  have hfold : ∀ (b : Value) (objs : List Object) (d : Dict Object),
      (objs.map Object.key).Nodup → Dict.Sorted d → (∀ k, Dict.get? (keyed objs) k = Dict.get? d k) →
      keyed (canonical (b.foldl (absorbWith m) objs)) =
        Dict.mergeWith (Object.mergeWith m) d (keyed b) := by
    intro b
    induction b with
    | nil =>
      intro objs d hobjs hd hget
      obtain ⟨hsorted, hsame⟩ := canonical_spec hobjs
      exact Dict.ext_get? hsorted hd fun k => (hsame k).trans (hget k)
    | cons o rest ih =>
      intro objs d hobjs hd hget
      refine ih _ _ (nodup_keys_absorbWith hobjs o) (Dict.sorted_insertWith _ o.key o hd) fun k => ?_
      rw [get?_keyed_absorbWith hobjs, Dict.get?_insertWith _ _ _ _ hd, hget, hget]
  exact hfold b a (keyed a) (nodup_keys ha) ha fun _ => rfl

/-- Merging values in which nothing is unknown and which do not overflow is merging dictionaries. -/
theorem keyed_mergeWith {a b : Value} (ha : Dict.Sorted (keyed a)) 
    (hne : a ≠ []) (hne' : b ≠ []) (hknown : a.hasUnknown = false) (hknown' : b.hasUnknown = false)
    (hfew : (Dict.mergeWith (Object.mergeWith m) (keyed a) (keyed b)).length ≤ objectLimit) :
    keyed (mergeWith m a b) = Dict.mergeWith (Object.mergeWith m) (keyed a) (keyed b) := by
  have hcanonical := keyed_canonical_absorb (m := m) (b := b) ha
  have hlength : (b.foldl (absorbWith m) a).length ≤ objectLimit := by
    rw [← length_canonical, ← length_keyed, hcanonical]
    exact hfew
  unfold mergeWith
  simp only [List.isEmpty_iff, hne, hne', hknown, hknown', ↓reduceIte, Bool.or_self, Bool.false_eq_true]
  rw [if_neg (by omega), hcanonical]

end Value

end AbstractFlow
