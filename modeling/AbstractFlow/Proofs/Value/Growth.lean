import AbstractFlow.Proofs.Value.Ascent
import AbstractFlow.Proofs.Value.Cover
import AbstractFlow.Proofs.Value.Flat

/-! # What values grow out of

Merging leads a value upwards, and so does a store, but for one thing: a store into a container that may be
empty raises the lower bound of its size, which merging only lowers. The shape of a value leaves these bounds
out. One value has grown out of another one if its shape was reached by merging from the shape of the other, or
if it is unknown. A value that comes back to one that has grown out of it brings nothing but lower bounds.
-/
namespace AbstractFlow

namespace Container

variable {c d : Container Value}

/-- A container without the lower bound of its size. -/
def shape (c : Container Value) : Container Value := { c with minSize := 0 }

theorem tidy_shape (h : c.Tidy) : c.shape.Tidy := { h with sizes := fun n _ => Nat.zero_le n }

theorem shape_mergeWith (hc : c.Tidy) (hd : d.Tidy) :
    (c.mergeWith Value.merge d).shape = c.shape.mergeWith Value.merge d.shape := by
  rw [mergeWith_eq_extend hc hd, mergeWith_eq_extend (tidy_shape hc) (tidy_shape hd)]
  rfl

theorem looserSize_nextSize (n : Option Nat) : looserSize n (n.bind nextSize) = n.bind nextSize := by
  cases n with
  | none => rfl
  | some n =>
    simp only [Option.bind_some, nextSize]
    split
    · exact congrArg some (Nat.max_eq_right (Nat.le_succ n))
    · rfl

theorem shape_mergeWith_withStore {elem key : Value} (hc : c.Tidy) (hcelem : c.elem.Modest) (hckey : c.key.Modest)
    (helem : elem.Modest) (hkey : key.Modest) :
    c.shape.mergeWith Value.merge (c.withStore elem key).shape = (c.withStore elem key).shape := by
  have hstored : (c.storedKey key).Modest := by
    unfold storedKey
    split
    · exact hkey
    · exact Value.closed_modest.nil
  have habsorbs : ∀ {v w : Value}, v.Modest → w.Modest → v.merge (v.merge w) = v.merge w :=
    fun hv hw => (Value.absorbsOn_merge.absorbs hv (Climbs.refl.step hw)).2
  have hunion : ∀ as bs : List String, Sorted.union as (Sorted.union as bs) = Sorted.union as bs := by
    intro as bs
    refine Sorted.ext_mem (Sorted.pairwise_ofList _) (Sorted.pairwise_ofList _) fun n => ?_
    simp only [Sorted.mem_union, or_self_left]
  have htidy := tidy_shape (c.tidy_withStore elem key)
  rw [withStore_eq_extend hc] at htidy ⊢
  rw [mergeWith_eq_extend (tidy_shape hc) htidy]
  simp only [extend, shape, hunion, habsorbs hcelem helem, habsorbs hckey hstored, looserSize_nextSize, Nat.min_self]

end Container

namespace Object

variable {x y : Object}

def shape : Object → Object
  | .container c => .container c.shape
  | o => o

theorem key_shape (o : Object) : o.shape.key = o.key := by
  cases o <;> rfl

theorem isUnknown_shape (o : Object) : o.shape.isUnknown = o.isUnknown := by
  cases o <;> rfl

theorem attrs_shape (o : Object) : o.shape.attrs = o.attrs := by
  cases o <;> rfl

theorem Modest.shape (h : x.Modest) : x.shape.Modest := by
  cases x with
  | container => trivial
  | _ => exact h

theorem tidy_shape (h : x.Tidy) : x.shape.Tidy := by
  cases x with
  | container => exact Container.tidy_shape h
  | _ => exact h

theorem inside_shape {p : Value → Prop} (h : x.Inside p) : x.shape.Inside p := by
  cases x <;> exact h

theorem shape_mergeWith (hx : x.Tidy ∧ x.Modest) (hy : y.Tidy) (hkey : x.key = y.key) :
    (x.mergeWith Value.merge y).shape = x.shape.mergeWith Value.merge y.shape := by
  have hkind := kind_of_key hkey
  cases x with
  | unknown as =>
    have hunknown := isUnknown_of_kind hkind.symm rfl
    cases y with
    | unknown bs =>
      have hmerge : (Object.unknown as).mergeWith Value.merge (.unknown bs) =
          .unknown (Dict.mergeWith Value.merge as bs) := if_neg (not_not_intro rfl)
      rw [hmerge]
      exact hmerge.symm
    | _ => cases hunknown
  | constant c =>
    obtain ⟨d, rfl⟩ := exists_constant_of_kind hkind.symm
    rw [mergeWith_constant Value.merge hkey]
    exact (mergeWith_constant Value.merge hkey).symm
  | container c =>
    obtain ⟨d, rfl⟩ := exists_container_of_kind hkind.symm
    rw [mergeWith_container Value.merge hkey]
    refine (congrArg Object.container (Container.shape_mergeWith hx.1 hy)).trans ?_
    exact (mergeWith_container Value.merge (c := c.shape) (d := d.shape) hkey).symm
  | _ => exact hx.2.elim

/-- Merging an object with what a store has made of it changes lower bounds at most. -/
theorem shape_mergeWith_stored {elem key : Value} (hx : Slot Value.Modest x.key x) (helem : elem.Modest)
    (hkey : key.Modest) :
    x.shape.mergeWith Value.merge (x.stored elem key).shape = (x.stored elem key).shape := by
  have hidem : x.mergeWith Value.merge x = x :=
    (absorbs Value.absorbsOn_merge fun _ _ => Value.typeNames_merge_subset _ _).idem hx
  cases x with
  | container c =>
    obtain ⟨hcelem, hckey⟩ := inside_container.mp hx.inside
    refine (mergeWith_container Value.merge (c := c.shape) (d := (c.withStore elem key).shape) rfl).trans ?_
    exact congrArg Object.container (Container.shape_mergeWith_withStore hx.tidy hcelem hckey helem hkey)
  | _ => exact hidem

end Object

namespace Value

variable {a b s v v' w elem key : Value}

/-- What a value is apart from the lower bounds of its containers. -/
def shape (v : Value) : Value := v.map Object.shape

theorem get?_shape (v : Value) (k : String) : Dict.get? v.shape.keyed k = (Dict.get? v.keyed k).map Object.shape := by
  rw [shape, keyed_map Object.key_shape, Dict.get?_image]

theorem hasUnknown_shape (v : Value) : v.shape.hasUnknown = v.hasUnknown := by
  simp [hasUnknown, shape, Function.comp_def, Object.isUnknown_shape]

/-- A value is determined by its shape and its lower bounds. -/
theorem eq_of_shape_eq (hv : Dict.Sorted v.keyed) (hv' : Dict.Sorted v'.keyed) (hshape : v.shape = v'.shape)
    (hlower : ∀ type, v.lower type = v'.lower type) : v = v' := by
  refine keyed_injective (Dict.ext_get? hv hv' fun k => ?_)
  have hget : (Dict.get? v.keyed k).map Object.shape = (Dict.get? v'.keyed k).map Object.shape := by
    rw [← get?_shape, hshape, get?_shape]
  cases hx : Dict.get? v.keyed k with
  | none =>
    rw [hx] at hget
    exact (Option.map_eq_none_iff.mp hget.symm).symm
  | some x =>
    rw [hx] at hget
    obtain ⟨y, hy, hyx⟩ := Option.map_eq_some_iff.mp hget.symm
    rw [hy, Option.some.injEq]
    -- The lower bound of a container is all that its shape leaves open.
    cases x with
    | container c =>
      cases y with
      | container d =>
        have hkey : Object.containerKey c.type = k := (mem_keyed.mp (Dict.mem_of_get? hx)).2
        have hsame := Object.container.inj hyx
        have hbound := hlower c.type
        rw [lower, lower, hkey, hx, hy] at hbound
        obtain ⟨type, elemTypes, elem, keyTypes, key, minSize, maxSize⟩ := c
        obtain ⟨type', elemTypes', elem', keyTypes', key', minSize', maxSize'⟩ := d
        simp only [Container.shape, Container.mk.injEq] at hsame
        simp only [Option.map_some, Object.minSize, Option.some.injEq] at hbound
        obtain ⟨rfl, rfl, rfl, rfl, rfl, -, rfl⟩ := hsame
        rw [hbound]
      | _ => cases hyx
    | _ =>
      cases y with
      | container d => cases hyx
      | _ => exact hyx.symm

theorem Modest.merge (ha : a.Modest) (hb : b.Modest) : (a.merge b).Modest := closed_modest.merge ha hb

theorem Modest.shape (h : v.Modest) : v.shape.Modest := by
  obtain ⟨⟨htidy, hmodest⟩, hinside⟩ := everywhere_iff.mp h
  have hobjects : ∀ {P : Object → Prop}, (∀ o ∈ v, P o.shape) → ∀ o ∈ v.shape, P o :=
    fun hall => List.forall_mem_map.mpr hall
  refine everywhere_iff.mpr ⟨⟨⟨?_, ?_, fun hunknown => ?_, hobjects fun o ho => ?_⟩, hobjects fun o ho => ?_⟩,
    hobjects fun o ho => ?_⟩
  · rw [Value.shape, keyed_map Object.key_shape]
    exact Dict.sorted_image.mpr htidy.sorted
  · rw [Value.shape, List.length_map]
    exact htidy.few
  · rw [hasUnknown_shape] at hunknown
    obtain ⟨as, rfl⟩ := htidy.alone hunknown
    exact ⟨as, rfl⟩
  · exact Object.tidy_shape (htidy.objects o ho)
  · exact (hmodest o ho).shape
  · exact Object.inside_shape (hinside o ho)

theorem absorbed_shape (m : Value → Value → Value) (v : Value) : absorbed m v.shape = absorbed m v := by
  simp only [absorbed, Value.shape, List.foldl_map, Object.attrs_shape]

theorem known_shape (v : Value) : v.shape.known = v.known.map (Dict.image Object.shape) := by
  unfold known
  rw [hasUnknown_shape]
  split
  · rfl
  · exact congrArg some (keyed_map Object.key_shape v)

theorem keyed_of_known {d : Dict Object} (h : v.known = some d) : v.keyed = d := by
  unfold known at h
  split at h
  · cases h
  · exact Option.some.inj h

theorem shape_merge (ha : a.Modest) (hb : b.Modest) : (a.merge b).shape = a.shape.merge b.shape := by
  refine eq_of_known (m := Value.merge) (ha.merge hb).shape.tidy (ha.shape.merge hb.shape).tidy ?_ ?_
  · rw [absorbed_shape, merge_eq, absorbed_mergeWith_modest ha.here hb.here, merge_eq,
      absorbed_mergeWith_modest ha.shape.here hb.shape.here, absorbed_shape, absorbed_shape]
  · rw [known_shape, merge_eq, known_mergeWith ha.tidy hb.tidy, merge_eq, known_mergeWith ha.shape.tidy hb.shape.tidy,
      known_shape, known_shape]
    refine map_joinUpTo _ (fun d => List.length_map _) fun d e hd he => ?_
    obtain rfl := keyed_of_known hd
    obtain rfl := keyed_of_known he
    refine Dict.image_mergeWith ha.tidy.sorted hb.tidy.sorted fun k x y hx hy => ?_
    obtain ⟨hxa, rfl⟩ := mem_keyed.mp (Dict.mem_of_get? hx)
    obtain ⟨hyb, hkey⟩ := mem_keyed.mp (Dict.mem_of_get? hy)
    exact Object.shape_mergeWith ⟨ha.tidy.objects x hxa, ha.objects x hxa⟩ (hb.tidy.objects y hyb) hkey.symm

/-- Merging a value with what a store has made of it changes lower bounds at most. -/
theorem shape_merge_store (hv : v.Modest) (helem : elem.Modest) (hkey : key.Modest) :
    v.shape.merge (v.store elem key).shape = (v.store elem key).shape := by
  have hstored := closed_modest.store hv helem hkey
  -- What is unknown stands alone, and a store leaves it as it is.
  cases hunknown : v.hasUnknown with
  | true =>
    obtain ⟨as, rfl⟩ := hv.tidy.alone hunknown
    exact absorbsOn_merge.idem hv
  | false =>
    have hknown : ∀ {w : Value}, w.Modest → w.hasUnknown = false → absorbed Value.merge w = [] :=
      fun hw hunknown => absorbed_eq_nil (attrs_eq_nil_of_known hw.objects hunknown)
    have hunknown' : (v.store elem key).hasUnknown = false := (hasUnknown_store hv.tidy elem key).trans hunknown
    refine eq_of_known (m := Value.merge) (hv.shape.merge hstored.shape).tidy hstored.shape.tidy ?_ ?_
    · rw [merge_eq, absorbed_mergeWith_modest hv.shape.here hstored.shape.here, absorbed_shape, absorbed_shape,
        hknown hv hunknown, hknown hstored hunknown']
      rfl
    · have himage : (v.store elem key).shape.keyed = Dict.image (fun o => (o.stored elem key).shape) v.keyed := by
        rw [store_eq_map hv.tidy.sorted, shape, List.map_map]
        exact keyed_map (fun o => (Object.key_shape _).trans (Object.key_stored elem key o)) v
      have hobjects : Dict.mergeWith (Object.mergeWith Value.merge) v.shape.keyed (v.store elem key).shape.keyed =
          (v.store elem key).shape.keyed := by
        rw [himage, shape, keyed_map Object.key_shape]
        refine Dict.mergeWith_image hv.tidy.sorted fun k o ho => ?_
        obtain ⟨hov, rfl⟩ := mem_keyed.mp (Dict.mem_of_get? ho)
        have hslot : Object.Slot Modest o.key o :=
          ⟨rfl, hv.tidy.objects o hov, hv.objects o hov, hv.inside o hov⟩
        exact Object.shape_mergeWith_stored hslot helem hkey
      rw [merge_eq, known_mergeWith hv.shape.tidy hstored.shape.tidy,
        known_eq_some ((hasUnknown_shape _).trans hunknown), known_eq_some ((hasUnknown_shape _).trans hunknown'),
        joinUpTo, hobjects, if_pos]
      rw [length_keyed]
      exact hstored.shape.tidy.few

/-- A value that is unknown, or whose shape was reached by merging from the shape of another one. -/
def Outgrows (w v : Value) : Prop := w.hasUnknown = true ∨ Climbs Modest Value.merge v.shape w.shape

theorem outgrows_refl (v : Value) : v.Outgrows v := Or.inr .refl

theorem outgrows_merge (ha : a.Modest) (hb : b.Modest) : (a.merge b).Outgrows a := by
  right
  rw [shape_merge ha hb]
  exact Climbs.refl.step hb.shape

theorem outgrows_store (hv : v.Modest) (helem : elem.Modest) (hkey : key.Modest) : (v.store elem key).Outgrows v := by
  right
  rw [← shape_merge_store hv helem hkey]
  exact Climbs.refl.step (closed_modest.store hv helem hkey).shape

theorem hasUnknown_of_climbs (ha : a.Modest) (h : Climbs Modest Value.merge a b) (hunknown : a.hasUnknown = true) :
    b.hasUnknown = true := by
  induction h with
  | refl => exact hunknown
  | step h hc ih => exact hasUnknown_merge (h.mem closed_modest.merge ha).tidy hc.tidy (Or.inl ih)

namespace Outgrows

theorem trans {u : Value} (hv : v.Modest) (h : v.Outgrows u) (h' : w.Outgrows v) : w.Outgrows u := by
  rcases h' with h' | h'
  · exact Or.inl h'
  · rcases h with h | h
    · left
      rw [← hasUnknown_shape] at h ⊢
      exact hasUnknown_of_climbs hv.shape h' h
    · exact Or.inr (h.trans h')

theorem shape_covers (hv : v.Modest) (h : w.Outgrows v) : w.shape.Covers v.shape := by
  rcases h with h | h
  · exact Or.inl ((hasUnknown_shape w).trans h)
  · exact covers_of_merge_eq (absorbsOn_merge.absorbs hv.shape h).1

section

variable (hs : s.Modest) (hv : v.Modest) (h : v.Outgrows s)
include hs hv h

/-- What comes back to a value that has grown out of it leaves the shape as it is. -/
theorem merge_cases : (v.hasUnknown = true ∧ (s.merge v).hasUnknown = true) ∨ (s.merge v).shape = v.shape := by
  rcases h with h | h
  · exact Or.inl ⟨h, hasUnknown_merge hs.tidy hv.tidy (Or.inr h)⟩
  · right
    rw [shape_merge hs hv]
    exact (absorbsOn_merge.absorbs hs.shape h).2

theorem merge_left : (s.merge v).Outgrows v := by
  rcases h.merge_cases hs hv with ⟨-, hunknown⟩ | hshape
  · exact Or.inl hunknown
  · exact Or.inr (hshape ▸ .refl)

theorem of_merge : v.Outgrows (s.merge v) := by
  rcases h.merge_cases hs hv with ⟨hunknown, -⟩ | hshape
  · exact Or.inl hunknown
  · exact Or.inr (hshape ▸ .refl)

end

end Outgrows

/-- What comes back to a value that has grown out of it takes nothing away. -/
theorem Outgrows.merge_covers (hs : s.Modest) (hv : v.Modest) (h : v.Outgrows s) : (s.merge v).Covers v := by
  rcases h.merge_cases hs hv with ⟨-, hunknown⟩ | hshape
  · exact Or.inl hunknown
  cases hunknown : (s.merge v).hasUnknown with
  | true => exact Or.inl hunknown
  | false =>
    have hsv := hs.merge hv
    have hsame : ((s.merge v).merge v).shape = (s.merge v).shape := by
      rw [shape_merge hsv hv, hshape]
      exact absorbsOn_merge.idem hv.shape
    have hunknown' : ((s.merge v).merge v).hasUnknown = false := by
      rw [← hasUnknown_shape, hsame, hasUnknown_shape, hunknown]
    refine covers_of_merge_eq (eq_of_shape_eq (hsv.merge hv).tidy.sorted hsv.tidy.sorted hsame fun type => ?_)
    rw [lower_merge_of_known hsv.tidy hv.tidy hunknown', lower_merge_of_known hs.tidy hv.tidy hunknown]
    -- The lower bounds of `s` are in the merged value by now, so merging `v` once more lowers nothing.
    cases s.lower type <;> cases v.lower type <;> simp [Dict.union]

theorem covers_refl (hv : v.Modest) : v.Covers v := covers_of_merge_eq (absorbsOn_merge.idem hv)

theorem covers_merge (ha : a.Modest) (hb : b.Modest) : (a.merge b).Covers a :=
  covers_of_merge_eq (absorbsOn_merge.absorbs ha (Climbs.refl.step hb)).1

/-- A store takes nothing away from a value that holds no container that may be empty. -/
theorem covers_store (hv : v.Modest) (helem : elem.Modest) (hkey : key.Modest)
    (hfilled : ∀ c ∈ v.containers, 0 < c.minSize) : (v.store elem key).Covers v := by
  have hstored := closed_modest.store hv helem hkey
  cases hunknown : v.hasUnknown with
  | true => exact Or.inl ((hasUnknown_store hv.tidy elem key).trans hunknown)
  | false =>
    have hshape : (v.merge (v.store elem key)).shape = (v.store elem key).shape := by
      rw [shape_merge hv hstored]
      exact shape_merge_store hv helem hkey
    have hunknown' : (v.merge (v.store elem key)).hasUnknown = false := by
      rw [← hasUnknown_shape, hshape, hasUnknown_shape, hasUnknown_store hv.tidy, hunknown]
    have hmerge : v.merge (v.store elem key) = v.store elem key := by
      refine eq_of_shape_eq (hv.merge hstored).tidy.sorted hstored.tidy.sorted hshape fun type => ?_
      rw [lower_merge_of_known hv.tidy hstored.tidy hunknown', lower_store hv.tidy.sorted]
      cases hlower : v.lower type with
      | none => rfl
      | some n =>
        obtain ⟨o, ho, rfl⟩ := Option.map_eq_some_iff.mp hlower
        obtain ⟨c, rfl, hc⟩ := exists_container_of_get? ho
        -- A store raises the lower bound to one at most, which it is at least by hypothesis.
        have hpos := hfilled c (List.mem_filterMap.mpr ⟨_, hc, rfl⟩)
        simp only [Dict.union, Option.map_some, Object.minSize, Option.some.injEq]
        omega
    have hclimbs : Climbs Modest Value.merge v (v.merge (v.store elem key)) := Climbs.refl.step hstored
    rw [hmerge] at hclimbs
    exact covers_of_merge_eq (absorbsOn_merge.absorbs hv hclimbs).1

end Value

end AbstractFlow
