import AbstractFlow.Proofs.Scalar.Rank
import AbstractFlow.Proofs.Value.Semilattice

/-! # Flat values

A flat value holds constants, and containers whose elements and keys are plain. Merges and stores move the
bounds of the size of a container: the lower one goes down with a merge and up with a store, the upper one
goes up until it is lost. Everything else is the core of the value, which has a bounded height: neither a
merge nor a store changes the core without raising the height.
-/
namespace AbstractFlow

namespace Container

variable {e : Extent} {w : Nat} {c d : Container Value} {elem key : Value}

structure Flat (e : Extent) (w : Nat) (c : Container Value) : Prop where
  tidy : c.Tidy
  elem : c.elem.Within e
  key : c.key.Within e
  elemTypes : c.elemTypes ⊆ Constant.typeNames
  keyTypes : c.keyTypes ⊆ Constant.typeNames
  size : ∀ n, c.maxSize = some n → n ≤ w

/-- A container without the counts of its bounds; whether there is an upper bound remains. -/
def core (c : Container Value) : Container Value := { c with minSize := 0, maxSize := c.maxSize.map fun _ => 0 }

def height (e : Extent) (c : Container Value) : Nat :=
  c.elem.rank e + c.key.rank e + c.elemTypes.length + c.keyTypes.length + c.maxSize.elim 2 fun _ => 1

def extend (c : Container Value) (elemTypes : List String) (elem : Value) (keyTypes : List String) (key : Value)
    (minSize : Nat) (maxSize : Option Nat) : Container Value :=
  ⟨c.type, Sorted.union c.elemTypes elemTypes, c.elem.merge elem, Sorted.union c.keyTypes keyTypes,
    c.key.merge key, minSize, maxSize⟩

theorem mergeWith_eq_extend (hc : c.Tidy) (hd : d.Tidy) :
    c.mergeWith Value.merge d = c.extend d.elemTypes d.elem d.keyTypes d.key (min c.minSize d.minSize)
      (looserSize c.maxSize d.maxSize) :=
  mergeWith_eq (p := fun _ => True) (fun _ _ => Value.typeNames_merge_subset _ _) ⟨hc, trivial, trivial⟩
    ⟨hd, trivial, trivial⟩

def storedKey (c : Container Value) (key : Value) : Value := if c.type = .dict then key else []

theorem withStore_eq_extend (hc : c.Tidy) (elem key : Value) :
    c.withStore elem key = c.extend (c.elem.merge elem).typeNames elem (c.key.merge (c.storedKey key)).typeNames
      (c.storedKey key) (max c.minSize 1) (c.maxSize.bind nextSize) := by
  have hkey : (if c.type = .dict then c.key.merge key else c.key) = c.key.merge (c.storedKey key) := by
    unfold storedKey
    split
    · rfl
    · rw [Value.merge_nil]
  have hsize : (c.maxSize.bind nextSize).map (max (max c.minSize 1)) = c.maxSize.bind nextSize := by
    cases hmax : c.maxSize with
    | none => rfl
    | some n =>
      have hle := hc.sizes n hmax
      simp only [Option.bind_some, nextSize]
      split
      · simp only [Option.map_some, Option.some.injEq]
        omega
      · rfl
  rw [withStore, normalize]
  simp only [hkey, hsize]
  rfl

theorem tidy_withStore (c : Container Value) (elem key : Value) : (c.withStore elem key).Tidy := tidy_normalize _

/-- Whatever extends a container leaves its core or raises its height, if a lost bound stays lost. -/
theorem extend_core_eq_or_height_lt (hc : c.Flat e w) (helem : elem.Within e) (hkey : key.Within e)
    (elemTypes keyTypes : List String) (minSize : Nat) {maxSize : Option Nat}
    (hsize : c.maxSize = none → maxSize = none) :
    (c.extend elemTypes elem keyTypes key minSize maxSize).core = c.core ∨
      c.height e < (c.extend elemTypes elem keyTypes key minSize maxSize).height e := by
  have hunion : ∀ {as : List String} (bs : List String), as.Pairwise (· < ·) →
      Sorted.union as bs = as ∨ as.length < (Sorted.union as bs).length := by
    intro as bs has
    have hsub : as ⊆ Sorted.union as bs := fun x hx => Sorted.mem_union.mpr (Or.inl hx)
    rcases Nat.lt_or_ge as.length (Sorted.union as bs).length with hlt | hle
    · exact Or.inr hlt
    · exact Or.inl (Sorted.eq_of_subset has (Sorted.pairwise_ofList _) hsub hle)
  obtain ⟨hbound, hbound'⟩ :
      (maxSize.map (fun _ => 0) = c.maxSize.map (fun _ => 0) ∨
        (c.maxSize.elim 2 fun _ => 1) < maxSize.elim 2 fun _ => 1) ∧
        (c.maxSize.elim 2 fun _ => 1) ≤ maxSize.elim 2 fun _ => 1 := by
    cases hmax : c.maxSize with
    | none =>
      rw [hsize hmax]
      exact ⟨Or.inl rfl, Nat.le_refl 2⟩
    | some n =>
      cases maxSize with
      | none => exact ⟨Or.inr (Nat.lt_succ_self 1), Nat.le_succ 1⟩
      | some m => exact ⟨Or.inl rfl, Nat.le_refl 1⟩
  have hleft : ∀ {α : Type} {x y : α} (f : α → Nat), y = x ∨ f x < f y → f x ≤ f y := by
    rintro α x y f (rfl | h)
    · exact Nat.le_refl _
    · exact h.le
  -- Each part stays or grows, and the height is the sum over the parts.
  have helems := Value.merge_eq_or_rank_lt hc.elem helem
  have hkeys := Value.merge_eq_or_rank_lt hc.key hkey
  have helemNames := hunion elemTypes hc.tidy.elemTypes
  have hkeyNames := hunion keyTypes hc.tidy.keyTypes
  have helems' := hleft (Value.rank e) helems
  have hkeys' := hleft (Value.rank e) hkeys
  have helemNames' := hleft List.length helemNames
  have hkeyNames' := hleft List.length hkeyNames
  by_cases hlt : c.height e < (c.extend elemTypes elem keyTypes key minSize maxSize).height e
  · exact Or.inr hlt
  · left
    simp only [height, extend] at hlt
    simp only [extend, core, helems.resolve_right (by omega), hkeys.resolve_right (by omega),
      helemNames.resolve_right (by omega), hkeyNames.resolve_right (by omega), hbound.resolve_right (by omega)]

theorem Flat.extend (hc : c.Flat e w) (helem : elem.Within e) (hkey : key.Within e) {elemTypes keyTypes : List String}
    (helemTypes : elemTypes ⊆ Constant.typeNames) (hkeyTypes : keyTypes ⊆ Constant.typeNames) {minSize : Nat}
    {maxSize : Option Nat} (hsize : ∀ n, maxSize = some n → n ≤ w)
    (htidy : (c.extend elemTypes elem keyTypes key minSize maxSize).Tidy) :
    (c.extend elemTypes elem keyTypes key minSize maxSize).Flat e w := by
  have hunion : ∀ {as bs : List String}, as ⊆ Constant.typeNames → bs ⊆ Constant.typeNames →
      Sorted.union as bs ⊆ Constant.typeNames := by
    intro as bs has hbs n hn
    rcases Sorted.mem_union.mp hn with hn | hn
    · exact has hn
    · exact hbs hn
  exact ⟨htidy, Value.plain_merge Constant.within_join hc.elem helem,
    Value.plain_merge Constant.within_join hc.key hkey, hunion hc.elemTypes helemTypes,
    hunion hc.keyTypes hkeyTypes, hsize⟩

theorem Flat.mergeWith (hc : c.Flat e w) (hd : d.Flat e w) : (c.mergeWith Value.merge d).Flat e w := by
  have htidy : (c.mergeWith Value.merge d).Tidy := tidy_normalize _
  rw [mergeWith_eq_extend hc.tidy hd.tidy] at htidy ⊢
  refine hc.extend hd.elem hd.key hd.elemTypes hd.keyTypes (fun n hn => ?_) htidy
  cases hmax : c.maxSize with
  | none => simp [looserSize, hmax] at hn
  | some i =>
    cases hmax' : d.maxSize with
    | none => simp [looserSize, hmax, hmax'] at hn
    | some j =>
      have hi := hc.size i hmax
      have hj := hd.size j hmax'
      simp only [looserSize, hmax, hmax', Option.some.injEq] at hn
      omega

theorem Flat.mergeWith_core_eq_or_height_lt (hc : c.Flat e w) (hd : d.Flat e w) :
    (c.mergeWith Value.merge d).core = c.core ∨ c.height e < (c.mergeWith Value.merge d).height e := by
  rw [mergeWith_eq_extend hc.tidy hd.tidy]
  exact extend_core_eq_or_height_lt hc hd.elem hd.key _ _ _ fun hmax => by simp [looserSize, hmax]

end Container

namespace Value

variable {e : Extent} {v : Value}

theorem typeNames_subset_of_within (h : v.Within e) : v.typeNames ⊆ Constant.typeNames := by
  intro n hn
  obtain ⟨hne, o, ho, rfl⟩ := mem_typeNames.mp hn
  rcases h with rfl | ⟨-, hall⟩
  · rw [List.mem_singleton.mp ho] at hne
    exact absurd rfl hne
  · obtain ⟨c, rfl, -⟩ := hall o ho
    exact c.typeName_mem

end Value

namespace Container

variable {e : Extent} {w : Nat} {c : Container Value} {elem key : Value}

theorem flat_ofBounds (type : ContainerType) (helem : elem.Within e) (hkey : key.Within e) {lower upper : Int}
    (hlower : lower.toNat ≤ w) (hupper : upper.toNat ≤ w) : (ofBounds type elem key lower upper).Flat e w := by
  have hunion : ∀ {v : Value}, v.Within e → Sorted.union [] v.typeNames ⊆ Constant.typeNames := by
    intro v hv n hn
    exact Value.typeNames_subset_of_within hv ((Sorted.mem_union.mp hn).resolve_left (by simp))
  refine ⟨tidy_normalize _, helem, hkey, hunion helem, hunion hkey, fun n hn => ?_⟩
  obtain ⟨i, hi, rfl⟩ := Option.map_eq_some_iff.mp hn
  dsimp only at hi ⊢
  split at hi
  · cases hi
  · obtain rfl := Option.some.inj hi
    exact Nat.max_le.mpr ⟨hlower, hupper⟩

theorem flat_setOf {elems : List Value} (helems : (Value.mergeAll elems).Within e) (hlength : elems.length ≤ w) :
    (setOf elems).Flat e w := by
  have h : (ofElems .set elems).Flat e w := flat_ofBounds .set helems Value.plain_nil hlength hlength
  exact ⟨tidy_setOf elems, h.elem, h.key, h.elemTypes, h.keyTypes, h.size⟩

theorem within_storedKey (hkey : key.Within e) : (c.storedKey key).Within e := by
  unfold storedKey
  split
  · exact hkey
  · exact Value.plain_nil

theorem Flat.withStore (hw : Word.half ≤ w) (hc : c.Flat e w) (helem : elem.Within e) (hkey : key.Within e) :
    (c.withStore elem key).Flat e w := by
  have htidy := c.tidy_withStore elem key
  have hkey' := within_storedKey (c := c) hkey
  rw [withStore_eq_extend hc.tidy] at htidy ⊢
  refine hc.extend helem hkey' ?_ ?_ (fun n hn => ?_) htidy
  · exact Value.typeNames_subset_of_within (Value.plain_merge Constant.within_join hc.elem helem)
  · exact Value.typeNames_subset_of_within (Value.plain_merge Constant.within_join hc.key hkey')
  · obtain ⟨i, -, hi⟩ := Option.bind_eq_some_iff.mp hn
    unfold nextSize at hi
    split at hi
    · have := Option.some.inj hi
      omega
    · cases hi

theorem Flat.withStore_core_eq_or_height_lt (hc : c.Flat e w) (helem : elem.Within e) (hkey : key.Within e) :
    (c.withStore elem key).core = c.core ∨ c.height e < (c.withStore elem key).height e := by
  rw [withStore_eq_extend hc.tidy]
  exact extend_core_eq_or_height_lt hc helem (within_storedKey hkey) _ _ _ fun hmax => by simp [hmax]

end Container

namespace Extent

def objectBound (e : Extent) : Nat := e.setBound + 2 * e.valueBound + 2 * Constant.typeNames.length + 2

end Extent

theorem Container.height_le {e : Extent} {w : Nat} {c : Container Value} (h : c.Flat e w) :
    c.height e ≤ e.objectBound := by
  have hlength : ∀ {ns : List String}, ns.Pairwise (· < ·) → ns ⊆ Constant.typeNames →
      ns.length ≤ Constant.typeNames.length :=
    fun hsorted hsub => (List.subperm_of_subset hsorted.nodup hsub).length_le
  have helem := Value.rank_le h.elem
  have hkey := Value.rank_le h.key
  have helemTypes := hlength h.tidy.elemTypes h.elemTypes
  have hkeyTypes := hlength h.tidy.keyTypes h.keyTypes
  have hbound : (c.maxSize.elim 2 fun _ => 1) ≤ 2 := by
    cases c.maxSize with
    | none => exact Nat.le_refl 2
    | some n => exact Nat.le_succ 1
  unfold height Extent.objectBound
  omega

namespace Object

variable {e : Extent} {w : Nat} {x y : Object}

/-- A constant within the extent, or a flat container. -/
def Flat (e : Extent) (w : Nat) : Object → Prop
  | .constant c => c.Within e
  | .container c => c.Flat e w
  | _ => False

def core : Object → Object
  | .container c => .container c.core
  | o => o

def height (e : Extent) : Object → Nat
  | .constant c => c.rank e
  | .container c => c.height e
  | _ => 0

def minSize : Object → Nat
  | .container c => c.minSize
  | _ => 0

theorem key_core (o : Object) : o.core.key = o.key := by
  cases o <;> rfl

theorem height_core (o : Object) : o.core.height e = o.height e := by
  cases o with
  | container c =>
    simp only [core, height, Container.height, Container.core]
    cases c.maxSize <;> rfl
  | _ => rfl

theorem isUnknown_core (o : Object) : o.core.isUnknown = o.isUnknown := by
  cases o <;> rfl

def containerKey (type : ContainerType) : String := "container:" ++ type.name

def flatKeys : List String :=
  Constant.typeNames.map ("const:" ++ ·) ++ [ContainerType.list, .tuple, .set, .dict].map containerKey

theorem mergeWith_container (m : Value → Value → Value) {c d : Container Value}
    (h : (Object.container c).key = (Object.container d).key) :
    (Object.container c).mergeWith m (.container d) = .container (c.mergeWith m d) := by
  unfold mergeWith
  rw [if_neg (not_not_intro h)]

/-- Flat objects of one key are two constants or two containers. -/
theorem Flat.cases_of_key {Q : Object → Object → Prop} (hx : x.Flat e w) (hy : y.Flat e w) (hkey : x.key = y.key)
    (hconstant : ∀ c d : Constant, c.Within e → d.Within e →
      (Object.constant c).key = (Object.constant d).key → Q (.constant c) (.constant d))
    (hcontainer : ∀ c d : Container Value, c.Flat e w → d.Flat e w →
      (Object.container c).key = (Object.container d).key → Q (.container c) (.container d)) : Q x y := by
  have hkind := kind_of_key hkey
  cases x with
  | constant c =>
    obtain ⟨d, rfl⟩ := exists_constant_of_kind hkind.symm
    exact hconstant c d hx hy hkey
  | container c =>
    obtain ⟨d, rfl⟩ := exists_container_of_kind hkind.symm
    exact hcontainer c d hx hy hkey
  | _ => exact hx.elim

theorem family_flat : Family (Flat e w) flatKeys := by
  refine ⟨fun {o} ho => ?_, fun {o} ho => ?_, fun {o} ho => ?_, by decide, fun {x y} hx hy hkey => ?_⟩
  · cases o with
    | constant | container => rfl
    | _ => exact ho.elim
  · cases o with
    | constant | container => rfl
    | _ => exact ho.elim
  · cases o with
    | constant c => exact List.mem_append_left _ (List.mem_map_of_mem c.typeName_mem)
    | container c =>
      refine List.mem_append_right _ (List.mem_map.mpr ⟨c.type, ?_, rfl⟩)
      cases c.type <;> simp
    | _ => exact ho.elim
  · refine hx.cases_of_key (Q := fun x y => Flat e w (x.mergeWith Value.merge y)) hy hkey ?_ ?_
    · intro c d hc hd hkey
      rw [mergeWith_constant Value.merge hkey]
      exact Constant.within_join c d (key_constant_inj hkey) hc hd
    · intro c d hc hd hkey
      rw [mergeWith_container Value.merge hkey]
      exact hc.mergeWith hd

theorem ranked_flat : Ranked (Flat e w) flatKeys core (height e) e.objectBound := by
  refine ⟨family_flat, fun {x y} h => ?_, fun {o} ho => ?_, fun {o} ho => ?_, fun {x y} hx hy hkey => ?_⟩
  · rw [← height_core, h, height_core]
  · cases o with
    | constant c => exact c.rank_pos
    | container c =>
      refine Nat.add_pos_right _ ?_
      cases c.maxSize with
      | none => exact Nat.two_pos
      | some n => exact Nat.one_pos
    | _ => exact ho.elim
  · cases o with
    | constant c =>
      refine (Constant.rank_le ho).trans ?_
      unfold Extent.objectBound
      omega
    | container c => exact Container.height_le ho
    | _ => exact ho.elim
  · refine hx.cases_of_key (Q := fun x y => (x.mergeWith Value.merge y).core = x.core ∨
      x.height e < (x.mergeWith Value.merge y).height e) hy hkey ?_ ?_
    · intro c d hc hd hkey
      rw [mergeWith_constant Value.merge hkey]
      exact (Constant.join_eq_or_rank_lt (key_constant_inj hkey) hc hd).imp_left (congrArg Object.constant)
    · intro c d hc hd hkey
      rw [mergeWith_container Value.merge hkey]
      exact (hc.mergeWith_core_eq_or_height_lt hd).imp_left (congrArg Object.container)

def stored (elem key : Value) : Object → Object
  | .container c => .container (c.withStore elem key)
  | o => o

theorem key_stored (elem key : Value) (o : Object) : (o.stored elem key).key = o.key := by
  cases o <;> rfl

theorem Flat.tidy (h : x.Flat e w) : x.Tidy := by
  cases x with
  | constant c =>
    cases c with
    | number type s => exact NumberSet.Normal.tidy h.toNormal
    | string s => exact StringSet.Normal.tidy h.toNormal
    | none => trivial
  | container c => exact Container.Flat.tidy h
  | _ => exact h.elim

theorem Flat.stored {elem key : Value} (hw : Word.half ≤ w) (hx : x.Flat e w) (helem : elem.Within e)
    (hkey : key.Within e) : (x.stored elem key).Flat e w := by
  cases x with
  | constant c => exact hx
  | container c => exact Container.Flat.withStore hw hx helem hkey
  | _ => exact hx.elim

theorem Flat.stored_core_eq_or_height_lt {elem key : Value} (hx : x.Flat e w) (helem : elem.Within e)
    (hkey : key.Within e) : (x.stored elem key).core = x.core ∨ x.height e < (x.stored elem key).height e := by
  cases x with
  | container c =>
    exact (Container.Flat.withStore_core_eq_or_height_lt hx helem hkey).imp_left (congrArg Object.container)
  | _ => exact Or.inl rfl

end Object

namespace Value

variable {e : Extent} {w : Nat} {v v' a b elem key : Value}

theorem keyed_map {f : Object → Object} (hf : ∀ o, (f o).key = o.key) (v : Value) :
    keyed (v.map f) = Dict.image f v.keyed := by
  simp [keyed, Dict.image, hf]

theorem canonical_of_sorted (h : Dict.Sorted v.keyed) : canonical v = v := by
  obtain ⟨hsorted, hget⟩ := canonical_spec (nodup_keys h)
  exact keyed_injective (Dict.ext_get? hsorted h hget)

theorem eq_of_key_eq (h : Dict.Sorted v.keyed) {x y : Object} (hx : x ∈ v) (hy : y ∈ v) (hkey : x.key = y.key) :
    x = y := by
  have hget := Dict.get?_of_mem h (mem_keyed.mpr ⟨hx, rfl⟩)
  rw [hkey, Dict.get?_of_mem h (mem_keyed.mpr ⟨hy, rfl⟩)] at hget
  exact (Option.some.inj hget).symm

/-- Putting an object in its own place changes nothing. -/
theorem replace_self (h : Dict.Sorted v.keyed) {o : Object} (ho : o ∈ v) : v.replace o o = v := by
  have hmap : (v.map fun x => if x.key = o.key then o else x) = v := by
    refine (List.map_congr_left fun x hx => ?_).trans (List.map_id v)
    split
    · rename_i hkey
      exact (eq_of_key_eq h hx ho hkey).symm
    · rfl
  rw [replace, hmap, canonical_of_sorted h]

theorem foldl_replace {F : Object → Object} (hF : ∀ o, (F o).key = o.key) (h : Dict.Sorted v.keyed)
    {os : List Object} (hos : ∀ o ∈ os, o ∈ v) :
    os.foldl (fun w o => w.replace o (F o)) v = v.map fun x => if x.key ∈ os.map Object.key then F x else x := by
  -- From the end: the last object is replaced in what the others have made of the value.
  induction os using List.reverseRecOn with
  | nil => simp
  | append_singleton os o ih =>
    obtain ⟨hos, ho⟩ := List.forall_mem_append.mp hos
    rw [List.foldl_append, ih hos, List.foldl_cons, List.foldl_nil, replace, List.map_map]
    have hkey : ∀ x : Object, (if x.key ∈ os.map Object.key then F x else x).key = x.key := by
      intro x
      split
      · exact hF x
      · rfl
    have hplaced : (v.map fun x => if x.key = o.key then F o else if x.key ∈ os.map Object.key then F x else x) =
        v.map fun x => if x.key ∈ (os ++ [o]).map Object.key then F x else x := by
      refine List.map_congr_left fun x hx => ?_
      by_cases hsame : x.key = o.key
      · obtain rfl := eq_of_key_eq h hx (ho o (List.mem_singleton_self _)) hsame
        simp
      · simp [hsame]
    have hmap : (v.map ((fun x => if x.key = o.key then F o else x) ∘
        fun x => if x.key ∈ os.map Object.key then F x else x)) =
        v.map fun x => if x.key = o.key then F o else if x.key ∈ os.map Object.key then F x else x := by
      simp only [Function.comp_def, hkey]
    rw [hmap, hplaced]
    refine canonical_of_sorted ?_
    rw [keyed_map fun x => ?_]
    · exact Dict.sorted_image.mpr h
    · split
      · exact hF x
      · rfl

theorem foldl_replace_self {F : Object → Object} (hF : ∀ o, (F o).key = o.key) (h : Dict.Sorted v.keyed) :
    v.foldl (fun w o => w.replace o (F o)) v = v.map F := by
  rw [foldl_replace hF h fun o ho => ho]
  exact List.map_congr_left fun x hx => if_pos (List.mem_map_of_mem hx)

theorem mem_containers {c : Container Value} : c ∈ v.containers ↔ .container c ∈ v := by
  simp only [containers, List.mem_filterMap]
  constructor
  · rintro ⟨o, ho, hoc⟩
    cases o with
    | container d => exact Option.some.inj hoc ▸ ho
    | _ => cases hoc
  · exact fun hc => ⟨_, hc, rfl⟩

theorem store_eq_map (h : Dict.Sorted v.keyed) (elem key : Value) :
    v.store elem key = v.map (Object.stored elem key) := by
  have hfold : v.store elem key =
      (v.containers.map Object.container).foldl (fun w o => w.replace o (o.stored elem key)) v := by
    rw [List.foldl_map]
    rfl
  rw [hfold, foldl_replace (Object.key_stored elem key) h (List.forall_mem_map.mpr fun _ => mem_containers.mp)]
  refine List.map_congr_left fun o ho => ?_
  split
  · rfl
  · rename_i hnone
    cases o with
    | container c =>
      exact absurd (List.mem_map_of_mem (List.mem_map_of_mem (mem_containers.mpr ho))) hnone
    | _ => rfl

/-- A value of flat objects, or unknown. -/
abbrev Flat (e : Extent) (w : Nat) (v : Value) : Prop := v.Uniform (Object.Flat e w)

/-- What a value is apart from the sizes of its containers. -/
def core (v : Value) : Value := v.map Object.core

/-- The height of what is unknown, which is above all other flat values. -/
def heightBound (e : Extent) : Nat := Object.flatKeys.length * e.objectBound + 1

def height (e : Extent) (v : Value) : Nat := measure (heightBound e) (Object.height e) v

theorem Within.flat (h : v.Within e) : v.Flat e w := by
  rcases h with h | ⟨hsorted, hall⟩
  · exact Or.inl h
  · refine Or.inr ⟨hsorted, fun o ho => ?_⟩
    obtain ⟨c, rfl, hc⟩ := hall o ho
    exact hc

theorem flat_container {c : Container Value} (h : c.Flat e w) : Flat e w [.container c] :=
  Or.inr ⟨List.pairwise_singleton _ _, List.forall_mem_singleton.mpr h⟩

theorem Uniform.sorted {P : Object → Prop} (h : v.Uniform P) : Dict.Sorted v.keyed := by
  rcases h with rfl | ⟨hsorted, -⟩
  · exact List.pairwise_singleton _ _
  · exact hsorted

theorem Flat.merge (ha : a.Flat e w) (hb : b.Flat e w) : (a.merge b).Flat e w :=
  uniform_merge Object.family_flat ha hb

theorem Flat.height_le (h : v.Flat e w) : v.height e ≤ heightBound e :=
  measure_le Object.ranked_flat (Nat.lt_succ_self _) h

theorem height_eq_of_core_eq (h : v.core = v'.core) : v.height e = v'.height e := by
  refine measure_eq_of_map_eq _ (fun {x y} hcore => ?_) h
  rw [← Object.height_core, ← Object.isUnknown_core, hcore, Object.height_core, Object.isUnknown_core]
  exact ⟨rfl, rfl⟩

theorem Flat.merge_core_eq_or_height_lt (ha : a.Flat e w) (hb : b.Flat e w) :
    (a.merge b).core = a.core ∨ a.height e < (a.merge b).height e :=
  merge_map_eq_or_measure_lt Object.ranked_flat (Nat.lt_succ_self _) ha hb

theorem Flat.store (hw : Word.half ≤ w) (h : v.Flat e w) (helem : elem.Within e) (hkey : key.Within e) :
    (v.store elem key).Flat e w := by
  rw [store_eq_map h.sorted]
  rcases h with rfl | ⟨hsorted, hall⟩
  · exact uniform_unknown
  · refine Or.inr ⟨?_, fun o ho => ?_⟩
    · rw [keyed_map (Object.key_stored elem key)]
      exact Dict.sorted_image.mpr hsorted
    · obtain ⟨x, hx, rfl⟩ := List.mem_map.mp ho
      exact (hall x hx).stored hw helem hkey

/-- A store that changes the core of a value raises its height. -/
theorem Flat.store_core_eq_or_height_lt (hw : Word.half ≤ w) (h : v.Flat e w) (helem : elem.Within e)
    (hkey : key.Within e) : (v.store elem key).core = v.core ∨ v.height e < (v.store elem key).height e := by
  have hstore := h.store hw helem hkey
  rw [store_eq_map h.sorted] at hstore ⊢
  rcases h with rfl | ⟨-, hall⟩
  · exact Or.inl rfl
  have hall' : ∀ o ∈ v.map (Object.stored elem key), o.Flat e w := by
    intro o ho
    obtain ⟨x, hx, rfl⟩ := List.mem_map.mp ho
    exact (hall x hx).stored hw helem hkey
  rw [height, height, measure_of_family Object.ranked_flat hall, measure_of_family Object.ranked_flat hall']
  have hrises : ∀ x ∈ v.keyed, (x.2.stored elem key).core = x.2.core ∨
      x.2.height e < (x.2.stored elem key).height e :=
    fun x hx => (each_keyed hall x hx).1.stored_core_eq_or_height_lt helem hkey
  have hsees : ∀ x y : Object, x.core = y.core → x.height e = y.height e :=
    fun _ _ => (Object.ranked_flat (w := w)).sees
  have hdict := Dict.image_image_eq_or_weight_lt hsees hrises
  rw [← keyed_map (Object.key_stored elem key)] at hdict
  exact hdict.imp_left map_eq_of_image_eq

theorem store_of_within (h : v.Within e) (elem key : Value) : v.store elem key = v := by
  rw [store_eq_map (Uniform.sorted h)]
  refine (List.map_congr_left fun o ho => ?_).trans (List.map_id v)
  rcases h with rfl | ⟨-, hall⟩
  · rw [List.mem_singleton.mp ho]
    rfl
  · obtain ⟨c, rfl, -⟩ := hall o ho
    rfl

def lower (v : Value) (type : ContainerType) : Option Nat :=
  (Dict.get? v.keyed (Object.containerKey type)).map Object.minSize

theorem get?_core (v : Value) (k : String) : Dict.get? v.core.keyed k = (Dict.get? v.keyed k).map Object.core := by
  rw [core, keyed_map Object.key_core, Dict.get?_image]

theorem hasUnknown_core (v : Value) : v.core.hasUnknown = v.hasUnknown := by
  simp [hasUnknown, core, Function.comp_def, Object.isUnknown_core]

theorem exists_container_of_get? {type : ContainerType} {o : Object}
    (h : Dict.get? v.keyed (Object.containerKey type) = some o) : ∃ c, o = .container c ∧ .container c ∈ v := by
  obtain ⟨ho, hkey⟩ := mem_keyed.mp (Dict.mem_of_get? h)
  obtain ⟨c, rfl⟩ := Object.exists_container_of_kind
    (Object.kind_of_key (y := .container ⟨type, [], [], [], [], 0, none⟩) hkey)
  exact ⟨c, rfl, ho⟩

theorem lower_of_within (h : v.Within e) (type : ContainerType) : v.lower type = none := by
  rw [lower, Option.map_eq_none_iff, Option.eq_none_iff_forall_ne_some]
  intro o ho
  obtain ⟨c, -, hc⟩ := exists_container_of_get? ho
  rcases h with rfl | ⟨-, hall⟩
  · cases List.mem_singleton.mp hc
  · obtain ⟨d, hd, -⟩ := hall _ hc
    cases hd

theorem hasUnknown_merge (ha : a.Tidy) (hb : b.Tidy) (h : a.hasUnknown = true ∨ b.hasUnknown = true) :
    (a.merge b).hasUnknown = true := by
  rw [← known_eq_none, merge_eq, known_mergeWith ha hb]
  rcases h with h | h
  · rw [known_eq_none.mpr h, none_joinUpTo]
  · rw [known_eq_none.mpr h, joinUpTo_none]

theorem hasUnknown_store (h : v.Tidy) (elem key : Value) : (v.store elem key).hasUnknown = v.hasUnknown := by
  rw [store_eq_map h.sorted, hasUnknown, hasUnknown, List.any_map]
  congr
  funext o
  cases o <;> rfl

theorem Flat.tidy (h : v.Flat e w) : v.Tidy := by
  rcases h with rfl | ⟨hsorted, hall⟩
  · exact tidy_unknown Dict.sorted_nil
  have hlength := length_le_of_each Object.family_flat hsorted (each_keyed hall)
  rw [length_keyed] at hlength
  have hfew := hlength.trans (Object.family_flat (e := e) (w := w)).few
  refine ⟨hsorted, hfew, fun hunknown => ?_, fun o ho => (hall o ho).tidy⟩
  rw [hasUnknown_of_family Object.family_flat hall] at hunknown
  cases hunknown

theorem Flat.eq_unknown (h : v.Flat e w) (hunknown : v.hasUnknown = true) : v = unknown := by
  rcases h with h | ⟨-, hall⟩
  · exact h
  · rw [hasUnknown_of_family Object.family_flat hall] at hunknown
    cases hunknown

theorem lower_merge_of_known (ha : a.Tidy) (hb : b.Tidy) (h : (a.merge b).hasUnknown = false) (type : ContainerType) :
    (a.merge b).lower type = Dict.union min (a.lower type) (b.lower type) := by
  have hget : ∀ {v : Value} {x : Object}, Dict.get? v.keyed (Object.containerKey type) = some x →
      ∃ c, x = .container c ∧ (Object.container c).key = Object.containerKey type := by
    intro v x hx
    obtain ⟨c, rfl, -⟩ := exists_container_of_get? hx
    exact ⟨c, rfl, (mem_keyed.mp (Dict.mem_of_get? hx)).2⟩
  unfold lower
  rw [keyed_merge_of_known ha hb h, Dict.get?_mergeWith _ _ ha.sorted hb.sorted]
  cases hx : Dict.get? a.keyed (Object.containerKey type) with
  | none => cases Dict.get? b.keyed (Object.containerKey type) <;> rfl
  | some x =>
    cases hy : Dict.get? b.keyed (Object.containerKey type) with
    | none => rfl
    | some y =>
      obtain ⟨c, rfl, hc⟩ := hget hx
      obtain ⟨d, rfl, hd⟩ := hget hy
      rw [Dict.union, Object.mergeWith_container Value.merge (hc.trans hd.symm)]
      rfl

theorem Flat.isSome_lower_of_merge (ha : a.Flat e w) (hb : b.Flat e w) {type : ContainerType}
    (h : ((a.merge b).lower type).isSome = true) : (a.lower type).isSome = true ∨ (b.lower type).isSome = true := by
  cases hunknown : (a.merge b).hasUnknown with
  | true =>
    rw [(ha.merge hb).eq_unknown hunknown, lower_of_within (e := e) plain_unknown] at h
    cases h
  | false =>
    rw [lower_merge_of_known ha.tidy hb.tidy hunknown] at h
    cases hlower : a.lower type with
    | none =>
      rw [hlower] at h
      cases hlower' : b.lower type with
      | none =>
        rw [hlower'] at h
        cases h
      | some n => exact Or.inr rfl
    | some n => exact Or.inl rfl

theorem isSome_lower_of_core_eq (h : v.core = v'.core) (type : ContainerType) :
    (v.lower type).isSome = (v'.lower type).isSome := by
  have hget := congrArg Option.isSome (get?_core v (Object.containerKey type))
  rw [h, get?_core, Option.isSome_map, Option.isSome_map] at hget
  rw [lower, lower, Option.isSome_map, Option.isSome_map, hget]

/-- A merge that leaves the core lowers the bounds of the containers that it finds in both values. -/
theorem Flat.lower_merge (ha : a.Flat e w) (hb : b.Flat e w) (hcore : (a.merge b).core = a.core)
    (type : ContainerType) :
    (a.merge b).lower type = (a.lower type).map fun n => (b.lower type).elim n (min n) := by
  cases hunknown : (a.merge b).hasUnknown with
  | true =>
    have hunknown' : a.hasUnknown = true := by rw [← hasUnknown_core, ← hcore, hasUnknown_core, hunknown]
    have hmerge : a.merge b = a := ((ha.merge hb).eq_unknown hunknown).trans (ha.eq_unknown hunknown').symm
    rw [hmerge, ha.eq_unknown hunknown', lower_of_within (e := e) plain_unknown]
    rfl
  | false =>
    have hfound := isSome_lower_of_core_eq hcore type
    rw [lower_merge_of_known ha.tidy hb.tidy hunknown] at hfound ⊢
    cases hlower : a.lower type with
    | none =>
      rw [hlower] at hfound
      exact Option.not_isSome_iff_eq_none.mp (by simp [hfound])
    | some n => cases b.lower type <;> rfl

theorem lower_store (h : Dict.Sorted v.keyed) (elem key : Value) (type : ContainerType) :
    (v.store elem key).lower type = (v.lower type).map (max · 1) := by
  rw [store_eq_map h, lower, lower, keyed_map (Object.key_stored elem key), Dict.get?_image]
  cases hx : Dict.get? v.keyed (Object.containerKey type) with
  | none => rfl
  | some x =>
    obtain ⟨c, rfl, -⟩ := exists_container_of_get? hx
    rfl

theorem lower_container (c : Container Value) (type : ContainerType) :
    lower [.container c] type = if c.type = type then some c.minSize else none := by
  have hkey : (Object.container c).key = Object.containerKey type ↔ c.type = type := by
    refine ⟨fun h => ?_, fun h => by rw [← h]; rfl⟩
    exact Object.key_container_inj (d := ⟨type, [], [], [], [], 0, none⟩) h
  by_cases h : c.type = type
  · simp [lower, Dict.get?, hkey.mpr h, h, Object.minSize]
  · simp [lower, Dict.get?, hkey, h]

end Value

end AbstractFlow
