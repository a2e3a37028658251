import AbstractFlow.Proofs.Analysis.AttributeLoads
import AbstractFlow.Proofs.Analysis.SharedFrame
import AbstractFlow.Proofs.Analysis.Upkeep
import AbstractFlow.Proofs.State.Resolution
import AbstractFlow.Proofs.Value.Flat

/-! # Stores are not lost

What is stored in an attribute or an element of a variable is found by loading from the variable again: the store
rebinds the variable where it is found, every object that has attributes now has the stored one among its own, and
every container has it among its elements.
-/
namespace AbstractFlow

namespace State

variable {s s' : State} {scope name : String} {key : FrameKey} {v w : Value}

/-- Joins a value into the attribute that is stored on the identity of each object. -/
def joinStored (s : State) (objs : List Object) (name : String) (v : Value) : State :=
  objs.foldl (fun s o => s.storeHeapAttr o.identity name v false) s

theorem getVariable?_withHeap (s : State) (heap : Table String Attrs) (x : String) :
    State.getVariable? { s with heap } x = s.getVariable? x := by
  have hvisible : State.visibleScopes { s with heap } = s.visibleScopes := visibleScopes_of_scopes rfl rfl
  unfold getVariable? resolve?
  rw [hvisible]
  rfl

theorem getVariable?_joinStored (s : State) (objs : List Object) (name : String) (v : Value) (x : String) :
    (s.joinStored objs name v).getVariable? x = s.getVariable? x := by
  induction objs generalizing s with
  | nil => rfl
  | cons o rest ih =>
    refine (ih _).trans ?_
    show (s.storeHeapAttr o.identity name v false).getVariable? x = s.getVariable? x
    unfold storeHeapAttr
    split
    · rfl
    · exact s.getVariable?_withHeap _ x

theorem stored?_storeHeapAttr (s : State) (o : Object) (identity name : String) (v : Value) :
    (s.storeHeapAttr identity name v false).stored? o name = s.stored? o name ∨
      (s.storeHeapAttr identity name v false).stored? o name =
        some (Dict.joined Value.merge v (s.stored? o name)) := by
  unfold storeHeapAttr
  split
  · exact Or.inl rfl
  · unfold stored? heapAttr? heapAttrs
    split
    · exact Or.inl rfl
    · simp only [Table.get?_insert]
      split
      · rename_i hsame
        right
        rw [Option.getD_some, Dict.get?_insert, if_pos rfl, hsame]
        cases Dict.get? ((s.heap.get? o.identity).getD []) name <;> rfl
      · exact Or.inl rfl

end State

namespace Object

/-- The object after a weak store of an attribute. -/
def joinAttr (name : String) (v : Value) (o : Object) : Object :=
  o.withAttr name (Dict.joined Value.merge v (Dict.get? o.attrs name))

variable {o : Object} {name : String} {v : Value}

theorem key_joinAttr (name : String) (v : Value) (o : Object) : (o.joinAttr name v).key = o.key := o.key_withAttr name _

/-- Constants and containers, which have no attributes. -/
def Bare (o : Object) : Prop := o.kind = .constant ∨ o.kind = .container

theorem get?_joinAttr (h : ¬ o.Bare) :
    Dict.get? (o.joinAttr name v).attrs name = some (Dict.joined Value.merge v (Dict.get? o.attrs name)) := by
  have hattrs : ∀ as, (o.withAttrs as).attrs = as := by
    intro as
    cases o with
    | constant => exact absurd (Or.inl rfl) h
    | container => exact absurd (Or.inr rfl) h
    | _ => rfl
  rw [joinAttr, withAttr, hattrs, Dict.get?_insert, if_pos rfl]

theorem subject_of_constant {c : Constant} {y : Object} (h : (Object.constant c).key = y.key) :
    (Object.constant c).subject = y.subject := by
  obtain ⟨d, rfl⟩ := exists_constant_of_kind (kind_of_key h).symm
  obtain ⟨t, s, s', rfl, rfl⟩ | ⟨s, s', rfl, rfl⟩ | ⟨rfl, rfl⟩ :=
    Constant.shape_of_typeName (key_constant_inj h) <;> rfl

theorem subject_of_unknown {as : Attrs} {y : Object} (h : (Object.unknown as).key = y.key) :
    (Object.unknown as).subject = y.subject := by
  have hkind := kind_of_key h
  rcases y with _ | _ | _ | _ | _ | _ | ⟨⟨⟩, _, _, _⟩ <;> first | rfl | cases hkind

end Object

namespace Value

variable {P : Value → Prop} {base v w : Value} {x : Option Value} {vs : List Value}

/-- One more value of a single object that has nothing inside and whose key tells what it is about. -/
theorem Orderly.cons {o : Object} (h : Orderly vs) (hinner : o.inner = []) (hneat : o.Neat) (hnamed : o.Named)
    (hkey : ∀ y : Object, o.key = y.key → o.subject = y.subject) : Orderly ([o] :: vs) := by
  have honly : ∀ x, Occurs x [o] → x = o := by
    intro x hx
    rcases occurs_cons.mp hx with rfl | ⟨w, hw, -⟩ | hx
    · rfl
    · rw [hinner] at hw
      cases hw
    · exact absurd hx occurs_nil
  constructor
  · refine List.forall_mem_cons.mpr ⟨fun x hx => ?_, h.neat⟩
    rw [honly x hx]
    exact hneat
  · refine List.forall_mem_cons.mpr ⟨fun x hx => ?_, h.named⟩
    rw [honly x hx]
    exact hnamed
  · intro v hv w hw x y hx hy hxy
    rcases List.mem_cons.mp hv with rfl | hv
    · obtain rfl := honly x hx
      exact hkey y hxy
    · rcases List.mem_cons.mp hw with rfl | hw
      · obtain rfl := honly y hy
        exact (hkey x hxy.symm).symm
      · exact h.keys v hv w hw x y hx hy hxy

/-- Merging obeys the laws on orderly values, and also on what is found in strings and in what is unknown. -/
theorem Orderly.lawful_elements (h : Orderly vs) (hcanonical : ∀ v ∈ vs, v.Canonical) :
    ∃ P : Value → Prop, Lawful P ∧ P anyString ∧ P unknown ∧ ∀ v ∈ vs, P v := by
  have hstring : Canonical anyString := (Built.string .any).canonical
  have hunknown : Canonical unknown := (Built.unknown Dict.sorted_nil (by simp)).canonical
  have horderly : Orderly (anyString :: unknown :: vs) :=
    (h.cons (o := .unknown []) rfl trivial trivial fun _ => Object.subject_of_unknown).cons
      (o := .constant (.string .any)) rfl (Int.le_refl (-1)) trivial fun _ => Object.subject_of_constant
  obtain ⟨P, hP, hmem⟩ :=
    horderly.lawful (List.forall_mem_cons.mpr ⟨hstring, List.forall_mem_cons.mpr ⟨hunknown, hcanonical⟩⟩)
  obtain ⟨hstring, hmem⟩ := List.forall_mem_cons.mp hmem
  obtain ⟨hunknown, hmem⟩ := List.forall_mem_cons.mp hmem
  exact ⟨P, hP, hstring, hunknown, hmem⟩

namespace Lawful

variable (hP : Lawful P)
include hP

theorem joined (hv : P v) (hx : ∀ w, x = some w → P w) : P (Dict.joined merge v x) := by
  cases x with
  | none => exact hv
  | some w => exact hP.laws.closed (hx w rfl) hv

theorem merge_absorbs_right (hv : P v) (hw : P w) : (w.merge v).merge v = w.merge v := by
  rw [hP.laws.assoc hw hv hv, hP.laws.idem hv]

/-- What a value was joined into absorbs it. -/
theorem joined_absorbs (hv : P v) (hx : ∀ w, x = some w → P w) :
    (Dict.joined merge v x).merge v = Dict.joined merge v x := by
  cases x with
  | none => exact hP.laws.idem hv
  | some w => exact hP.merge_absorbs_right hv (hx w rfl)

theorem mergeAll_absorbs (hvs : ∀ u ∈ vs, P u) (hw : w ∈ vs) (hv : P v) (h : w.merge v = w) :
    (mergeAll vs).merge v = mergeAll vs :=
  hP.laws.absorbs_trans (mergeAll_of_forall hP.nil hP.laws.closed hvs) (hvs w hw) hv
    (hP.laws.foldl_absorbs_mem hP.nil hvs hw) h

/-- What is found in a value after a store covers what was stored, if there is a container to store into. -/
theorem elements_store_covers (hbase : P base) (hv : P v) (hstring : P anyString) (hunknown : P unknown)
    {c : Container Value} (hc : .container c ∈ base) (key : Value) : (base.store v key).elements.Covers v := by
  have hstored := base.store_eq_map (hP.tidy hbase).sorted v key
  have hitems : ∀ w ∈ ((base.map (Object.stored v key)).map Object.element), P w := by
    intro w hw
    obtain ⟨o', ho', rfl⟩ := List.mem_map.mp hw
    obtain ⟨o, ho, rfl⟩ := List.mem_map.mp ho'
    cases o with
    | container d => exact hP.laws.closed (Object.inside_container.mp (hP.inside hbase _ ho)).1 hv
    | constant d =>
      cases d with
      | string s => exact hstring
      | _ => exact hunknown
    | _ => exact hunknown
  have helem := (Object.inside_container.mp (hP.inside hbase _ hc)).1
  have hmem : c.elem.merge v ∈ (base.map (Object.stored v key)).map Object.element :=
    List.mem_map.mpr ⟨_, List.mem_map_of_mem hc, rfl⟩
  rw [elements, hstored]
  exact Run.covers_orUnknown_of_absorbs (hP.mergeAll_absorbs hitems hmem hv (hP.merge_absorbs_right hv helem))

end Lawful

end Value

namespace State

variable {P : Value → Prop} {s : State} {base v : Value} {o : Object} {objs : List Object} {name : String}

theorem attrOf_of_bare (h : o.Bare) : s.attrOf (o.joinAttr name v) name = [] := by
  rcases o with _ | _ | _ | _ | _ | _ | ⟨⟨⟩, _, _, _⟩ <;> first | rfl | (rcases h with h | h <;> cases h)

theorem attrOf_joinAttr (h : ¬ o.Bare) : s.attrOf (o.joinAttr name v) name =
    (Dict.joined Value.merge v (Dict.get? o.attrs name)).merge ((s.stored? o name).getD []) := by
  have hown : Dict.get? (o.joinAttr name v).attrs name = some _ := Object.get?_joinAttr h
  have hroute : s.route (o.joinAttr name v) name = .held := by simp [route, hown]
  rw [attrOf_eq, hroute, stored?_of_key (o.key_joinAttr name v)]
  simp only [Attrs.entry, hown, Option.getD_some]

section Joined

variable (hP : Value.Lawful P)
include hP

theorem lawful_joinStored (hv : P v) (h : ∀ w, s.stored? o name = some w → P w) :
    ∀ w, (s.joinStored objs name v).stored? o name = some w → P w := by
  induction objs generalizing s with
  | nil => exact h
  | cons x rest ih =>
    refine ih fun w hw => ?_
    rcases s.stored?_storeHeapAttr o x.identity name v with hsame | hjoined
    · exact h w (hsame ▸ hw)
    · cases hjoined.symm.trans hw
      exact hP.joined hv h

section Item

variable (ho : o.Inside P) (hv : P v) (hstored : ∀ w, s.stored? o name = some w → P w)
include ho hv hstored

theorem lawful_attrOf_joinAttr : P (s.attrOf (o.joinAttr name v) name) := by
  by_cases h : o.Bare
  · exact attrOf_of_bare (s := s) h ▸ hP.nil
  · rw [attrOf_joinAttr h]
    exact hP.laws.closed (hP.joined hv fun _ hw => ho.attrs.get? hw) (hP.getD hstored)

theorem attrOf_joinAttr_absorbs (h : ¬ o.Bare) :
    (s.attrOf (o.joinAttr name v) name).merge v = s.attrOf (o.joinAttr name v) name := by
  have hown : ∀ w, Dict.get? o.attrs name = some w → P w := fun _ hw => ho.attrs.get? hw
  have hjoined := hP.joined hv hown
  have hheap := hP.getD hstored
  rw [attrOf_joinAttr h]
  exact hP.laws.absorbs_trans (hP.laws.closed hjoined hheap) hjoined hv (hP.laws.absorbs_left hjoined hheap)
    (hP.joined_absorbs hv hown)

end Item

/-- After an attribute was joined into each object, nothing has it or what is loaded absorbs it. -/
theorem attrIn_joinAttr (hbase : P base) (hv : P v) (hstored : ∀ o ∈ base, ∀ w, s.stored? o name = some w → P w) :
    s.attrIn (base.map (Object.joinAttr name v)) name = [] ∨
      (s.attrIn (base.map (Object.joinAttr name v)) name).merge v =
        s.attrIn (base.map (Object.joinAttr name v)) name := by
  have hloads : (base.map (Object.joinAttr name v)).map (fun o => s.attrOf o name) =
      base.map fun o => s.attrOf (o.joinAttr name v) name := List.map_map
  unfold attrIn
  rw [hloads]
  -- One object that has attributes is enough: bare objects give nothing, and the join only grows.
  by_cases hbare : ∀ o ∈ base, o.Bare
  · left
    refine Value.mergeAll_of_forall (p := (· = [])) rfl (fun ha hb => by rw [ha, hb]; rfl) fun w hw => ?_
    obtain ⟨o, ho, rfl⟩ := List.mem_map.mp hw
    exact attrOf_of_bare (hbare o ho)
  · right
    obtain ⟨o, ho, hattrs⟩ : ∃ o ∈ base, ¬ o.Bare := by simpa using hbare
    refine hP.mergeAll_absorbs (fun w hw => ?_) (List.mem_map_of_mem ho) hv
      (attrOf_joinAttr_absorbs hP (hP.inside hbase o ho) hv (hstored o ho) hattrs)
    obtain ⟨o, ho, rfl⟩ := List.mem_map.mp hw
    exact lawful_attrOf_joinAttr hP (hP.inside hbase o ho) hv (hstored o ho)

end Joined

end State

namespace Run

variable {σ : Type} {r : Run σ} {object attr index value name : String} {v w : Value}

theorem lookup_rebind (hname : name ≠ "") (h : (r.state.getVariable? name).isSome) (w : Value) :
    (r.rebind name w).lookup name = w := by
  obtain ⟨v, hv⟩ := Option.isSome_iff_exists.mp h
  obtain ⟨⟨key, x⟩, hfound, -⟩ := Option.map_eq_some_iff.mp hv
  have hupdate : r.state.updateVariable? name w = some { r.state with memory := r.state.memory.set key name w } := by
    rw [State.updateVariable?, hfound]
    rfl
  rw [rebind, hupdate, lookup, if_neg hname, State.getVariable?, State.resolve?_set hfound]
  rfl

/-- Without an oracle, a store joins the value into the attribute of each object, here and on the heap. -/
theorem attrStore_eq (attr value : String) (horacle : r.oracle.isAvailable = false)
    (h : Dict.Sorted (r.lookup object).keyed) :
    r.attrStore object attr value =
      ({ r with state := r.state.joinStored (r.lookup object) attr (r.lookup value) } : Run σ).rebind object
        ((r.lookup object).map (Object.joinAttr attr (r.lookup value))) := by
  unfold attrStore
  generalize r.lookup value = v
  have hfold : ∀ (objs : List Object) (base : Value) (s : State),
      objs.foldl (storeOn attr v) (base, { r with state := s }) =
        (objs.foldl (fun w o => w.replace o (o.joinAttr attr v)) base,
          { r with state := s.joinStored objs attr v }) := by
    intro objs
    induction objs with
    | nil => exact fun _ _ => rfl
    | cons o rest ih =>
      intro base s
      have hweak : isSingleField { r with state := s } o attr = (false, { r with state := s }) := by
        rw [isSingleField, if_neg (by simp [horacle])]
      have hstep : storeOn attr v (base, { r with state := s }) o =
          (base.replace o (o.joinAttr attr v), { r with state := s.storeHeapAttr o.identity attr v false }) := by
        simp only [storeOn, hweak, Bool.false_eq_true, ↓reduceIte, Object.joinAttr]
        cases Dict.get? o.attrs attr <;> rfl
      rw [List.foldl_cons, List.foldl_cons, hstep]
      exact ih _ _
  have hall := hfold (r.lookup object) (r.lookup object) r.state
  rw [Value.foldl_replace_self (Object.key_joinAttr attr v) h] at hall
  simp only [hall]

theorem heap_rebind (r : Run σ) (name : String) (w : Value) : (r.rebind name w).state.heap = r.state.heap := by
  unfold rebind
  cases h : r.state.updateVariable? name w with
  | none => rfl
  | some s =>
    obtain ⟨b, -, rfl⟩ := Option.map_eq_some_iff.mp h
    rfl

section Lawful

variable {P : Value → Prop} (hP : Value.Lawful P) (hbound : (r.state.getVariable? object).isSome)
  (hbase : P (r.lookup object)) (hv : P (r.lookup value))
include hP hbound hbase hv

theorem attrLoad_attrStore_covers (horacle : r.oracle.isAvailable = false)
    (hstored : ∀ o ∈ r.lookup object, ∀ w, r.state.stored? o attr = some w → P w) :
    ((r.attrStore object attr value).attrLoad object attr).1.Covers (r.lookup value) := by
  have hstore := attrStore_eq attr value horacle (hP.tidy hbase).sorted
  have horacle' : (r.attrStore object attr value).oracle.isAvailable = false := by
    rw [hstore, oracle_rebind]
    exact horacle
  rw [attrLoad_eq horacle']
  by_cases hname : object = ""
  · -- What has no name may be anything, whatever it is bound to.
    subst hname
    have hlookup : (r.attrStore "" attr value).lookup "" = Value.unknown := rfl
    rw [hlookup]
    exact .inl rfl
  · have hlookup : (r.attrStore object attr value).lookup object =
        (r.lookup object).map (Object.joinAttr attr (r.lookup value)) := by
      rw [hstore]
      refine lookup_rebind hname ?_ _
      rwa [State.getVariable?_joinStored]
    -- Rebinding the variable does not touch the heap, so what is stored there is what was joined.
    have hheap : ∀ o, (r.attrStore object attr value).state.stored? o attr =
        (r.state.joinStored (r.lookup object) attr (r.lookup value)).stored? o attr := by
      intro o
      rw [hstore]
      unfold State.stored? State.heapAttr? State.heapAttrs
      rw [heap_rebind]
    rw [hlookup]
    have hstored' : ∀ o ∈ r.lookup object, ∀ w, (r.attrStore object attr value).state.stored? o attr = some w → P w :=
      fun o ho w hw => State.lawful_joinStored hP hv (hstored o ho) w (hheap o ▸ hw)
    rcases State.attrIn_joinAttr hP hbase hv hstored' with hnone | habsorbs
    · rw [hnone]
      exact .inl rfl
    · exact covers_orUnknown_of_absorbs habsorbs

theorem elements_subscriptStore_covers (hstring : P Value.anyString) (hunknown : P Value.unknown)
    {c : Container Value} (hc : .container c ∈ r.lookup object) :
    ((r.subscriptStore object index value).lookup object).elements.Covers (r.lookup value) := by
  have hname : object ≠ "" := by
    rintro rfl
    cases List.mem_singleton.mp hc
  rw [subscriptStore, lookup_rebind hname hbound]
  exact hP.elements_store_covers hbase hv hstring hunknown hc _

end Lawful

/-- The values that a store of an attribute reads: the base, what is stored, and what the objects of the base have
under the name on the heap. -/
def storeReads (r : Run σ) (object attr value : String) : List Value :=
  r.lookup object :: r.lookup value :: (r.lookup object).filterMap fun o => r.state.stored? o attr

/-- What is loaded after a store covers what was stored: from an attribute of any base that is bound, and from the
elements of a base that may be a container. -/
theorem load_covers_store (r : Run σ) (object attr index value : String) (horacle : r.oracle.isAvailable = false)
    (hbound : (r.state.getVariable? object).isSome)
    (hcanonical : ∀ v ∈ r.storeReads object attr value, v.Canonical)
    (horderly : Value.Orderly (r.storeReads object attr value)) :
    ((r.attrStore object attr value).attrLoad object attr).1.Covers (r.lookup value) ∧
      ((∃ c, .container c ∈ r.lookup object) →
        ((r.subscriptStore object index value).lookup object).elements.Covers (r.lookup value)) := by
  obtain ⟨P, hP, hstring, hunknown, hmem⟩ := horderly.lawful_elements hcanonical
  obtain ⟨hbase, hmem⟩ := List.forall_mem_cons.mp hmem
  obtain ⟨hv, hheap⟩ := List.forall_mem_cons.mp hmem
  refine ⟨attrLoad_attrStore_covers hP hbound hbase hv horacle fun o ho w hw => ?_, fun hcontainer => ?_⟩
  · exact hheap w (List.mem_filterMap.mpr ⟨o, ho, hw⟩)
  · obtain ⟨c, hc⟩ := hcontainer
    exact elements_subscriptStore_covers hP hbound hbase hv hstring hunknown hc

/-- A run of a function that binds `x`, in a module that binds `o`. -/
def storing (s : State) (base v : Value) : Run Unit where
  state :=
    let s := s.registerScope "m.f" .function "m"
    { s with
      scope := some "m.f"
      context := .root
      memory := (s.memory.set ⟨"m", .root⟩ "o" base).set ⟨"m.f", .root⟩ "x" v }
  oracle := ⟨none, (), []⟩

def listOrInstance : Value := .container (.ofBounds .list (Value.ints [1]) [] 1 1) :: sized "C" (some (Value.ints [1]))

theorem canonical_listOrInstance : listOrInstance.Canonical := by
  have hmerge : listOrInstance =
      Value.merge [.container (.ofBounds .list (Value.ints [1]) [] 1 1)] (sized "C" (some (Value.ints [1]))) := by rfl
  rw [hmerge]
  exact (Value.Built.container .list 1 1 (.number .int _) .empty).canonical.merge
    (canonical_sized (by simpa using canonical_ints 1))

theorem orderly_listOrInstance : Value.Orderly [listOrInstance, Value.texts ["a"], Value.noneConstant] := by
  refine Value.orderly_of_mem (listOrInstance ++ Value.ints [1] ++ Value.texts ["a"] ++ Value.noneConstant)
    ?_ (by decide +kernel) (by decide +kernel)
  simp [Value.occurs_nil, Value.occurs_cons, listOrInstance, sized, Object.inner, Value.ints, Value.texts,
    Value.strings, Value.noneConstant, Object.attrs, Container.ofBounds, Container.normalize]

theorem load_covers_store_enclosing :
    let r := storing (State.fresh.storeHeapAttr "instance:C@" "size" Value.noneConstant true) listOrInstance
      (Value.texts ["a"])
    ((r.attrStore "o" "size" "x").attrLoad "o" "size").1.Covers (Value.texts ["a"]) ∧
      ((r.subscriptStore "o" "x" "x").lookup "o").elements.Covers (Value.texts ["a"]) := by
  intro r
  have hreads : r.storeReads "o" "size" "x" = [listOrInstance, Value.texts ["a"], Value.noneConstant] := rfl
  have hcanonical : ∀ v ∈ [listOrInstance, Value.texts ["a"], Value.noneConstant], v.Canonical := by
    simp only [List.forall_mem_cons]
    exact ⟨canonical_listOrInstance, (Value.Built.string _).canonical, Value.Built.none.canonical, by simp⟩
  obtain ⟨hattr, helement⟩ :=
    r.load_covers_store "o" "size" "x" "x" rfl rfl (hreads ▸ hcanonical) (hreads ▸ orderly_listOrInstance)
  exact ⟨hattr, helement ⟨_, List.mem_cons_self⟩⟩

/-- An instance with an attribute that may be anything and has a class among its own. -/
def looseClass : Value := sized "I" (some [.unknown [("size", classOf [] none)]])

/-- The instance with an attribute that is one of two instances, with a class of other bases each. -/
def twoClasses : Value :=
  sized "I" (some (sized "J" (some (classOf [""] none)) ++ sized "K" (some (classOf ["B"] none))))

theorem canonical_looseClass : Value.Canonical [.unknown [("size", looseClass)]] := by
  have hunknown : ∀ {v : Value}, v.Canonical → Value.Canonical [.unknown [("size", v)]] := fun hv =>
    Value.canonical_object (List.pairwise_singleton _ _) (Object.inside_unknown.mpr (List.forall_mem_singleton.mpr hv))
  exact hunknown (canonical_sized (by simpa using hunknown (canonical_classOf (by simp))))

theorem canonical_twoClasses : twoClasses.Canonical := by
  have hmerge : sized "J" (some (classOf [""] none)) ++ sized "K" (some (classOf ["B"] none)) =
      (sized "J" (some (classOf [""] none))).merge (sized "K" (some (classOf ["B"] none))) := by rfl
  have hclass : ∀ className bases, (sized className (some (classOf bases none))).Canonical := fun _ _ =>
    canonical_sized (by simpa using canonical_classOf (by simp))
  rw [twoClasses, hmerge]
  exact canonical_sized (by simpa using (hclass _ _).merge (hclass _ _))

/-- What occurs in the two instances. -/
def looseObjects : List Object :=
  [.unknown [("size", looseClass)]] ++ looseClass ++ [.unknown [("size", classOf [] none)]] ++ classOf [] none ++
    twoClasses ++ sized "J" (some (classOf [""] none)) ++ classOf [""] none ++ sized "K" (some (classOf ["B"] none)) ++
    classOf ["B"] none

theorem neat_twoClasses : ∀ v ∈ [[.unknown [("size", looseClass)]], twoClasses], ∀ o, Value.Occurs o v → o.Neat := by
  have hmem : ∀ v ∈ [[.unknown [("size", looseClass)]], twoClasses], ∀ o, Value.Occurs o v → o ∈ looseObjects := by
    simp [Value.occurs_nil, Value.occurs_cons, looseObjects, looseClass, twoClasses, classOf, sized, Object.inner,
      Object.attrs]
  have hneat : ∀ o ∈ looseObjects, o.Neat := by decide +kernel
  exact fun v hv o ho => hneat o (hmem v hv o ho)

/-- A class without bases takes one with a nameless base for itself, and adds the nameless one only later. -/
theorem not_load_covers_store : ¬ ∀ (r : Run Unit) (object attr value : String), r.oracle.isAvailable = false →
    (r.state.getVariable? object).isSome → (∀ v ∈ r.storeReads object attr value, v.Canonical) →
    (∀ v ∈ r.storeReads object attr value, ∀ o, Value.Occurs o v → o.Neat) →
      ((r.attrStore object attr value).attrLoad object attr).1.Covers (r.lookup value) := by
  intro h
  have hreads : (storing .fresh [.unknown [("size", looseClass)]] twoClasses).storeReads "o" "size" "x" =
      [[.unknown [("size", looseClass)]], twoClasses] := rfl
  have hnot : ¬ (((storing .fresh [.unknown [("size", looseClass)]] twoClasses).attrStore "o" "size" "x").attrLoad
      "o" "size").1.Covers ((storing .fresh [.unknown [("size", looseClass)]] twoClasses).lookup "x") := by
    decide +kernel
  refine hnot (h _ "o" "size" "x" rfl rfl ?_ (hreads ▸ neat_twoClasses))
  rw [hreads]
  simp only [List.forall_mem_cons]
  exact ⟨canonical_looseClass, canonical_twoClasses, by simp⟩

end Run

end AbstractFlow
