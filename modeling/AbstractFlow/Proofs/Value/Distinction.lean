import AbstractFlow.Proofs.Value.Imprint

/-! # Values that digests tell apart

Among legible values equality by digests is equality. A value is legible if, at every depth, the type names
that a container remembers of its keys are those of its keys, and all sizes and lengths are integers that
become numbers without being rounded. Merging with what is unknown makes containers that remember more than
they show, and two of these that differ can leave the same imprint.
-/
namespace AbstractFlow

theorem Number.ofInt_inj_of_exact {m n : Int} (hm : m.natAbs ≤ exactBound) (hn : n.natAbs ≤ exactBound)
    (h : ofInt m = ofInt n) : m = n := by
  have hunit : (unit : Int) ≠ 0 := by
    have hpos : multiple 0 < unit := strictMono_multiple (by decide)
    omega
  have hquantity := (quantity_ofInt hm).2.symm.trans (h ▸ (quantity_ofInt hn).2)
  rw [WithBot.coe_inj, WithTop.coe_inj] at hquantity
  exact Int.eq_of_mul_eq_mul_right hunit hquantity

/-- Nothing of the object is lost in its digest. -/
def Object.Legible : Object → Prop
  | .constant (.string s) => s.minLen ≤ Number.exactBound ∧ s.maxLen.natAbs ≤ Number.exactBound
  | .container c => c.keyTypes = Value.typeNames c.key ∧ c.minSize ≤ Number.exactBound ∧
      ∀ n, c.maxSize = some n → n ≤ Number.exactBound
  | _ => True

/-- Legible at every depth. -/
def Value.Legible (v : Value) : Prop := v.Everywhere fun v => ∀ o ∈ v, o.Legible

theorem Number.natCast_inj_of_exact {m n : Nat} (hm : m ≤ exactBound) (hn : n ≤ exactBound)
    (h : (ofInt m).magnitude = (ofInt n).magnitude) : m = n := by
  have hplace : (ofInt m).place = (ofInt n).place := by
    rw [place_ofInt_natCast, place_ofInt_natCast, h]
  exact Int.ofNat_inj.mp (ofInt_inj_of_exact hm hn (place_injective hplace))

theorem attrs_of_imprint {as as' : Attrs}
    (h : ∀ v ∈ as.map Prod.snd, ∀ w ∈ as'.map Prod.snd, v.imprint = w.imprint → v = w)
    (himprint : attrsImprint as = attrsImprint as') : as = as' := by
  rw [attrsImprint_eq, attrsImprint_eq, map_eq_map_iff (g := id), List.map_id, List.map_id] at himprint
  · exact himprint
  · intro e he e' he'
    have hvalue := h e.2 (List.mem_map_of_mem he) e'.2 (List.mem_map_of_mem he')
    constructor
    · intro heq
      obtain ⟨hname, himprint⟩ := Prod.mk.inj heq
      exact Prod.ext hname (hvalue himprint)
    · rintro rfl
      rfl

theorem Constant.eq_of_imprint {c d : Constant} (hc : (Object.constant c).Legible)
    (hd : (Object.constant d).Legible) (h : c.imprint = d.imprint) : c = d := by
  cases c with
  | string s =>
    cases d with
    | string t =>
      obtain ⟨exact, beginnings, endings, minLen, maxLen⟩ := s
      obtain ⟨exact', beginnings', endings', minLen', maxLen'⟩ := t
      simp only [imprint, StringSet.imprint, string.injEq, StringSet.mk.injEq] at h ⊢
      obtain ⟨hexact, hbeginnings, hendings, hmin, hmax⟩ := h
      exact ⟨hexact, hbeginnings, hendings, Number.natCast_inj_of_exact hc.1 hd.1 hmin,
        Number.ofInt_inj_of_exact hc.2 hd.2 (Number.place_injective hmax)⟩
    | _ => cases h
  | number type s =>
    cases d with
    | string => cases h
    | _ => exact h
  | none =>
    cases d with
    | string => cases h
    | _ => exact h

theorem Container.eq_of_imprint {c d : Container Value} (hc : (Object.container c).Legible)
    (hd : (Object.container d).Legible)
    (hinner : ∀ v ∈ [c.elem, c.key], ∀ w ∈ [d.elem, d.key], v.imprint = w.imprint → v = w)
    (h : (Object.container c).imprint = (Object.container d).imprint) : c = d := by
  obtain ⟨type, elemTypes, elem, keyTypes, key, minSize, maxSize⟩ := c
  obtain ⟨type', elemTypes', elem', keyTypes', key', minSize', maxSize'⟩ := d
  obtain ⟨hnames, hmin, hmax⟩ := hc
  obtain ⟨hnames', hmin', hmax'⟩ := hd
  simp only [Object.imprint, valueImprint_eq, Object.container.injEq, mk.injEq, true_and] at h hnames hnames' ⊢
  obtain ⟨htype, htypes, helem, hkey, hleast, hmost⟩ := h
  have hkey := hinner key (by simp) key' (by simp) hkey
  have hkeyTypes : keyTypes = keyTypes' := by rw [hnames, hnames', hkey]
  refine ⟨htype, ?_, hinner elem (by simp) elem' (by simp) helem, hkeyTypes, hkey,
    Number.natCast_inj_of_exact hmin hmin' hleast, ?_⟩
  · rw [hkeyTypes] at htypes
    exact List.append_cancel_right htypes
  · cases maxSize with
    | none =>
      cases maxSize' with
      | none => rfl
      | some n => cases hmost
    | some m =>
      cases maxSize' with
      | none => cases hmost
      | some n => rw [Number.natCast_inj_of_exact (hmax m rfl) (hmax' n rfl) (Option.some.inj hmost)]

theorem Object.eq_of_imprint {o o' : Object} (ho : o.Legible) (ho' : o'.Legible)
    (hinner : ∀ v ∈ o.inner, ∀ w ∈ o'.inner, v.imprint = w.imprint → v = w) (h : o.imprint = o'.imprint) :
    o = o' := by
  have hkind : o.kind = o'.kind := by rw [← kind_imprint o, h, kind_imprint]
  -- The kind shows in the imprint, so both objects have the same fields to compare.
  cases akin_of_kind hkind with
  | unknown as as' =>
    have hattrs : as = as' := attrs_of_imprint hinner (Object.unknown.inj h)
    rw [hattrs]
  | constant c c' => rw [Constant.eq_of_imprint ho ho' (Object.constant.inj h)]
  | container c c' => rw [Container.eq_of_imprint ho ho' hinner h]
  | function f f' =>
    obtain ⟨name, params, async, binding, getter, setter, as⟩ := f
    obtain ⟨name', params', async', binding', getter', setter', as'⟩ := f'
    simp only [imprint, function.injEq, Function.mk.injEq] at h ⊢
    obtain ⟨hname, hparams, hasync, hbinding, hgetter, hsetter, hattrs⟩ := h
    exact ⟨hname, hparams, hasync, hbinding, hgetter, hsetter, attrs_of_imprint hinner hattrs⟩
  | classObject c c' =>
    obtain ⟨name, bases, methods, as⟩ := c
    obtain ⟨name', bases', methods', as'⟩ := c'
    simp only [imprint, classObject.injEq, Class.mk.injEq] at h ⊢
    obtain ⟨hname, hbases, hmethods, hattrs⟩ := h
    refine ⟨hname, hbases, attrs_of_imprint ?_ hmethods, attrs_of_imprint ?_ hattrs⟩
    · exact fun v hv w hw => hinner v (List.mem_append_left _ hv) w (List.mem_append_left _ hw)
    · exact fun v hv w hw => hinner v (List.mem_append_right _ hv) w (List.mem_append_right _ hw)
  | instanceObject i i' =>
    obtain ⟨name, site, as⟩ := i
    obtain ⟨name', site', as'⟩ := i'
    simp only [imprint, instanceObject.injEq, Instance.mk.injEq] at h ⊢
    exact ⟨h.1, h.2.1, attrs_of_imprint hinner h.2.2⟩
  | external e e' =>
    obtain ⟨kind, module, name, as⟩ := e
    obtain ⟨kind', module', name', as'⟩ := e'
    simp only [imprint, external.injEq, External.mk.injEq] at h ⊢
    exact ⟨h.1, h.2.1, h.2.2.1, attrs_of_imprint hinner h.2.2.2⟩

namespace Value

theorem eq_of_imprint {a b : Value} (ha : a.Legible) (hb : b.Legible) (h : a.imprint = b.imprint) : a = b := by
  induction ha generalizing b with
  | @intro a hlegible _ ih =>
    obtain ⟨hlegible', hinside⟩ := everywhere_iff.mp hb
    rw [imprint, imprint, map_eq_map_iff (g := id), List.map_id, List.map_id] at h
    · exact h
    · intro o ho o' ho'
      constructor
      · exact Object.eq_of_imprint (hlegible o ho) (hlegible' o' ho') fun v hv w hw =>
          ih o ho v hv (hinside o' ho' w hw)
      · rintro rfl
        rfl

/-- What equality by digests tells apart, for every ideal hash function. -/
theorem equalBy_tells_apart {D : Type} [DecidableEq D] {H : Hasher D} (hH : H.Ideal) {a b : Value}
    (ha : a.Built) (hb : b.Built) :
    (a.equalBy H b = true ↔ a.imprint = b.imprint) ∧
      (a.Legible → b.Legible → a.equalBy H b = true → a = b) := by
  have himprint := equalBy_iff_imprint hH ha.canonical hb.canonical
  exact ⟨himprint, fun hla hlb h => eq_of_imprint hla hlb (himprint.mp h)⟩

def dictOfAny (elem key : Value) : Value := [.container (.ofBounds .dict elem key 0 (-1))]

theorem built_dictOfAny {elem key : Value} (helem : elem.Built) (hkey : key.Built) : (dictOfAny elem key).Built :=
  .container .dict 0 (-1) helem hkey

theorem legible_dictOfAny {elem key : Value} (helem : elem.Legible) (hkey : key.Legible) :
    (dictOfAny elem key).Legible := by
  have hnames : Sorted.union [] key.typeNames = key.typeNames := Sorted.ofList_of_pairwise (Sorted.pairwise_ofList _)
  refine everywhere_singleton (List.forall_mem_singleton.mpr ⟨hnames, Nat.zero_le _, fun n hn => ?_⟩)
    (Object.inside_container.mpr ⟨helem, hkey⟩)
  cases hn

theorem equalBy_tells_apart_swapped :
    let a := dictOfAny (ints [1]) (texts ["a"])
    let b := dictOfAny (texts ["a"]) (ints [1])
    (a.Built ∧ b.Built) ∧ (a.Legible ∧ b.Legible) ∧ a.imprint ≠ b.imprint ∧
      a.equalBy .remembering b = false := by
  intro a b
  have hints : (ints [1]).Built ∧ (ints [1]).Legible :=
    ⟨.number _ _, everywhere_singleton (List.forall_mem_singleton.mpr trivial) (Object.inside_constant _)⟩
  have htexts : (texts ["a"]).Built ∧ (texts ["a"]).Legible :=
    ⟨.string _, everywhere_singleton (List.forall_mem_singleton.mpr ⟨by decide +kernel, by decide +kernel⟩)
      (Object.inside_constant _)⟩
  have ha : a.Built := built_dictOfAny hints.1 htexts.1
  have hb : b.Built := built_dictOfAny htexts.1 hints.1
  have hla : a.Legible := legible_dictOfAny hints.2 htexts.2
  have hlb : b.Legible := legible_dictOfAny htexts.2 hints.2
  obtain ⟨himprint, hequal⟩ := equalBy_tells_apart Hasher.ideal_remembering ha hb
  have hne : a ≠ b := by simp [a, b, dictOfAny, Container.ofBounds, Container.normalize, ints, texts, strings]
  have hfalse : ¬ a.equalBy .remembering b = true := fun h => hne (hequal hla hlb h)
  exact ⟨⟨ha, hb⟩, ⟨hla, hlb⟩, fun h => hfalse (himprint.mpr h), Bool.eq_false_of_not_eq_true hfalse⟩

/-- A dictionary with one type of values and one of keys, or with values and keys unknown. -/
def forgottenKeys : Value := (dictOfAny (ints [1]) (texts ["a"])).merge (dictOfAny unknown unknown)

/-- A dictionary with two types of values, or with values and keys unknown. -/
def forgottenElems : Value := (dictOfAny ((ints [1]).merge (texts ["a"])) []).merge (dictOfAny unknown unknown)

theorem equalBy_forgets_borders :
    forgottenKeys.Built ∧ forgottenElems.Built ∧ forgottenKeys ≠ forgottenElems ∧
      ∀ {D : Type} [DecidableEq D] (H : Hasher D), forgottenKeys.equalBy H forgottenElems = true := by
  have hints : (ints [1]).Built := .number _ _
  have htexts : (texts ["a"]).Built := .string _
  have hunknown : unknown.Built := .unknown Dict.sorted_nil (by simp)
  have hkeys : forgottenKeys = [.container ⟨.dict, ["int"], unknown, ["str"], unknown, 0, none⟩] := rfl
  have helems : forgottenElems = [.container ⟨.dict, ["int", "str"], unknown, [], unknown, 0, none⟩] := rfl
  refine ⟨?_, ?_, ?_, ?_⟩
  · exact .merge (built_dictOfAny hints htexts) (built_dictOfAny hunknown hunknown)
  · exact .merge (built_dictOfAny (.merge hints htexts) .empty) (built_dictOfAny hunknown hunknown)
  · rw [hkeys, helems]
    simp
  · intro D _ H
    rw [hkeys, helems, equalBy, Bool.and_eq_true, beq_iff_eq, beq_iff_eq]
    exact ⟨rfl, rfl⟩

end Value

end AbstractFlow
