import AbstractFlow.Proofs.Digest.Ideal
import AbstractFlow.Proofs.Value.Canonical
import AbstractFlow.Value.Digest

/-! # What digests tell apart

A digest runs the type names of the elements of a container and of its keys together, and counts sizes and
lengths as floating-point numbers. The imprint of a value blurs just that, at every depth. With an ideal
hash function two values in canonical form count as equal exactly if they leave the same imprint.
-/
namespace AbstractFlow

/-- Lengths as digests see them. -/
def StringSet.imprint (s : StringSet) : StringSet :=
  { s with minLen := (Number.ofInt s.minLen).magnitude, maxLen := (Number.ofInt s.maxLen).place }

def Constant.imprint : Constant → Constant
  | .string s => .string s.imprint
  | c => c

mutual

def Object.imprint : Object → Object
  | .unknown as => .unknown (attrsImprint as)
  | .constant c => .constant c.imprint
  | .container ⟨type, elemTypes, elem, keyTypes, key, minSize, maxSize⟩ =>
    .container ⟨type, elemTypes ++ keyTypes, valueImprint elem, [], valueImprint key,
      (Number.ofInt minSize).magnitude, maxSize.map fun n => (Number.ofInt n).magnitude⟩
  | .function ⟨name, params, async, binding, getter, setter, as⟩ =>
    .function ⟨name, params, async, binding, getter, setter, attrsImprint as⟩
  | .classObject ⟨name, bases, methods, as⟩ => .classObject ⟨name, bases, attrsImprint methods, attrsImprint as⟩
  | .instanceObject ⟨name, site, as⟩ => .instanceObject ⟨name, site, attrsImprint as⟩
  | .external ⟨kind, module, name, as⟩ => .external ⟨kind, module, name, attrsImprint as⟩

def valueImprint : List Object → List Object
  | [] => []
  | o :: os => o.imprint :: valueImprint os

def attrsImprint : List (String × List Object) → List (String × List Object)
  | [] => []
  | (n, v) :: rest => (n, valueImprint v) :: attrsImprint rest

end

/-- Everything about a value that its digest depends on. -/
def Value.imprint (v : Value) : Value := v.map Object.imprint

theorem valueImprint_eq (v : Value) : valueImprint v = v.imprint := by
  induction v with
  | nil => rfl
  | cons o rest ih => rw [valueImprint, ih]; rfl

theorem attrsImprint_eq (as : Attrs) : attrsImprint as = as.map fun e => (e.1, e.2.imprint) := by
  induction as with
  | nil => rfl
  | cons e rest ih => rw [attrsImprint, ih, valueImprint_eq]; rfl

theorem Object.key_imprint (o : Object) : o.imprint.key = o.key := by
  cases o with
  | constant c => cases c <;> rfl
  | external e =>
    obtain ⟨kind, module, name, as⟩ := e
    cases kind <;> rfl
  | _ => rfl

namespace Number

variable {x y : Number}

theorem toNat_toBits (h : x.isNaN = false) :
    x.toBits.toNat = (if x.negative then 2 ^ 63 else 0) + x.magnitude := by
  have hmagnitude : x.magnitude ≤ 0x7FF0000000000000 := Nat.le_of_not_lt (of_decide_eq_false h)
  unfold toBits
  rw [UInt64.toNat_add]
  split <;> simp <;> omega

theorem toBits_inj (hx : x.isNaN = false) (hy : y.isNaN = false) : x.toBits = y.toBits ↔ x = y := by
  constructor
  · intro h
    have hbits := congrArg UInt64.toNat h
    rw [toNat_toBits hx, toNat_toBits hy] at hbits
    have hxm : x.magnitude ≤ 0x7FF0000000000000 := Nat.le_of_not_lt (of_decide_eq_false hx)
    have hym : y.magnitude ≤ 0x7FF0000000000000 := Nat.le_of_not_lt (of_decide_eq_false hy)
    obtain ⟨n, m⟩ := x
    obtain ⟨n', m'⟩ := y
    simp only at hbits hxm hym
    cases n <;> cases n' <;> simp at hbits ⊢ <;> omega
  · rintro rfl
    rfl

theorem toBits_ofInt_inj {m n : Int} : (ofInt m).toBits = (ofInt n).toBits ↔ (ofInt m).place = (ofInt n).place := by
  rw [toBits_inj (isNaN_ofInt m) (isNaN_ofInt n)]
  exact ⟨fun h => by rw [h], place_injective⟩

theorem place_ofInt_natCast (n : Nat) : (ofInt n).place = 2 * (ofInt n).magnitude + 1 := by
  have hsign : (ofInt n).negative = false := by simp [ofInt, ofRatio]
  rw [place, hsign]
  rfl

/-- Only the magnitude of a count is rounded. -/
theorem toBits_ofInt_natCast_inj {m n : Nat} :
    (ofInt m).toBits = (ofInt n).toBits ↔ (ofInt m).magnitude = (ofInt n).magnitude := by
  rw [toBits_ofInt_inj, place_ofInt_natCast, place_ofInt_natCast]
  omega

end Number

theorem toBits_sizeNumber_inj {m n : Option Nat} :
    (sizeNumber m).toBits = (sizeNumber n).toBits ↔
      (m.map fun n => (Number.ofInt n).magnitude) = n.map fun n => (Number.ofInt n).magnitude := by
  have hnone : ∀ n : Nat, (Number.ofInt (-1)).place ≠ (Number.ofInt n).place := by
    intro n
    have hsign : (Number.ofInt (-1)).place ≤ 0 := by decide +kernel
    rw [Number.place_ofInt_natCast]
    omega
  cases m with
  | none =>
    cases n with
    | none => exact iff_of_true rfl rfl
    | some n => exact iff_of_false (fun h => hnone n (Number.toBits_ofInt_inj.mp h)) (by simp)
  | some m =>
    cases n with
    | none => exact iff_of_false (fun h => hnone m (Number.toBits_ofInt_inj.mp h.symm)) (by simp)
    | some n => exact Number.toBits_ofInt_natCast_inj.trans (by simp)

open Hasher

variable {D : Type} {H : Hasher D} (hH : H.Ideal)

include hH

theorem NumberSet.digest_eq_iff {s t : NumberSet} (hs : s.Tidy) (ht : t.Tidy) :
    s.digest H = t.digest H ↔ s = t := by
  have hbits : ∀ x y : Number, x.isNaN = false → y.isNaN = false →
      (littleEndian x.toBits = littleEndian y.toBits ↔ x = y) := by
    intro x y hx hy
    rw [littleEndian_injective.eq_iff, Number.toBits_inj hx hy]
  have hmembers : s.exact.map (littleEndian ∘ Number.toBits) = t.exact.map (littleEndian ∘ Number.toBits) ↔
      s.exact = t.exact := by
    rw [map_eq_map_iff (g := id), List.map_id, List.map_id]
    exact fun x hx y hy => hbits x y (hs.increasing.numbers x hx) (ht.increasing.numbers y hy)
  obtain ⟨exact, lower, upper⟩ := s
  obtain ⟨exact', lower', upper'⟩ := t
  have hlower := hbits lower lower' hs.lower ht.lower
  have hupper := hbits upper upper' hs.upper ht.upper
  simp only [digest, ofWord_eq, words_chain, combine_eq, List.map_cons, List.map_nil, List.nil_append, List.map_map,
    List.isEmpty_iff]
  split <;> split <;> rename_i hempty hempty'
  · simp [hH.chain_inj, hempty, hempty', hlower, hupper]
  · simp [hH.chain_inj, hempty, Ne.symm hempty']
  · simp [hH.chain_inj, hempty, hempty']
  · simp only [hH.chain_inj, hH.bytes_inj, List.cons_append, List.nil_append, List.cons.injEq, hlower, hupper,
      hmembers, mk.injEq]
    tauto

theorem StringSet.digest_eq_iff {s t : StringSet} : s.digest H = t.digest H ↔ s.imprint = t.imprint := by
  have hmin : littleEndian (Number.ofInt s.minLen).toBits = littleEndian (Number.ofInt t.minLen).toBits ↔
      (Number.ofInt s.minLen).magnitude = (Number.ofInt t.minLen).magnitude :=
    littleEndian_injective.eq_iff.trans Number.toBits_ofInt_natCast_inj
  have hmax : littleEndian (Number.ofInt s.maxLen).toBits = littleEndian (Number.ofInt t.maxLen).toBits ↔
      (Number.ofInt s.maxLen).place = (Number.ofInt t.maxLen).place :=
    littleEndian_injective.eq_iff.trans Number.toBits_ofInt_inj
  obtain ⟨exact, beginnings, endings, minLen, maxLen⟩ := s
  obtain ⟨exact', beginnings', endings', minLen', maxLen'⟩ := t
  simp only [digest, imprint, ofWord_eq, words_chain, strings_chain, combine_eq, List.map_cons, List.map_nil,
    List.nil_append, List.isEmpty_iff, hH.chain_inj, hH.bytes_inj, List.cons_append, List.cons.injEq, closed_inj,
    mk.injEq, true_and]
  split <;> split <;> rename_i hempty hempty'
  · simp only [hH.chain_inj, hempty, hempty', List.cons.injEq, hmin, hmax]
    tauto
  · simp [hH.chain_inj, hempty, Ne.symm hempty']
  · simp [hH.chain_inj, hempty, hempty']
  · simp only [hH.chain_inj, hH.bytes_inj, List.cons.injEq, closed_inj, hmin, hmax]
    tauto

theorem Constant.digest_eq_iff {c d : Constant} (hc : c.Tidy) (hd : d.Tidy) :
    c.digest H = d.digest H ↔ c.imprint = d.imprint := by
  rcases c with ⟨_ | _ | _, s⟩ | s | _ <;> rcases d with ⟨_ | _ | _, t⟩ | t | _ <;>
    simp [digest, imprint, ofWord_eq, combine_eq, hH.chain_inj, hH.bytes_inj]
  case string.string => exact StringSet.digest_eq_iff hH
  all_goals exact NumberSet.digest_eq_iff hH hc hd

omit hH in
theorem attrsDigest_chain (w : UInt64) (ms : List (List UInt8)) (as : Attrs) :
    attrsDigest H (H.chain w ms) as = H.chain w (ms ++ as.flatMap fun e =>
      [(ByteString.ofString e.1).bytes, [0], H.bytes (H.combine [e.2.digest H])]) := by
  induction as generalizing ms with
  | nil => simp [attrsDigest]
  | cons e rest ih =>
    have hstep : attrsDigest H (H.chain w ms) (e :: rest) =
      attrsDigest H (H.nested (H.texts (H.chain w ms) [e.1]) [e.2.digest H]) rest := rfl
    rw [hstep, texts_chain, nested_chain, ih]
    simp [closed]

theorem attrsDigest_eq_iff (as as' : Attrs)
    (h : ∀ v ∈ as.map Prod.snd, ∀ w ∈ as'.map Prod.snd, v.digest H = w.digest H ↔ v.imprint = w.imprint) :
    attrsDigest H (H.ofWord 8916790813476) as = attrsDigest H (H.ofWord 8916790813476) as' ↔
      attrsImprint as = attrsImprint as' := by
  rw [ofWord_eq, attrsDigest_chain, attrsDigest_chain, hH.chain_inj, attrsImprint_eq, attrsImprint_eq,
    List.nil_append, List.nil_append, eq_self, true_and]
  apply flatMap_blocks_eq_iff (n := 2) (fun _ => rfl)
  intro e he e' he'
  have hvalue := h e.2 (List.mem_map_of_mem he) e'.2 (List.mem_map_of_mem he')
  have hname : (ByteString.ofString e.1).bytes = (ByteString.ofString e'.1).bytes ↔ e.1 = e'.1 := by
    rw [← ByteString.mk.injEq, ByteString.ofString_injective.eq_iff]
  simp [combine_eq, hH.chain_inj, hH.bytes_inj, hvalue, hname]

omit hH in
theorem Container.digest_chain (c : Container Value) :
    (Object.container c).digest H = H.chain 0 (H.bytes (H.ofWord 2608058625550) :: H.bytes (H.ofWord c.type.code) ::
      (closed ((c.elemTypes ++ c.keyTypes).map .ofString) ++ [littleEndian (Number.ofInt c.minSize).toBits,
        littleEndian (sizeNumber c.maxSize).toBits, H.bytes (H.combine [c.elem.digest H, c.key.digest H])])) := by
  have hdigest : (Object.container c).digest H =
    H.nested (H.words (H.texts (H.texts (H.combine [H.ofWord 2608058625550, H.ofWord c.type.code]) c.elemTypes)
      c.keyTypes) [(Number.ofInt c.minSize).toBits, (sizeNumber c.maxSize).toBits])
        [c.elem.digest H, c.key.digest H] := rfl
  rw [hdigest, combine_eq, texts_chain, texts_chain, words_chain, nested_chain]
  simp [closed]

theorem Container.digest_eq_iff {c d : Container Value}
    (h : ∀ v ∈ [c.elem, c.key], ∀ w ∈ [d.elem, d.key], v.digest H = w.digest H ↔ v.imprint = w.imprint) :
    (Object.container c).digest H = (Object.container d).digest H ↔
      (Object.container c).imprint = (Object.container d).imprint := by
  have hcode : c.type.code = d.type.code ↔ c.type = d.type := by
    cases c.type <;> cases d.type <;> decide
  have helem := h c.elem (by simp) d.elem (by simp)
  have hkey := h c.key (by simp) d.key (by simp)
  have hmessages : ∀ {ms ms' : List (List UInt8)} {x y z x' y' z' : List UInt8},
      ms ++ [x, y, z] = ms' ++ [x', y', z'] ↔ ms = ms' ∧ x = x' ∧ y = y' ∧ z = z' := by
    intro ms ms' x y z x' y' z'
    constructor
    · intro heq
      obtain ⟨hms, hlast⟩ := List.append_inj' heq rfl
      simpa [hms] using hlast
    · rintro ⟨rfl, rfl, rfl, rfl⟩
      rfl
  rw [digest_chain, digest_chain]
  simp only [hH.chain_inj, List.cons.injEq, true_and, hH.bytes_inj, hH.ofWord.eq_iff, hcode, hmessages,
    closed_texts_inj, littleEndian_injective.eq_iff, Number.toBits_ofInt_natCast_inj, toBits_sizeNumber_inj,
    combine_eq, List.map_cons, List.map_nil, and_true, helem, hkey, Object.imprint, valueImprint_eq,
    Object.container.injEq, mk.injEq]
  tauto

/-- The number at the root of the digests of a kind of objects. -/
def Object.Kind.salt : Kind → UInt64
  | .unknown => 6758959635298
  | .constant => 1935468612388
  | .container => 2608058625550
  | .function => 6075460587450
  | .classObject => 9005419490459
  | .instanceObject => 3569715369783
  | .externalFunction => 5768797545612
  | .externalClass => 6950650687583
  | .externalInstance => 7018347391875

omit hH in
theorem Object.rooted_digest (o : Object) : H.Rooted o.kind.salt (o.digest H) := by
  have hne : o.kind.salt ≠ 0 := by cases o.kind <;> decide
  cases o with
  | unknown as => exact (rooted_ofWord hne).combine _
  | constant c =>
    have htag : ∀ code, H.Rooted 1935468612388 (H.combine [H.ofWord 1935468612388, H.ofWord code]) :=
      fun code => (rooted_ofWord hne).combine _
    rcases c with ⟨_ | _ | _, s⟩ | s | _
    case none => exact htag _
    all_goals exact (htag _).combine _
  | container c =>
    rw [Container.digest_chain]
    exact .first (rooted_ofWord hne) _
  | function f =>
    rw [digest, texts_texts]
    exact ((rooted_texts hne _).combine _).combine _
  | classObject c =>
    rw [digest, texts_texts]
    exact (rooted_texts hne _).combine _
  | instanceObject i => exact (rooted_texts hne _).combine _
  | external e =>
    obtain ⟨kind, module, name, as⟩ := e
    cases kind <;> exact (rooted_texts hne _).combine _

theorem Object.kind_of_digest {o o' : Object} (h : o.digest H = o'.digest H) : o.kind = o'.kind := by
  have hsalt := (rooted_digest o).unique hH (rooted_digest o') h
  revert hsalt
  cases o.kind <;> cases o'.kind <;> decide

omit hH in
theorem Object.kind_imprint (o : Object) : o.imprint.kind = o.kind := by
  cases o with
  | external e =>
    obtain ⟨kind, module, name, as⟩ := e
    cases kind <;> rfl
  | _ => rfl

theorem Function.digest_eq_iff {f g : Function Value}
    (h : ∀ v ∈ f.attrs.map Prod.snd, ∀ w ∈ g.attrs.map Prod.snd, v.digest H = w.digest H ↔ v.imprint = w.imprint) :
    (Object.function f).digest H = (Object.function g).digest H ↔
      (Object.function f).imprint = (Object.function g).imprint := by
  have hattrs := attrsDigest_eq_iff hH f.attrs g.attrs h
  have hasync : flagWord f.async = flagWord g.async ↔ f.async = g.async := by
    cases f.async <;> cases g.async <;> decide
  have hbinding : f.binding.rank.toUInt64 = g.binding.rank.toUInt64 ↔ f.binding = g.binding := by
    cases f.binding <;> cases g.binding <;> decide
  have hflags : ((if f.getter then 1 else 0) + (if f.setter then 2 else 0) : UInt64) =
      (if g.getter then 1 else 0) + (if g.setter then 2 else 0) ↔ f.getter = g.getter ∧ f.setter = g.setter := by
    cases f.getter <;> cases f.setter <;> cases g.getter <;> cases g.setter <;> decide
  simp only [Object.digest, texts_texts, hH.combine_inj, hH.texts_inj, hH.ofWord.eq_iff, List.cons.injEq,
    List.singleton_append, hattrs, hasync, hbinding, hflags, and_true, true_and, and_assoc, Object.imprint,
    Object.function.injEq, mk.injEq]

theorem Class.digest_eq_iff {c d : Class Value}
    (h : ∀ v ∈ c.methods.map Prod.snd ++ c.attrs.map Prod.snd, ∀ w ∈ d.methods.map Prod.snd ++ d.attrs.map Prod.snd,
      v.digest H = w.digest H ↔ v.imprint = w.imprint) :
    (Object.classObject c).digest H = (Object.classObject d).digest H ↔
      (Object.classObject c).imprint = (Object.classObject d).imprint := by
  have hmethods := attrsDigest_eq_iff hH c.methods d.methods
    fun v hv w hw => h v (List.mem_append_left _ hv) w (List.mem_append_left _ hw)
  have hattrs := attrsDigest_eq_iff hH c.attrs d.attrs
    fun v hv w hw => h v (List.mem_append_right _ hv) w (List.mem_append_right _ hw)
  simp only [Object.digest, texts_texts, hH.combine_inj, hH.texts_inj, List.cons.injEq, List.singleton_append,
    hmethods, hattrs, and_true, true_and, and_assoc, Object.imprint, Object.classObject.injEq, mk.injEq]

/-- Two objects of one kind. -/
inductive Object.Akin : Object → Object → Prop where
  | unknown (as as' : Attrs) : Akin (.unknown as) (.unknown as')
  | constant (c c' : Constant) : Akin (.constant c) (.constant c')
  | container (c c' : Container Value) : Akin (.container c) (.container c')
  | function (f f' : Function Value) : Akin (.function f) (.function f')
  | classObject (c c' : Class Value) : Akin (.classObject c) (.classObject c')
  | instanceObject (i i' : Instance Value) : Akin (.instanceObject i) (.instanceObject i')
  | external (e e' : External Value) (h : e.kind = e'.kind) : Akin (.external e) (.external e')

omit hH in
theorem Object.akin_of_kind {o o' : Object} (h : o.kind = o'.kind) : o.Akin o' := by
  rcases o with _ | _ | _ | _ | _ | _ | ⟨_ | _ | _, _, _, _⟩ <;>
    rcases o' with _ | _ | _ | _ | _ | _ | ⟨_ | _ | _, _, _, _⟩ <;> cases h <;> constructor <;> rfl

theorem Object.digest_eq_iff {o o' : Object} (ho : o.Tidy) (ho' : o'.Tidy)
    (h : ∀ v ∈ o.inner, ∀ w ∈ o'.inner, v.digest H = w.digest H ↔ v.imprint = w.imprint) :
    o.digest H = o'.digest H ↔ o.imprint = o'.imprint := by
  by_cases hkind : o.kind = o'.kind
  · cases akin_of_kind hkind with
    | unknown as as' =>
      have hattrs := attrsDigest_eq_iff hH as as' h
      simp only [digest, imprint, hH.combine_inj, hattrs, List.cons.injEq, unknown.injEq, true_and, and_true]
    | constant c c' => exact (Constant.digest_eq_iff hH ho ho').trans (by simp only [imprint, constant.injEq])
    | container c c' => exact Container.digest_eq_iff hH h
    | function f f' => exact Function.digest_eq_iff hH h
    | classObject c c' => exact Class.digest_eq_iff hH h
    | instanceObject i i' =>
      have hattrs := attrsDigest_eq_iff hH i.attrs i'.attrs h
      simp only [digest, imprint, hH.combine_inj, hH.texts_inj, hattrs, List.cons.injEq, instanceObject.injEq,
        Instance.mk.injEq, true_and, and_true, and_assoc]
    | external e e' hexternal =>
      have hattrs := attrsDigest_eq_iff hH e.attrs e'.attrs h
      simp only [digest, imprint, hH.combine_inj, hH.texts_inj, hattrs, List.cons.injEq, external.injEq,
        External.mk.injEq, hexternal, true_and, and_true, and_assoc]
  · refine iff_of_false (fun hdigest => hkind (kind_of_digest hH hdigest)) fun himprint => hkind ?_
    rw [← kind_imprint o, himprint, kind_imprint]

namespace Value

variable {a b : Value}

omit hH in
theorem objectDigests_eq (v : Value) : objectDigests H v = v.map (Object.digest H) := by
  induction v with
  | nil => rfl
  | cons o rest ih => rw [objectDigests, ih, List.map_cons]

theorem objectDigests_eq_iff (ha : a.Canonical) (hb : b.Canonical) :
    objectDigests H a = objectDigests H b ↔ a.imprint = b.imprint := by
  induction ha generalizing b with
  | @intro a htidy _ ih =>
    obtain ⟨htidy', hinside⟩ := everywhere_iff.mp hb
    rw [objectDigests_eq, objectDigests_eq]
    refine map_eq_map_iff fun o ho o' ho' => ?_
    refine Object.digest_eq_iff hH (htidy.objects o ho) (htidy'.objects o' ho') fun v hv w hw => ?_
    rw [digest, digest, hH.combine_inj, List.cons.injEq, eq_self, true_and]
    exact ih o ho v hv (hinside o' ho' w hw)

/-- Values count as equal if and only if their imprints are the same. -/
theorem equalBy_iff_imprint [DecidableEq D] (ha : a.Canonical) (hb : b.Canonical) :
    a.equalBy H b = true ↔ a.imprint = b.imprint := by
  rw [equalBy, Bool.and_eq_true, beq_iff_eq, beq_iff_eq, objectDigests_eq_iff hH ha hb]
  refine ⟨And.right, fun h => ⟨?_, h⟩⟩
  have hkeys : ∀ v : Value, v.imprint.map Object.key = v.map Object.key := by
    intro v
    rw [imprint, List.map_map]
    exact List.map_congr_left fun o _ => o.key_imprint
  rw [← hkeys a, h, hkeys]

end Value

end AbstractFlow
