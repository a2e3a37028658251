import AbstractFlow.Proofs.Value.Joins

/-! # Merging is a semilattice join

The laws are carried from level to level: if merging what is nested in two values obeys them, then so does
merging attributes name by name, objects field by field and values key by key. What is unknown absorbs the
attributes of everything else, and so does a value that gets too many objects; since attributes are united
in every case, it does not matter when a value is absorbed.
-/
namespace AbstractFlow

namespace Object

/-- What an object is about: the fields that tell it from others, and that merging leaves alone. -/
inductive Subject where
  | unknown
  | number (type : NumericType)
  | string
  | none
  | container (type : ContainerType)
  | function (name : String)
  | classObject (name : String)
  | instanceObject (className site : String)
  | external (kind : ExternalKind) (module name : String)

def subject : Object → Subject
  | .unknown _ => .unknown
  | .constant (.number t _) => .number t
  | .constant (.string _) => .string
  | .constant .none => .none
  | .container c => .container c.type
  | .function f => .function f.name
  | .classObject c => .classObject c.name
  | .instanceObject i => .instanceObject i.className i.site
  | .external e => .external e.kind e.module e.name

/-- No negative zero, no bound on a length below -1, no base twice, and no names with commas. -/
def Neat : Object → Prop
  | .constant (.number _ s) => s.Unsigned
  | .constant (.string s) => -1 ≤ s.maxLen
  | .function f => Names.CommaFree f.params
  | .classObject c => c.bases.Nodup ∧ Names.CommaFree c.bases
  | _ => True

/-- No class has one base only, and that without a name. -/
def Named : Object → Prop
  | .classObject c => c.bases ≠ [""]
  | _ => True

def Clean : Object → Prop
  | .constant (.number _ s) => s.Unsigned
  | .constant (.string s) => -1 ≤ s.maxLen
  | .function f => Names.CommaFree f.params
  | .classObject c => Class.Distinct c.bases
  | _ => True

structure Fine (χ : String → Subject) (p : Value → Prop) (k : String) (o : Object) : Prop where
  key : o.key = k
  subject : o.subject = χ k
  tidy : o.Tidy
  clean : o.Clean
  inside : o.Inside p

variable {χ : String → Subject} {p : Value → Prop} {m : Value → Value → Value} {k : String} {x y : Object}

theorem Neat.clean {o : Object} (h : o.Neat) (hnamed : o.Named) : o.Clean := by
  rcases o with _ | ⟨_ | _ | _⟩ | _ | _ | _ | _ | _ <;> try exact h
  exact ⟨h.1, h.2, hnamed⟩

theorem subject_withAttrs (o : Object) (as : Attrs) : (o.withAttrs as).subject = o.subject := by
  rcases o with _ | ⟨_ | _ | _⟩ | _ | _ | _ | _ | _ <;> rfl

theorem clean_withAttrs {o : Object} (h : o.Clean) (as : Attrs) : (o.withAttrs as).Clean := by
  rcases o with _ | ⟨_ | _ | _⟩ | _ | _ | _ | _ | _ <;> exact h

theorem subject_mergeWith (hkey : x.key = y.key) : (x.mergeWith m y).subject = x.subject := by
  unfold mergeWith
  rw [if_neg (not_not_intro hkey)]
  split
  · rename_i c d
    rcases c with _ | _ | _ <;> rcases d with _ | _ | _ <;> rfl
  · rfl
  · rfl
  · rfl
  · exact subject_withAttrs _ _

theorem clean_mergeWith (hkey : x.key = y.key) (hx : x.Tidy ∧ x.Clean) (hy : y.Tidy ∧ y.Clean) :
    (x.mergeWith m y).Clean := by
  unfold mergeWith
  rw [if_neg (not_not_intro hkey)]
  split
  · rename_i c d
    rcases c with ⟨t, s⟩ | s | _ <;> rcases d with ⟨t', s'⟩ | s' | _ <;> try exact hx.2
    · exact NumberSet.unsigned_join hx hy
    · exact (StringSet.semilattice_join.closed hx hy).2
  · trivial
  · exact Function.semilattice_widerParams.closed hx.2 hy.2
  · exact Class.distinct_joinBases hx.2 hy.2
  · exact clean_withAttrs hx.2 _

theorem Fine.mergeWith (h : SemilatticeOn p m) (hx : Fine χ p k x) (hy : Fine χ p k y) :
    Fine χ p k (x.mergeWith m y) := by
  have hkey : x.key = y.key := hx.key.trans hy.key.symm
  refine ⟨?_, ?_, tidy_mergeWith hx.tidy, ?_, ?_⟩
  · rw [key_mergeWith m hkey, hx.key]
  · rw [subject_mergeWith hkey, hx.subject]
  · exact clean_mergeWith hkey ⟨hx.tidy, hx.clean⟩ ⟨hy.tidy, hy.clean⟩
  · exact inside_mergeWith (AgreeOn.refl h.closed) hx.inside hy.inside

end Object

/-- Attributes under sorted names, with values of a property. -/
def Attrs.Fine (p : Value → Prop) (as : Attrs) : Prop := Dict.Sorted as ∧ Attrs.Holds p as

theorem Attrs.semilattice {p : Value → Prop} {m : Value → Value → Value} (h : SemilatticeOn p m) :
    SemilatticeOn (Attrs.Fine p) (Dict.mergeWith m) := SemilatticeOn.dict fun _ => h

namespace Container

variable {p : Value → Prop} {m : Value → Value → Value} {c d : Container Value}

/-- Merged type names are up to date, and merged bounds in order. -/
theorem mergeWith_eq (hnames : ∀ {a b : Value}, p a → p b → (m a b).typeNames ⊆ a.typeNames ++ b.typeNames)
    (hc : c.Tidy ∧ p c.elem ∧ p c.key) (hd : d.Tidy ∧ p d.elem ∧ p d.key) :
    c.mergeWith m d =
      ⟨c.type, Sorted.union c.elemTypes d.elemTypes, m c.elem d.elem, Sorted.union c.keyTypes d.keyTypes,
        m c.key d.key, min c.minSize d.minSize, looserSize c.maxSize d.maxSize⟩ := by
  -- The type names of merged values are already among those that the containers list.
  have hnamed : ∀ {a b : Value} {as bs : List String}, p a → p b → a.typeNames ⊆ as → b.typeNames ⊆ bs →
      Sorted.union (Sorted.union as bs) (m a b).typeNames = Sorted.union as bs := by
    intro a b as bs ha hb has hbs
    refine Sorted.ext_mem (Sorted.pairwise_ofList _) (Sorted.pairwise_ofList _) fun n => ?_
    rw [Sorted.mem_union, or_iff_left_iff_imp]
    intro hn
    exact Sorted.mem_union.mpr ((List.mem_append.mp (hnames ha hb hn)).imp (has ·) (hbs ·))
  have helems := hnamed hc.2.1 hd.2.1 hc.1.elemNames hd.1.elemNames
  have hkeys := hnamed hc.2.2 hd.2.2 hc.1.keyNames hd.1.keyNames
  have hsizes : (looserSize c.maxSize d.maxSize).map (max (min c.minSize d.minSize)) =
      looserSize c.maxSize d.maxSize := by
    cases hcmax : c.maxSize with
    | none => rfl
    | some i =>
      cases hdmax : d.maxSize with
      | none => rfl
      | some j =>
        have hi := hc.1.sizes i hcmax
        have hj := hd.1.sizes j hdmax
        simp only [looserSize, Option.map_some, Option.some.injEq]
        omega
  rw [mergeWith, normalize]
  simp only [helems, hkeys, hsizes]

theorem semilattice (h : SemilatticeOn p m)
    (hnames : ∀ {a b : Value}, p a → p b → (m a b).typeNames ⊆ a.typeNames ++ b.typeNames)
    (type : ContainerType) :
    SemilatticeOn (fun c : Container Value => c.type = type ∧ c.Tidy ∧ p c.elem ∧ p c.key) (mergeWith m) := by
  have hstrings := (Sorted.unionOn (α := String)).semilattice
  refine (hstrings.prod (h.prod (hstrings.prod (h.prod (SemilatticeOn.min.prod semilattice_looserSize))))).pullback
    (fun c => (c.elemTypes, c.elem, c.keyTypes, c.key, c.minSize, c.maxSize)) ?_ ?_ ?_ ?_
  · intro c hc
    exact ⟨hc.2.1.elemTypes, hc.2.2.1, hc.2.1.keyTypes, hc.2.2.2, trivial, trivial⟩
  · rintro ⟨t, et, e, kt, k, lo, hi⟩ ⟨t', et', e', kt', k', lo', hi'⟩ hc hd heq
    simp only [Prod.mk.injEq] at heq hc hd
    obtain ⟨rfl, rfl, rfl, rfl, rfl, rfl⟩ := heq
    rw [hc.1, hd.1]
  · intro c d hc hd
    exact ⟨hc.1, tidy_normalize _, h.closed hc.2.2.1 hd.2.2.1, h.closed hc.2.2.2 hd.2.2.2⟩
  · intro c d hc hd
    rw [mergeWith_eq hnames hc.2 hd.2]

end Container

theorem Function.semilattice {p : Value → Prop} {m : Value → Value → Value} (h : SemilatticeOn p m)
    (name : String) :
    SemilatticeOn (fun f : Function Value => f.name = name ∧ Names.CommaFree f.params ∧ Attrs.Fine p f.attrs)
      (Function.mergeWith m) := by
  have hattrs := Attrs.semilattice h
  refine (semilattice_widerParams.prod (Bool.semilattice_or.prod (Binding.semilattice_join.prod
    (Bool.semilattice_or.prod (Bool.semilattice_or.prod hattrs))))).pullback
    (fun f => (f.params, f.async, f.binding, f.getter, f.setter, f.attrs)) ?_ ?_ ?_ ?_
  · intro f hf
    exact ⟨hf.2.1, trivial, trivial, trivial, trivial, hf.2.2⟩
  · rintro ⟨n, ps, a, b, g, s, as⟩ ⟨n', ps', a', b', g', s', as'⟩ hf hg heq
    simp only [Prod.mk.injEq] at heq hf hg
    obtain ⟨rfl, rfl, rfl, rfl, rfl, rfl⟩ := heq
    rw [hf.1, hg.1]
  · intro f g hf hg
    exact ⟨hf.1, semilattice_widerParams.closed hf.2.1 hg.2.1, hattrs.closed hf.2.2 hg.2.2⟩
  · intro f g hf hg
    rfl

theorem Class.semilattice {p : Value → Prop} {m : Value → Value → Value} (h : SemilatticeOn p m)
    (name : String) :
    SemilatticeOn (fun c : Class Value => c.name = name ∧ Class.Distinct c.bases ∧ Attrs.Fine p c.methods ∧
      Attrs.Fine p c.attrs) (Class.mergeWith m) := by
  have hattrs := Attrs.semilattice h
  refine (semilattice_joinBases.prod (hattrs.prod hattrs)).pullback
    (fun c => (c.bases, c.methods, c.attrs)) ?_ ?_ ?_ ?_
  · intro c hc
    exact hc.2
  · rintro ⟨n, bs, ms, as⟩ ⟨n', bs', ms', as'⟩ hc hd heq
    simp only [Prod.mk.injEq] at heq hc hd
    obtain ⟨rfl, rfl, rfl⟩ := heq
    rw [hc.1, hd.1]
  · intro c d hc hd
    exact ⟨hc.1, distinct_joinBases hc.2.1 hd.2.1, hattrs.closed hc.2.2.1 hd.2.2.1, hattrs.closed hc.2.2.2 hd.2.2.2⟩
  · intro c d hc hd
    rfl

namespace Object

variable {χ : String → Subject} {p : Value → Prop} {m : Value → Value → Value} {k : String}

/-- Objects of one key and subject are of one shape, and their fields are joined one by one. -/
theorem semilattice (h : SemilatticeOn p m)
    (hnames : ∀ {a b : Value}, p a → p b → (m a b).typeNames ⊆ a.typeNames ++ b.typeNames) :
    SemilatticeOn (Fine χ p k) (mergeWith m) := by
  have hattrs := Attrs.semilattice h
  -- The subject fixes the constructor, so the laws are those of the fields, seen through it.
  cases hχ : χ k with
  | unknown =>
    refine hattrs.image Object.unknown (fun {o} ho => ?_) (Fine.mergeWith h) (fun _ _ => if_neg (not_not_intro rfl))
    have hsubject := ho.subject.trans hχ
    rcases o with as | ⟨_ | _ | _⟩ | _ | _ | _ | _ | _ <;> try cases hsubject
    exact ⟨as, ⟨ho.tidy, inside_unknown.mp ho.inside⟩, rfl⟩
  | number t =>
    refine NumberSet.semilattice_join.image (fun s => .constant (.number t s)) (fun {o} ho => ?_) (Fine.mergeWith h)
      (fun _ _ => if_neg (not_not_intro rfl))
    have hsubject := ho.subject.trans hχ
    rcases o with as | ⟨⟨t', s⟩ | _ | _⟩ | _ | _ | _ | _ | _ <;> try cases hsubject
    exact ⟨s, ⟨ho.tidy, ho.clean⟩, rfl⟩
  | string =>
    refine StringSet.semilattice_join.image (fun s => .constant (.string s)) (fun {o} ho => ?_) (Fine.mergeWith h)
      (fun _ _ => if_neg (not_not_intro rfl))
    have hsubject := ho.subject.trans hχ
    rcases o with as | ⟨_ | s | _⟩ | _ | _ | _ | _ | _ <;> try cases hsubject
    exact ⟨s, ⟨ho.tidy, ho.clean⟩, rfl⟩
  | none =>
    refine Bool.semilattice_or.image (fun _ => .constant .none) (fun {o} ho => ?_) (Fine.mergeWith h)
      (fun _ _ => if_neg (not_not_intro rfl))
    have hsubject := ho.subject.trans hχ
    rcases o with as | ⟨_ | _ | _⟩ | _ | _ | _ | _ | _ <;> try cases hsubject
    exact ⟨true, trivial, rfl⟩
  | container type =>
    refine (Container.semilattice h hnames type).image Object.container (fun {o} ho => ?_) (Fine.mergeWith h)
      (fun {c d} hc hd => if_neg (not_not_intro ?_))
    · have hsubject := ho.subject.trans hχ
      rcases o with as | ⟨_ | _ | _⟩ | c | _ | _ | _ | _ <;> try cases hsubject
      exact ⟨c, ⟨rfl, ho.tidy, inside_container.mp ho.inside⟩, rfl⟩
    · rw [key, key, hc.1, hd.1]
  | function name =>
    refine (Function.semilattice h name).image Object.function (fun {o} ho => ?_) (Fine.mergeWith h)
      (fun {f g} hf hg => if_neg (not_not_intro ?_))
    · have hsubject := ho.subject.trans hχ
      rcases o with as | ⟨_ | _ | _⟩ | _ | f | _ | _ | _ <;> try cases hsubject
      exact ⟨f, ⟨rfl, ho.clean, ho.tidy, inside_function.mp ho.inside⟩, rfl⟩
    · rw [key, key, hf.1, hg.1]
  | classObject name =>
    refine (Class.semilattice h name).image Object.classObject (fun {o} ho => ?_) (Fine.mergeWith h)
      (fun {c d} hc hd => if_neg (not_not_intro ?_))
    · have hsubject := ho.subject.trans hχ
      rcases o with as | ⟨_ | _ | _⟩ | _ | _ | c | _ | _ <;> try cases hsubject
      obtain ⟨hms, has⟩ := inside_classObject.mp ho.inside
      exact ⟨c, ⟨rfl, ho.clean, ⟨ho.tidy.1, hms⟩, ho.tidy.2, has⟩, rfl⟩
    · rw [key, key, hc.1, hd.1]
  | instanceObject className site =>
    refine hattrs.image (fun as => .instanceObject ⟨className, site, as⟩) (fun {o} ho => ?_) (Fine.mergeWith h)
      (fun _ _ => if_neg (not_not_intro rfl))
    have hsubject := ho.subject.trans hχ
    rcases o with as | ⟨_ | _ | _⟩ | _ | _ | _ | i | _ <;> try cases hsubject
    exact ⟨i.attrs, ⟨ho.tidy, inside_instanceObject.mp ho.inside⟩, rfl⟩
  | external kind module name =>
    refine hattrs.image (fun as => .external ⟨kind, module, name, as⟩) (fun {o} ho => ?_) (Fine.mergeWith h)
      (fun _ _ => if_neg (not_not_intro rfl))
    have hsubject := ho.subject.trans hχ
    rcases o with as | ⟨_ | _ | _⟩ | _ | _ | _ | _ | e <;> try cases hsubject
    exact ⟨e.attrs, ⟨ho.tidy, inside_external.mp ho.inside⟩, rfl⟩

theorem typeName_mergeWith {x y : Object} (hkey : x.key = y.key) : (x.mergeWith m y).typeName = x.typeName := by
  unfold mergeWith
  rw [if_neg (not_not_intro hkey)]
  split
  · rename_i c d
    exact Constant.typeName_join c d
  · rfl
  · rfl
  · rfl
  · cases x <;> rfl

theorem attrs_mergeWith {x y : Object} (hkey : x.key = y.key) :
    (x.mergeWith m y).attrs = Dict.mergeWith m x.attrs y.attrs := by
  have hkind := kind_of_key hkey
  cases x with
  | constant c =>
    obtain ⟨d, rfl⟩ := exists_constant_of_kind hkind.symm
    rw [mergeWith_constant m hkey]
    rfl
  | container c =>
    obtain ⟨d, rfl⟩ := exists_container_of_kind hkind.symm
    unfold mergeWith
    rw [if_neg (not_not_intro hkey)]
    rfl
  | _ =>
    unfold mergeWith
    rw [if_neg (not_not_intro hkey)]
    split <;> first | rfl | contradiction | (rename_i heq; cases heq; rfl)

end Object

namespace Value

variable {m : Value → Value → Value} {a b c : Value}

theorem mem_typeNames {v : Value} {n : String} : n ∈ v.typeNames ↔ n ≠ "" ∧ ∃ o ∈ v, o.typeName = n := by
  unfold typeNames
  rw [Sorted.mem_ofList, List.mem_filter, List.mem_map, bne_iff_ne]
  exact and_comm

theorem typeNames_merge_subset (a b : Value) : (a.merge b).typeNames ⊆ a.typeNames ++ b.typeNames := by
  have hnames : ∀ o ∈ a.merge b, o.typeName ≠ "" → o.typeName ∈ a.typeNames ++ b.typeNames := by
    rw [merge_eq]
    refine forall_mergeWith (fun x y hx _ hkey => ?_) (fun objs _ h => absurd rfl h) (fun o ho hne => ?_) (fun o ho hne => ?_)
    · rw [Object.typeName_mergeWith hkey]
      exact hx
    · exact List.mem_append_left _ (mem_typeNames.mpr ⟨hne, o, ho, rfl⟩)
    · exact List.mem_append_right _ (mem_typeNames.mpr ⟨hne, o, ho, rfl⟩)
  intro n hn
  obtain ⟨hne, o, ho, rfl⟩ := mem_typeNames.mp hn
  exact hnames o ho hne

theorem absorbed_unknown {as : Attrs} (has : Dict.Sorted as) : absorbed m [.unknown as] = as :=
  Dict.nil_mergeWith m has

section Absorbed

variable {p : Value → Prop} (h : SemilatticeOn p m) {objs : List Object}
include h

theorem fine_absorbed (hobjs : ∀ o ∈ objs, Attrs.Fine p o.attrs) : Attrs.Fine p (absorbed m objs) := by
  have hfold : ∀ as : Attrs, Attrs.Fine p as →
      Attrs.Fine p (objs.foldl (fun as o => Dict.mergeWith m as o.attrs) as) := by
    induction objs with
    | nil => exact fun as has => has
    | cons o rest ih =>
      obtain ⟨ho, hrest⟩ := List.forall_mem_cons.mp hobjs
      exact fun as has => ih hrest _ ((Attrs.semilattice h).closed has ho)
  exact hfold [] ⟨Dict.sorted_nil, Dict.each_nil⟩

theorem foldl_attrs_eq {as : Attrs} (has : Attrs.Fine p as) (hobjs : ∀ o ∈ objs, Attrs.Fine p o.attrs) :
    objs.foldl (fun as o => Dict.mergeWith m as o.attrs) as = Dict.mergeWith m as (absorbed m objs) := by
  have hattrs := Attrs.semilattice h
  induction objs generalizing as with
  | nil => rfl
  | cons o rest ih =>
    obtain ⟨ho, hrest⟩ := List.forall_mem_cons.mp hobjs
    have hnil : Attrs.Fine p [] := ⟨Dict.sorted_nil, Dict.each_nil⟩
    rw [absorbed, List.foldl_cons, List.foldl_cons, ih (hattrs.closed has ho) hrest,
      ih (hattrs.closed hnil ho) hrest, Dict.nil_mergeWith m ho.1]
    exact hattrs.assoc has ho (fine_absorbed h hrest)

theorem absorbed_cons {o : Object} (ho : Attrs.Fine p o.attrs) (hobjs : ∀ o ∈ objs, Attrs.Fine p o.attrs) :
    absorbed m (o :: objs) = Dict.mergeWith m o.attrs (absorbed m objs) := by
  rw [absorbed, List.foldl_cons, Dict.nil_mergeWith m ho.1]
  exact foldl_attrs_eq h ho hobjs

theorem absorbed_append {objs' : List Object} (hobjs : ∀ o ∈ objs, Attrs.Fine p o.attrs)
    (hobjs' : ∀ o ∈ objs', Attrs.Fine p o.attrs) :
    absorbed m (objs ++ objs') = Dict.mergeWith m (absorbed m objs) (absorbed m objs') := by
  rw [absorbed, List.foldl_append]
  exact foldl_attrs_eq h (fine_absorbed h hobjs) hobjs'

theorem absorbed_place {o : Object} (ho : Attrs.Fine p o.attrs) (hobjs : ∀ o ∈ objs, Attrs.Fine p o.attrs) :
    absorbed m (place o objs) = Dict.mergeWith m o.attrs (absorbed m objs) := by
  have hattrs := Attrs.semilattice h
  induction objs with
  | nil => exact absorbed_cons h ho hobjs
  | cons x rest ih =>
    obtain ⟨hx, hrest⟩ := List.forall_mem_cons.mp hobjs
    unfold place
    split
    · have hplace : ∀ y ∈ place o rest, Attrs.Fine p y.attrs := by
        intro y hy
        rcases mem_place.mp hy with rfl | hy
        · exact ho
        · exact hrest y hy
      have hall := fine_absorbed h hrest
      rw [absorbed_cons h hx hplace, ih hrest, absorbed_cons h hx hrest, ← hattrs.assoc hx ho hall,
        hattrs.comm hx ho, hattrs.assoc ho hx hall]
    · exact absorbed_cons h ho hobjs

theorem absorbed_canonical (hobjs : ∀ o ∈ objs, Attrs.Fine p o.attrs) :
    absorbed m (canonical objs) = absorbed m objs := by
  induction objs with
  | nil => rfl
  | cons o rest ih =>
    obtain ⟨ho, hrest⟩ := List.forall_mem_cons.mp hobjs
    have hsorted : ∀ y ∈ canonical rest, Attrs.Fine p y.attrs := fun y hy => hrest y (mem_canonical.mp hy)
    rw [absorbed_cons h ho hrest, ← ih hrest]
    exact absorbed_place h ho hsorted

theorem absorbed_absorbWith {o : Object} (ho : Attrs.Fine p o.attrs) (hobjs : ∀ o ∈ objs, Attrs.Fine p o.attrs) :
    absorbed m (absorbWith m objs o) = Dict.mergeWith m (absorbed m objs) o.attrs ∧
      ∀ x ∈ absorbWith m objs o, Attrs.Fine p x.attrs := by
  have hattrs := Attrs.semilattice h
  have hfine : ∀ x ∈ absorbWith m objs o, Attrs.Fine p x.attrs := by
    refine forall_absorbWith (P := fun x => Attrs.Fine p x.attrs) (fun x hx hkey => ?_) hobjs ho
    rw [Object.attrs_mergeWith hkey]
    exact hattrs.closed hx ho
  refine ⟨?_, hfine⟩
  clear hfine
  -- The object may be merged at any place of the list: its attributes commute with those behind it.
  induction objs with
  | nil => rfl
  | cons x rest ih =>
    obtain ⟨hx, hrest⟩ := List.forall_mem_cons.mp hobjs
    have hall := fine_absorbed h hrest
    rw [absorbed_cons h hx hrest]
    unfold absorbWith
    split
    · rename_i hsame
      have hmerged : Attrs.Fine p (x.mergeWith m o).attrs := by
        rw [Object.attrs_mergeWith hsame.1]
        exact hattrs.closed hx ho
      rw [absorbed_cons h hmerged hrest, Object.attrs_mergeWith hsame.1, hattrs.assoc hx ho hall,
        hattrs.comm ho hall, hattrs.assoc hx hall ho]
    · have hrest' : ∀ y ∈ absorbWith m rest o, Attrs.Fine p y.attrs := by
        refine forall_absorbWith (P := fun x => Attrs.Fine p x.attrs) (fun y hy hkey => ?_) hrest ho
        rw [Object.attrs_mergeWith hkey]
        exact hattrs.closed hy ho
      rw [absorbed_cons h hx hrest', ih hrest, hattrs.assoc hx hall ho]

theorem absorbed_foldl (ha : ∀ o ∈ a, Attrs.Fine p o.attrs) (hb : ∀ o ∈ b, Attrs.Fine p o.attrs) :
    absorbed m (b.foldl (absorbWith m) a) = Dict.mergeWith m (absorbed m a) (absorbed m b) ∧
      ∀ o ∈ b.foldl (absorbWith m) a, Attrs.Fine p o.attrs := by
  have hattrs := Attrs.semilattice h
  induction b generalizing a with
  | nil => exact ⟨rfl, ha⟩
  | cons o rest ih =>
    obtain ⟨ho, hrest⟩ := List.forall_mem_cons.mp hb
    obtain ⟨habsorbed, hfine⟩ := absorbed_absorbWith h ho ha
    obtain ⟨hfold, hfold'⟩ := ih hfine hrest
    refine ⟨?_, hfold'⟩
    rw [List.foldl_cons, hfold, habsorbed, absorbed_cons h ho hrest]
    exact hattrs.assoc (fine_absorbed h ha) ho (fine_absorbed h hrest)

/-- However two values are merged, their attributes are united. -/
theorem absorbed_mergeWith (ha : ∀ o ∈ a, Attrs.Fine p o.attrs) (hb : ∀ o ∈ b, Attrs.Fine p o.attrs) :
    absorbed m (mergeWith m a b) = Dict.mergeWith m (absorbed m a) (absorbed m b) := by
  obtain ⟨hfold, hfine⟩ := absorbed_foldl h ha hb
  have hcollapse : ∀ objs, absorbed m (collapseWith m objs) = absorbed m objs := by
    intro objs
    rw [collapseWith_eq, absorbed_unknown (sorted_absorbed m objs)]
  unfold mergeWith
  split
  · rename_i hnil
    rw [List.isEmpty_iff.mp hnil]
    exact (Dict.nil_mergeWith m (sorted_absorbed m b)).symm
  split
  · rename_i hnil
    rw [List.isEmpty_iff.mp hnil]
    rfl
  split
  · rw [hcollapse, absorbed_append h ha hb]
  dsimp only
  split
  · rw [hcollapse, hfold]
  · rw [absorbed_canonical h hfine, hfold]

end Absorbed

/-- A tidy value of clean objects, each of the subject that its key stands for. -/
structure Regular (χ : String → Object.Subject) (v : Value) : Prop where
  tidy : v.Tidy
  clean : ∀ o ∈ v, o.Clean
  subject : ∀ o ∈ v, o.subject = χ o.key

section Level

variable {χ : String → Object.Subject} {p : Value → Prop}

theorem Regular.mergeWith (hχ : χ "~unknown" = .unknown) (ha : a.Regular χ) (hb : b.Regular χ) :
    (mergeWith m a b).Regular χ := by
  have hall : ∀ o ∈ Value.mergeWith m a b, o.Tidy ∧ o.Clean ∧ o.subject = χ o.key := by
    refine forall_mergeWith (P := fun o => o.Tidy ∧ o.Clean ∧ o.subject = χ o.key) ?_ ?_ ?_ ?_
    · rintro x y ⟨hx, hxclean, hxsubject⟩ ⟨hy, hyclean, -⟩ hkey
      refine ⟨Object.tidy_mergeWith hx, Object.clean_mergeWith hkey ⟨hx, hxclean⟩ ⟨hy, hyclean⟩, ?_⟩
      rw [Object.subject_mergeWith hkey, Object.key_mergeWith m hkey, hxsubject]
    · intro objs _
      exact ⟨sorted_absorbed m objs, trivial, hχ.symm⟩
    · exact fun o ho => ⟨ha.tidy.objects o ho, ha.clean o ho, ha.subject o ho⟩
    · exact fun o ho => ⟨hb.tidy.objects o ho, hb.clean o ho, hb.subject o ho⟩
  exact ⟨tidy_mergeWith ha.tidy hb.tidy, fun o ho => (hall o ho).2.1, fun o ho => (hall o ho).2.2⟩

theorem Regular.each_keyed (ha : a.Regular χ) (hinside : a.Inside p) :
    Dict.Each (Object.Fine χ p) a.keyed := by
  rintro ⟨k, o⟩ he
  obtain ⟨ho, rfl⟩ := mem_keyed.mp he
  exact ⟨rfl, ha.subject o ho, ha.tidy.objects o ho, ha.clean o ho, hinside o ho⟩

theorem eq_of_known (ha : a.Tidy) (hb : b.Tidy) (habsorbed : absorbed m a = absorbed m b)
    (hknown : a.known = b.known) : a = b := by
  cases hunknown : a.hasUnknown with
  | true =>
    obtain ⟨as, rfl⟩ := ha.alone hunknown
    rw [known_eq_none.mpr hunknown] at hknown
    obtain ⟨bs, rfl⟩ := hb.alone (known_eq_none.mp hknown.symm)
    have has : Dict.Sorted as := ha.objects _ List.mem_cons_self
    have hbs : Dict.Sorted bs := hb.objects _ List.mem_cons_self
    have heq : as = bs := by
      calc as = absorbed m [.unknown as] := (absorbed_unknown has).symm
        _ = absorbed m [.unknown bs] := habsorbed
        _ = bs := absorbed_unknown hbs
    rw [heq]
  | false =>
    cases hunknown' : b.hasUnknown with
    | true =>
      rw [known_eq_some hunknown, known_eq_none.mpr hunknown'] at hknown
      cases hknown
    | false =>
      rw [known_eq_some hunknown, known_eq_some hunknown'] at hknown
      exact keyed_injective (Option.some.inj hknown)

/-- One level of merging obeys the laws if merging what is nested does. -/
theorem semilattice_mergeWith (h : SemilatticeOn p m)
    (hnames : ∀ {a b : Value}, p a → p b → (m a b).typeNames ⊆ a.typeNames ++ b.typeNames)
    (hχ : χ "~unknown" = .unknown) :
    SemilatticeOn (fun v => v.Regular χ ∧ v.Inside p) (mergeWith m) := by
  have hobjects := SemilatticeOn.dict fun k => Object.semilattice (χ := χ) (k := k) h hnames
  have hknown := hobjects.upTo (fun {d e} _ _ => Dict.length_le_mergeWith _ d e) objectLimit
  have hfine : ∀ {v : Value}, v.Regular χ ∧ v.Inside p → ∀ o ∈ v, Attrs.Fine p o.attrs :=
    fun hv o ho => ⟨(hv.1.tidy.objects o ho).attrs, (hv.2 o ho).attrs⟩
  refine ((Attrs.semilattice h).prod hknown).pullback (fun v => (absorbed m v, v.known)) ?_ ?_ ?_ ?_
  · intro v hv
    refine ⟨fine_absorbed h (hfine hv), fun d hd => ?_⟩
    dsimp only at hd
    unfold known at hd
    split at hd
    · cases hd
    · obtain rfl := Option.some.inj hd
      refine ⟨⟨hv.1.tidy.sorted, hv.1.each_keyed hv.2⟩, ?_⟩
      rw [length_keyed]
      exact hv.1.tidy.few
  · intro a b ha hb heq
    obtain ⟨habsorbed, hknown⟩ := Prod.mk.inj heq
    exact eq_of_known ha.1.tidy hb.1.tidy habsorbed hknown
  · intro a b ha hb
    exact ⟨ha.1.mergeWith hχ hb.1, (mergeWith_agree (AgreeOn.refl h.closed) ha.2 hb.2).2⟩
  · intro a b ha hb
    exact Prod.ext (absorbed_mergeWith h (hfine ha) (hfine hb)) (known_mergeWith ha.1.tidy hb.1.tidy)

/-- Merging obeys the laws at every depth. -/
theorem semilattice_merge (hχ : χ "~unknown" = .unknown) (n : Nat) :
    SemilatticeOn (fun v => v.depth ≤ n ∧ v.Everywhere (Regular χ)) merge := by
  induction n with
  | zero =>
    have hnil : ∀ {v : Value}, v.depth ≤ 0 ∧ v.Everywhere (Regular χ) → v = [] :=
      fun hv => depth_eq_zero.mp (Nat.le_zero.mp hv.1)
    refine ⟨fun ha hb => ?_, fun ha hb => ?_, fun ha hb hc => ?_, fun ha => ?_⟩
    · rw [hnil ha, hnil hb]
      rw [hnil ha] at ha
      exact ha
    · rw [hnil ha, hnil hb]
    · rw [hnil ha, hnil hb, hnil hc]
      rfl
    · rw [hnil ha]
      rfl
  | succ n ih =>
    have hlevel := semilattice_mergeWith ih (fun _ _ => typeNames_merge_subset _ _) hχ
    rwa [mergeWith_merge, ← everywhere_depth_succ] at hlevel

end Level

/-- An object that a value holds, or a value nested in it, however deep. -/
inductive Occurs (o : Object) : Value → Prop where
  | here {v : Value} (h : o ∈ v) : Occurs o v
  | inside {v w : Value} {x : Object} (hx : x ∈ v) (hw : w ∈ x.inner) (h : Occurs o w) : Occurs o v

theorem Canonical.regular {χ : String → Object.Subject} {v : Value} (h : v.Canonical)
    (hclean : ∀ o, Occurs o v → o.Clean) (hsubject : ∀ o, Occurs o v → o.subject = χ o.key) :
    v.Everywhere (Regular χ) := by
  induction h with
  | intro here inside ih =>
    refine ⟨⟨here, fun o ho => hclean o (.here ho), fun o ho => hsubject o (.here ho)⟩, ?_⟩
    intro x hx w hw
    exact ih x hx w hw (fun o ho => hclean o (.inside hx hw ho)) (fun o ho => hsubject o (.inside hx hw ho))

/-- Where keys tell objects apart, each key stands for one subject. -/
theorem exists_subject {P : Object → Prop} (h : ∀ x y, P x → P y → x.key = y.key → x.subject = y.subject) :
    ∃ χ : String → Object.Subject, χ "~unknown" = .unknown ∧ ∀ o, P o → o.subject = χ o.key := by
  have hexists : ∀ k, ∃ s : Object.Subject, (k = "~unknown" → s = .unknown) ∧
      ∀ o, P o → o.key = k → o.subject = s := by
    intro k
    by_cases hk : ∃ o, P o ∧ o.key = k
    · obtain ⟨o, ho, rfl⟩ := hk
      refine ⟨o.subject, fun hunknown => ?_, fun x hx hkey => h x o hx ho hkey⟩
      have hkind : o.kind = (Object.unknown []).kind := Object.kind_of_key hunknown
      cases o with
      | unknown as => rfl
      | external e =>
        obtain ⟨kind, module, name, attrs⟩ := e
        cases kind <;> cases hkind
      | _ => cases hkind
    · exact ⟨.unknown, fun _ => rfl, fun o ho hkey => absurd ⟨o, ho, hkey⟩ hk⟩
  choose χ hχ using hexists
  exact ⟨χ, (hχ _).1 rfl, fun o ho => (hχ o.key).2 o ho rfl⟩

/-- Merging is commutative, associative and idempotent on what constructors and merges build, if the objects
are neat and named, and are about the same where their keys are the same. -/
theorem merge_comm_assoc_idem {a b c : Value} (ha : a.Built) (hb : b.Built) (hc : c.Built)
    (hneat : ∀ o, Occurs o a ∨ Occurs o b ∨ Occurs o c → o.Neat)
    (hnamed : ∀ o, Occurs o a ∨ Occurs o b ∨ Occurs o c → o.Named)
    (hkeys : ∀ x y, Occurs x a ∨ Occurs x b ∨ Occurs x c → Occurs y a ∨ Occurs y b ∨ Occurs y c →
      x.key = y.key → x.subject = y.subject) :
    a.merge b = b.merge a ∧ (a.merge b).merge c = a.merge (b.merge c) ∧ a.merge a = a := by
  have hclean := fun o ho => (hneat o ho).clean (hnamed o ho)
  obtain ⟨χ, hunknown, hχ⟩ := exists_subject hkeys
  have hlaws := semilattice_merge hunknown (max a.depth (max b.depth c.depth))
  have ha' := ha.canonical.regular (fun o ho => hclean o (.inl ho)) (fun o ho => hχ o (.inl ho))
  have hb' := hb.canonical.regular (fun o ho => hclean o (.inr (.inl ho))) (fun o ho => hχ o (.inr (.inl ho)))
  have hc' := hc.canonical.regular (fun o ho => hclean o (.inr (.inr ho))) (fun o ho => hχ o (.inr (.inr ho)))
  have hadepth : a.depth ≤ max a.depth (max b.depth c.depth) := by omega
  have hbdepth : b.depth ≤ max a.depth (max b.depth c.depth) := by omega
  have hcdepth : c.depth ≤ max a.depth (max b.depth c.depth) := by omega
  exact ⟨hlaws.comm ⟨hadepth, ha'⟩ ⟨hbdepth, hb'⟩, hlaws.assoc ⟨hadepth, ha'⟩ ⟨hbdepth, hb'⟩ ⟨hcdepth, hc'⟩,
    hlaws.idem ⟨hadepth, ha'⟩⟩

/-- A class without attributes. -/
def ofBases (bases : List String) : Value := [.classObject ⟨"C", bases, [], []⟩]

theorem built_ofBases (bases : List String) : (ofBases bases).Built :=
  .classObject Dict.sorted_nil Dict.sorted_nil (by simp) (by simp)

theorem occurs_ofBases {bases : List String} {o : Object} (h : Occurs o (ofBases bases)) :
    o = .classObject ⟨"C", bases, [], []⟩ := by
  cases h with
  | here h => exact List.mem_singleton.mp h
  | inside hx hw h =>
    rw [List.mem_singleton.mp hx] at hw
    cases hw

/-- Classes of different bases obey the laws. -/
theorem merge_comm_assoc_idem_classes :
    (ofBases ["A"]).merge (ofBases []) = (ofBases []).merge (ofBases ["A"]) ∧
      ((ofBases ["A"]).merge (ofBases [])).merge (ofBases ["B", "A"]) =
        (ofBases ["A"]).merge ((ofBases []).merge (ofBases ["B", "A"])) ∧
      (ofBases ["A"]).merge (ofBases ["A"]) = ofBases ["A"] := by
  have hoccurs : ∀ o, Occurs o (ofBases ["A"]) ∨ Occurs o (ofBases []) ∨ Occurs o (ofBases ["B", "A"]) →
      o = .classObject ⟨"C", ["A"], [], []⟩ ∨ o = .classObject ⟨"C", [], [], []⟩ ∨
        o = .classObject ⟨"C", ["B", "A"], [], []⟩ :=
    fun o => Or.imp occurs_ofBases (Or.imp occurs_ofBases occurs_ofBases)
  refine merge_comm_assoc_idem (built_ofBases _) (built_ofBases _) (built_ofBases _) ?_ ?_ ?_
  · intro o ho
    rcases hoccurs o ho with rfl | rfl | rfl <;> exact ⟨by decide, by decide⟩
  · intro o ho
    rcases hoccurs o ho with rfl | rfl | rfl <;> simp [Object.Named]
  · intro x y hx hy _
    rcases hoccurs x hx with rfl | rfl | rfl <;> rcases hoccurs y hy with rfl | rfl | rfl <;> rfl

/-- Of no bases and of one base without a name, a merge keeps what it finds first. -/
theorem not_merge_comm :
    ¬ ∀ a b : Value, a.Built → b.Built → (∀ o, Occurs o a ∨ Occurs o b → o.Neat) →
      (∀ x y, Occurs x a ∨ Occurs x b → Occurs y a ∨ Occurs y b → x.key = y.key → x.subject = y.subject) →
      a.merge b = b.merge a := by
  intro h
  have hoccurs : ∀ o, Occurs o (ofBases []) ∨ Occurs o (ofBases [""]) →
      o = .classObject ⟨"C", [], [], []⟩ ∨ o = .classObject ⟨"C", [""], [], []⟩ :=
    fun o => Or.imp occurs_ofBases occurs_ofBases
  have hcomm := h (ofBases []) (ofBases [""]) (built_ofBases _) (built_ofBases _)
    (fun o ho => by rcases hoccurs o ho with rfl | rfl <;> exact ⟨by decide, by decide⟩)
    (fun x y hx hy _ => by
      rcases hoccurs x hx with rfl | rfl <;> rcases hoccurs y hy with rfl | rfl <;> rfl)
  have hleft : (ofBases []).merge (ofBases [""]) = ofBases [] := rfl
  have hright : (ofBases [""]).merge (ofBases []) = ofBases [""] := rfl
  rw [hleft, hright] at hcomm
  cases hcomm

end Value

end AbstractFlow
