import AbstractFlow.Analysis.Body
import AbstractFlow.Proofs.Value.Semilattice
import AbstractFlow.Proofs.Value.WellFormed

/-! # Properties that computing with values keeps

An analysis builds its values from constants, containers, functions, classes and instances, merges them,
stores attributes and elements in them, and takes them apart again. A property that all these operations
keep is closed. To comprise, in canonical form at every depth, only objects with a property that merging
leaves alone is closed. In particular no operation makes an object about anything that its operands are
not about.
-/
namespace AbstractFlow

namespace Value

structure Closed (V : Value → Prop) : Prop where
  nil : V []
  unknown : V unknown
  constant : ∀ {c : Constant}, c.WellFormed → V [.constant c]
  container : ∀ {c : Container Value}, c.Tidy → V c.elem → V c.key → V [.container c]
  merge : ∀ {a b : Value}, V a → V b → V (a.merge b)
  object : ∀ {v : Value} {o : Object}, V v → o ∈ v → V [o]
  inner : ∀ {v w : Value} {o : Object}, V v → o ∈ v → w ∈ o.inner → V w
  replace : ∀ {v : Value} {old new : Object}, V v → V [new] → new.key = old.key → V (v.replace old new)
  withAttr : ∀ {o : Object} {w : Value}, V [o] → V w → ∀ name, V [o.withAttr name w]
  withMethod : ∀ {c : Class Value} {w : Value}, V [.classObject c] → V w → ∀ name,
    V [.classObject (c.withMethod name w)]
  joinFunctions : ∀ {f g : Function Value}, V [.function f] → V [.function g] → f.name = g.name →
    V [.function (f.mergeWith Value.merge g)]
  joinClasses : ∀ {c d : Class Value}, V [.classObject c] → V [.classObject d] → c.name = d.name →
    V [.classObject (c.mergeWith Value.merge d)]

theorem closed_true : Closed fun _ => True := by constructor <;> simp

end Value

namespace Value.Closed

variable {V : Value → Prop} (h : Closed V) {v w : Value} {vs : List Value}

include h

theorem mergeAll (hvs : ∀ v ∈ vs, V v) : V (mergeAll vs) := mergeAll_of_forall h.nil h.merge hvs

theorem ofObjects {objs : List Object} (hobjs : ∀ o ∈ objs, V [o]) : V (ofObjects objs) :=
  h.mergeAll (List.forall_mem_map.mpr hobjs)

theorem orUnknown (hv : V v) : V v.orUnknown := by
  unfold Value.orUnknown
  split
  · exact h.unknown
  · exact hv

theorem number (type : NumericType) {s : NumberSet} (hs : s.WellFormed) : V [.constant (.number type s)] :=
  h.constant (c := .number type s) hs

theorem numbers (type : NumericType) (xs : List Number) : V [.constant (.number type (.ofList xs))] :=
  h.number type (NumberSet.wellFormed_ofList xs)

theorem range (type : NumericType) (lower upper : Number) :
    V [.constant (.number type (.between lower upper))] :=
  h.number type (NumberSet.wellFormed_between lower upper)

theorem string {s : StringSet} (hs : -1 ≤ s.maxLen) : V (ofStringSet s) :=
  h.constant (c := .string s.normalize) (StringSet.wellFormed_normalize hs)

theorem noneConstant : V noneConstant := h.constant (c := .none) trivial

theorem anyString : V anyString := h.string (s := .any) (Int.le_refl _)

theorem strings (ss : List ByteString) : V (strings ss) :=
  h.constant (c := .string (.ofList ss)) (StringSet.wellFormed_ofList ss)

theorem texts (ss : List String) : V (texts ss) := h.strings _

theorem literal (l : Literal) : V l.value := by
  cases l with
  | none => exact h.noneConstant
  | int n => exact h.numbers _ _
  | float x => exact h.numbers _ _
  | str s => exact h.string (s := { StringSet.any with exact := _ }) (Int.le_refl _)
  | bool b => exact h.numbers _ _

theorem contents (hv : V v) {c : Container Value} (hc : .container c ∈ v) : V c.elem ∧ V c.key :=
  ⟨h.inner hv hc (by simp [Object.inner]), h.inner hv hc (by simp [Object.inner])⟩

theorem attrs (hv : V v) {o : Object} (ho : o ∈ v) : Attrs.Holds V o.attrs :=
  Object.Inside.attrs fun _ hw => h.inner hv ho hw

theorem methods (hv : V v) {c : Class Value} (hc : .classObject c ∈ v) : Attrs.Holds V c.methods :=
  (Object.inside_classObject.mp fun _ hw => h.inner hv hc hw).1

theorem attr? {resolve : ClassResolver} {name : String} {o : Object}
    (hresolve : ∀ {cls w}, resolve cls name = some w → V w) (hv : V v) (ho : o ∈ v)
    (hw : o.attr? resolve name = some w) : V w := by
  unfold Object.attr? at hw
  rcases Option.or_eq_some_iff.mp hw with hown | ⟨-, hclass⟩
  · exact (h.attrs hv ho).get? hown
  · split at hclass
    · rcases Option.or_eq_some_iff.mp hclass with hmethod | ⟨-, hbase⟩
      · exact (h.methods hv ho).get? hmethod
      · obtain ⟨base, -, hbase⟩ := List.exists_of_findSome?_eq_some hbase
        exact hresolve hbase
    · exact hresolve hclass
    · cases hclass

theorem attrWith {resolve : ClassResolver} {name : String}
    (hresolve : ∀ {cls w}, resolve cls name = some w → V w) (hv : V v) : V (v.attrWith resolve name) := by
  apply h.mergeAll
  intro w hw
  obtain ⟨o, ho, hw⟩ := List.mem_filterMap.mp hw
  exact h.attr? hresolve hv ho hw

theorem ofBounds {elem key : Value} (helem : V elem) (hkey : V key) (type : ContainerType) (lower upper : Int) :
    V [.container (.ofBounds type elem key lower upper)] :=
  h.container (Container.tidy_normalize _) helem hkey

theorem ofElems (hvs : ∀ v ∈ vs, V v) (type : ContainerType) : V [.container (.ofElems type vs)] :=
  h.ofBounds (h.mergeAll hvs) h.nil _ _ _

theorem setOf (hvs : ∀ v ∈ vs, V v) : V [.container (.setOf vs)] :=
  h.container (Container.tidy_setOf _) (h.mergeAll hvs) h.nil

theorem dictOf {keys : List Value} (hkeys : ∀ v ∈ keys, V v) (hvs : ∀ v ∈ vs, V v) :
    V [.container (.dictOf keys vs)] :=
  h.ofBounds (h.mergeAll fun v hv => hvs v (List.mem_of_mem_take hv)) (h.mergeAll hkeys) _ _ _

theorem elements (hv : V v) : V v.elements := by
  refine h.orUnknown (h.mergeAll (List.forall_mem_map.mpr fun o ho => ?_))
  rcases o with as | ⟨_ | _ | _⟩ | c | _ | _ | _ | _ <;> try exact h.unknown
  · exact h.anyString
  · exact (h.contents hv ho).1

theorem withStore {c : Container Value} {elem key : Value} (hc : V [.container c]) (helem : V elem)
    (hkey : V key) : V [.container (c.withStore elem key)] := by
  obtain ⟨hcelem, hckey⟩ := h.contents hc List.mem_cons_self
  apply h.container (Container.tidy_normalize _)
  · exact h.merge hcelem helem
  · show V (if c.type = .dict then c.key.merge key else c.key)
    split
    · exact h.merge hckey hkey
    · exact hckey

theorem store {elem key : Value} (hv : V v) (helem : V elem) (hkey : V key) : V (v.store elem key) := by
  have hstored : ∀ c ∈ v.containers, V [.container (c.withStore elem key)] := by
    intro c hc
    obtain ⟨o, ho, hsome⟩ := List.mem_filterMap.mp hc
    rcases o with _ | _ | c' | _ | _ | _ | _ <;> cases hsome
    exact h.withStore (h.object hv ho) helem hkey
  unfold Value.store
  generalize v.containers = cs at hstored
  induction cs generalizing v with
  | nil => exact hv
  | cons c cs ih =>
    obtain ⟨hc, hcs⟩ := List.forall_mem_cons.mp hstored
    exact ih (h.replace hv hc rfl) hcs

theorem collect (hw : V w) (hvs : ∀ v ∈ vs, V v) : V (collect w vs) := by
  unfold Value.collect
  simp only
  split
  · exact hw
  · exact h.mergeAll hvs

theorem numeric (type : NumericType) {s : NumberSet} (hs : ¬ s.upper < s.lower) : V (numeric type s) :=
  h.number type (NumberSet.wellFormed_normalize hs)

theorem numeric_of_ordered (type : NumericType) {s : NumberSet} (hs : s.lower ≤ s.upper) :
    V (Value.numeric type s) :=
  h.numeric type fun hlt => absurd hs.2.2 (Int.not_le.mpr hlt.2.2)

theorem asLength (v : Value) : V v.asLength := by
  unfold Value.asLength
  split <;> exact h.range _ _ _

theorem anyInt : V anyInt := h.number _ NumberSet.wellFormed_any

theorem asInt (v : Value) : V v.asInt := by
  refine h.collect h.anyInt fun w hw => ?_
  obtain ⟨o, -, hw⟩ := List.mem_flatMap.mp hw
  unfold intParts at hw
  split at hw
  · split at hw <;> rw [List.mem_singleton.mp hw]
    · exact h.numeric_of_ordered _ (NumberSet.wellFormed_between _ _).ordered
    · exact h.numeric_of_ordered _ (NumberSet.wellFormed_ofList _).ordered
  · split at hw
    · rw [List.mem_singleton.mp hw]
      exact h.anyInt
    · obtain ⟨n, -, rfl⟩ := List.mem_map.mp hw
      exact h.numbers _ _
  · rw [List.mem_singleton.mp hw]
    exact h.anyInt

theorem asString (hv : V v) : V v.asString := by
  refine h.collect h.anyString fun w hw => ?_
  obtain ⟨o, ho, hw⟩ := List.mem_flatMap.mp hw
  unfold stringParts at hw
  split at hw
  · rw [List.mem_singleton.mp hw]
    exact h.object hv ho
  · rw [List.mem_singleton.mp hw]
    exact h.texts _
  · split at hw
    · rw [List.mem_singleton.mp hw]
      exact h.string (s := { StringSet.any with minLen := 1 }) (Int.le_refl _)
    · obtain ⟨t, -, rfl⟩ := List.mem_map.mp hw
      exact h.texts _
  · rw [List.mem_singleton.mp hw]
    exact h.anyString

theorem asBool (v : Value) : V v.asBool := by
  unfold Value.asBool
  split <;> exact h.numbers _ _

theorem chars (s : StringSet) : V (chars s) := by
  unfold Value.chars
  split
  · exact h.string (s := { StringSet.any with minLen := 1, maxLen := 1 }) (show (-1 : Int) ≤ 1 by decide)
  · simp only
    split
    · exact h.nil
    · exact h.texts _

theorem asSequence (type : ContainerType) (hv : V v) : V (v.asSequence type) := by
  refine h.collect (h.ofBounds h.unknown h.nil _ _ _) (List.forall_mem_map.mpr ?_)
  rintro ⟨elem, least, most⟩ hpart
  obtain ⟨o, ho, hsome⟩ := List.mem_filterMap.mp hpart
  refine h.ofBounds ?_ h.nil _ _ _
  rcases o with as | ⟨_ | s | _⟩ | c | _ | _ | _ | _ <;> cases hsome <;> try exact h.unknown
  · exact h.chars s
  · obtain ⟨helem, hkey⟩ := h.contents hv ho
    show V (if c.type = .dict then c.key else c.elem)
    split
    · exact hkey
    · exact helem

theorem asDict (hv : V v) : V v.asDict := by
  refine h.collect (h.ofBounds h.nil h.nil _ _ _) (List.forall_mem_map.mpr fun o ho => ?_)
  unfold dictParts
  split
  · split
    · exact h.object hv ho
    · exact h.ofBounds h.unknown h.unknown _ _ _
  · exact h.ofBounds h.unknown h.unknown _ _ _

theorem sum (v : Value) : V v.sum := by
  refine h.collect h.anyInt fun w hw => ?_
  obtain ⟨o, -, hw⟩ := List.mem_flatMap.mp hw
  unfold sumParts at hw
  split at hw
  · split at hw
    · rw [List.mem_singleton.mp hw]
      exact h.numbers _ _
    · obtain ⟨x, -, rfl⟩ := List.mem_map.mp hw
      split
      · exact h.numeric_of_ordered _ (NumberSet.wellFormed_between _ _).ordered
      · exact h.anyInt
  · rw [List.mem_singleton.mp hw]
    exact h.anyInt

theorem isInstance (hierarchy : Hierarchy) (v cls : Value) : V (Builtin.isInstance hierarchy v cls) := by
  unfold Builtin.isInstance
  split
  · exact h.numbers _ _
  · split <;> exact h.numbers _ _

/-- Built-in functions make nothing new. -/
theorem builtin (hierarchy : Hierarchy) (b : Builtin) (hvs : ∀ v ∈ vs, V v) : V (b.apply hierarchy vs) := by
  have hempty : ∀ type, V (Builtin.emptyContainer type) := fun type => h.ofBounds h.nil h.nil _ _ _
  cases vs with
  | nil =>
    cases b with
    | len | sum => exact h.unknown
    | isinstance | int | bool => exact h.numbers _ _
    | str => exact h.texts _
    | list | tuple | set => exact hempty _
    | dict => exact h.dictOf (by simp) (by simp)
  | cons v rest =>
    have hv : V v := hvs v List.mem_cons_self
    cases b with
    | len => exact h.asLength v
    | isinstance =>
      cases rest with
      | nil => exact h.numbers _ _
      | cons cls rest => exact h.isInstance hierarchy v cls
    | int => exact h.asInt v
    | str => exact h.asString hv
    | bool => exact h.asBool v
    | list | tuple | set => exact h.asSequence _ hv
    | dict => exact h.asDict hv
    | sum => exact h.sum v

end Value.Closed

/-- A property of objects that merging and attributes leave alone, and that what is built in has. -/
structure Object.Stable (Q : Object → Prop) : Prop where
  unknown : ∀ as, Q (.unknown as)
  constant : ∀ {c : Constant}, c.WellFormed → Q (.constant c)
  container : ∀ c, Q (.container c)
  withAttrs : ∀ {o : Object}, Q o → ∀ as, Q (o.withAttrs as)
  withMethod : ∀ {c : Class Value}, Q (.classObject c) → ∀ name w, Q (.classObject (c.withMethod name w))
  mergeWith : ∀ {x y : Object}, Q x → Q y → x.key = y.key → Q (x.mergeWith Value.merge y)

namespace Value

/-- A value in canonical form whose objects have a property, at every depth. -/
def Comprises (Q : Object → Prop) (v : Value) : Prop := v.Everywhere fun v => v.Tidy ∧ ∀ o ∈ v, Q o

variable {Q : Object → Prop} {v w : Value} {o : Object}

theorem comprises_singleton : Comprises Q [o] ↔ o.Tidy ∧ Q o ∧ o.Inside (Comprises Q) := by
  rw [Comprises, everywhere_iff, and_assoc]
  refine and_congr ⟨fun h => h.objects o List.mem_cons_self, tidy_singleton⟩ ?_
  exact and_congr List.forall_mem_singleton List.forall_mem_singleton

theorem comprises_true : (Comprises fun _ => True) = Canonical := by
  funext v
  simp only [Comprises, Canonical, implies_true, and_true]

theorem Comprises.canonical (h : v.Comprises Q) : v.Canonical := by
  induction h with
  | intro here _ ih => exact ⟨here.1, ih⟩

theorem Comprises.object (h : v.Comprises Q) (ho : o ∈ v) : Comprises Q [o] := by
  obtain ⟨⟨htidy, hall⟩, hinside⟩ := everywhere_iff.mp h
  exact comprises_singleton.mpr ⟨htidy.objects o ho, hall o ho, hinside o ho⟩

/-- Putting an object in the place of one with the same key leaves the keys alone. -/
theorem Comprises.replace {old new : Object} (h : v.Comprises Q) (hnew : Comprises Q [new])
    (hkey : new.key = old.key) : (v.replace old new).Comprises Q := by
  obtain ⟨⟨htidy, hall⟩, hinside⟩ := everywhere_iff.mp h
  obtain ⟨hntidy, hnQ, hninside⟩ := comprises_singleton.mp hnew
  have hkeys : (v.map fun o => if o.key = old.key then new else o).map Object.key = v.map Object.key := by
    rw [List.map_map]
    refine List.map_congr_left fun o _ => ?_
    show (if o.key = old.key then new else o).key = o.key
    split
    · rename_i hold
      rw [hkey, hold]
    · rfl
  have hobjects : ∀ {q : Object → Prop}, (∀ o ∈ v, q o) → q new → ∀ o ∈ v.replace old new, q o := by
    intro q hv hq o ho
    obtain ⟨x, hx, rfl⟩ := List.mem_map.mp (mem_canonical.mp ho)
    split
    · exact hq
    · exact hv x hx
  have hsorted := (canonical_spec (hkeys ▸ nodup_keys htidy.sorted :
    ((v.map fun o => if o.key = old.key then new else o).map Object.key).Nodup)).1
  refine everywhere_iff.mpr ⟨⟨⟨hsorted, ?_, fun hunknown => ?_, hobjects htidy.objects hntidy⟩,
    hobjects hall hnQ⟩, hobjects hinside hninside⟩
  · rw [Value.replace, length_canonical, List.length_map]
    exact htidy.few
  · -- What is unknown in the result was unknown before, so it stood alone.
    have hbefore : v.hasUnknown = true := by
      obtain ⟨o, ho, hunknown⟩ := List.any_eq_true.mp hunknown
      obtain ⟨x, hx, rfl⟩ := List.mem_map.mp (mem_canonical.mp ho)
      refine List.any_eq_true.mpr ⟨x, hx, ?_⟩
      split at hunknown
      · rename_i hold
        exact Object.isUnknown_of_kind (Object.kind_of_key (hold.trans hkey.symm)) hunknown
      · exact hunknown
    obtain ⟨as, rfl⟩ := htidy.alone hbefore
    by_cases hold : (Object.unknown as).key = old.key
    · have hkind : new.kind = (Object.unknown as).kind := Object.kind_of_key (hkey.trans hold.symm)
      refine ⟨new.attrs, ?_⟩
      rcases new with as' | _ | _ | _ | _ | _ | ⟨_ | _ | _, _, _, _⟩ <;> try cases hkind
      simp [Value.replace, hold, Value.canonical, place, Object.attrs]
    · exact ⟨as, by simp [Value.replace, hold, Value.canonical, place]⟩

theorem Comprises.merge (hQ : Object.Stable Q) (hv : v.Comprises Q) (hw : w.Comprises Q) :
    (v.merge w).Comprises Q := by
  refine Everywhere.merge (fun {a b} ha hb => ⟨tidy_merge ha.1 hb.1, ?_⟩) hv hw
  rw [merge_eq]
  exact forall_mergeWith (fun x y hx hy hkey => hQ.mergeWith hx hy hkey) (fun _ _ => hQ.unknown _) ha.2 hb.2

theorem Comprises.joinObjects (hQ : Object.Stable Q) {x y : Object} (hx : Comprises Q [x])
    (hy : Comprises Q [y]) (hkey : x.key = y.key) : Comprises Q [x.mergeWith Value.merge y] := by
  obtain ⟨htidy, hxQ, hinside⟩ := comprises_singleton.mp hx
  obtain ⟨-, hyQ, hinside'⟩ := comprises_singleton.mp hy
  exact comprises_singleton.mpr ⟨Object.tidy_mergeWith htidy, hQ.mergeWith hxQ hyQ hkey,
    Object.inside_mergeWith (AgreeOn.refl (Comprises.merge hQ)) hinside hinside'⟩

theorem closed_comprises (hQ : Object.Stable Q) : Closed (Comprises Q) where
  nil := everywhere_nil ⟨canonical_nil.tidy, by simp⟩
  unknown := comprises_singleton.mpr ⟨Dict.sorted_nil, hQ.unknown _, Object.inside_unknown.mpr Dict.each_nil⟩
  constant hc := comprises_singleton.mpr ⟨hc.tidy, hQ.constant hc, Object.inside_constant _⟩
  container hc helem hkey :=
    comprises_singleton.mpr ⟨hc, hQ.container _, Object.inside_container.mpr ⟨helem, hkey⟩⟩
  merge ha hb := ha.merge hQ hb
  object hv ho := hv.object ho
  inner hv ho hw := (everywhere_iff.mp hv).2 _ ho _ hw
  replace hv hnew hkey := hv.replace hnew hkey
  withAttr {o w} ho hw name := by
    obtain ⟨htidy, hoQ, hinside⟩ := comprises_singleton.mp ho
    exact comprises_singleton.mpr ⟨Object.tidy_withAttrs htidy (Dict.sorted_insert _ _ htidy.attrs),
      hQ.withAttrs hoQ _, Object.inside_withAttrs hinside (hinside.attrs.insert hw)⟩
  withMethod {c w} hc hw name := by
    obtain ⟨htidy, hcQ, hinside⟩ := comprises_singleton.mp hc
    obtain ⟨hms, has⟩ := Object.inside_classObject.mp hinside
    exact comprises_singleton.mpr ⟨⟨Dict.sorted_insert _ _ htidy.1, htidy.2⟩, hQ.withMethod hcQ name w,
      Object.inside_classObject.mpr ⟨hms.insert hw, has⟩⟩
  joinFunctions {f g} hf hg hname := by
    have hkey : (Object.function f).key = (Object.function g).key := by rw [Object.key, Object.key, hname]
    have hjoined := hf.joinObjects hQ hg hkey
    rwa [Object.mergeWith, if_neg (not_not_intro hkey)] at hjoined
  joinClasses {c d} hc hd hname := by
    have hkey : (Object.classObject c).key = (Object.classObject d).key := by rw [Object.key, Object.key, hname]
    have hjoined := hc.joinObjects hQ hd hkey
    rwa [Object.mergeWith, if_neg (not_not_intro hkey)] at hjoined

end Value

/-- What built-in objects are about is of a kind. -/
structure Object.Subject.Common (P : Object.Subject → Prop) : Prop where
  unknown : P .unknown
  number : ∀ t, P (.number t)
  string : P .string
  none : P .none
  container : ∀ t, P (.container t)

theorem Object.stable_subject {P : Object.Subject → Prop} (hP : Object.Subject.Common P) :
    Object.Stable fun o => P o.subject where
  unknown _ := hP.unknown
  constant {c} _ := by
    cases c with
    | number t s => exact hP.number t
    | string s => exact hP.string
    | none => exact hP.none
  container _ := hP.container _
  withAttrs {o} ho as := by
    rw [Object.subject_withAttrs]
    exact ho
  withMethod hc _ _ := hc
  mergeWith hx _ hkey := by
    rw [Object.subject_mergeWith hkey]
    exact hx

namespace Value

/-- A value in canonical form whose objects are about things of a kind, at every depth. -/
def Consists (P : Object.Subject → Prop) (v : Value) : Prop :=
  v.Everywhere fun v => v.Tidy ∧ ∀ o ∈ v, P o.subject

variable {P : Object.Subject → Prop} {v : Value} {o : Object}

theorem consists_singleton : Consists P [o] ↔ o.Tidy ∧ P o.subject ∧ o.Inside (Consists P) := comprises_singleton

/-- An object without attributes consists of what it is about. -/
theorem consists_bare (htidy : o.Tidy) (hinner : o.inner = []) (hP : P o.subject) : Consists P [o] :=
  consists_singleton.mpr ⟨htidy, hP, by simp [Object.Inside, hinner]⟩

theorem consists_true : (Consists fun _ => True) = Canonical := comprises_true

theorem Consists.object (h : v.Consists P) (ho : o ∈ v) : Consists P [o] := Comprises.object h ho

theorem closed_consists (hP : Object.Subject.Common P) : Closed (Consists P) :=
  closed_comprises (Object.stable_subject hP)

end Value

end AbstractFlow
