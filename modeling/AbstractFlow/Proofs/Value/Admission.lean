import AbstractFlow.Proofs.Value.Canonical

/-! # What values admit

A value stands for the things that a location of a running program may hold: numbers and strings in the
sets of its constants, containers of a fitting size whose elements and keys are admitted in turn, whatever
has the key of one of its objects, and all things if something unknown is among its objects. A merge
stands for all that either value stands for, whatever it has to forget.
-/
namespace AbstractFlow

/-- What a location of a running program may hold; functions, classes, instances and what is external
are told by their keys. -/
inductive Thing where
  | number (type : NumericType) (x : Number)
  | string (s : ByteString)
  | none
  | container (type : ContainerType) (elems keys : List Thing)
  | entity (key : String)

/-- The numbers and strings of a constant's type that its set contains. -/
def Constant.Has : Constant → Thing → Prop
  | .number type s, .number type' x => type = type' ∧ s.contains x = true
  | .string s, .string x => s.contains x = true
  | .none, .none => True
  | _, _ => False

/-- The number of elements lies between the bounds. -/
def Container.Fits (c : Container Value) (n : Nat) : Prop := c.minSize ≤ n ∧ ∀ k, c.maxSize = some k → n ≤ k

/-- A value admits a thing. -/
inductive Value.Describes : Value → Thing → Prop where
  | unknown {v : Value} {x : Thing} (h : v.hasUnknown = true) : Describes v x
  | constant {v : Value} {c : Constant} {x : Thing} (h : .constant c ∈ v) (hx : c.Has x) : Describes v x
  | container {v : Value} {c : Container Value} {elems keys : List Thing} (h : .container c ∈ v)
      (hfits : c.Fits elems.length) (helems : ∀ x ∈ elems, Describes c.elem x)
      (hkeys : c.type = .dict → ∀ x ∈ keys, Describes c.key x) : Describes v (.container c.type elems keys)
  | entity {v : Value} {o : Object} (h : o ∈ v) : Describes v (.entity o.key)

theorem Constant.has_join {c d : Constant} {x : Thing} (htype : c.typeName = d.typeName) (hc : c.Tidy)
    (hd : d.Tidy) (h : c.Has x ∨ d.Has x) : (c.join d).Has x := by
  obtain ⟨t, s, s', rfl, rfl⟩ | ⟨s, s', rfl, rfl⟩ | ⟨rfl, rfl⟩ := shape_of_typeName htype
  · cases x with
    | number type x =>
      simp only [Has] at h
      refine ⟨h.elim And.left And.left, ?_⟩
      exact NumberSet.contains_join hc hd (h.imp And.right And.right)
    | _ => exact h.elim id id
  · cases x with
    | string x => exact StringSet.contains_join hc hd h
    | _ => exact h.elim id id
  · exact h.elim id id

theorem Container.fits_mergeWith {m : Value → Value → Value} {c d : Container Value} {n : Nat}
    (h : c.Fits n ∨ d.Fits n) : (c.mergeWith m d).Fits n := by
  have hmin : min c.minSize d.minSize ≤ n := by
    rcases h with h | h
    · exact (Nat.min_le_left _ _).trans h.1
    · exact (Nat.min_le_right _ _).trans h.1
  refine ⟨hmin, fun k hk => ?_⟩
  obtain ⟨l, hl, rfl⟩ := Option.map_eq_some_iff.mp hk
  refine Nat.le_trans ?_ (Nat.le_max_right _ _)
  simp only at hl
  cases hc : c.maxSize with
  | none => simp [looserSize, hc] at hl
  | some i =>
    cases hd : d.maxSize with
    | none => simp [looserSize, hc, hd] at hl
    | some j =>
      simp only [looserSize, hc, hd, Option.some.injEq] at hl
      rcases h with h | h
      · have := h.2 i hc
        omega
      · have := h.2 j hd
        omega

namespace Object

/-- What becomes of an object when a value is merged with its own, on either side. -/
def MergedInto (b : Value) (o o' : Object) : Prop :=
  o' = o ∨ ∃ y ∈ b, o.key = y.key ∧ (o' = o.mergeWith Value.merge y ∨ o' = y.mergeWith Value.merge o)

theorem MergedInto.key {b : Value} {o o' : Object} (h : MergedInto b o o') : o'.key = o.key := by
  rcases h with rfl | ⟨y, -, hkey, rfl | rfl⟩
  · rfl
  · exact key_mergeWith _ hkey
  · exact (key_mergeWith _ hkey.symm).trans hkey.symm

theorem MergedInto.constant {b : Value} {c : Constant} {o' : Object} (h : MergedInto b (.constant c) o') :
    o' = .constant c ∨ ∃ d, .constant d ∈ b ∧ c.typeName = d.typeName ∧
      (o' = .constant (c.join d) ∨ o' = .constant (d.join c)) := by
  rcases h with rfl | ⟨y, hy, hkey, hmerged⟩
  · exact Or.inl rfl
  · obtain ⟨d, rfl⟩ := exists_constant_of_kind (kind_of_key hkey).symm
    rw [mergeWith_constant _ hkey, mergeWith_constant _ hkey.symm] at hmerged
    exact Or.inr ⟨d, hy, key_constant_inj hkey, hmerged⟩

theorem MergedInto.container {b : Value} {c : Container Value} {o' : Object}
    (h : MergedInto b (.container c) o') :
    o' = .container c ∨ ∃ d, .container d ∈ b ∧ c.type = d.type ∧
      (o' = .container (c.mergeWith Value.merge d) ∨ o' = .container (d.mergeWith Value.merge c)) := by
  rcases h with rfl | ⟨y, hy, hkey, hmerged⟩
  · exact Or.inl rfl
  · obtain ⟨d, rfl⟩ := exists_container_of_kind (kind_of_key hkey).symm
    refine Or.inr ⟨d, hy, key_container_inj hkey, ?_⟩
    unfold mergeWith at hmerged
    rwa [if_neg (not_not_intro hkey), if_neg (not_not_intro hkey.symm)] at hmerged

end Object

namespace Value

variable {a b w : Value}

/-- All objects of a value are found in another, merged with an object of a third one or as they are,
unless the other is unknown. -/
def Absorbs (w a b : Value) : Prop := w.hasUnknown = true ∨ ∀ o ∈ a, ∃ o' ∈ w, Object.MergedInto b o o'

theorem absorbs_merge (ha : a.Tidy) (hb : b.Tidy) : Absorbs (a.merge b) a b ∧ Absorbs (a.merge b) b a := by
  cases hknown : (a.merge b).hasUnknown with
  | true => exact ⟨Or.inl hknown, Or.inl hknown⟩
  | false =>
    have hfind : ∀ k o, Dict.union (Object.mergeWith merge) (Dict.get? a.keyed k) (Dict.get? b.keyed k) = some o →
        o ∈ a.merge b := by
      intro k o ho
      rw [← Dict.get?_mergeWith _ k ha.sorted hb.sorted, ← keyed_merge_of_known ha hb hknown] at ho
      exact (mem_keyed.mp (Dict.mem_of_get? ho)).1
    refine ⟨Or.inr fun o ho => ?_, Or.inr fun o ho => ?_⟩
    · have hget := Dict.get?_of_mem ha.sorted (mem_keyed.mpr ⟨ho, rfl⟩)
      cases hother : Dict.get? b.keyed o.key with
      | none => exact ⟨o, hfind o.key o (by rw [hget, hother]; rfl), Or.inl rfl⟩
      | some y =>
        obtain ⟨hy, hkey⟩ := mem_keyed.mp (Dict.mem_of_get? hother)
        exact ⟨_, hfind o.key _ (by rw [hget, hother]; rfl), Or.inr ⟨y, hy, hkey.symm, Or.inl rfl⟩⟩
    · have hget := Dict.get?_of_mem hb.sorted (mem_keyed.mpr ⟨ho, rfl⟩)
      cases hother : Dict.get? a.keyed o.key with
      | none => exact ⟨o, hfind o.key o (by rw [hget, hother]; rfl), Or.inl rfl⟩
      | some y =>
        obtain ⟨hy, hkey⟩ := mem_keyed.mp (Dict.mem_of_get? hother)
        exact ⟨_, hfind o.key _ (by rw [hget, hother]; rfl), Or.inr ⟨y, hy, hkey.symm, Or.inr rfl⟩⟩

theorem Absorbs.constant {c : Constant} {x : Thing} (hw : Absorbs w a b) (ha : a.Canonical)
    (hb : b.Canonical) (hc : .constant c ∈ a) (hx : c.Has x) : w.Describes x := by
  rcases hw with hunknown | hobjects
  · exact .unknown hunknown
  · obtain ⟨o', ho', hmerged⟩ := hobjects _ hc
    rcases hmerged.constant with rfl | ⟨d, hd, htype, rfl | rfl⟩
    · exact .constant ho' hx
    · exact .constant ho' (Constant.has_join htype (ha.constant hc) (hb.constant hd) (Or.inl hx))
    · exact .constant ho' (Constant.has_join htype.symm (hb.constant hd) (ha.constant hc) (Or.inr hx))

theorem Absorbs.hasUnknown (hw : Absorbs w a b) (h : a.hasUnknown = true) : w.hasUnknown = true := by
  rcases hw with hunknown | hobjects
  · exact hunknown
  · obtain ⟨o, ho, hisUnknown⟩ := List.any_eq_true.mp h
    obtain ⟨o', ho', hmerged⟩ := hobjects o ho
    have hkind : o'.kind = o.kind := Object.kind_of_key hmerged.key
    exact List.any_eq_true.mpr ⟨o', ho', Object.isUnknown_of_kind hkind hisUnknown⟩

/-- What absorbs the objects of a value admits all that the value admits. -/
theorem Describes.absorbs {x : Thing} (h : a.Describes x) (ha : a.Canonical) (hb : b.Canonical)
    (hw : Absorbs w a b) : w.Describes x := by
  induction h generalizing b w with
  | unknown hunknown => exact .unknown (hw.hasUnknown hunknown)
  | constant hmem hx => exact hw.constant ha hb hmem hx
  | @container a c elems keys hmem hfits helems hkeys ihelems ihkeys =>
    obtain ⟨helem, hkey⟩ := ha.container hmem
    rcases hw with hunknown | hobjects
    · exact .unknown hunknown
    obtain ⟨o', ho', hmerged⟩ := hobjects _ hmem
    rcases hmerged.container with rfl | ⟨d, hd, htype, hmerge⟩
    · exact .container ho' hfits helems hkeys
    obtain ⟨helem', hkey'⟩ := hb.container hd
    -- The elements and keys are admitted by the merged ones, on whichever side the container stands.
    rcases hmerge with rfl | rfl
    · have hdescribes := Describes.container ho' (Container.fits_mergeWith (Or.inl hfits))
        (fun x hx => ihelems x hx helem helem' (absorbs_merge helem.tidy helem'.tidy).1)
        (fun hdict x hx => ihkeys hdict x hx hkey hkey' (absorbs_merge hkey.tidy hkey'.tidy).1)
      exact hdescribes
    · have hdescribes := Describes.container ho' (Container.fits_mergeWith (Or.inr hfits))
        (fun x hx => ihelems x hx helem helem' (absorbs_merge helem'.tidy helem.tidy).2)
        (fun hdict x hx => ihkeys (htype.trans hdict) x hx hkey hkey' (absorbs_merge hkey'.tidy hkey.tidy).2)
      rw [htype]
      exact hdescribes
  | @entity a o hmem =>
    rcases hw with hunknown | hobjects
    · exact .unknown hunknown
    · obtain ⟨o', ho', hmerged⟩ := hobjects o hmem
      rw [← hmerged.key]
      exact .entity ho'

/-- A merge admits all that either value admits, whatever limits it hits. -/
theorem merge_describes {x : Thing} (ha : a.Built) (hb : b.Built) (h : a.Describes x ∨ b.Describes x) :
    (a.merge b).Describes x := by
  obtain ⟨hleft, hright⟩ := absorbs_merge ha.canonical.tidy hb.canonical.tidy
  rcases h with h | h
  · exact h.absorbs ha.canonical hb.canonical hleft
  · exact h.absorbs hb.canonical ha.canonical hright

def oneNumber : Value := [.container (.ofElems .list [ints [1]])]

def twoTexts : Value := [.container (.ofElems .list [texts ["a"], texts ["b"]])]

theorem merge_describes_lists :
    oneNumber.Describes (.container .list [.number .int .one] []) ∧
      (oneNumber.merge twoTexts).Describes (.container .list [.number .int .one] []) := by
  have hnumber : oneNumber.Built := .container .list 1 1 (.merge .empty (.number .int _)) .empty
  have htexts : twoTexts.Built :=
    .container .list 2 2 (.merge (.merge .empty (.string _)) (.string _)) .empty
  have hone : (mergeAll [ints [1]]).Describes (.number .int .one) := by
    refine .constant (c := .number .int (.ofList [.ofInt 1])) ?_ ⟨rfl, by decide⟩
    exact (congrArg (Object.constant (.number .int (.ofList [.ofInt 1])) ∈ ·) (nil_merge _)).mpr
      (List.mem_singleton_self _)
  have hlist : oneNumber.Describes (.container .list [.number .int .one] []) :=
    .container (List.mem_singleton_self _) ⟨Nat.le_refl 1, fun k hk => (Option.some.inj hk).le⟩
      (List.forall_mem_singleton.mpr hone) (by simp)
  exact ⟨hlist, merge_describes hnumber htexts (Or.inl hlist)⟩

end Value

end AbstractFlow
