import AbstractFlow.Proofs.Value.Admission
import AbstractFlow.Proofs.Value.Composition
import AbstractFlow.Proofs.Value.Narrowing

/-! # More possibilities, fewer answers

A merge is wider than either of its sides, object by object, and questions about wider values are answered
as about the narrower ones or not at all. So the discovery that a location may hold more values can take a
definite answer back, but neither turn it round nor bring one about.
-/
namespace AbstractFlow

open Verdict

namespace Constant

inductive Narrows : Constant → Constant → Prop where
  | number (type : NumericType) {s s' : NumberSet} (h : s.Narrows s') : Narrows (.number type s) (.number type s')
  | string {s s' : StringSet} (h : s.Narrows s') : Narrows (.string s) (.string s')
  | none : Narrows .none .none

variable {c c' d d' : Constant}

theorem narrows_refl (c : Constant) : c.Narrows c := by
  cases c with
  | number type s => exact .number type (NumberSet.narrows_refl s)
  | string s => exact .string (StringSet.narrows_refl s)
  | none => exact .none

theorem narrows_join (htype : c.typeName = d.typeName) (hc : c.WellFormed) (hd : d.WellFormed) :
    c.Narrows (c.join d) ∧ d.Narrows (c.join d) := by
  obtain ⟨t, s, s', rfl, rfl⟩ | ⟨s, s', rfl, rfl⟩ | ⟨rfl, rfl⟩ := shape_of_typeName htype
  · have h := NumberSet.narrows_join hc hd
    exact ⟨.number t h.1, .number t h.2⟩
  · have h := StringSet.narrows_join hc.toTidy hd.toTidy
    exact ⟨.string h.1, .string h.2⟩
  · exact ⟨.none, .none⟩

theorem blurs_truth (h : c.Narrows c') (hc : c.WellFormed) (hc' : c'.WellFormed) :
    (Object.constant c').truth.Blurs (Object.constant c).truth := by
  cases h with
  | number type h => exact NumberSet.blurs_truth h hc hc'
  | string h => exact StringSet.blurs_truth h hc.toTidy
  | none => exact blurs_refl _

theorem blurs_compare (op : Comparator) (h : c.Narrows c') (hc : c.WellFormed) (hc' : c'.WellFormed)
    (h' : d.Narrows d') (hd : d.WellFormed) (hd' : d'.WellFormed) :
    (c'.compare op d').Blurs (c.compare op d) := by
  cases h with
  | number type h =>
    cases h' with
    | number type' h' =>
      rw [compare_numbers, compare_numbers]
      exact NumberSet.blurs_compare h hc hc' h' hd hd' op
    | _ => cases op <;> exact blurs_refl _
  | string h =>
    cases h' with
    | string h' =>
      rw [compare_strings, compare_strings]
      exact StringSet.blurs_compare h hc.toTidy h' hd.toTidy op
    | _ => cases op <;> exact blurs_refl _
  | none => cases h' <;> cases op <;> exact blurs_refl _

end Constant

namespace Object

inductive Narrows : Object → Object → Prop where
  | constant {c c' : Constant} (h : c.Narrows c') (hc : c.WellFormed) (hc' : c'.WellFormed) :
      Narrows (.constant c) (.constant c')
  | container {c c' : Container Value} (h : ∀ n, c.Fits n → c'.Fits n) (hc : c.Tidy) :
      Narrows (.container c) (.container c')
  | other {o o' : Object} (h : o'.kind = o.kind) (hconstant : o.kind ≠ .constant)
      (hcontainer : o.kind ≠ .container) : Narrows o o'

variable {o o' p p' : Object} {b : Value}

theorem blurs_truth_container {c c' : Container Value} (h : ∀ n, c.Fits n → c'.Fits n) (hc : c.Tidy) :
    (Object.container c').truth.Blurs (Object.container c).truth := by
  have hleast : c.Fits c.minSize := ⟨Nat.le_refl _, hc.sizes⟩
  obtain ⟨hmin, hmax⟩ := h _ hleast
  simp only [truth]
  split
  · rw [if_pos (by omega)]
    exact blurs_refl _
  split
  · rename_i hempty
    have hzero := hmax 0 hempty
    have hmost : c.maxSize = some 0 := by
      cases hsize : c.maxSize with
      | none =>
        have hone := (h 1 ⟨by omega, by simp [hsize]⟩).2 0 hempty
        omega
      | some n =>
        have hn := (h n ⟨hc.sizes n hsize, fun k hk => by rw [hsize] at hk; exact (Option.some.inj hk).le⟩).2 0 hempty
        rw [Nat.le_zero.mp hn]
    rw [if_neg (by omega), if_pos hmost]
    exact blurs_refl _
  · exact blurs_maybe

/-- The truth of what is neither constant nor container is known by its kind. -/
theorem truth_of_kind (h : o'.kind = o.kind) (hconstant : o.kind ≠ .constant) (hcontainer : o.kind ≠ .container) :
    o.truth = o'.truth := by
  have hkind : ∀ o : Object, o.kind ≠ .constant → o.kind ≠ .container → o.truth =
      if o.kind ∈ [.function, .classObject, .externalFunction, .externalClass] then .yes else .maybe := by
    intro o hconstant hcontainer
    cases o with
    | constant => exact absurd rfl hconstant
    | container => exact absurd rfl hcontainer
    | external e =>
      obtain ⟨kind, module, name, attrs⟩ := e
      cases kind <;> rfl
    | _ => rfl
  rw [hkind o hconstant hcontainer, hkind o' (h ▸ hconstant) (h ▸ hcontainer), h]

theorem blurs_truth (h : o.Narrows o') : o'.truth.Blurs o.truth := by
  cases h with
  | constant h hc hc' => exact Constant.blurs_truth h hc hc'
  | container h hc => exact blurs_truth_container h hc
  | other h hconstant hcontainer => exact blurs_of_eq (truth_of_kind h hconstant hcontainer)

theorem compare_eq_maybe (op : Comparator) (h : o.kind ≠ .constant ∨ p.kind ≠ .constant) :
    o.compare op p = .maybe := by
  cases o with
  | constant c =>
    cases p with
    | constant d => exact absurd rfl (h.resolve_left (not_not_intro rfl))
    | _ => rfl
  | _ => rfl

theorem blurs_compare (op : Comparator) (h : o.Narrows o') (h' : p.Narrows p') :
    (o'.compare op p').Blurs (o.compare op p) := by
  cases h with
  | constant h hc hc' =>
    cases h' with
    | constant h' hd hd' => exact Constant.blurs_compare op h hc hc' h' hd hd'
    | container => exact blurs_maybe
    | other h' hconstant _ => exact Or.inl (compare_eq_maybe op (Or.inr (h' ▸ hconstant)))
  | container => exact blurs_maybe
  | other h hconstant _ => exact Or.inl (compare_eq_maybe op (Or.inl (h ▸ hconstant)))

/-- Merging makes objects wider. -/
theorem MergedInto.narrows (h : MergedInto b o o') (ho : Value.WellFormed [o]) (hb : b.WellFormed) :
    o.Narrows o' := by
  obtain ⟨htidy, hproper, -⟩ := Value.comprises_singleton.mp ho
  by_cases hconstant : o.kind = .constant
  · obtain ⟨c, rfl⟩ := exists_constant_of_kind hconstant
    rcases h.constant with rfl | ⟨d, hd, htype, rfl | rfl⟩
    · exact .constant (Constant.narrows_refl c) hproper hproper
    · have hd : d.WellFormed := (Value.comprises_singleton.mp (hb.object hd)).2.1
      exact .constant (Constant.narrows_join htype hproper hd).1 hproper (Constant.wellFormed_join hproper)
    · have hd : d.WellFormed := (Value.comprises_singleton.mp (hb.object hd)).2.1
      exact .constant (Constant.narrows_join htype.symm hd hproper).2 hproper (Constant.wellFormed_join hd)
  · by_cases hcontainer : o.kind = .container
    · obtain ⟨c, rfl⟩ := exists_container_of_kind hcontainer
      rcases h.container with rfl | ⟨d, -, -, rfl | rfl⟩
      · exact .container (fun _ hn => hn) htidy
      · exact .container (fun _ hn => Container.fits_mergeWith (Or.inl hn)) htidy
      · exact .container (fun _ hn => Container.fits_mergeWith (Or.inr hn)) htidy
    · exact .other (kind_of_key h.key) hconstant hcontainer

theorem narrows_refl (h : Value.WellFormed [o]) : o.Narrows o :=
  MergedInto.narrows (Or.inl rfl) h Value.closed_wellFormed.nil

end Object

namespace Value

variable {a a' b b' c : Value}

/-- Every object is found in the wider value, or a wider one, or what is unknown. -/
def Narrows (a a' : Value) : Prop := a'.hasUnknown = true ∨ ∀ o ∈ a, ∃ o' ∈ a', o.Narrows o'

theorem narrows_refl (h : a.WellFormed) : a.Narrows a :=
  Or.inr fun o ho => ⟨o, ho, Object.narrows_refl (h.object ho)⟩

theorem narrows_merge (ha : a.WellFormed) (hc : c.WellFormed) : a.Narrows (a.merge c) := by
  rcases (absorbs_merge ha.canonical.tidy hc.canonical.tidy).1 with hunknown | hobjects
  · exact Or.inl hunknown
  · refine Or.inr fun o ho => ?_
    obtain ⟨o', ho', hmerged⟩ := hobjects o ho
    exact ⟨o', ho', hmerged.narrows (ha.object ho) hc⟩

theorem Narrows.ne_nil (h : a.Narrows a') (hne : a ≠ []) : a' ≠ [] := by
  rcases h with hunknown | hobjects
  · rintro rfl
    cases hunknown
  · obtain ⟨o, ho⟩ := List.exists_mem_of_ne_nil a hne
    obtain ⟨o', ho', -⟩ := hobjects o ho
    exact List.ne_nil_of_mem ho'

theorem blurs_truth (h : a.Narrows a') (hne : a ≠ []) : a'.truth.Blurs a.truth := by
  apply blurs_unanimous (by simpa using hne)
  intro w hw
  obtain ⟨o, ho, rfl⟩ := List.mem_map.mp hw
  rcases h with hunknown | hobjects
  · obtain ⟨o', ho', as, rfl⟩ := exists_unknown hunknown
    exact ⟨_, List.mem_map_of_mem ho', blurs_maybe⟩
  · obtain ⟨o', ho', hnarrows⟩ := hobjects o ho
    exact ⟨_, List.mem_map_of_mem ho', Object.blurs_truth hnarrows⟩

theorem blurs_compareBy (op : Comparator) (h : a.Narrows a') (h' : b.Narrows b') (hne : a ≠ []) (hne' : b ≠ []) :
    (compareBy op a' b').Blurs (compareBy op a b) := by
  have hpair : ∀ x ∈ a', ∀ y ∈ b', x.compare op y ∈ a'.flatMap fun x => b'.map fun y => x.compare op y :=
    fun x hx y hy => List.mem_flatMap.mpr ⟨x, hx, List.mem_map_of_mem hy⟩
  obtain ⟨o, ho⟩ := List.exists_mem_of_ne_nil a hne
  obtain ⟨p, hp⟩ := List.exists_mem_of_ne_nil b hne'
  apply blurs_unanimous (List.ne_nil_of_mem (List.mem_flatMap.mpr ⟨o, ho, List.mem_map_of_mem hp⟩))
  intro w hw
  obtain ⟨x, hx, hw⟩ := List.mem_flatMap.mp hw
  obtain ⟨y, hy, rfl⟩ := List.mem_map.mp hw
  obtain ⟨p', hp'⟩ := List.exists_mem_of_ne_nil b' (h'.ne_nil hne')
  rcases h with hunknown | hobjects
  · obtain ⟨x', hx', as, rfl⟩ := exists_unknown hunknown
    exact ⟨_, hpair _ hx' p' hp', blurs_maybe⟩
  obtain ⟨x', hx', hnarrows⟩ := hobjects x hx
  rcases h' with hunknown | hobjects'
  · obtain ⟨y', hy', as, rfl⟩ := exists_unknown hunknown
    exact ⟨_, hpair x' hx' _ hy', Or.inl (Object.compare_eq_maybe op (Or.inr (by simp [Object.kind])))⟩
  · obtain ⟨y', hy', hnarrows'⟩ := hobjects' y hy
    exact ⟨_, hpair x' hx' y' hy', Object.blurs_compare op hnarrows hnarrows'⟩

theorem blurs_compare (op : String) (h : a.Narrows a') (h' : b.Narrows b') (hne : a ≠ []) (hne' : b ≠ []) :
    (compare op a' b').Blurs (compare op a b) := by
  unfold compare
  split
  · exact blurs_compareBy _ h h' hne hne'
  · exact blurs_maybe

/-- A definite answer about a merge is the answer about what was merged, whichever side of the comparison
the merge stands on. -/
theorem definite_before_merge (ha : a.WellFormed) (hb : b.WellFormed) (hc : c.WellFormed) (hane : a ≠ [])
    (hbne : b ≠ []) (op : String) :
    ((compare op (a.merge c) b).isDefinite = true → compare op a b = compare op (a.merge c) b) ∧
      ((compare op b (a.merge c)).isDefinite = true → compare op b a = compare op b (a.merge c)) ∧
      ((a.merge c).truth.isDefinite = true → a.truth = (a.merge c).truth) := by
  have hmerge := narrows_merge ha hc
  have hrefl := narrows_refl hb
  exact ⟨(blurs_compare op hmerge hrefl hane hbne).eq, (blurs_compare op hrefl hmerge hbne hane).eq,
    (blurs_truth hmerge hane).eq⟩

theorem definite_before_merge_range :
    let a := ints [1, 2]
    let b := ints [10]
    let merged := a.merge (intRange .negInf .one)
    (compare "<" merged b = .yes ∧ compare "<" a b = .yes) ∧
      (compare "<=" b merged = .no ∧ compare "<=" b a = .no) ∧ (b.merge a).truth = .yes ∧ b.truth = .yes := by
  intro a b merged
  have hnumbers : ∀ xs, WellFormed (ints xs) := fun xs => closed_wellFormed.numbers _ _
  have hrange : WellFormed (intRange .negInf .one) := closed_wellFormed.range _ _ _
  have hne : ∀ xs, ints xs ≠ [] := fun xs => List.cons_ne_nil _ _
  have hless : compare "<" merged b = .yes := by decide +kernel
  have hmost : compare "<=" b merged = .no := by decide +kernel
  have htruth : (b.merge a).truth = .yes := by decide +kernel
  refine ⟨⟨hless, ?_⟩, ⟨hmost, ?_⟩, htruth, ?_⟩
  · have h := definite_before_merge (hnumbers [1, 2]) (hnumbers [10]) hrange (hne _) (hne _) "<"
    exact (h.1 (by rw [hless]; rfl)).trans hless
  · have h := definite_before_merge (hnumbers [1, 2]) (hnumbers [10]) hrange (hne _) (hne _) "<="
    exact (h.2.1 (by rw [hmost]; rfl)).trans hmost
  · have h := definite_before_merge (hnumbers [10]) (hnumbers [10]) (hnumbers [1, 2]) (hne _) (hne _) "<"
    exact (h.2.2 (by rw [htruth]; rfl)).trans htruth

end Value

end AbstractFlow
