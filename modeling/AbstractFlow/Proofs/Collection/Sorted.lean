import AbstractFlow.Collection.Sorted
import Mathlib.Data.List.Sort

/-! # Laws of sorted sets

A strictly increasing list is determined by its members, and one that holds all members of another
and is not longer is that other list. Making a set of a list keeps its members and drops repetitions; sorting
a list keeps those too.
-/
namespace AbstractFlow.Sorted

theorem eq_of_subset {α : Type} {r : α → α → Prop} [Std.Asymm r] {as bs : List α}
    (has : as.Pairwise r) (hbs : bs.Pairwise r) (hsub : as ⊆ bs) (hlen : bs.length ≤ as.length) :
    bs = as := by
  have hsublist : as.Sublist bs :=
    List.sublist_of_subperm_of_pairwise (List.subperm_of_subset has.nodup hsub) has hbs
  exact (hsublist.eq_of_length_le hlen).symm

theorem ext_mem {α : Type} {r : α → α → Prop} [Std.Asymm r] {as bs : List α} (ha : as.Pairwise r)
    (hb : bs.Pairwise r) (h : ∀ x, x ∈ as ↔ x ∈ bs) : as = bs := by
  have hperm : as.Perm bs := (List.perm_ext_iff_of_nodup ha.nodup hb.nodup).mpr h
  exact hperm.eq_of_pairwise (fun a b _ _ hab hba => absurd hba (Std.Asymm.asymm a b hab)) ha hb

variable {α : Type} [LT α] [DecidableLT α] [DecidableEq α]

theorem mem_insert {a b : α} {as : List α} : b ∈ insert a as ↔ b = a ∨ b ∈ as := by
  induction as with
  | nil => simp [insert]
  | cons c rest ih =>
    unfold insert
    split
    · simp
    · split
      · rename_i hac
        simp [hac]
      · simp only [List.mem_cons, ih]
        exact or_left_comm

theorem mem_ofList {b : α} {as : List α} : b ∈ ofList as ↔ b ∈ as := by
  unfold ofList
  induction as with
  | nil => simp
  | cons a rest ih => simp [mem_insert, ih]

theorem mem_union {b : α} {as bs : List α} : b ∈ union as bs ↔ b ∈ as ∨ b ∈ bs := by
  rw [union, mem_ofList, List.mem_append]

theorem ofList_of_pairwise {as : List α} (h : as.Pairwise (· < ·)) : ofList as = as := by
  unfold ofList
  induction as with
  | nil => rfl
  | cons a rest ih =>
    obtain ⟨hlt, hrest⟩ := List.pairwise_cons.mp h
    rw [List.foldr_cons, ih hrest]
    cases rest with
    | nil => rfl
    | cons b rest => rw [insert, if_pos (hlt b List.mem_cons_self)]

omit [DecidableEq α] in
theorem perm_place (a : α) (as : List α) : (sort.place a as).Perm (a :: as) := by
  induction as with
  | nil => exact .refl _
  | cons b rest ih =>
    unfold sort.place
    split
    · exact (ih.cons b).trans (List.Perm.swap a b rest)
    · exact .refl _

omit [DecidableEq α] in
theorem perm_sort (as : List α) : (sort as).Perm as := by
  unfold sort
  induction as with
  | nil => exact .refl _
  | cons a rest ih => exact (perm_place a _).trans (ih.cons a)

variable [IsStrictTotalOrder α (· < ·)]

theorem pairwise_insert (a : α) {as : List α} (h : as.Pairwise (· < ·)) :
    (insert a as).Pairwise (· < ·) := by
  induction as with
  | nil => simp [insert]
  | cons b rest ih =>
    obtain ⟨hlt, hrest⟩ := List.pairwise_cons.mp h
    unfold insert
    split
    · rename_i hab
      refine List.pairwise_cons.mpr ⟨fun c hc => ?_, h⟩
      rcases List.mem_cons.mp hc with rfl | hc
      · exact hab
      · exact IsTrans.trans _ _ _ hab (hlt c hc)
    · split
      · exact h
      · rename_i hab hne
        refine List.pairwise_cons.mpr ⟨fun c hc => ?_, ih hrest⟩
        rcases mem_insert.mp hc with rfl | hc
        · rcases trichotomous_of (· < ·) c b with h | h | h
          · exact absurd h hab
          · exact absurd h hne
          · exact h
        · exact hlt c hc

theorem pairwise_ofList (as : List α) : (ofList as).Pairwise (· < ·) := by
  unfold ofList
  induction as with
  | nil => simp
  | cons a rest ih => exact pairwise_insert a ih

omit [DecidableEq α] in
theorem pairwise_place {a : α} {as : List α} (hnew : a ∉ as) (h : as.Pairwise (· < ·)) :
    (sort.place a as).Pairwise (· < ·) := by
  induction as with
  | nil => exact List.pairwise_singleton _ _
  | cons b rest ih =>
    obtain ⟨hlt, hrest⟩ := List.pairwise_cons.mp h
    obtain ⟨hne, hnew⟩ := not_or.mp (mt List.mem_cons.mpr hnew)
    unfold sort.place
    split
    · rename_i hba
      refine List.pairwise_cons.mpr ⟨fun c hc => ?_, ih hnew hrest⟩
      rcases List.mem_cons.mp ((perm_place a rest).mem_iff.mp hc) with rfl | hc
      · exact hba
      · exact hlt c hc
    · rename_i hba
      have hab : a < b := (trichotomous_of (· < ·) a b).resolve_right fun h => h.elim hne hba
      refine List.pairwise_cons.mpr ⟨fun c hc => ?_, h⟩
      rcases List.mem_cons.mp hc with rfl | hc
      · exact hab
      · exact IsTrans.trans _ _ _ hab (hlt c hc)

omit [DecidableEq α] in
/-- Without repetitions the order is strict. -/
theorem pairwise_sort {as : List α} (h : as.Nodup) : (sort as).Pairwise (· < ·) := by
  unfold sort
  induction as with
  | nil => exact .nil
  | cons a rest ih =>
    obtain ⟨hnew, hrest⟩ := List.nodup_cons.mp h
    exact pairwise_place (mt (perm_sort rest).mem_iff.mp hnew) (ih hrest)

section Repetitions

variable {α : Type} [LinearOrder α] [DecidableLT α]

theorem ordered_place {a : α} {as : List α} (h : as.Pairwise (· ≤ ·)) : (sort.place a as).Pairwise (· ≤ ·) := by
  induction as with
  | nil => exact List.pairwise_singleton _ _
  | cons b rest ih =>
    obtain ⟨hle, hrest⟩ := List.pairwise_cons.mp h
    unfold sort.place
    split
    · rename_i hba
      refine List.pairwise_cons.mpr ⟨fun c hc => ?_, ih hrest⟩
      rcases List.mem_cons.mp ((perm_place a rest).mem_iff.mp hc) with rfl | hc
      · exact hba.le
      · exact hle c hc
    · rename_i hba
      refine List.pairwise_cons.mpr ⟨fun c hc => ?_, h⟩
      rcases List.mem_cons.mp hc with rfl | hc
      · exact not_lt.mp hba
      · exact (not_lt.mp hba).trans (hle c hc)

/-- With repetitions the order is not strict. -/
theorem ordered_sort (as : List α) : (sort as).Pairwise (· ≤ ·) := by
  unfold sort
  induction as with
  | nil => exact .nil
  | cons a rest ih => exact ordered_place ih

end Repetitions

end AbstractFlow.Sorted
