import AbstractFlow.Proofs.Value.Concrete
import AbstractFlow.Proofs.Value.Joins
import Mathlib

/-! # Sets given by their members

As long as there are few of them, the set of listed numbers or strings depends only on which ones are
listed, its members are these, and joining two such sets is listing what both list. So a merge of single
constants is the value that lists them all.
-/
namespace AbstractFlow

namespace NumberSet

variable {xs ys : List Number} {x : Number}

theorem Sortable.left (h : Sortable (xs ++ ys)) : Sortable xs := fun x hx => h x (List.mem_append_left ys hx)

theorem Sortable.right (h : Sortable (xs ++ ys)) : Sortable ys := fun x hx => h x (List.mem_append_right xs hx)

theorem sortedNumbers_congr (hxs : Sortable xs) (hys : Sortable ys) (h : ∀ x, x ∈ xs ↔ x ∈ ys) :
    sortedNumbers xs = sortedNumbers ys :=
  unionOn.ext (plus_sortedNumbers hxs) (plus_sortedNumbers hys) fun x => by
    rw [mem_sortedNumbers hxs, mem_sortedNumbers hys, h]

theorem length_sortedNumbers (h : Sortable xs) : (sortedNumbers xs).length = xs.dedup.length := by
  refine List.Perm.length_eq ((List.perm_ext_iff_of_nodup ?_ xs.nodup_dedup).mpr fun x => ?_)
  · exact unionOn.nodup (plus_sortedNumbers h)
  · rw [mem_sortedNumbers h, List.mem_dedup]

theorem length_sortedNumbers_mono (hxs : Sortable xs) (hys : Sortable ys) (h : xs ⊆ ys) :
    (sortedNumbers xs).length ≤ (sortedNumbers ys).length := by
  refine (List.subperm_of_subset (unionOn.nodup (plus_sortedNumbers hxs)) fun x hx => ?_).length_le
  exact (mem_sortedNumbers hys).mpr (h ((mem_sortedNumbers hxs).mp hx))

theorem ofList_eq_spanned (xs : List Number) : ofList xs = spanned (sortedNumbers xs) .negInf .posInf :=
  normalize_eq_spanned rfl rfl fun _ _ hx => Number.key_between_infinities hx

theorem ofList_congr (hxs : Sortable xs) (hys : Sortable ys) (h : ∀ x, x ∈ xs ↔ x ∈ ys) :
    ofList xs = ofList ys := by
  rw [ofList_eq_spanned, ofList_eq_spanned, sortedNumbers_congr hxs hys h]

theorem exact_ofList (hfew : (sortedNumbers xs).length ≤ exactLimit) : (ofList xs).exact = sortedNumbers xs := by
  rw [ofList_eq_spanned]
  exact if_pos hfew

theorem exact_ofList_ne_nil (hxs : Sortable xs) (hne : xs ≠ []) (hfew : (sortedNumbers xs).length ≤ exactLimit) :
    (ofList xs).exact ≠ [] := by
  obtain ⟨x, hx⟩ := List.exists_mem_of_ne_nil xs hne
  rw [exact_ofList hfew]
  exact List.ne_nil_of_mem ((mem_sortedNumbers hxs).mpr hx)

theorem tidy_ofList (xs : List Number) : (ofList xs).Tidy := tidy_normalize _

theorem contains_ofList (hxs : Sortable xs) (hne : xs ≠ []) (hfew : (sortedNumbers xs).length ≤ exactLimit)
    (hx : x.isNaN = false) (hsign : x ≠ .negZero) : (ofList xs).contains x = true ↔ x ∈ xs := by
  rw [contains_of_exact (tidy_ofList xs) (exact_ofList_ne_nil hxs hne hfew) hx, exact_ofList hfew]
  constructor
  · rintro ⟨y, hy, hkey⟩
    have hy := (mem_sortedNumbers hxs).mp hy
    exact Number.eq_of_key_eq (hxs y hy).2 hsign hkey ▸ hy
  · exact fun h => ⟨x, (mem_sortedNumbers hxs).mpr h, rfl⟩

theorem spanned_congr (h : xs ≠ []) (lower upper lower' upper' : Number) :
    spanned xs lower upper = spanned xs lower' upper' := by
  obtain ⟨x, rest, rfl⟩ := List.exists_cons_of_ne_nil h
  rfl

/-- To join two lists is to list both. -/
theorem join_ofList (h : Sortable (xs ++ ys)) (hxs : xs ≠ []) (hys : ys ≠ [])
    (hfew : (sortedNumbers (xs ++ ys)).length ≤ exactLimit) :
    (ofList xs).join (ofList ys) = ofList (xs ++ ys) := by
  have hfewx := (length_sortedNumbers_mono h.left h (List.subset_append_left xs ys)).trans hfew
  have hfewy := (length_sortedNumbers_mono h.right h (List.subset_append_right xs ys)).trans hfew
  have hplus := unionOn.closed (plus_sortedNumbers h.left) (plus_sortedNumbers h.right)
  have hsorted : sortedNumbers (sortedNumbers xs ++ sortedNumbers ys) = sortedNumbers (xs ++ ys) :=
    unionOn.ext hplus (plus_sortedNumbers h) fun x => by
      rw [unionOn.mem (plus_sortedNumbers h.left) (plus_sortedNumbers h.right), mem_sortedNumbers h.left,
        mem_sortedNumbers h.right, mem_sortedNumbers h, List.mem_append]
  have hne : sortedNumbers (xs ++ ys) ≠ [] := by
    have := exact_ofList_ne_nil h (List.append_ne_nil_of_left_ne_nil hxs ys) hfew
    rwa [exact_ofList hfew] at this
  rw [join_of_exact (tidy_ofList xs) (tidy_ofList ys) (exact_ofList_ne_nil h.left hxs hfewx)
    (exact_ofList_ne_nil h.right hys hfewy), exact_ofList hfewx, exact_ofList hfewy, hsorted,
    ofList_eq_spanned (xs ++ ys)]
  exact spanned_congr hne _ _ _ _

end NumberSet

namespace StringSet

variable {ss ts : List ByteString}

theorem ofList_eq_exactly (hne : ss ≠ []) (hfew : (Sorted.ofList ss).length ≤ exactLimit) :
    ofList ss = exactly (Sorted.ofList ss) := by
  obtain ⟨s, hs⟩ := List.exists_mem_of_ne_nil ss hne
  exact normalize_of_few (List.ne_nil_of_mem (Sorted.mem_ofList.mpr hs)) hfew

theorem length_ofList_le (ss : List ByteString) : (Sorted.ofList ss).length ≤ ss.length :=
  (List.subperm_of_subset (Sorted.pairwise_ofList ss).nodup fun _ => Sorted.mem_ofList.mp).length_le

theorem length_ofList_mono (h : ss ⊆ ts) : (Sorted.ofList ss).length ≤ (Sorted.ofList ts).length := by
  refine (List.subperm_of_subset (Sorted.pairwise_ofList ss).nodup fun s hs => ?_).length_le
  exact Sorted.mem_ofList.mpr (h (Sorted.mem_ofList.mp hs))

theorem exact_ofList_ne_nil (hne : ss ≠ []) (hfew : (Sorted.ofList ss).length ≤ exactLimit) :
    (ofList ss).exact ≠ [] := by
  obtain ⟨s, hs⟩ := List.exists_mem_of_ne_nil ss hne
  rw [ofList_eq_exactly hne hfew]
  exact List.ne_nil_of_mem (Sorted.mem_ofList.mpr hs)

theorem join_ofList (hss : ss ≠ []) (hts : ts ≠ []) (hfew : (Sorted.ofList (ss ++ ts)).length ≤ exactLimit) :
    (ofList ss).join (ofList ts) = ofList (ss ++ ts) := by
  have hfews := (length_ofList_mono (List.subset_append_left ss ts)).trans hfew
  have hfewt := (length_ofList_mono (List.subset_append_right ss ts)).trans hfew
  have hunion : Sorted.union (Sorted.ofList ss) (Sorted.ofList ts) = Sorted.ofList (ss ++ ts) :=
    Sorted.ext_mem (Sorted.pairwise_ofList _) (Sorted.pairwise_ofList _) fun s => by
      rw [Sorted.mem_union, Sorted.mem_ofList, Sorted.mem_ofList, Sorted.mem_ofList, List.mem_append]
  have hexacts : (ofList ss).exact = Sorted.ofList ss := by rw [ofList_eq_exactly hss hfews, exactly]
  have hexactt : (ofList ts).exact = Sorted.ofList ts := by rw [ofList_eq_exactly hts hfewt, exactly]
  rw [ofList_eq_exactly (List.append_ne_nil_of_left_ne_nil hss ts) hfew,
    join_of_exact (exact_ofList_ne_nil hss hfews) (exact_ofList_ne_nil hts hfewt)] <;>
    rw [hexacts, hexactt, hunion]
  exact hfew

end StringSet

namespace Value

theorem merge_constants {c d : Constant} (h : c.typeName = d.typeName) :
    merge [.constant c] [.constant d] = [.constant (c.join d)] := by
  have hkey : (Object.constant c).key = (Object.constant d).key := congrArg ("const:" ++ ·) h
  have hobjs : List.foldl (absorbWith merge) [.constant c] [.constant d] = [.constant (c.join d)] := by
    simp only [List.foldl_cons, List.foldl_nil, absorbWith, hkey, List.all_nil, and_self, ↓reduceIte,
      Object.mergeWith_constant merge hkey]
  rw [merge_eq, mergeWith]
  simp only [hobjs]
  rfl

theorem merge_numbers (type : NumericType) (s t : NumberSet) :
    merge [.constant (.number type s)] [.constant (.number type t)] = [.constant (.number type (s.join t))] :=
  merge_constants (c := .number type s) (d := .number type t) rfl

theorem merge_strings (s t : StringSet) :
    merge [.constant (.string s)] [.constant (.string t)] = [.constant (.string (s.join t))] :=
  merge_constants (c := .string s) (d := .string t) rfl

/-- What single items merge into, if joining an item adds it to those before. -/
theorem mergeAll_map {α : Type} {f : α → Value} {g : List α → Value} {as : List α} (hne : as ≠ [])
    (hone : ∀ a, g [a] = f a)
    (hstep : ∀ bs b, bs ≠ [] → bs ++ [b] <+: as → (g bs).merge (f b) = g (bs ++ [b])) :
    mergeAll (as.map f) = g as := by
  induction as using List.reverseRecOn with
  | nil => exact absurd rfl hne
  | append_singleton bs b ih =>
    have hlast : mergeAll ((bs ++ [b]).map f) = (mergeAll (bs.map f)).merge (f b) := by
      simp [mergeAll, List.foldl_append]
    rw [hlast]
    by_cases hbs : bs = []
    · subst hbs
      exact (nil_merge (f b)).trans (hone b).symm
    · rw [ih hbs fun cs c hcs hinitial => hstep cs c hcs (hinitial.trans (List.prefix_append bs [b]))]
      exact hstep bs b hbs (List.prefix_refl _)

theorem mergeAll_ints {ns : List Int} (hne : ns ≠ []) (hns : NumberSet.Sortable (ns.map Number.ofInt))
    (hfew : (NumberSet.sortedNumbers (ns.map Number.ofInt)).length ≤ exactLimit) :
    mergeAll (ns.map fun n => ints [n]) = ints ns := by
  refine mergeAll_map hne (fun _ => rfl) fun bs b hbs hinitial => ?_
  have hsub : (bs ++ [b]).map Number.ofInt ⊆ ns.map Number.ofInt := List.map_subset _ hinitial.subset
  have hbs' : NumberSet.Sortable ((bs ++ [b]).map Number.ofInt) := fun x hx => hns x (hsub hx)
  have hfew' := (NumberSet.length_sortedNumbers_mono hbs' hns hsub).trans hfew
  rw [List.map_append] at hbs' hfew'
  have hjoin := NumberSet.join_ofList hbs' (by simpa using hbs) (by simp) hfew'
  rw [← List.map_append] at hjoin
  unfold ints
  rw [merge_numbers, hjoin]

theorem mergeAll_texts {ts : List String} (hne : ts ≠ [])
    (hfew : (Sorted.ofList (ts.map ByteString.ofString)).length ≤ exactLimit) :
    mergeAll (ts.map fun t => texts [t]) = texts ts := by
  refine mergeAll_map hne (fun _ => rfl) fun bs b hbs hinitial => ?_
  have hsub : (bs ++ [b]).map ByteString.ofString ⊆ ts.map ByteString.ofString := List.map_subset _ hinitial.subset
  have hfew' := (StringSet.length_ofList_mono hsub).trans hfew
  rw [List.map_append] at hfew'
  have hjoin := StringSet.join_ofList (by simpa using hbs) (by simp) hfew'
  rw [← List.map_append] at hjoin
  unfold texts strings
  rw [merge_strings, hjoin]

end Value

end AbstractFlow
