import AbstractFlow.Collection.Dict
import Mathlib.Data.String.Basic

/-! # Laws of dictionaries

Dictionaries whose names increase strictly are determined by what is found in them. Every way of
building a dictionary keeps that order and acts on each name by itself, so two dictionaries are
compared name by name.
-/
namespace AbstractFlow.Dict

variable {α : Type}

/-- Names increase strictly, so that every name stands once. -/
def Sorted (d : Dict α) : Prop := d.Pairwise fun e f => e.1 < f.1

@[simp] theorem sorted_nil : Sorted ([] : Dict α) := List.Pairwise.nil

/-- What a name is bound to after a value has been joined into its binding. -/
def joined (f : α → α → α) (v : α) : Option α → α
  | some w => f w v
  | none => v

theorem nodup {d : Dict α} (hd : Sorted d) : d.Nodup := by
  refine List.Pairwise.imp ?_ hd
  rintro e _ hlt rfl
  exact lt_irrefl _ hlt

theorem get?_eq_none_of_lt {d : Dict α} {name : String} (h : ∀ e ∈ d, name < e.1) :
    get? d name = none := by
  induction d with
  | nil => rfl
  | cons e rest ih =>
    have he : e.1 ≠ name := (h e List.mem_cons_self).ne'
    have hrest := ih fun x hx => h x (List.mem_cons_of_mem _ hx)
    simp [get?, he, hrest]

theorem mem_of_get? {d : Dict α} {name : String} {v : α} (h : get? d name = some v) :
    (name, v) ∈ d := by
  induction d with
  | nil => simp [get?] at h
  | cons e rest ih =>
    obtain ⟨n, w⟩ := e
    by_cases hn : n = name
    · subst hn
      simp only [get?, ↓reduceIte, Option.some.injEq] at h
      exact h ▸ List.mem_cons_self
    · simp only [get?, if_neg hn] at h
      exact List.mem_cons_of_mem _ (ih h)

theorem get?_of_mem {d : Dict α} (hd : Sorted d) {name : String} {v : α} (h : (name, v) ∈ d) :
    get? d name = some v := by
  induction d with
  | nil => simp at h
  | cons e rest ih =>
    obtain ⟨hlt, hrest⟩ := List.pairwise_cons.mp hd
    rcases List.mem_cons.mp h with rfl | h
    · simp [get?]
    · have hne : e.1 ≠ name := (hlt _ h).ne
      simp [get?, hne, ih hrest h]

theorem mem_insertWith {f : α → α → α} {name : String} {v : α} {d : Dict α} {e : String × α}
    (h : e ∈ insertWith f name v d) : e ∈ d ∨ e.1 = name := by
  induction d with
  | nil =>
    simp only [insertWith, List.mem_singleton] at h
    exact Or.inr (congrArg Prod.fst h)
  | cons x rest ih =>
    obtain ⟨n, w⟩ := x
    unfold insertWith at h
    split at h
    · rcases List.mem_cons.mp h with rfl | h
      · exact Or.inr rfl
      · exact Or.inl h
    · split at h
      · rename_i hn
        rcases List.mem_cons.mp h with rfl | h
        · exact Or.inr hn.symm
        · exact Or.inl (List.mem_cons_of_mem _ h)
      · rcases List.mem_cons.mp h with rfl | h
        · exact Or.inl List.mem_cons_self
        · exact (ih h).imp_left (List.mem_cons_of_mem _)

theorem sorted_insertWith (f : α → α → α) (name : String) (v : α) {d : Dict α} (hd : Sorted d) :
    Sorted (insertWith f name v d) := by
  induction d with
  | nil => simp [insertWith, Sorted]
  | cons x rest ih =>
    obtain ⟨n, w⟩ := x
    obtain ⟨hlt, hrest⟩ := List.pairwise_cons.mp hd
    unfold insertWith
    split
    · rename_i hn
      refine List.pairwise_cons.mpr ⟨?_, hd⟩
      intro e he
      rcases List.mem_cons.mp he with rfl | he
      · exact hn
      · exact hn.trans (hlt e he)
    · split
      · exact List.pairwise_cons.mpr ⟨hlt, hrest⟩
      · rename_i hn hne
        refine List.pairwise_cons.mpr ⟨?_, ih hrest⟩
        intro e he
        rcases mem_insertWith he with he | he
        · exact hlt e he
        · exact he ▸ lt_of_le_of_ne (not_lt.mp hn) (Ne.symm hne)

theorem get?_insertWith (f : α → α → α) (name key : String) (v : α) {d : Dict α} (hd : Sorted d) :
    get? (insertWith f name v d) key =
      if key = name then some (joined f v (get? d name)) else get? d key := by
  -- As the insertion goes: before the entry, at it, or behind it.
  induction d with
  | nil =>
    by_cases hk : key = name
    · simp [insertWith, get?, joined, hk]
    · simp [insertWith, get?, hk, Ne.symm hk]
  | cons x rest ih =>
    obtain ⟨n, w⟩ := x
    obtain ⟨hlt, hrest⟩ := List.pairwise_cons.mp hd
    unfold insertWith
    split
    · rename_i hn
      have hnone : get? ((n, w) :: rest) name = none := by
        refine get?_eq_none_of_lt fun e he => ?_
        rcases List.mem_cons.mp he with rfl | he
        · exact hn
        · exact hn.trans (hlt e he)
      rw [hnone]
      by_cases hk : key = name
      · simp [get?, hk, joined]
      · simp [get?, hk, Ne.symm hk]
    · split
      · rename_i hn
        subst hn
        by_cases hk : key = name
        · simp [get?, hk, joined]
        · simp [get?, hk, Ne.symm hk]
      · rename_i hne
        by_cases hk : key = n
        · subst hk
          simp [get?, Ne.symm hne]
        · simp only [get?, Ne.symm hk, ↓reduceIte, ih hrest, Ne.symm hne]

theorem sorted_insert (name : String) (v : α) {d : Dict α} (hd : Sorted d) :
    Sorted (d.insert name v) := sorted_insertWith _ name v hd

/-- Entering a binding needs no order: it stands before every other binding of its name. -/
@[simp] theorem get?_insert (name key : String) (v : α) (d : Dict α) :
    get? (d.insert name v) key = if key = name then some v else get? d key := by
  unfold insert
  induction d with
  | nil =>
    by_cases hk : key = name
    · simp [insertWith, get?, hk]
    · simp [insertWith, get?, hk, Ne.symm hk]
  | cons e rest ih =>
    obtain ⟨n, w⟩ := e
    unfold insertWith
    split
    · by_cases hk : key = name
      · simp [get?, hk]
      · simp [get?, hk, Ne.symm hk]
    · split
      · rename_i hn
        subst hn
        by_cases hk : key = name
        · simp [get?, hk]
        · simp [get?, hk, Ne.symm hk]
      · rename_i hne
        by_cases hk : key = n
        · subst hk
          simp [get?, Ne.symm hne]
        · simp only [get?, Ne.symm hk, ↓reduceIte, ih]

theorem sorted_mergeWith (f : α → α → α) {d e : Dict α} (hd : Sorted d) :
    Sorted (mergeWith f d e) := by
  unfold mergeWith
  induction e generalizing d with
  | nil => exact hd
  | cons x rest ih => exact ih (sorted_insertWith f x.1 x.2 hd)

/-- What is found in a union: the join of both bindings, or the only one. -/
def union (f : α → α → α) : Option α → Option α → Option α
  | some v, some w => some (f v w)
  | v, none => v
  | none, w => w

theorem get?_mergeWith (f : α → α → α) (key : String) {d e : Dict α} (hd : Sorted d) (he : Sorted e) :
    get? (mergeWith f d e) key = union f (get? d key) (get? e key) := by
  unfold mergeWith
  induction e generalizing d with
  | nil => cases h : get? d key <;> simp [get?, union, h]
  | cons x rest ih =>
    obtain ⟨n, w⟩ := x
    obtain ⟨hlt, hrest⟩ := List.pairwise_cons.mp he
    rw [List.foldl_cons, ih (sorted_insertWith f n w hd) hrest, get?_insertWith f n key w hd]
    by_cases hk : key = n
    · have hnone : get? rest key = none := get?_eq_none_of_lt fun e he => hk ▸ hlt e he
      subst hk
      cases h : get? d key <;> simp [get?, hnone, union, joined]
    · simp [get?, hk, Ne.symm hk]

theorem ext_get? {d e : Dict α} (hd : Sorted d) (he : Sorted e)
    (h : ∀ name, get? d name = get? e name) : d = e := by
  have hmem : ∀ x, x ∈ d ↔ x ∈ e := fun x =>
    ⟨fun hx => mem_of_get? ((h x.1).symm.trans (get?_of_mem hd hx)),
      fun hx => mem_of_get? ((h x.1).trans (get?_of_mem he hx))⟩
  have hperm : d.Perm e := (List.perm_ext_iff_of_nodup (nodup hd) (nodup he)).mpr hmem
  exact hperm.eq_of_pairwise (fun _ _ _ _ hlt hgt => absurd hgt hlt.asymm) hd he

theorem nil_mergeWith (f : α → α → α) {e : Dict α} (he : Sorted e) : mergeWith f [] e = e := by
  refine ext_get? (sorted_mergeWith f sorted_nil) he fun name => ?_
  rw [get?_mergeWith f name sorted_nil he]
  cases get? e name <;> rfl

theorem length_le_insertWith (f : α → α → α) (name : String) (v : α) (d : Dict α) :
    d.length ≤ (insertWith f name v d).length := by
  induction d with
  | nil => simp [insertWith]
  | cons x rest ih =>
    unfold insertWith
    split
    · simp
    · split
      · simp
      · simpa using ih

theorem length_le_mergeWith (f : α → α → α) (d e : Dict α) : d.length ≤ (mergeWith f d e).length := by
  unfold mergeWith
  induction e generalizing d with
  | nil => exact Nat.le_refl _
  | cons x rest ih => exact (length_le_insertWith f x.1 x.2 d).trans (ih _)

end AbstractFlow.Dict
