/-!
# Tables

A table associates values with keys of any type that can be compared. Keys stay in the order in
which they were first entered.
-/
namespace AbstractFlow

abbrev Table (κ α : Type) := List (κ × α)

namespace Table

variable {κ α : Type} [DecidableEq κ]

def get? (t : Table κ α) (key : κ) : Option α :=
  match t with
  | [] => none
  | (k, v) :: rest => if k = key then some v else get? rest key

def contains (t : Table κ α) (key : κ) : Bool := (get? t key).isSome

/-- Enters a value; a key already there keeps its place. -/
def insert (t : Table κ α) (key : κ) (v : α) : Table κ α :=
  match t with
  | [] => [(key, v)]
  | (k, w) :: rest => if k = key then (key, v) :: rest else (k, w) :: insert rest key v

def erase (t : Table κ α) (key : κ) : Table κ α :=
  match t with
  | [] => []
  | (k, w) :: rest => if k = key then rest else (k, w) :: erase rest key

def keys (t : Table κ α) : List κ := t.map Prod.fst

theorem get?_insert (t : Table κ α) (key key' : κ) (v : α) :
    (t.insert key v).get? key' = if key = key' then some v else t.get? key' := by
  induction t with
  | nil => simp [insert, get?]
  | cons e rest ih =>
    obtain ⟨k, w⟩ := e
    by_cases hk : k = key
    · subst hk
      by_cases hk' : k = key' <;> simp [insert, get?, hk']
    · by_cases hk' : k = key'
      · subst hk'
        simp [insert, get?, hk, Ne.symm hk]
      · simp [insert, get?, hk, hk', ih]

theorem mem_of_get? {t : Table κ α} {key : κ} {v : α} (h : t.get? key = some v) : (key, v) ∈ t := by
  induction t with
  | nil => simp [get?] at h
  | cons e rest ih =>
    obtain ⟨k, w⟩ := e
    unfold get? at h
    split at h
    · rename_i hk
      cases h
      exact hk ▸ List.mem_cons_self
    · exact List.mem_cons_of_mem _ (ih h)

theorem get?_eq_none {t : Table κ α} {key : κ} : t.get? key = none ↔ ∀ e ∈ t, e.1 ≠ key := by
  induction t with
  | nil => simp [get?]
  | cons e rest ih =>
    obtain ⟨k, w⟩ := e
    by_cases hk : k = key
    · simp [get?, hk]
    · simpa [get?, hk] using ih

theorem insert_of_get?_eq_none {t : Table κ α} {key : κ} (h : t.get? key = none) (v : α) :
    t.insert key v = t ++ [(key, v)] := by
  induction t with
  | nil => rfl
  | cons e rest ih =>
    obtain ⟨k, w⟩ := e
    unfold get? at h
    split at h
    · simp at h
    · rename_i hk
      rw [insert, if_neg hk, ih h]
      rfl

/-- Erasing takes away the entry that is looked up, and nothing else. -/
theorem perm_erase {t : Table κ α} {key : κ} {v : α} (h : t.get? key = some v) :
    t.Perm ((key, v) :: t.erase key) := by
  induction t with
  | nil => simp [get?] at h
  | cons e rest ih =>
    obtain ⟨k, w⟩ := e
    unfold get? at h
    unfold erase
    split at h
    · rename_i hk
      cases h
      rw [if_pos hk, hk]
    · rename_i hk
      rw [if_neg hk]
      exact ((ih h).cons _).trans (.swap ..)

end Table

end AbstractFlow
