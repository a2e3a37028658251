import AbstractFlow.Collection.OrderedMap

/-! # Keys of ordered maps

As far as its keys go an ordered map is a list without repetitions: a new key is put at its end, a key
that is there already changes nothing, and taking the oldest entry takes the head of the list.
-/
namespace AbstractFlow.OrderedMap

variable {κ α : Type}

theorem nodup_keys (m : OrderedMap κ α) : m.keys.Nodup := List.pairwise_map.mpr (m.distinct.imp And.right)

@[simp] theorem keys_empty : (empty : OrderedMap κ α).keys = [] := rfl

theorem keys_store (m : OrderedMap κ α) (address : Nat) (v : α) : (m.store address v).keys = m.keys := by
  rw [keys, store, List.map_map]
  refine List.map_congr_left fun c _ => ?_
  simp only [Function.comp_apply]
  split <;> rfl

variable [DecidableEq κ] (m : OrderedMap κ α) (key : κ)

theorem get?_items_eq_none_iff : m.items.get? key = none ↔ key ∉ m.keys := by
  rw [get?_items_eq_none, keys, List.mem_map]
  simp

theorem mem_keys_of_get?_items {address : Nat} (h : m.items.get? key = some address) : key ∈ m.keys := by
  refine Decidable.byContradiction fun hnew => ?_
  rw [(m.get?_items_eq_none_iff key).mpr hnew] at h
  cases h

theorem keys_insert (v : α) : (m.insert key v).1.keys = if key ∈ m.keys then m.keys else m.keys ++ [key] := by
  unfold insert
  split
  · rename_i address h
    rw [keys_store, if_pos (m.mem_keys_of_get?_items key h)]
  · rename_i h
    rw [if_neg ((m.get?_items_eq_none_iff key).mp h), keys, append, List.map_append]
    rfl

theorem insert_isNew (v : α) : (m.insert key v).2 = true ↔ key ∉ m.keys := by
  unfold insert
  split
  · rename_i address h
    simp [m.mem_keys_of_get?_items key h]
  · rename_i h
    simp [(m.get?_items_eq_none_iff key).mp h]

/-- Where the values carry nothing, entering a key that is there changes nothing. -/
theorem insert_unit {m : OrderedMap κ Unit} {key : κ} (h : key ∈ m.keys) : (m.insert key ()).1 = m := by
  unfold insert
  split
  · rename_i address _
    have hcell : (fun c : Cell κ Unit => if c.address == address then { c with value := () } else c) = id := by
      funext c
      split <;> rfl
    simp only [store, hcell, List.map_id]
  · rename_i hnone
    exact absurd h ((m.get?_items_eq_none_iff key).mp hnone)

theorem keys_erase : (m.erase key).keys = m.keys.erase key := by
  unfold erase
  split
  · rename_i h
    rw [List.erase_of_not_mem ((m.get?_items_eq_none_iff key).mp h)]
  · rename_i address h
    obtain ⟨c, before, after, horder, hlink, herase⟩ := m.exists_cell h
    have hkey : c.key = key := congrArg Prod.fst hlink
    have hbefore : key ∉ before.map Cell.key := by
      intro hmem
      obtain ⟨d, hd, hdkey⟩ := List.mem_map.mp hmem
      have hdistinct := (List.pairwise_append.mp (horder ▸ m.distinct)).2.2 d hd c List.mem_cons_self
      exact hdistinct.2 (hdkey.trans hkey.symm)
    simp only [keys, herase]
    rw [horder, List.map_append, List.map_append, List.map_cons, hkey, List.erase_append_right _ hbefore,
      List.erase_cons_head]

theorem pop?_eq (m : OrderedMap κ Unit) : m.pop? = m.keys.head?.map fun key => ((key, ()), m.erase key) := by
  unfold pop? oldest? keys
  cases m.order with
  | nil => rfl
  | cons c rest => rfl

theorem keys_erase_head {m : OrderedMap κ α} {key : κ} {rest : List κ} (h : m.keys = key :: rest) :
    (m.erase key).keys = rest := by
  rw [keys_erase, h, List.erase_cons_head]

end AbstractFlow.OrderedMap
