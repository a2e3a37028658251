import AbstractFlow.Collection.Table

/-!
# Ordered maps

A map that remembers in which order its keys came. Used as a queue it schedules every key once:
entering a key that is still there changes only its value.

The entries stand in cells. A list holds the cells, the oldest first, and a table leads from every
key to the address of its cell, so that no operation has to search the list for a key.
-/
namespace AbstractFlow

/-- An entry with the address at which it is found. -/
structure Cell (κ α : Type) where
  address : Nat
  key : κ
  value : α

namespace Cell

variable {κ α : Type}

def entry (c : Cell κ α) : κ × α := (c.key, c.value)

def link (c : Cell κ α) : κ × Nat := (c.key, c.address)

end Cell

structure OrderedMap (κ α : Type) where
  /-- The address of the cell of each key. -/
  items : Table κ Nat
  /-- The cells, the oldest first. -/
  order : List (Cell κ α)
  next : Nat
  linked : items.Perm (order.map Cell.link)
  distinct : order.Pairwise fun c d => c.address ≠ d.address ∧ c.key ≠ d.key
  fresh : ∀ c ∈ order, c.address < next

namespace OrderedMap

variable {κ α : Type} [DecidableEq κ]

omit [DecidableEq κ] in
theorem mem_items (m : OrderedMap κ α) {key : κ} {address : Nat} :
    (key, address) ∈ m.items ↔ ∃ c ∈ m.order, c.link = (key, address) := by
  rw [m.linked.mem_iff, List.mem_map]

theorem get?_items_eq_none (m : OrderedMap κ α) {key : κ} :
    m.items.get? key = none ↔ ∀ c ∈ m.order, c.key ≠ key := by
  rw [Table.get?_eq_none]
  constructor
  · rintro h c hc rfl
    exact h (c.key, c.address) (m.mem_items.mpr ⟨c, hc, rfl⟩) rfl
  · rintro h ⟨k, address⟩ he rfl
    obtain ⟨c, hc, hlink⟩ := m.mem_items.mp he
    exact h c hc (congrArg Prod.fst hlink)

/-- The cell that the table leads to, and what is left of the list without it. -/
theorem exists_cell (m : OrderedMap κ α) {key : κ} {address : Nat}
    (h : m.items.get? key = some address) :
    ∃ c before after, m.order = before ++ c :: after ∧ c.link = (key, address) ∧
      m.order.eraseP (·.address == address) = before ++ after := by
  obtain ⟨c, hc, hlink⟩ := m.mem_items.mp (Table.mem_of_get? h)
  have hat : (c.address == address) = true := beq_iff_eq.mpr (congrArg Prod.snd hlink)
  obtain ⟨d, before, after, hbefore, hd, horder, herase⟩ :=
    List.exists_of_eraseP (p := fun c : Cell κ α => c.address == address) hc hat
  refine ⟨d, before, after, horder, ?_, herase⟩
  have hdistinct := (List.pairwise_cons.mp
    (List.pairwise_append.mp (horder ▸ m.distinct)).2.1).1
  rcases List.mem_append.mp (horder ▸ hc) with hc | hc
  · exact absurd hat (hbefore c hc)
  · rcases List.mem_cons.mp hc with rfl | hc
    · exact hlink
    · exact absurd ((beq_iff_eq.mp hd).trans (beq_iff_eq.mp hat).symm) (hdistinct c hc).1

def empty : OrderedMap κ α := ⟨[], [], 0, .nil, .nil, by simp⟩

def size (m : OrderedMap κ α) : Nat := m.items.length

def get? (m : OrderedMap κ α) (key : κ) : Option α :=
  (m.items.get? key).bind fun address =>
    (m.order.find? (·.address == address)).map (·.value)

def store (m : OrderedMap κ α) (address : Nat) (v : α) : OrderedMap κ α :=
  { m with
    order := m.order.map fun c => if c.address == address then { c with value := v } else c
    linked := by
      have hlink : Cell.link ∘ (fun c : Cell κ α => if c.address == address then { c with value := v } else c) =
          Cell.link := by
        funext c
        simp only [Function.comp_apply]
        split <;> rfl
      rw [List.map_map, hlink]
      exact m.linked
    distinct := by
      refine List.pairwise_map.mpr (m.distinct.imp fun {c d} h => ?_)
      split <;> split <;> exact h
    fresh := by
      intro c hc
      obtain ⟨d, hd, rfl⟩ := List.mem_map.mp hc
      split <;> exact m.fresh d hd }

def append (m : OrderedMap κ α) (key : κ) (v : α) (hnew : m.items.get? key = none) :
    OrderedMap κ α :=
  { items := m.items.insert key m.next
    order := m.order ++ [⟨m.next, key, v⟩]
    next := m.next + 1
    linked := by
      rw [Table.insert_of_get?_eq_none hnew, List.map_append]
      exact m.linked.append_right _
    distinct := by
      refine List.pairwise_append.mpr ⟨m.distinct, List.pairwise_singleton _ _, fun c hc d hd => ?_⟩
      rw [List.mem_singleton.mp hd]
      exact ⟨Nat.ne_of_lt (m.fresh c hc), m.get?_items_eq_none.mp hnew c hc⟩
    fresh := by
      intro c hc
      rcases List.mem_append.mp hc with hc | hc
      · exact Nat.lt_succ_of_lt (m.fresh c hc)
      · rw [List.mem_singleton.mp hc]
        exact Nat.lt_succ_self _ }

/-- Enters a value, and tells whether the key is new. -/
def insert (m : OrderedMap κ α) (key : κ) (v : α) : OrderedMap κ α × Bool :=
  match h : m.items.get? key with
  | some address => (m.store address v, false)
  | none => (m.append key v h, true)

def erase (m : OrderedMap κ α) (key : κ) : OrderedMap κ α :=
  match h : m.items.get? key with
  | none => m
  | some address =>
    { items := m.items.erase key
      order := m.order.eraseP (·.address == address)
      next := m.next
      linked := by
        obtain ⟨c, before, after, horder, hlink, herase⟩ := m.exists_cell h
        have hperm := (Table.perm_erase h).symm.trans m.linked
        rw [horder, List.map_append, List.map_cons, hlink] at hperm
        rw [herase, List.map_append]
        exact (hperm.trans List.perm_middle).cons_inv
      distinct := m.distinct.sublist List.eraseP_sublist
      fresh := fun c hc => m.fresh c (List.mem_of_mem_eraseP hc) }

def oldest? (m : OrderedMap κ α) : Option (κ × α) := m.order.head?.map Cell.entry

def pop? (m : OrderedMap κ α) : Option ((κ × α) × OrderedMap κ α) :=
  m.oldest?.map fun e => (e, m.erase e.1)

def keys (m : OrderedMap κ α) : List κ := m.order.map Cell.key

/-- Visits entries from the oldest, or from the newest, at most `limit` of them if there is a
limit, and deletes those that the visitor asks to. -/
def visit (m : OrderedMap κ α) (newestFirst : Bool) (limit : Option Nat) (deletes : κ → Bool) :
    List (κ × α) × OrderedMap κ α :=
  let entries := m.order.map Cell.entry
  let order := if newestFirst then entries.reverse else entries
  let visited := match limit with
    | some n => order.take n
    | none => order
  (visited, visited.foldl (fun m e => if deletes e.1 then m.erase e.1 else m) m)

end OrderedMap

end AbstractFlow
