import AbstractFlow.Flow.Tracker
import AbstractFlow.Proofs.Collection.OrderedMap

/-! # Queues of a tracker

What each operation of a tracker does to the lists of what waits. A statement is accepted if it is one of
a body and does not wait yet; then it comes last. The oldest statement is the first to be taken.
-/
namespace AbstractFlow.Tracker

variable (t : Tracker) (function : String) (index : Int)

theorem nodup_queue : t.queue.Nodup := t.segment.nodup_keys

theorem depth_eq : t.depth = t.outer.length + 1 := by rw [depth, outer, List.length_map]

theorem inRange_iff : t.inRange function index = true ↔
    ∃ g, t.graph? function = some g ∧ 0 ≤ index ∧ index < g.length := by
  unfold inRange
  cases t.graph? function with
  | none => simp
  | some g => simp

theorem accepts_iff : t.accepts function index = true ↔
    t.inRange function index = true ∧ ⟨function, index⟩ ∉ t.queue := by
  rw [accepts, Bool.and_eq_true, OrderedMap.insert_isNew, queue]

def put (item : WorkItem) : Tracker := { t with segment := (t.segment.insert item ()).1 }

theorem enqueue_eq : t.enqueue function index =
    if t.accepts function index then t.put ⟨function, index⟩ else t := by
  unfold enqueue
  by_cases hrange : t.inRange function index = true
  · by_cases hwaits : (⟨function, index⟩ : WorkItem) ∈ t.queue
    · rw [if_pos hrange, put, OrderedMap.insert_unit hwaits, ite_self]
    · rw [if_pos hrange, if_pos ((t.accepts_iff function index).mpr ⟨hrange, hwaits⟩), put]
  · rw [if_neg hrange, if_neg fun h => hrange ((t.accepts_iff function index).mp h).1]

variable {t} in
theorem queue_put {item : WorkItem} (h : item ∉ t.queue) : (t.put item).queue = t.queue ++ [item] :=
  (t.segment.keys_insert item ()).trans (if_neg h)

theorem queue_enqueue_eq : (t.enqueue function index).queue =
    if t.accepts function index then t.queue ++ [⟨function, index⟩] else t.queue := by
  rw [enqueue_eq]
  split
  · rename_i haccepts
    exact queue_put ((t.accepts_iff function index).mp haccepts).2
  · rfl

theorem graphs_enqueue : (t.enqueue function index).graphs = t.graphs := by
  unfold enqueue
  split <;> rfl

theorem suspended_enqueue : (t.enqueue function index).suspended = t.suspended := by
  unfold enqueue
  split <;> rfl

theorem outer_enqueue : (t.enqueue function index).outer = t.outer :=
  congrArg (List.map OrderedMap.keys) (t.suspended_enqueue function index)

def taken (item : WorkItem) : Tracker := { t with segment := t.segment.erase item, current := item }

theorem dequeue?_eq : t.dequeue? = t.queue.head?.map fun item => (item, t.taken item) := by
  unfold dequeue? queue
  rw [OrderedMap.pop?_eq]
  cases t.segment.keys <;> rfl

variable {t}

theorem queue_taken {item : WorkItem} {rest : List WorkItem} (h : t.queue = item :: rest) :
    (t.taken item).queue = rest := OrderedMap.keys_erase_head h

theorem dequeue?_of_queue {item : WorkItem} {rest : List WorkItem} (h : t.queue = item :: rest) :
    t.dequeue? = some (item, t.taken item) := by
  rw [dequeue?_eq, h]
  rfl

theorem dequeue?_of_idle (h : t.queue = []) : t.dequeue? = none := by
  rw [dequeue?_eq, h]
  rfl

theorem dequeue?_eq_some {t' : Tracker} {item : WorkItem} :
    t.dequeue? = some (item, t') ↔ t.queue = item :: t'.queue ∧ t' = t.taken item := by
  cases hqueue : t.queue with
  | nil => simp [dequeue?_of_idle hqueue]
  | cons first rest =>
    rw [dequeue?_of_queue hqueue]
    constructor
    · intro h
      cases h
      exact ⟨by rw [queue_taken hqueue], rfl⟩
    · rintro ⟨h, rfl⟩
      cases h
      rfl

theorem pop?_eq_some {t' : Tracker} {current : WorkItem} : t.pop? current = some t' ↔
    ∃ segment suspended, t.suspended = segment :: suspended ∧ t' = { t with segment, suspended, current } := by
  unfold pop?
  cases t.suspended with
  | nil => simp
  | cons segment suspended =>
    constructor
    · intro h
      cases h
      exact ⟨segment, suspended, rfl, rfl⟩
    · rintro ⟨_, _, h, rfl⟩
      cases h
      rfl

theorem exists_pop? {queue : List WorkItem} {outer : List (List WorkItem)} (h : t.outer = queue :: outer)
    (current : WorkItem) : ∃ t', t.pop? current = some t' ∧ t'.queue = queue ∧ t'.outer = outer := by
  obtain ⟨segment, suspended, hsuspended, rfl, rfl⟩ := List.map_eq_cons_iff.mp h
  exact ⟨_, pop?_eq_some.mpr ⟨segment, suspended, hsuspended, rfl⟩, rfl, rfl⟩

end AbstractFlow.Tracker
