import AbstractFlow.Proofs.Flow.Queues
import Mathlib.Data.List.Forall2

/-! # The stack of queues

As far as what waits goes, a tracker is a stack of lists without repetitions: items are appended to the innermost
list and taken from its head, and whatever is done between the opening of a list and its end leaves the
lists around it alone. The books of a list, what it accepted and what was taken from it since it was opened or
cleared, therefore always balance: what was accepted was taken, in that order, or still waits.
-/
namespace AbstractFlow

/-- What is done with the innermost queue. -/
inductive Use where
  | enqueue (item : WorkItem)
  | enqueueSuccessors (item : WorkItem)
  | dequeue
  | clear

/-- What is done to the stack of queues. -/
inductive Move where
  | use (u : Use)
  | push
  | pop (current : WorkItem)

/-- What is seen of it: the items that were accepted, and the item that was taken. -/
structure Reply where
  accepted : List WorkItem := []
  taken : Option WorkItem := none

/-- What the queues depend on: which statements exist, and where control goes from them. -/
structure Bodies where
  has : WorkItem → Bool
  next : WorkItem → List WorkItem

/-- What a queue accepts of items that are offered one after the other: those that exist and do not wait in it. -/
def Bodies.offer (b : Bodies) (queue : List WorkItem) : List WorkItem → List WorkItem
  | [] => []
  | item :: items =>
    if b.has item = true ∧ item ∉ queue then item :: b.offer (queue ++ [item]) items else b.offer queue items

/-- What is seen of a use of a list, and the list after it. -/
def Use.apply (b : Bodies) (queue : List WorkItem) : Use → Reply × List WorkItem
  | .enqueue item =>
    if b.has item = true ∧ item ∉ queue then ({ accepted := [item] }, queue ++ [item]) else ({}, queue)
  | .enqueueSuccessors item =>
    ({ accepted := b.offer queue (b.next item) }, queue ++ b.offer queue (b.next item))
  | .dequeue => ({ taken := queue.head? }, queue.tail)
  | .clear => ({}, [])

/-- How many queues are open around the innermost one after some moves; none if the outermost one were
dropped. -/
def Move.levels : Nat → List Move → Option Nat
  | n, [] => some n
  | n, .use _ :: moves => levels n moves
  | n, .push :: moves => levels (n + 1) moves
  | 0, .pop _ :: _ => none
  | n + 1, .pop _ :: moves => levels n moves

/-- What waits in a stack of queues, from the inside out. -/
abbrev Agenda := List (List WorkItem)

namespace Agenda

def move (b : Bodies) : Agenda → Move → Option (Reply × Agenda)
  | queue :: outer, .use u => some ((u.apply b queue).1, (u.apply b queue).2 :: outer)
  | agenda, .push => some ({}, [] :: agenda)
  | _ :: queue :: outer, .pop _ => some ({}, queue :: outer)
  | _, _ => none

/-- Moves one after the other, as long as the outermost queue stays. -/
def run (b : Bodies) (agenda : Agenda) : List Move → Option (List Reply × Agenda)
  | [] => some ([], agenda)
  | m :: moves => do
    let (reply, agenda) ← agenda.move b m
    let (replies, agenda) ← run b agenda moves
    return (reply :: replies, agenda)

variable {b : Bodies} {moves : List Move} {n k : Nat}

theorem run_cons {agenda agenda' : Agenda} {m : Move} {reply : Reply}
    (h : agenda.move b m = some (reply, agenda')) :
    agenda.run b (m :: moves) = (agenda'.run b moves).map fun done => (reply :: done.1, done.2) := by
  rw [run, h]
  cases hrun : agenda'.run b moves <;> simp [hrun]

theorem run_append (agenda : Agenda) (moves moves' : List Move) : agenda.run b (moves ++ moves') =
    (agenda.run b moves).bind fun done => (done.2.run b moves').map fun done' => (done.1 ++ done'.1, done'.2) := by
  induction moves generalizing agenda with
  | nil => simp [run]
  | cons m moves ih =>
    cases hm : agenda.move b m with
    | none => simp [run, hm]
    | some done =>
      rw [List.cons_append, run_cons hm, run_cons hm, ih]
      cases done.2.run b moves <;> simp [Function.comp_def]

/-- A move is made in the `n + 1` innermost queues, whatever is around them, unless it drops the last of them. -/
theorem move_cases (b : Bodies) {front : Agenda} (hfront : front.length = n + 1) (m : Move) :
    (∃ reply front' n', front'.length = n' + 1 ∧ (∀ moves, Move.levels n (m :: moves) = Move.levels n' moves) ∧
      ∀ outer, move b (front ++ outer) m = some (reply, front' ++ outer)) ∨
    n = 0 ∧ ∃ current, m = .pop current := by
  obtain ⟨queue, rest, rfl⟩ := List.exists_cons_of_length_eq_add_one hfront
  cases m with
  | use u => exact .inl ⟨_, (u.apply b queue).2 :: rest, n, hfront, fun _ => rfl, fun _ => rfl⟩
  | push =>
    exact .inl ⟨_, [] :: queue :: rest, n + 1, congrArg (· + 1) hfront, fun _ => rfl, fun _ => rfl⟩
  | pop current =>
    cases n with
    | zero => exact .inr ⟨rfl, current, rfl⟩
    | succ n =>
      obtain ⟨queue', rest, rfl⟩ := List.exists_cons_of_length_eq_add_one (Nat.succ.inj hfront)
      exact .inl ⟨_, queue' :: rest, n, Nat.succ.inj hfront, fun _ => rfl, fun _ => rfl⟩

/-- Moves that go no further out than the `n` queues around the innermost one leave the others alone. -/
theorem run_of_levels (b : Bodies) {front : Agenda} (outer : Agenda) (hfront : front.length = n + 1)
    (hlevels : Move.levels n moves = some k) :
    ∃ replies front', run b (front ++ outer) moves = some (replies, front' ++ outer) ∧ front'.length = k + 1 := by
  induction moves generalizing front n with
  | nil =>
    cases hlevels
    exact ⟨[], front, rfl, hfront⟩
  | cons m moves ih =>
    obtain ⟨reply, next, n', hnext, hsame, hmove⟩ | ⟨rfl, current, rfl⟩ := move_cases b hfront m
    · rw [hsame] at hlevels
      obtain ⟨replies, front', hrun, hfront'⟩ := ih hnext hlevels
      refine ⟨reply :: replies, front', ?_, hfront'⟩
      rw [run_cons (hmove outer), hrun]
      rfl
    · cases hlevels

theorem run_of_levels_eq_none (b : Bodies) {agenda : Agenda} (hagenda : agenda.length = n + 1)
    (hlevels : Move.levels n moves = none) : agenda.run b moves = none := by
  induction moves generalizing agenda n with
  | nil => cases hlevels
  | cons m moves ih =>
    obtain ⟨reply, next, n', hnext, hsame, hmove⟩ | ⟨rfl, current, rfl⟩ := move_cases b hagenda m
    · rw [hsame] at hlevels
      have hstep := hmove []
      rw [List.append_nil, List.append_nil] at hstep
      rw [run_cons hstep, ih hnext hlevels]
      rfl
    · obtain ⟨queue, rfl⟩ := List.length_eq_one_iff.mp hagenda
      rfl

/-- What is done between the opening of a queue and its end changes nothing around it. -/
theorem run_push_pop (queue : List WorkItem) (outer : Agenda) {uses : List Move}
    (huses : Move.levels 0 uses = some 0) (current : WorkItem) :
    ∃ replies, run b (queue :: outer) (.push :: (uses ++ [.pop current])) = some (replies, queue :: outer) := by
  have hpush : move b (queue :: outer) .push = some ({}, [[]] ++ (queue :: outer)) := rfl
  obtain ⟨replies, front, hrun, hfront⟩ := run_of_levels b (queue :: outer) (List.length_singleton (a := [])) huses
  obtain ⟨inner, rfl⟩ := List.length_eq_one_iff.mp hfront
  refine ⟨({} : Reply) :: (replies ++ [({} : Reply)]), ?_⟩
  rw [run_cons hpush, run_append, hrun]
  rfl

end Agenda

/-! ## Books -/

/-- What a queue accepted and what was taken from it since it was opened or cleared. -/
structure Account where
  accepted : List WorkItem
  taken : List WorkItem
deriving DecidableEq

namespace Account

def empty : Account := ⟨[], []⟩

/-- The account of a queue in which some items wait already. -/
def opening (queue : List WorkItem) : Account := ⟨queue, []⟩

def book (a : Account) (u : Use) (reply : Reply) : Account :=
  match u with
  | .clear => .empty
  | _ => ⟨a.accepted ++ reply.accepted, a.taken ++ reply.taken.toList⟩

/-- What was accepted was taken, in the order in which it was accepted, or still waits. -/
def Balances (a : Account) (queue : List WorkItem) : Prop := a.accepted = a.taken ++ queue

theorem Balances.book {a : Account} {queue : List WorkItem} (h : a.Balances queue) (b : Bodies) (u : Use) :
    (a.book u (u.apply b queue).1).Balances (u.apply b queue).2 := by
  unfold Balances at h ⊢
  cases u with
  | enqueue item =>
    by_cases haccepted : b.has item = true ∧ item ∉ queue <;> simp [Account.book, Use.apply, haccepted, h]
  | enqueueSuccessors item => simp [Account.book, Use.apply, h]
  | dequeue => cases queue <;> simp [Account.book, Use.apply, h]
  | clear => rfl

def bookMove (accounts : List Account) (reply : Reply) : Move → List Account
  | .use u => accounts.modifyHead (·.book u reply)
  | .push => .empty :: accounts
  | .pop _ => accounts.tail

def bookAll (accounts : List Account) : List Move → List Reply → List Account
  | m :: moves, reply :: replies => bookAll (bookMove accounts reply m) moves replies
  | _, _ => accounts

theorem balances_move {b : Bodies} {accounts : List Account} {agenda agenda' : Agenda} {m : Move} {reply : Reply}
    (h : List.Forall₂ Balances accounts agenda) (hm : agenda.move b m = some (reply, agenda')) :
    List.Forall₂ Balances (bookMove accounts reply m) agenda' := by
  cases m with
  | use u =>
    cases h with
    | nil => cases hm
    | cons ha houter =>
      cases hm
      exact .cons (ha.book b u) houter
  | push =>
    rw [Agenda.move] at hm
    cases hm
    exact .cons (show empty.Balances [] from rfl) h
  | pop current =>
    cases h with
    | nil => cases hm
    | cons ha houter =>
      cases houter with
      | nil => cases hm
      | cons ha' houter =>
        cases hm
        exact .cons ha' houter

theorem balances_run {b : Bodies} {accounts : List Account} {agenda agenda' : Agenda} {moves : List Move}
    {replies : List Reply} (h : List.Forall₂ Balances accounts agenda)
    (hrun : agenda.run b moves = some (replies, agenda')) :
    List.Forall₂ Balances (bookAll accounts moves replies) agenda' := by
  induction moves generalizing accounts agenda replies with
  | nil =>
    cases hrun
    exact h
  | cons m moves ih =>
    cases hm : agenda.move b m with
    | none => simp [Agenda.run, hm] at hrun
    | some done =>
      obtain ⟨reply, next⟩ := done
      rw [Agenda.run_cons hm] at hrun
      obtain ⟨rest, hrest, hdone⟩ := Option.map_eq_some_iff.mp hrun
      cases hdone
      exact ih (balances_move h hm) hrest

end Account

namespace Tracker

def agenda (t : Tracker) : Agenda := t.queue :: t.outer

def successors (t : Tracker) (item : WorkItem) : List Nat :=
  ((t.graph? item.function).map (·.succsAt item.index)).getD []

def bodies (t : Tracker) : Bodies where
  has item := t.inRange item.function item.index
  next item := (t.successors item).map fun (s : Nat) => ⟨item.function, s⟩

/-- The statements that are accepted if they are enqueued one after the other. -/
def admitted (t : Tracker) (function : String) : List Nat → List WorkItem
  | [] => []
  | s :: rest =>
    (if t.accepts function s then [⟨function, s⟩] else []) ++ (t.enqueue function s).admitted function rest

def use (t : Tracker) : Use → Reply × Tracker
  | .enqueue item =>
    ({ accepted := if t.accepts item.function item.index then [item] else [] },
      t.enqueue item.function item.index)
  | .enqueueSuccessors item =>
    ({ accepted := t.admitted item.function (t.successors item) }, t.enqueueSuccessors item.function item.index)
  | .dequeue =>
    match t.dequeue? with
    | some (item, t') => ({ taken := some item }, t')
    | none => ({}, t)
  | .clear => ({}, t.clear)

def move (t : Tracker) : Move → Option (Reply × Tracker)
  | .use u => some (t.use u)
  | .push => some ({}, t.push)
  | .pop current => (t.pop? current).map fun t' => ({}, t')

def run (t : Tracker) : List Move → Option (List Reply × Tracker)
  | [] => some ([], t)
  | m :: moves => do
    let (reply, t) ← t.move m
    let (replies, t) ← t.run moves
    return (reply :: replies, t)

/-! ## One move -/

variable (t : Tracker)

theorem bodies_congr {t t' : Tracker} (h : t'.graphs = t.graphs) : t'.bodies = t.bodies := by
  unfold bodies inRange successors graph?
  rw [h]

theorem nodup_agenda {queue : List WorkItem} (h : queue ∈ t.agenda) : queue.Nodup := by
  rcases List.mem_cons.mp h with rfl | h
  · exact t.nodup_queue
  · obtain ⟨segment, -, rfl⟩ := List.mem_map.mp h
    exact segment.nodup_keys

theorem accepts_eq (item : WorkItem) :
    t.accepts item.function item.index = decide (t.bodies.has item = true ∧ item ∉ t.queue) :=
  Bool.eq_iff_iff.mpr ((t.accepts_iff item.function item.index).trans decide_eq_true_iff.symm)

theorem enqueueSuccessors_eq (item : WorkItem) : t.enqueueSuccessors item.function item.index =
    (t.successors item).foldl (fun t (s : Nat) => t.enqueue item.function s) t := by
  unfold enqueueSuccessors successors
  cases t.graph? item.function <;> rfl

theorem agenda_foldl_enqueue (function : String) (ss : List Nat) :
    (ss.foldl (fun t (s : Nat) => t.enqueue function s) t).agenda =
      (t.queue ++ t.admitted function ss) :: t.outer ∧
    (ss.foldl (fun t (s : Nat) => t.enqueue function s) t).graphs = t.graphs := by
  induction ss generalizing t with
  | nil => exact ⟨by rw [admitted, List.append_nil]; rfl, rfl⟩
  | cons s rest ih =>
    obtain ⟨hagenda, hgraphs⟩ := ih (t.enqueue function s)
    refine ⟨?_, hgraphs.trans (t.graphs_enqueue function s)⟩
    rw [List.foldl_cons, hagenda, admitted, queue_enqueue_eq, outer_enqueue, ← List.append_assoc]
    split <;> simp

theorem admitted_eq (function : String) (ss : List Nat) :
    t.admitted function ss = t.bodies.offer t.queue (ss.map fun (s : Nat) => ⟨function, s⟩) := by
  induction ss generalizing t with
  | nil => rfl
  | cons s rest ih =>
    have hbodies := bodies_congr (t.graphs_enqueue function s)
    rw [admitted, ih, hbodies, queue_enqueue_eq, t.accepts_eq ⟨function, s⟩, List.map_cons, Bodies.offer]
    simp only [decide_eq_true_eq]
    split <;> rfl

/-- A use of a tracker is a use of its innermost list, and touches nothing else. -/
theorem agenda_use (u : Use) :
    (t.use u).1 = (u.apply t.bodies t.queue).1 ∧
    (t.use u).2.agenda = (u.apply t.bodies t.queue).2 :: t.outer ∧ (t.use u).2.graphs = t.graphs := by
  cases u with
  | enqueue item =>
    refine ⟨?_, ?_, t.graphs_enqueue item.function item.index⟩
    · simp only [use, Use.apply, accepts_eq, decide_eq_true_eq]
      split <;> rfl
    · simp only [use, Use.apply, agenda, queue_enqueue_eq, outer_enqueue, accepts_eq, decide_eq_true_eq]
      split <;> rfl
  | enqueueSuccessors item =>
    obtain ⟨hagenda, hgraphs⟩ := t.agenda_foldl_enqueue item.function (t.successors item)
    have hadmitted := t.admitted_eq item.function (t.successors item)
    rw [← enqueueSuccessors_eq] at hagenda hgraphs
    rw [hadmitted] at hagenda
    exact ⟨congrArg (fun accepted => ({ accepted } : Reply)) hadmitted, hagenda, hgraphs⟩
  | dequeue =>
    unfold use
    rw [dequeue?_eq]
    cases hqueue : t.queue with
    | nil => exact ⟨rfl, congrArg (· :: t.outer) hqueue, rfl⟩
    | cons item rest => exact ⟨rfl, congrArg (· :: t.outer) (queue_taken hqueue), rfl⟩
  | clear => exact ⟨rfl, rfl, rfl⟩

/-- A move does to a tracker what it does to the stack of lists, and the graphs stay. -/
theorem agenda_move (m : Move) :
    (t.move m).map (fun done => (done.1, done.2.agenda)) = t.agenda.move t.bodies m ∧
      ∀ done, t.move m = some done → done.2.graphs = t.graphs := by
  cases m with
  | use u =>
    obtain ⟨hreply, hagenda, hgraphs⟩ := t.agenda_use u
    refine ⟨?_, ?_⟩
    · rw [move, Option.map_some, hreply, hagenda]
      rfl
    · rintro done hdone
      cases hdone
      exact hgraphs
  | push =>
    refine ⟨rfl, fun done hdone => ?_⟩
    cases hdone
    rfl
  | pop current =>
    constructor
    · unfold move pop? agenda outer
      cases t.suspended <;> rfl
    · intro done hdone
      obtain ⟨t', hpop, rfl⟩ := Option.map_eq_some_iff.mp hdone
      obtain ⟨segment, suspended, -, rfl⟩ := pop?_eq_some.mp hpop
      rfl

theorem agenda_run (moves : List Move) :
    (t.run moves).map (fun done => (done.1, done.2.agenda)) = t.agenda.run t.bodies moves := by
  induction moves generalizing t with
  | nil => rfl
  | cons m moves ih =>
    obtain ⟨hagenda, hgraphs⟩ := t.agenda_move m
    cases hm : t.move m with
    | none =>
      rw [hm] at hagenda
      simp [run, Agenda.run, hm, ← hagenda]
    | some done =>
      rw [hm] at hagenda
      have hrest := ih done.2
      -- The lists run on with the bodies of the first tracker, since no move changes a graph.
      rw [bodies_congr (hgraphs done hm)] at hrest
      rw [Agenda.run_cons hagenda.symm, ← hrest, run, hm]
      cases hrun : done.2.run moves <;> simp [hrun]

theorem isSome_run (moves : List Move) :
    (t.run moves).isSome = true ↔ (Move.levels t.outer.length moves).isSome = true := by
  have hsome : (t.run moves).isSome = (t.agenda.run t.bodies moves).isSome := by
    rw [← t.agenda_run moves, Option.isSome_map]
  have hlength : t.agenda.length = t.outer.length + 1 := rfl
  rw [hsome]
  cases hlevels : Move.levels t.outer.length moves with
  | none => simp [Agenda.run_of_levels_eq_none t.bodies hlength hlevels]
  | some k =>
    obtain ⟨replies, front, hrun, -⟩ := Agenda.run_of_levels t.bodies [] hlength hlevels
    rw [List.append_nil] at hrun
    rw [hrun]
    rfl

theorem outer_run {moves : List Move} {k : Nat} (hk : Move.levels 0 moves = some k) :
    (t.run moves).map (fun done => done.2.outer.drop k) = some t.outer := by
  obtain ⟨replies, front, hrun, hfront⟩ :=
    Agenda.run_of_levels t.bodies t.outer (List.length_singleton (a := t.queue)) hk
  rw [show [t.queue] ++ t.outer = t.agenda from rfl, ← agenda_run] at hrun
  obtain ⟨queue, rest, rfl⟩ := List.exists_cons_of_length_eq_add_one hfront
  obtain ⟨done, hdone, hagenda⟩ := Option.map_eq_some_iff.mp hrun
  have houter : done.2.outer = rest ++ t.outer := congrArg (fun done => done.2.tail) hagenda
  rw [hdone, Option.map_some, houter, ← Nat.succ.inj hfront, List.drop_left]

theorem agenda_run_push_pop {moves : List Move} (hmoves : Move.levels 0 moves = some 0) (current : WorkItem) :
    (t.run (.push :: (moves ++ [.pop current]))).map (·.2.agenda) = some t.agenda := by
  obtain ⟨replies, hrun⟩ := Agenda.run_push_pop (b := t.bodies) t.queue t.outer hmoves current
  rw [show t.queue :: t.outer = t.agenda from rfl, ← agenda_run] at hrun
  obtain ⟨done, hdone, hagenda⟩ := Option.map_eq_some_iff.mp hrun
  rw [hdone, Option.map_some]
  exact congrArg (fun done => some done.2) hagenda

/-- What was accepted in a queue since it was opened or cleared was taken or waits, in one order. -/
theorem balances_run {moves : List Move} {replies : List Reply} {t' : Tracker}
    (hrun : t.run moves = some (replies, t')) :
    List.Forall₂ Account.Balances (Account.bookAll (t.agenda.map .opening) moves replies) t'.agenda := by
  have hagenda := t.agenda_run moves
  rw [hrun] at hagenda
  have hopening : List.Forall₂ Account.Balances (t.agenda.map .opening) t.agenda :=
    List.forall₂_map_left_iff.mpr (List.forall₂_same.mpr fun queue _ => rfl)
  exact Account.balances_run hopening hagenda.symm

/-- The worklist is a stack of lists without repetitions. An item is accepted just when it is a statement of a body
and does not wait in the innermost list. Whatever is done, the queues do as the lists do, and it can be done unless
it drops the outermost queue. The queues around the innermost one stay as they are, and so does it when a queue is
opened, used and dropped. What was accepted in a queue since it was opened or cleared was taken, in the order in
which it was accepted, or still waits. -/
theorem worklist_correct (moves : List Move) :
    (∀ item : WorkItem, t.accepts item.function item.index = true ↔
      (∃ g, t.graph? item.function = some g ∧ 0 ≤ item.index ∧ item.index < g.length) ∧ item ∉ t.queue) ∧
    (t.run moves).map (fun done => (done.1, done.2.agenda)) = t.agenda.run t.bodies moves ∧
    ((t.run moves).isSome = true ↔ (Move.levels t.outer.length moves).isSome = true) ∧
    (∀ k, Move.levels 0 moves = some k → (t.run moves).map (fun done => done.2.outer.drop k) = some t.outer) ∧
    (∀ current, Move.levels 0 moves = some 0 →
      (t.run (.push :: (moves ++ [.pop current]))).map (·.2.agenda) = some t.agenda) ∧
    ∀ replies t', t.run moves = some (replies, t') → (∀ queue ∈ t'.agenda, queue.Nodup) ∧
      List.Forall₂ Account.Balances (Account.bookAll (t.agenda.map .opening) moves replies) t'.agenda := by
  refine ⟨fun item => ?_, t.agenda_run moves, t.isSome_run moves, fun k => t.outer_run,
    fun current hmoves => t.agenda_run_push_pop hmoves current, fun replies t' hrun => ?_⟩
  · rw [accepts_iff, inRange_iff]
  · exact ⟨fun queue => t'.nodup_agenda, t.balances_run hrun⟩

/-- A statement waits in an inner queue while it waits outside, and after it was taken it may wait again. -/
theorem worklist_correct_nested :
    let t := empty.build "f" [.label "a", .label "b", .label "c"]
    let moves : List Move :=
      [.use (.enqueue ⟨"f", 1⟩), .use (.enqueue ⟨"f", 2⟩), .use (.enqueue ⟨"f", 1⟩), .use .dequeue,
        .push, .use (.enqueueSuccessors ⟨"f", 1⟩), .use .dequeue, .pop ⟨"f", 1⟩,
        .use (.enqueue ⟨"f", 1⟩), .use .dequeue]
    (∃ replies t', t.run moves = some (replies, t') ∧
      replies.filterMap (·.taken) = [⟨"f", 1⟩, ⟨"f", 2⟩, ⟨"f", 2⟩] ∧ t'.agenda = [[⟨"f", 1⟩]] ∧
      (∀ queue ∈ t'.agenda, queue.Nodup) ∧
      List.Forall₂ Account.Balances [⟨[⟨"f", 1⟩, ⟨"f", 2⟩, ⟨"f", 1⟩], [⟨"f", 1⟩, ⟨"f", 2⟩]⟩] t'.agenda) ∧
    (t.run moves).map (fun done => done.2.outer.drop 0) = some t.outer ∧
    (t.run (.push :: (moves ++ [.pop ⟨"f", 0⟩]))).map (·.2.agenda) = some t.agenda := by
  intro t moves
  have htest : (run t moves).any (fun done =>
      decide (done.1.filterMap (·.taken) = [⟨"f", 1⟩, ⟨"f", 2⟩, ⟨"f", 2⟩]) && done.2.agenda == [[⟨"f", 1⟩]] &&
        decide (Account.bookAll (t.agenda.map .opening) moves done.1 =
          [⟨[⟨"f", 1⟩, ⟨"f", 2⟩, ⟨"f", 1⟩], [⟨"f", 1⟩, ⟨"f", 2⟩]⟩])) = true := by decide
  obtain ⟨⟨replies, t'⟩, hrun, hdone⟩ := (Option.any_eq_true _ _).mp htest
  simp only [Bool.and_eq_true, decide_eq_true_eq, beq_iff_eq] at hdone
  obtain ⟨⟨htaken, hagenda⟩, hbooks⟩ := hdone
  obtain ⟨-, -, -, houter, hopened, hreached⟩ := worklist_correct t moves
  obtain ⟨hnodup, hbalances⟩ := hreached replies t' hrun
  exact ⟨⟨replies, t', hrun, htaken, hagenda, hnodup, hbooks ▸ hbalances⟩, houter 0 rfl, hopened ⟨"f", 0⟩ rfl⟩

end Tracker

end AbstractFlow
