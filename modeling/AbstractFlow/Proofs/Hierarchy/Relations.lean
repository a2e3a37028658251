import AbstractFlow.Proofs.Hierarchy.Instances

/-! # Superclasses and subclasses

However a hierarchy is built, the bases of the classes and the classes that declare a base are the same relation, read
in both directions. The walk up the bases goes depth first and the search down the subclasses breadth first, but both
list the same of whatever they are started on: everything that is reached, once, and not the class they start from.
-/
namespace AbstractFlow

namespace Hierarchy

section Search

variable {edges : String → List String} {seen : Set String} {start next x : String}
  {names names' more out out' : List String}

/-- What a search from some names has found: everything that they lead to, once, but nothing that had been seen. -/
structure Search (edges : String → List String) (seen : Set String) (names out : List String) : Prop where
  nodup : out.Nodup
  fresh : ∀ x ∈ out, x ∉ seen
  starts : ∀ n ∈ names, n ∈ seen ∨ n ∈ out
  closed : ∀ x ∈ out, ∀ y ∈ edges x, y ∈ seen ∨ y ∈ out
  reached : ∀ x ∈ out, ∃ n ∈ names, Relation.ReflTransGen (Edge edges) n x

/-- A search behind a name finds what is reached over one edge or more, except for the name itself. -/
theorem Search.mem_iff (h : Search edges {start} (edges start) out) :
    x ∈ out ↔ x ≠ start ∧ Relation.TransGen (Edge edges) start x := by
  constructor
  · intro hx
    obtain ⟨n, hn, hreach⟩ := h.reached x hx
    exact ⟨h.fresh x hx, .head' hn hreach⟩
  · rintro ⟨hne, hreach⟩
    refine Or.resolve_left ?_ hne
    induction hreach with
    | single hedge => exact h.starts _ hedge
    | @tail y z _ hedge ih =>
      by_cases hy : y = start
      · exact h.starts z (hy ▸ hedge)
      · exact h.closed y ((ih hy).resolve_left hy) z hedge

namespace Search

theorem nil (seen : Set String) : Search edges seen [] [] := ⟨List.nodup_nil, by simp, by simp, by simp, by simp⟩

theorem pass (hnext : next ∈ seen) (h : Search edges seen names out) : Search edges seen (next :: names) out where
  nodup := h.nodup
  fresh := h.fresh
  starts := List.forall_mem_cons.mpr ⟨.inl hnext, h.starts⟩
  closed := h.closed
  reached x hx := by
    obtain ⟨n, hn, hreach⟩ := h.reached x hx
    exact ⟨n, List.mem_cons_of_mem _ hn, hreach⟩

/-- A new name is listed, and what it leads to is searched for together with the other names, in any order. -/
theorem enter (hnext : next ∉ seen) (hmore : ∀ n, n ∈ more ↔ n ∈ names ∨ n ∈ edges next)
    (h : Search edges (insert next seen) more out) : Search edges seen (next :: names) (next :: out) := by
  have hfresh : ∀ x ∈ out, x ≠ next ∧ x ∉ seen := fun x hx => not_or.mp (h.fresh x hx)
  have hin : ∀ {y}, y ∈ insert next seen ∨ y ∈ out → y ∈ seen ∨ y ∈ next :: out := by
    intro y
    simp only [Set.mem_insert_iff, List.mem_cons]
    tauto
  refine ⟨List.nodup_cons.mpr ⟨fun hmem => (hfresh next hmem).1 rfl, h.nodup⟩, ?_, ?_, ?_, ?_⟩
  · exact List.forall_mem_cons.mpr ⟨hnext, fun x hx => (hfresh x hx).2⟩
  · exact List.forall_mem_cons.mpr ⟨.inr List.mem_cons_self, fun n hn => hin (h.starts n ((hmore n).mpr (.inl hn)))⟩
  · exact List.forall_mem_cons.mpr ⟨fun y hy => hin (h.starts y ((hmore y).mpr (.inr hy))),
      fun x hx y hy => hin (h.closed x hx y hy)⟩
  · refine List.forall_mem_cons.mpr ⟨⟨next, List.mem_cons_self, .refl⟩, fun x hx => ?_⟩
    obtain ⟨n, hn, hreach⟩ := h.reached x hx
    rcases (hmore n).mp hn with hn | hn
    · exact ⟨n, List.mem_cons_of_mem _ hn, hreach⟩
    · exact ⟨next, List.mem_cons_self, .head hn hreach⟩

theorem append (h : Search edges seen names out) (h' : Search edges (seen ∪ {x | x ∈ out}) names' out') :
    Search edges seen (names ++ names') (out ++ out') := by
  have hfresh : ∀ x ∈ out', x ∉ seen ∧ x ∉ out := fun x hx => not_or.mp (h'.fresh x hx)
  have hleft : ∀ {y}, y ∈ seen ∨ y ∈ out → y ∈ seen ∨ y ∈ out ++ out' := fun hy =>
    hy.imp_right (List.mem_append_left _)
  have hright : ∀ {y}, y ∈ seen ∪ {x | x ∈ out} ∨ y ∈ out' → y ∈ seen ∨ y ∈ out ++ out' := fun hy =>
    hy.elim hleft fun hy => .inr (List.mem_append_right _ hy)
  refine ⟨h.nodup.append h'.nodup fun x hx hx' => (hfresh x hx').2 hx, ?_, ?_, ?_, ?_⟩
  · exact List.forall_mem_append.mpr ⟨h.fresh, fun x hx => (hfresh x hx).1⟩
  · exact List.forall_mem_append.mpr ⟨fun n hn => hleft (h.starts n hn), fun n hn => hright (h'.starts n hn)⟩
  · exact List.forall_mem_append.mpr ⟨fun x hx y hy => hleft (h.closed x hx y hy),
      fun x hx y hy => hright (h'.closed x hx y hy)⟩
  · refine List.forall_mem_append.mpr ⟨fun x hx => ?_, fun x hx => ?_⟩
    · obtain ⟨n, hn, hreach⟩ := h.reached x hx
      exact ⟨n, List.mem_append_left _ hn, hreach⟩
    · obtain ⟨n, hn, hreach⟩ := h'.reached x hx
      exact ⟨n, List.mem_append_right _ hn, hreach⟩

end Search

/-- Visiting depth first is a search. -/
theorem Visits.search (h : Visits edges seen names out) : Search edges seen names out := by
  induction h with
  | nil seen => exact .nil seen
  | pass hnext _ ih => exact ih.pass hnext
  | enter hnext _ _ ihbelow ih => exact .enter hnext (fun n => List.mem_append.trans or_comm) (ihbelow.append ih)

end Search

section Queue

variable {h : Hierarchy} {name next : String} {seen queue : List String} {fuel : Nat}

/-- How many names a table lists under the keys that have not been seen. -/
def unseen (t : Table String (List String)) (seen : List String) : Nat :=
  (t.map fun e => if e.1 ∈ seen then 0 else e.2.length).sum

theorem unseen_cons (t : Table String (List String)) (hnew : next ∉ seen) :
    unseen t (next :: seen) + ((t.get? next).getD []).length ≤ unseen t seen := by
  induction t with
  | nil => simp [unseen, Table.get?]
  | cons e t ih =>
    obtain ⟨key, names⟩ := e
    have hstep : ∀ seen, unseen ((key, names) :: t) seen = (if key ∈ seen then 0 else names.length) + unseen t seen :=
      fun _ => List.sum_cons
    rw [hstep, hstep]
    by_cases hkey : key = next
    · subst hkey
      simp only [List.mem_cons_self, if_true, hnew, if_false, Table.get?, Option.getD_some]
      omega
    · simp only [List.mem_cons, hkey, false_or, if_false, Table.get?]
      omega

theorem unseen_nil (t : Table String (List String)) : unseen t [] = (t.flatMap (·.2)).length := by
  simp [unseen, List.length_flatMap]

theorem mem_directSubs : next ∈ h.directSubs name ↔ next ∈ (h.subs.get? name).getD [] := Names.mem_sort

/-- What is known of the bases is what is known of the classes that declare them, and nothing is known twice. -/
structure Linked (h : Hierarchy) : Prop where
  converse : ∀ b c, c ∈ h.directSubs b ↔ b ∈ h.directSupers c
  nodupSupers : ∀ c, (h.directSupers c).Nodup
  nodupSubs : ∀ b, ((h.subs.get? b).getD []).Nodup

theorem Linked.length_directSubs (hh : h.Linked) (b : String) :
    (h.directSubs b).length = ((h.subs.get? b).getD []).length := by
  have hsorted := (Names.pairwise_sort (hh.nodupSubs b)).imp fun hlt => ne_of_lt hlt
  exact ((List.perm_ext_iff_of_nodup hsorted (hh.nodupSubs b)).mpr fun _ => mem_directSubs).length_eq

/-- As long as there are steps for all names that are queued or may still be, the queue is a search. -/
theorem Linked.search_reach (hh : h.Linked) (out : List String)
    (hfuel : queue.length + unseen h.subs seen ≤ fuel) :
    ∃ more, reach h fuel queue seen out = out ++ more ∧ Search h.directSubs {x | x ∈ seen} queue more := by
  induction fuel generalizing queue seen out with
  | zero =>
    obtain rfl : queue = [] := List.length_eq_zero_iff.mp (by omega)
    exact ⟨[], (List.append_nil out).symm, .nil _⟩
  | succ fuel ih =>
    cases queue with
    | nil => exact ⟨[], (List.append_nil out).symm, .nil _⟩
    | cons next queue =>
      rw [List.length_cons] at hfuel
      by_cases hseen : next ∈ seen
      · obtain ⟨more, hmore, hsearch⟩ := @ih seen queue out (by omega)
        exact ⟨more, by rw [reach, if_pos hseen, hmore], hsearch.pass hseen⟩
      · have hunseen := unseen_cons h.subs hseen
        rw [← hh.length_directSubs] at hunseen
        obtain ⟨more, hmore, hsearch⟩ := @ih (next :: seen) (queue ++ h.directSubs next) (out ++ [next])
          (by rw [List.length_append]; omega)
        have hinsert : {x | x ∈ next :: seen} = insert next {x | x ∈ seen} := by
          ext x
          simp
        rw [hinsert] at hsearch
        refine ⟨next :: more, ?_, .enter hseen (fun n => List.mem_append) hsearch⟩
        rw [reach, if_neg hseen, hmore, List.append_assoc, List.singleton_append]

/-- The names that are queued over time are no more than those that the table of subclasses lists. -/
theorem Linked.search_subclasses (hh : h.Linked) (name : String) :
    Search h.directSubs {name} (h.directSubs name) (h.subclasses name) := by
  have hunseen := unseen_cons h.subs (List.not_mem_nil (a := name))
  rw [← hh.length_directSubs, unseen_nil] at hunseen
  have hfuel : (h.directSubs name).length + unseen h.subs [name] ≤ (h.subs.flatMap (·.2)).length + 1 := by omega
  obtain ⟨more, hmore, hsearch⟩ := hh.search_reach [] hfuel
  rw [subclasses, hmore, List.nil_append]
  simpa using hsearch

end Queue

section Changes

variable {h h' : Hierarchy} {name base : String}

theorem Linked.of_edges (hh : h.Linked) (hsupers : h'.supers = h.supers) (hsubs : h'.subs = h.subs) : h'.Linked := by
  constructor
  · simpa only [directSubs, directSupers, hsupers, hsubs] using hh.converse
  · simpa only [directSupers, hsupers] using hh.nodupSupers
  · simpa only [hsubs] using hh.nodupSubs

theorem Linked.addBase (hh : h.Linked) (name base : String) : (h.addBase name base).Linked := by
  by_cases hknown : base ∈ h.directSupers name
  · rwa [Hierarchy.addBase, if_pos hknown]
  -- The edge is entered at the end of one list on either side, and all other lists stay.
  · have hsubs : ∀ b, ((h.addBase name base).subs.get? b).getD [] =
        if b = base then (h.subs.get? b).getD [] ++ [name] else (h.subs.get? b).getD [] := by
      intro b
      rw [Hierarchy.addBase, if_neg hknown]
      simp only [Table.get?_insert, eq_comm (a := base)]
      split
      · rename_i hb
        rw [hb, Option.getD_some]
      · rfl
    have hsupers : ∀ c, (h.addBase name base).directSupers c =
        if c = name then h.directSupers c ++ [base] else h.directSupers c := by
      intro c
      rw [directSupers_addBase]
      by_cases hc : c = name
      · simp [hc, hknown]
      · simp [hc]
    constructor
    · intro b c
      have hconverse := hh.converse b c
      rw [mem_directSubs] at hconverse ⊢
      rw [hsubs, hsupers]
      split <;> split <;> simp_all
    · intro c
      rw [hsupers]
      split
      · rename_i hc
        subst hc
        exact List.nodup_append.mpr ⟨hh.nodupSupers c, List.nodup_singleton base, by
          rintro x hx y hy rfl
          exact hknown (List.mem_singleton.mp hy ▸ hx)⟩
      · exact hh.nodupSupers c
    · intro b
      rw [hsubs]
      split
      · rename_i hb
        subst hb
        refine List.nodup_append.mpr ⟨hh.nodupSubs b, List.nodup_singleton name, ?_⟩
        rintro x hx y hy rfl
        refine hknown ((hh.converse b name).mp (mem_directSubs.mpr ?_))
        exact List.mem_singleton.mp hy ▸ hx
      · exact hh.nodupSubs b

theorem Linked.register (hh : h.Linked) (c : Class Value) : (h.register c).Linked := by
  have hbases : ∀ (bases : List String) {h : Hierarchy} (name : String), h.Linked →
      (bases.foldl (fun h b => h.addBase name b) h).Linked := by
    intro bases
    induction bases with
    | nil => exact fun _ hh => hh
    | cons base bases ih => exact fun name hh => ih name (hh.addBase name base)
  unfold Hierarchy.register
  exact hbases _ _ (hh.of_edges rfl rfl)

theorem Linked.update (hh : h.Linked) (c : Class Value) : (h.update c).Linked := by
  unfold Hierarchy.update
  split
  · exact hh.of_edges rfl rfl
  · exact hh.register c

theorem Linked.afterWalk (hh : h.Linked) (name : String) : (h.afterWalk name).Linked := by
  unfold Hierarchy.afterWalk
  split
  · exact hh.of_edges rfl rfl
  · exact hh

theorem linked_empty : empty.Linked :=
  ⟨fun _ _ => iff_of_false List.not_mem_nil List.not_mem_nil, fun _ => List.nodup_nil, fun _ => List.nodup_nil⟩

inductive Change where
  | register (c : Class Value)
  | update (c : Class Value)
  /-- Asks for the superclasses of a class, which notes whether the walk is given up. -/
  | walk (name : String)

def Change.apply (h : Hierarchy) : Change → Hierarchy
  | register c => h.register c
  | update c => h.update c
  | walk name => h.afterWalk name

/-- The hierarchy that changes lead to, one after the other. -/
def built (changes : List Change) : Hierarchy := changes.foldl Change.apply empty

theorem Linked.apply (hh : h.Linked) (c : Change) : (c.apply h).Linked := by
  cases c with
  | register c => exact hh.register c
  | update c => exact hh.update c
  | walk name => exact hh.afterWalk name

theorem linked_built (changes : List Change) : (built changes).Linked := by
  unfold built
  induction changes using List.reverseRecOn with
  | nil => exact linked_empty
  | append_singleton changes c ih =>
    rw [List.foldl_append, List.foldl_cons, List.foldl_nil]
    exact ih.apply c

theorem not_stopped_of_not_truncated (hwalk : (h.afterWalk name).isTruncated name = false) :
    (h.walk name).stopped = false := by
  rw [← Bool.not_eq_true]
  intro hstopped
  unfold Hierarchy.afterWalk at hwalk
  split at hwalk
  · simp [isTruncated] at hwalk
  · rename_i hnoted
    simp_all [isTruncated]

/-- Inheriting is declaring bases, read upwards; the subclasses are what is reached by reading it downwards. -/
theorem Linked.transGen_iff (hh : h.Linked) {x y : String} :
    Relation.TransGen (Edge h.directSubs) x y ↔ Relation.TransGen h.Inherits y x := by
  have hedge : Edge h.directSubs = Function.swap h.Inherits := funext₂ fun x y => propext (hh.converse x y)
  rw [hedge, Relation.transGen_swap]

end Changes

/-- However a hierarchy is built, the bases of classes and the classes that declare a base are one relation, without
repetition. The subclasses of a class are, once each, the other classes that inherit from it through one base or
more; the superclasses of one from which no walk was given up are, once each, the other classes that it inherits from
so, and both are converse to each other. -/
theorem relations_exact (changes : List Change) :
    (∀ b c, b ∈ (built changes).directSupers c ↔ c ∈ (built changes).directSubs b) ∧
    (∀ c, ((built changes).directSupers c).Nodup ∧ ((built changes).directSubs c).Nodup) ∧
    (∀ c, ((built changes).subclasses c).Nodup ∧
      ∀ x, x ∈ (built changes).subclasses c ↔ x ≠ c ∧ Relation.TransGen (built changes).Inherits x c) ∧
    ∀ c, ((built changes).afterWalk c).isTruncated c = false →
      ((built changes).superclasses c).Nodup ∧
      (∀ x, x ∈ (built changes).superclasses c ↔ x ≠ c ∧ Relation.TransGen (built changes).Inherits c x) ∧
      ∀ x, x ∈ (built changes).superclasses c ↔ c ∈ (built changes).subclasses x := by
  have hh := linked_built changes
  generalize built changes = h at hh ⊢
  have hsubs : ∀ c x, x ∈ h.subclasses c ↔ x ≠ c ∧ Relation.TransGen h.Inherits x c := by
    intro c x
    rw [(hh.search_subclasses c).mem_iff, hh.transGen_iff]
  refine ⟨fun b c => (hh.converse b c).symm, fun c => ⟨hh.nodupSupers c, ?_⟩,
    fun c => ⟨(hh.search_subclasses c).nodup, hsubs c⟩, fun c hwalk => ?_⟩
  · exact (Names.pairwise_sort (hh.nodupSubs c)).imp fun hlt => ne_of_lt hlt
  · have hsearch := (visits_superclasses (not_stopped_of_not_truncated hwalk)).search
    refine ⟨hsearch.nodup, fun x => hsearch.mem_iff, fun x => ?_⟩
    rw [hsearch.mem_iff, hsubs]
    exact and_congr_left' ne_comm

/-- Two classes of one base with a class below both, from which their base is derived in turn. -/
def circularDiamond : List Change :=
  [.register ⟨"B", ["A"], [], []⟩, .register ⟨"C", ["A"], [], []⟩, .register ⟨"D", ["B", "C"], [], []⟩, .walk "D",
    .update ⟨"A", ["D"], [], []⟩]

theorem relations_exact_circularDiamond :
    ((built circularDiamond).afterWalk "D").isTruncated "D" = false ∧
      (built circularDiamond).superclasses "D" = ["B", "A", "C"] ∧
      ("D" ∈ (built circularDiamond).subclasses "A" ∧ "D" ∉ (built circularDiamond).superclasses "D") := by
  have hwalk : ((built circularDiamond).afterWalk "D").isTruncated "D" = false := by decide +kernel
  have hfound : (built circularDiamond).superclasses "D" = ["B", "A", "C"] := by decide +kernel
  obtain ⟨-, hmem, hconverse⟩ := (relations_exact circularDiamond).2.2.2 "D" hwalk
  exact ⟨hwalk, hfound, (hconverse "A").mp (by simp [hfound]), fun h => ((hmem "D").mp h).1 rfl⟩

end Hierarchy

end AbstractFlow
