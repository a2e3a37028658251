import AbstractFlow.Hierarchy
import Mathlib.Data.List.Induction
import Mathlib.Data.Set.Insert
import Mathlib.Logic.Relation

/-! # Superclasses found by a walk

A walk visits names depth first and passes over what it has seen. Whatever it finds is inherited from; a walk that
is not given up finds all of it. What such a walk finds, and in which order, is fixed by the names and by what was
seen before: a walk that has seen more, without anything new behind it, leaves just that out.
-/
namespace AbstractFlow

namespace Hierarchy

abbrev Edge (edges : String → List String) (x y : String) : Prop := y ∈ edges x

section Visit

variable {edges : String → List String} {start next : String} {names : List String} {w : Walk} {depth : Nat}

@[simp] theorem visit_nil : visit edges start depth [] w = w := by
  rw [visit, List.foldl_nil]

theorem visit_stopped (h : w.stopped = true) : visit edges start depth names w = w := by
  induction names with
  | nil => exact visit_nil
  | cons next names ih => rwa [visit, List.foldl_cons, h, Bool.true_or, Bool.true_or, if_pos rfl, ← visit]

theorem visit_pass (h : next = start ∨ next ∈ w.found) :
    visit edges start depth (next :: names) w = visit edges start depth names w := by
  have hpass : (w.stopped || decide (next = start) || decide (next ∈ w.found)) = true := by
    rcases h with h | h <;> simp [h]
  rw [visit, List.foldl_cons, hpass, if_pos rfl, ← visit]

theorem visit_enter (hrun : w.stopped = false) (hnew : ¬ (next = start ∨ next ∈ w.found)) :
    visit edges start depth (next :: names) w = visit edges start depth names
      (match depth with
        | 0 => ⟨w.found ++ [next], true⟩
        | depth + 1 => visit edges start depth (edges next) ⟨w.found ++ [next], false⟩) := by
  obtain ⟨hstart, hfound⟩ := not_or.mp hnew
  have hstep : visit edges start depth (next :: names) w = visit edges start depth names
      (if (w.stopped || decide (next = start) || decide (next ∈ w.found)) = true then w
        else match depth with
          | 0 => ⟨w.found ++ [next], true⟩
          | depth + 1 => visit edges start depth (edges next) ⟨w.found ++ [next], w.stopped⟩) := by
    cases depth <;> rfl
  rw [hstep, if_neg (by simp [hrun, hstart, hfound]), hrun]

/-- What holds of passing over a name, of giving up, and of entering a name, holds of every walk: the induction is
on the depth left, and at each depth on the names. -/
theorem visit_induction {P : List String → Walk → Walk → Prop} (nil : ∀ w, P [] w w)
    (stopped : ∀ {names w}, w.stopped = true → P names w w)
    (pass : ∀ {next names w w'}, next = start ∨ next ∈ w.found → P names w w' → P (next :: names) w w')
    (last : ∀ {next names w}, ¬ (next = start ∨ next ∈ w.found) → P (next :: names) w ⟨w.found ++ [next], true⟩)
    (enter : ∀ {next names w mid w'}, w.stopped = false → ¬ (next = start ∨ next ∈ w.found) →
      P (edges next) ⟨w.found ++ [next], false⟩ mid → P names mid w' → P (next :: names) w w') :
    P names w (visit edges start depth names w) := by
  -- the names of one depth, given what entering one of them leads to
  have hnames : ∀ depth, (∀ {next names w}, w.stopped = false → ¬ (next = start ∨ next ∈ w.found) →
      (∀ w, P names w (visit edges start depth names w)) →
        P (next :: names) w (visit edges start depth (next :: names) w)) →
      ∀ names w, P names w (visit edges start depth names w) := by
    intro depth henter names
    induction names with
    | nil =>
      intro w
      rw [visit_nil]
      exact nil w
    | cons next names ih =>
      intro w
      by_cases hnew : next = start ∨ next ∈ w.found
      · rw [visit_pass hnew]
        exact pass hnew (ih w)
      · cases hrun : w.stopped with
        | true =>
          rw [visit_stopped hrun]
          exact stopped hrun
        | false => exact henter hrun hnew ih
  induction depth generalizing names w with
  | zero =>
    refine hnames 0 (fun hrun hnew _ => ?_) names w
    rw [visit_enter hrun hnew, visit_stopped rfl]
    exact last hnew
  | succ depth ih =>
    refine hnames (depth + 1) (fun hrun hnew hrest => ?_) names w
    rw [visit_enter hrun hnew]
    exact enter hrun hnew ih (hrest _)

/-- Whatever a walk finds is reached from the names it visits, also when it is given up. -/
theorem reached_of_mem_visit {x : String} (hx : x ∈ (visit edges start depth names w).found) :
    x ∈ w.found ∨ ∃ n ∈ names, Relation.ReflTransGen (Edge edges) n x := by
  refine visit_induction
    (P := fun names w w' => x ∈ w'.found → x ∈ w.found ∨ ∃ n ∈ names, Relation.ReflTransGen (Edge edges) n x)
    (fun w hx => .inl hx) (fun _ hx => .inl hx) ?_ ?_ ?_ hx
  · intro next names w w' _ ih hx
    exact (ih hx).imp_right fun ⟨n, hn, hreach⟩ => ⟨n, List.mem_cons_of_mem _ hn, hreach⟩
  · intro next names w _ hx
    rcases List.mem_append.mp hx with hx | hx
    · exact .inl hx
    · exact .inr ⟨next, List.mem_cons_self, List.mem_singleton.mp hx ▸ .refl⟩
  · intro next names w mid w' _ _ ihbelow ih hx
    rcases ih hx with hx | ⟨n, hn, hreach⟩
    · rcases ihbelow hx with hx | ⟨n, hn, hreach⟩
      · rcases List.mem_append.mp hx with hx | hx
        · exact .inl hx
        · exact .inr ⟨next, List.mem_cons_self, List.mem_singleton.mp hx ▸ .refl⟩
      · exact .inr ⟨next, List.mem_cons_self, .head hn hreach⟩
    · exact .inr ⟨n, List.mem_cons_of_mem _ hn, hreach⟩

/-- What is found, in order, when names and all that they lead to are visited depth first and what has been seen is
passed over. -/
inductive Visits (edges : String → List String) : Set String → List String → List String → Prop
  | nil (seen : Set String) : Visits edges seen [] []
  | pass {seen : Set String} {next : String} {names out : List String} :
    next ∈ seen → Visits edges seen names out → Visits edges seen (next :: names) out
  | enter {seen : Set String} {next : String} {names below out : List String} : next ∉ seen →
    Visits edges (insert next seen) (edges next) below →
    Visits edges (insert next seen ∪ {x | x ∈ below}) names out →
    Visits edges seen (next :: names) (next :: (below ++ out))

/-- A walk that is not given up visits depth first, the class it starts from being seen. -/
theorem visits_of_visit (h : (visit edges start depth names w).stopped = false) :
    ∃ out, (visit edges start depth names w).found = w.found ++ out ∧
      Visits edges (insert start {x | x ∈ w.found}) names out := by
  -- A walk that is not given up in the end was not given up on the way.
  refine (visit_induction
    (P := fun names w w' => w'.stopped = false → w.stopped = false ∧ ∃ out, w'.found = w.found ++ out ∧
      Visits edges (insert start {x | x ∈ w.found}) names out) ?_ ?_ ?_ ?_ ?_ h).2
  · intro w hrun
    exact ⟨hrun, [], (List.append_nil _).symm, .nil _⟩
  · intro names w hstopped hrun
    rw [hstopped] at hrun
    cases hrun
  · rintro next names w w' hseen ih hrun
    obtain ⟨hw, out, hout, hvisits⟩ := ih hrun
    exact ⟨hw, out, hout, .pass hseen hvisits⟩
  · intro next names w _ hrun
    cases hrun
  · intro next names w mid w' hw hnew ihbelow ih hrun
    obtain ⟨hmid, out, hout, hvisits⟩ := ih hrun
    obtain ⟨-, below, hbelow, hvisitsBelow⟩ := ihbelow hmid
    have hentered : insert start {x | x ∈ w.found ++ [next]} =
        insert next (insert start {x : String | x ∈ w.found}) := by
      ext x
      simp only [List.mem_append, List.mem_singleton, Set.mem_insert_iff, Set.mem_ofPred_eq]
      tauto
    have hseen : insert start {x | x ∈ mid.found} =
        insert next (insert start {x : String | x ∈ w.found}) ∪ {x | x ∈ below} := by
      rw [← hentered, hbelow]
      ext x
      simp only [List.mem_append, Set.mem_insert_iff, Set.mem_union, Set.mem_ofPred_eq]
      tauto
    refine ⟨hw, next :: (below ++ out), by simp [hout, hbelow], .enter hnew ?_ ?_⟩
    · exact hentered ▸ hvisitsBelow
    · exact hseen ▸ hvisits

namespace Visits

variable {seen : Set String} {out names' out' left : List String} {x y : String}

theorem unique (h : Visits edges seen names out) (h' : Visits edges seen names out') : out = out' := by
  induction h generalizing out' with
  | nil => cases h'; rfl
  | pass hseen _ ih =>
    cases h' with
    | pass _ h' => exact ih h'
    | enter hnew => exact absurd hseen hnew
  | enter hnew _ _ ihbelow ih =>
    cases h' with
    | pass hseen => exact absurd hseen hnew
    | enter _ hbelow' h' =>
      obtain rfl := ihbelow hbelow'
      rw [ih h']

theorem append (h : Visits edges seen names out) (h' : Visits edges (seen ∪ {x | x ∈ out}) names' out') :
    Visits edges seen (names ++ names') (out ++ out') := by
  induction h generalizing out' with
  | nil => simpa using h'
  | pass hseen _ ih => exact .pass hseen (ih h')
  | @enter seen next names below out hnew hbelow hrest _ ih =>
    rw [List.cons_append, List.cons_append, List.append_assoc]
    refine .enter hnew hbelow (ih ?_)
    have hsame : insert next seen ∪ {x | x ∈ below} ∪ {x | x ∈ out} = seen ∪ {x | x ∈ next :: (below ++ out)} := by
      ext x
      simp only [Set.mem_union, Set.mem_insert_iff, Set.mem_ofPred_eq, List.mem_cons, List.mem_append]
      tauto
    rwa [hsame]

theorem closed (h : Visits edges seen names out) :
    (∀ n ∈ names, n ∈ seen ∨ n ∈ out) ∧ ∀ x ∈ out, ∀ y ∈ edges x, y ∈ seen ∨ y ∈ out := by
  induction h with
  | nil => simp
  | pass hseen _ ih => exact ⟨List.forall_mem_cons.mpr ⟨.inl hseen, ih.1⟩, ih.2⟩
  | @enter seen next names below out hnew _ _ ihbelow ih =>
    have hin : ∀ {y}, y ∈ insert next seen ∪ {x | x ∈ below} ∨ y ∈ out → y ∈ seen ∨ y ∈ next :: (below ++ out) := by
      intro y
      simp only [Set.mem_union, Set.mem_insert_iff, Set.mem_ofPred_eq, List.mem_cons, List.mem_append]
      tauto
    have hfirst : ∀ {y}, y ∈ insert next seen ∨ y ∈ below → y ∈ seen ∨ y ∈ next :: (below ++ out) :=
      fun hy => hin (.inl hy)
    refine ⟨List.forall_mem_cons.mpr ⟨.inr List.mem_cons_self, fun n hn => hin (ih.1 n hn)⟩, fun x hx y hy => ?_⟩
    rcases List.mem_cons.mp hx with rfl | hx
    · exact hfirst (ihbelow.1 y hy)
    · rcases List.mem_append.mp hx with hx | hx
      · exact hfirst (ihbelow.2 x hx y hy)
      · exact hin (ih.2 x hx y hy)

/-- If nothing but what is listed lies behind what has been seen, all that the names lead to is listed. -/
theorem mem_of_reached (h : Visits edges seen names out) (hseen : ∀ x ∈ seen, ∀ y ∈ edges x, y ∈ seen ∨ y ∈ out)
    (hy : y ∈ names) (hreach : Relation.ReflTransGen (Edge edges) y x) : x ∈ seen ∨ x ∈ out := by
  induction hreach with
  | refl => exact h.closed.1 y hy
  | tail _ hedge ih => exact ih.elim (hseen _ · _ hedge) (h.closed.2 _ · _ hedge)

/-- Names that lead nowhere else, but to what has been seen, lead only to each other. -/
theorem subset_of_closed (h : Visits edges seen names out) (hnames : ∀ n ∈ names, n ∈ seen ∨ n ∈ left)
    (hleft : ∀ x ∈ left, ∀ y ∈ edges x, y ∈ seen ∨ y ∈ left) : out ⊆ left := by
  induction h with
  | nil => exact List.nil_subset _
  | pass _ _ ih => exact ih (List.forall_mem_cons.mp hnames).2 hleft
  | @enter seen next names below out hnew _ _ ihbelow ih =>
    obtain ⟨hnext, hnames⟩ := List.forall_mem_cons.mp hnames
    have hnext := hnext.resolve_left hnew
    have hbelow := ihbelow (fun y hy => (hleft next hnext y hy).imp_left .inr)
      fun x hx y hy => (hleft x hx y hy).imp_left .inr
    have hout := ih (fun n hn => (hnames n hn).imp_left fun h => .inl (.inr h))
      fun x hx y hy => (hleft x hx y hy).imp_left fun h => .inl (.inr h)
    exact List.cons_subset.mpr ⟨hnext, List.append_subset.mpr ⟨hbelow, hout⟩⟩

/-- Having seen names that lead nowhere else takes just these names off the list. -/
theorem filter (h : Visits edges seen names out) (hleft : ∀ x ∈ left, ∀ y ∈ edges x, y ∈ seen ∨ y ∈ left) :
    Visits edges (seen ∪ {x | x ∈ left}) names (out.filter (· ∉ left)) := by
  induction h with
  | nil => exact .nil _
  | pass hseen _ ih => exact .pass (.inl hseen) (ih hleft)
  | @enter seen next names below out hnew hbelow _ ihbelow ih =>
    have hbelowLeft : ∀ x ∈ left, ∀ y ∈ edges x, y ∈ insert next seen ∨ y ∈ left :=
      fun x hx y hy => (hleft x hx y hy).imp_left .inr
    have hrest := ih fun x hx y hy => (hbelowLeft x hx y hy).imp_left .inl
    -- A name that leads nowhere else takes with it all that is found below it.
    by_cases hnext : next ∈ left
    · have hsub : below ⊆ left := hbelow.subset_of_closed (hleft next hnext · · |>.imp_left .inr) hbelowLeft
      have hnone : below.filter (· ∉ left) = [] := List.filter_eq_nil_iff.mpr fun x hx => by simpa using hsub hx
      have hsame : insert next seen ∪ {x | x ∈ below} ∪ {x | x ∈ left} = seen ∪ {x | x ∈ left} := by
        ext x
        simp only [Set.mem_union, Set.mem_insert_iff, Set.mem_ofPred_eq]
        constructor
        · rintro (((rfl | hx) | hx) | hx)
          exacts [.inr hnext, .inl hx, .inr (hsub hx), .inr hx]
        · tauto
      rw [List.filter_cons_of_neg (by simpa using hnext), List.filter_append, hnone, List.nil_append]
      exact .pass (.inr hnext) (hsame ▸ hrest)
    · have hsame : insert next seen ∪ {x | x ∈ left} = insert next (seen ∪ {x | x ∈ left}) := Set.insert_union ..
      have hmore : insert next seen ∪ {x | x ∈ below} ∪ {x | x ∈ left} =
          insert next (seen ∪ {x | x ∈ left}) ∪ {x | x ∈ below.filter (· ∉ left)} := by
        ext x
        simp only [Set.mem_union, Set.mem_insert_iff, Set.mem_ofPred_eq, List.mem_filter, decide_eq_true_eq]
        tauto
      rw [List.filter_cons_of_pos (by simpa using hnext), List.filter_append]
      exact .enter (by simp [hnew, hnext]) (hsame ▸ ihbelow hbelowLeft) (hmore ▸ hrest)

/-- Having seen names that are not visited anyway changes nothing. -/
theorem of_not_mem (h : Visits edges seen names out) (hleft : ∀ x ∈ left, x ∉ out) :
    Visits edges (seen ∪ {x | x ∈ left}) names out := by
  induction h with
  | nil => exact .nil _
  | pass hseen _ ih => exact .pass (.inl hseen) (ih hleft)
  | @enter seen next names below out hnew _ _ ihbelow ih =>
    have hsame : insert next seen ∪ {x | x ∈ left} = insert next (seen ∪ {x | x ∈ left}) := Set.insert_union ..
    have hmore : insert next seen ∪ {x | x ∈ below} ∪ {x | x ∈ left} =
        insert next (seen ∪ {x | x ∈ left}) ∪ {x | x ∈ below} := by
      rw [Set.union_right_comm, hsame]
    have hnext : next ∉ left := fun hx => hleft next hx List.mem_cons_self
    have hbelow := ihbelow fun x hx hmem => hleft x hx (by simp [hmem])
    have hrest := ih fun x hx hmem => hleft x hx (by simp [hmem])
    exact .enter (by simp [hnew, hnext]) (hsame ▸ hbelow) (hmore ▸ hrest)

theorem findSome?_filter_of_none {α : Type} {f : String → Option α} {p : String → Bool} {l : List String}
    (hnone : ∀ x, p x = false → f x = none) : (l.filter p).findSome? f = l.findSome? f := by
  induction l with
  | nil => rfl
  | cons x l ih =>
    cases hx : p x with
    | true => rw [List.filter_cons_of_pos hx, List.findSome?_cons, List.findSome?_cons, ih]
    | false => rw [List.filter_cons_of_neg (by simp [hx]), List.findSome?_cons, hnone x hx, ih]

theorem exists_findSome? {α : Type} {line : String → List String} (f : String → Option α)
    (hline : ∀ n ∈ names, Visits edges ∅ [n] (line n)) : ∃ out, Visits edges ∅ names out ∧
      (∀ x ∈ out, ∃ n ∈ names, x ∈ line n) ∧ out.findSome? f = names.findSome? fun n => (line n).findSome? f := by
  induction names using List.reverseRecOn with
  | nil => exact ⟨[], .nil _, by simp, rfl⟩
  | append_singleton names n ih =>
    obtain ⟨out, hvisits, hout, hfind⟩ := ih fun m hm => hline m (List.mem_append_left _ hm)
    have hlast := hline n (List.mem_append_right _ List.mem_cons_self)
    have hrest := hlast.filter hvisits.closed.2
    refine ⟨out ++ (line n).filter (· ∉ out), hvisits.append hrest, fun x hx => ?_, ?_⟩
    · rcases List.mem_append.mp hx with hx | hx
      · obtain ⟨m, hm, hx⟩ := hout x hx
        exact ⟨m, List.mem_append_left _ hm, hx⟩
      · exact ⟨n, List.mem_append_right _ List.mem_cons_self, (List.mem_filter.mp hx).1⟩
    · rw [List.findSome?_append, List.findSome?_append, ← hfind]
      cases hfound : out.findSome? f with
      | some v => rfl
      | none =>
        have hnone : ∀ x ∈ out, f x = none := List.findSome?_eq_none_iff.mp hfound
        rw [findSome?_filter_of_none fun x hx => hnone x (by simpa using hx)]
        simp

end Visits

end Visit

variable {h : Hierarchy} {name sub super : String}

abbrev Inherits (h : Hierarchy) : String → String → Prop := Edge h.directSupers

theorem inherits_of_mem_superclasses (hmem : super ∈ h.superclasses name) :
    Relation.TransGen h.Inherits name super := by
  obtain hnil | ⟨base, hbase, hreach⟩ := reached_of_mem_visit hmem
  · cases hnil
  · exact .head' hbase hreach

theorem visits_superclasses (hwalk : (h.walk name).stopped = false) :
    Visits h.directSupers {name} (h.directSupers name) (h.superclasses name) := by
  obtain ⟨out, hout, hvisits⟩ := visits_of_visit hwalk
  rw [superclasses, walk, hout, List.nil_append]
  simpa using hvisits

theorem visits_mro (hwalk : (h.walk name).stopped = false) : Visits h.directSupers ∅ [name] (h.mro name) := by
  have hbelow : Visits h.directSupers (insert name ∅) (h.directSupers name) (h.superclasses name) := by
    simpa using visits_superclasses hwalk
  simpa [mro] using Visits.enter (Set.notMem_empty name) hbelow (.nil _)

/-- A walk that is not given up finds everything that a class inherits from. -/
theorem mem_mro_of_inherits (hwalk : (h.walk name).stopped = false)
    (hreach : Relation.ReflTransGen h.Inherits name super) : super ∈ h.mro name :=
  ((visits_mro hwalk).mem_of_reached (by simp) List.mem_cons_self hreach).resolve_left (Set.notMem_empty _)

theorem isSubclass_iff_mem : h.isSubclass sub super = true ↔ super ∈ h.mro sub := by
  simp [isSubclass, mro, @eq_comm _ sub super]

/-- What is taken for a subclass is the class itself or inherits from it, through any number of bases. -/
theorem inherits_of_isSubclass (hsub : h.isSubclass sub super = true) :
    Relation.ReflTransGen h.Inherits sub super := by
  rcases List.mem_cons.mp (isSubclass_iff_mem.mp hsub) with rfl | hmem
  · exact .refl
  · exact (inherits_of_mem_superclasses hmem).to_reflTransGen

theorem isSubclass_iff (hwalk : (h.walk sub).stopped = false) :
    h.isSubclass sub super = true ↔ Relation.ReflTransGen h.Inherits sub super :=
  ⟨inherits_of_isSubclass, fun hreach => isSubclass_iff_mem.mpr (mem_mro_of_inherits hwalk hreach)⟩

/-- Asking the superclasses of a class in order finds what asking its bases one by one finds, each with its own
superclasses, unless the class inherits from itself. -/
theorem findSome?_superclasses {α : Type} (f : String → Option α) (hwalk : (h.walk name).stopped = false)
    (hbases : ∀ base ∈ h.directSupers name, (h.walk base).stopped = false ∧ name ∉ h.mro base) :
    (h.superclasses name).findSome? f = (h.directSupers name).findSome? fun base => (h.mro base).findSome? f := by
  obtain ⟨out, hvisits, hout, hfind⟩ := Visits.exists_findSome? f fun base hbase => visits_mro (hbases base hbase).1
  have hnot : ∀ x ∈ [name], x ∉ out := by
    rintro x hx hmem
    obtain rfl := List.mem_singleton.mp hx
    obtain ⟨base, hbase, hmem⟩ := hout x hmem
    exact (hbases base hbase).2 hmem
  have hsame : ∅ ∪ {x | x ∈ [name]} = ({name} : Set String) := by simp
  rw [(visits_superclasses hwalk).unique (hsame ▸ hvisits.of_not_mem hnot), hfind]

end Hierarchy

end AbstractFlow
