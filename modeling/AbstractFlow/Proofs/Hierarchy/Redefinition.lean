import AbstractFlow.Proofs.Hierarchy.Relations

/-! # Classes that are defined several times

A class that is defined again keeps its bases if its text lists the same ones, and otherwise gets those of both
definitions in their order. What it has in the end is the same for all orders of its definitions, with two exceptions:
no bases and a base without a name have one text, so that whichever comes first is kept; and a base is repeated as
often as in the first definition.
-/
namespace AbstractFlow

namespace Names

variable {x : String} {names more : List String}

theorem perm_sort (names : List String) : (sort names).Perm names := sort_eq names ▸ Sorted.perm_sort names

theorem ordered_sort (names : List String) : (sort names).Pairwise (· ≤ ·) := sort_eq names ▸ Sorted.ordered_sort names

theorem repeats_foldl_append :
    max 1 ((more.foldl (fun acc b => if b ∈ acc then acc else acc ++ [b]) names).count x) = max 1 (names.count x) := by
  induction more generalizing names with
  | nil => rfl
  | cons n rest ih =>
    rw [List.foldl_cons, ih]
    split
    · rfl
    · rename_i hn
      rw [List.count_append, List.count_singleton]
      split
      · rename_i hx
        rw [beq_iff_eq] at hx
        rw [← hx, List.count_eq_zero_of_not_mem hn]
        rfl
      · rfl

end Names

namespace Class

open Names

variable {bs bs' cs : List String} {rest rest' lists : List (List String)} {x : String}

section TwoLists

theorem text_eq_iff_of_commaFree (hb : CommaFree bs) (hc : CommaFree cs) :
    ",".intercalate bs = ",".intercalate cs ↔ bs = cs ∨ bs = [] ∧ cs = [""] ∨ bs = [""] ∧ cs = [] := by
  have hempty : ∀ {ds : List String}, CommaFree ds → ds ≠ [] → ",".intercalate ds = "" → ds = [""] :=
    fun hd hne h => eq_of_text_eq hd (by decide) hne (by decide) h
  constructor
  · intro h
    by_cases hbne : bs = []
    · subst hbne
      by_cases hcne : cs = []
      · exact .inl hcne.symm
      · exact .inr (.inl ⟨rfl, hempty hc hcne h.symm⟩)
    · by_cases hcne : cs = []
      · subst hcne
        exact .inr (.inr ⟨hempty hb hbne h, rfl⟩)
      · exact .inl (eq_of_text_eq hb hc hbne hcne h)
  · rintro (rfl | ⟨rfl, rfl⟩ | ⟨rfl, rfl⟩) <;> rfl

/-- A list of bases is kept if the other one is the same, or if it is empty and the other one has a base without a
name. -/
theorem joinBases_of_commaFree (hb : CommaFree bs) (hc : CommaFree cs) :
    joinBases bs cs = if bs = cs ∨ bs = [] ∧ cs = [""] then bs else allBases bs cs := by
  have htext := text_eq_iff_of_commaFree hb hc
  unfold joinBases
  split
  · rename_i h
    rcases htext.mp h with h | h | ⟨rfl, rfl⟩
    · rw [if_pos (.inl h)]
    · rw [if_pos (.inr h)]
    · rfl
  · rename_i h
    rw [if_neg fun h' => h (htext.mpr (h'.imp_right .inl)), allBases]

theorem mem_of_mem_joinBases (h : x ∈ joinBases bs cs) : x ∈ bs ∨ x ∈ cs := by
  unfold joinBases at h
  split at h
  · exact .inl h
  · exact mem_allBases.mp h

theorem commaFree_joinBases (hb : CommaFree bs) (hc : CommaFree cs) : CommaFree (joinBases bs cs) :=
  fun n hn => (mem_of_mem_joinBases hn).elim (hb n) (hc n)

theorem right_subset_joinBases (hb : CommaFree bs) (hc : CommaFree cs) (hne : bs ≠ [] ∨ cs ≠ [""]) :
    cs ⊆ joinBases bs cs := by
  intro x hx
  rw [joinBases_of_commaFree hb hc]
  split
  · rename_i h
    rcases h with rfl | ⟨hbs, hcs⟩
    · exact hx
    · exact (hne.elim (· hbs) (· hcs)).elim
  · exact mem_allBases.mpr (.inr hx)

theorem repeats_joinBases : max 1 ((joinBases bs cs).count x) = max 1 (bs.count x) := by
  unfold joinBases
  split
  · rfl
  · rw [(perm_sort _).count_eq, repeats_foldl_append]

theorem ordered_joinBases (h : bs.Pairwise (· ≤ ·)) : (joinBases bs cs).Pairwise (· ≤ ·) := by
  unfold joinBases
  split
  · exact h
  · exact ordered_sort _

theorem ordered_joinBases_of_ne (hb : CommaFree bs) (hc : CommaFree cs) (hne : bs ≠ cs) :
    (joinBases bs cs).Pairwise (· ≤ ·) := by
  rw [joinBases_of_commaFree hb hc]
  split
  · rename_i h
    obtain ⟨rfl, -⟩ := h.resolve_left hne
    exact .nil
  · exact ordered_sort _

end TwoLists

section ManyLists

theorem subset_foldl_joinBases : bs ⊆ rest.foldl joinBases bs := by
  induction rest generalizing bs with
  | nil => exact List.Subset.refl _
  | cons cs rest ih => exact List.Subset.trans Hierarchy.subset_joinBases ih

theorem mem_of_mem_foldl (h : x ∈ rest.foldl joinBases bs) : x ∈ bs ∨ ∃ cs ∈ rest, x ∈ cs := by
  induction rest generalizing bs with
  | nil => exact .inl h
  | cons cs rest ih =>
    rcases ih h with h | ⟨ds, hds, hx⟩
    · exact (mem_of_mem_joinBases h).imp_right fun hx => ⟨cs, List.mem_cons_self, hx⟩
    · exact .inr ⟨ds, List.mem_cons_of_mem _ hds, hx⟩

/-- Only a base without a name may be lost, and only if there are no bases before it. -/
theorem subset_foldl_of_mem (hb : CommaFree bs) (hrest : ∀ cs ∈ rest, CommaFree cs) (hcs : cs ∈ rest)
    (hne : bs ≠ [] ∨ cs ≠ [""]) : cs ⊆ rest.foldl joinBases bs := by
  induction rest generalizing bs with
  | nil => cases hcs
  | cons ds rest ih =>
    obtain ⟨hd, hrest⟩ := List.forall_mem_cons.mp hrest
    rcases List.mem_cons.mp hcs with rfl | hcs
    · exact List.Subset.trans (right_subset_joinBases hb hd hne) subset_foldl_joinBases
    · refine ih (commaFree_joinBases hb hd) hrest hcs (hne.imp_left fun hbs hjoin => hbs ?_)
      exact List.subset_nil.mp (hjoin ▸ Hierarchy.subset_joinBases)

theorem repeats_foldl_joinBases : max 1 ((rest.foldl joinBases bs).count x) = max 1 (bs.count x) := by
  induction rest generalizing bs with
  | nil => rfl
  | cons cs rest ih => rw [List.foldl_cons, ih, repeats_joinBases]

theorem ordered_foldl_joinBases (h : bs.Pairwise (· ≤ ·)) : (rest.foldl joinBases bs).Pairwise (· ≤ ·) := by
  induction rest generalizing bs with
  | nil => exact h
  | cons cs rest ih => exact ih (ordered_joinBases h)

/-- The bases are in their order as soon as two lists differ. -/
theorem ordered_foldl_of_ne (hb : CommaFree bs) (hrest : ∀ cs ∈ rest, CommaFree cs) (hcs : cs ∈ rest)
    (hne : bs ≠ cs) : (rest.foldl joinBases bs).Pairwise (· ≤ ·) := by
  induction rest with
  | nil => cases hcs
  | cons ds rest ih =>
    obtain ⟨hd, hrest⟩ := List.forall_mem_cons.mp hrest
    rw [List.foldl_cons]
    by_cases hds : bs = ds
    · rw [← hds, joinBases, if_pos rfl]
      exact ih hrest ((List.mem_cons.mp hcs).resolve_left fun h => hne (hds.trans h.symm))
    · exact ordered_foldl_joinBases (ordered_joinBases_of_ne hb hd hds)

/-- Among some lists of bases there is an empty one that may come before the only ones with a base without a name. -/
def Swallows (lists : List (List String)) : Prop :=
  [] ∈ lists ∧ [""] ∈ lists ∧ ∀ bs ∈ lists, "" ∈ bs → bs = [""]

/-- No list repeats a base more often than another one; a base that is missing is not repeated. -/
def EquallyOften (lists : List (List String)) : Prop :=
  ∀ bs ∈ lists, ∀ cs ∈ lists, ∀ x, max 1 (bs.count x) = max 1 (cs.count x)

theorem mem_foldl_joinBases (hcomma : ∀ cs ∈ bs :: rest, CommaFree cs) (hkept : ¬ Swallows (bs :: rest)) :
    x ∈ rest.foldl joinBases bs ↔ ∃ cs ∈ bs :: rest, x ∈ cs := by
  obtain ⟨hb, hrest⟩ := List.forall_mem_cons.mp hcomma
  constructor
  · intro hx
    rcases mem_of_mem_foldl hx with hx | ⟨cs, hcs, hx⟩
    · exact ⟨bs, List.mem_cons_self, hx⟩
    · exact ⟨cs, List.mem_cons_of_mem _ hcs, hx⟩
  · rintro ⟨cs, hcs, hx⟩
    rcases List.mem_cons.mp hcs with rfl | hlater
    · exact subset_foldl_joinBases hx
    by_cases hne : bs ≠ [] ∨ cs ≠ [""]
    · exact subset_foldl_of_mem hb hrest hlater hne hx
    · -- The nameless base may be lost here, but then it is in a list with other bases as well.
      obtain ⟨rfl, rfl⟩ : bs = [] ∧ cs = [""] := by simpa only [ne_eq, not_or, not_not] using hne
      obtain rfl := List.mem_singleton.mp hx
      obtain ⟨ds, hds, hmem, hother⟩ : ∃ ds ∈ [] :: rest, "" ∈ ds ∧ ds ≠ [""] := by
        by_contra hall
        push Not at hall
        exact hkept ⟨List.mem_cons_self, hcs, hall⟩
      rcases List.mem_cons.mp hds with rfl | hds
      · cases hmem
      · exact subset_foldl_of_mem hb hrest hds (.inr hother) hmem

theorem foldl_joinBases_nil (h : ∀ cs ∈ rest, cs = [""]) : rest.foldl joinBases [] = [] := by
  induction rest with
  | nil => rfl
  | cons cs rest ih =>
    obtain ⟨rfl, hrest⟩ := List.forall_mem_cons.mp h
    exact ih hrest

/-- A base is listed as often as in the first list, and once if that has it not. -/
theorem count_foldl_joinBases (h : x ∈ rest.foldl joinBases bs) :
    (rest.foldl joinBases bs).count x = max 1 (bs.count x) := by
  have hcount : max 1 ((rest.foldl joinBases bs).count x) = max 1 (bs.count x) := repeats_foldl_joinBases
  rw [← hcount, max_eq_right (List.count_pos_iff.mpr h)]

/-- The order of the lists does not matter if they differ, if nothing is lost and if they repeat what they have
equally often. -/
theorem foldl_joinBases_congr (hperm : (bs' :: rest').Perm (bs :: rest)) (hcomma : ∀ cs ∈ bs :: rest, CommaFree cs)
    (hkept : ¬ Swallows (bs :: rest)) (hoften : EquallyOften (bs :: rest))
    (hdiffer : ∃ cs ∈ bs :: rest, ∃ ds ∈ bs :: rest, cs ≠ ds) :
    rest'.foldl joinBases bs' = rest.foldl joinBases bs := by
  have hcomma' : ∀ cs ∈ bs' :: rest', CommaFree cs := fun cs hcs => hcomma cs (hperm.mem_iff.mp hcs)
  have hkept' : ¬ Swallows (bs' :: rest') := by simpa only [Swallows, hperm.mem_iff] using hkept
  -- A list is determined by its order and by how often it has each of its members.
  have hordered : ∀ {bs : List String} {rest : List (List String)}, (∀ cs ∈ bs :: rest, CommaFree cs) →
      (∃ cs ∈ bs :: rest, ∃ ds ∈ bs :: rest, cs ≠ ds) → (rest.foldl joinBases bs).Pairwise (· ≤ ·) := by
    intro bs rest hcomma hdiffer
    obtain ⟨hb, hrest⟩ := List.forall_mem_cons.mp hcomma
    obtain ⟨cs, hcs, hne⟩ : ∃ cs ∈ rest, bs ≠ cs := by
      by_contra hall
      push Not at hall
      obtain ⟨cs, hcs, ds, hds, hne⟩ := hdiffer
      have hsame : ∀ cs ∈ bs :: rest, bs = cs := List.forall_mem_cons.mpr ⟨rfl, hall⟩
      exact hne ((hsame cs hcs).symm.trans (hsame ds hds))
    exact ordered_foldl_of_ne hb hrest hcs hne
  have hmem : ∀ x, x ∈ rest'.foldl joinBases bs' ↔ x ∈ rest.foldl joinBases bs := by
    intro x
    rw [mem_foldl_joinBases hcomma' hkept', mem_foldl_joinBases hcomma hkept]
    simp only [hperm.mem_iff]
  have hcount : ∀ x, (rest'.foldl joinBases bs').count x = (rest.foldl joinBases bs).count x := by
    intro x
    by_cases hx : x ∈ rest.foldl joinBases bs
    · rw [count_foldl_joinBases hx, count_foldl_joinBases ((hmem x).mpr hx)]
      exact hoften bs' (hperm.mem_iff.mp List.mem_cons_self) bs List.mem_cons_self x
    · rw [List.count_eq_zero_of_not_mem hx, List.count_eq_zero_of_not_mem (mt (hmem x).mp hx)]
  refine (List.perm_iff_count.mpr hcount).eq_of_pairwise (fun _ _ _ _ => le_antisymm) (hordered hcomma' ?_)
    (hordered hcomma hdiffer)
  simpa only [hperm.mem_iff] using hdiffer

end ManyLists

end Class

namespace Hierarchy

variable {h : Hierarchy} {c : Class Value} {name x y : String} {bases : List String}

/-- Every class is known by its name, and only known classes have bases. -/
structure Noted (h : Hierarchy) : Prop where
  names : ∀ {x c}, h.class? x = some c → c.name = x
  supers : ∀ {x y}, h.Inherits x y → (h.class? x).isSome

theorem Noted.register (hh : h.Noted) (c : Class Value) : (h.register c).Noted := by
  obtain ⟨new, hname, -, hclass, hinherits⟩ := register_spec (c := c) hh.names
  constructor
  · intro x d hd
    rw [hclass] at hd
    split at hd
    · cases hd
      exact hname.trans ‹_›
    · exact hh.names hd
  · intro x y hxy
    rw [hclass]
    split
    · rfl
    · rename_i hx
      exact hh.supers (((hinherits x y).mp hxy).resolve_right fun hnew => hx hnew.1.symm)

theorem Noted.update (hh : h.Noted) (c : Class Value) : (h.update c).Noted := by
  unfold Hierarchy.update
  split
  · have hclass : ∀ x, Table.get? (h.classes.insert c.name c) x = if c.name = x then some c else h.class? x :=
      fun x => Table.get?_insert ..
    constructor
    · intro x d hd
      rw [class?, hclass] at hd
      split at hd
      · cases hd
        assumption
      · exact hh.names hd
    · intro x y hxy
      rw [class?, hclass]
      split
      · rfl
      · exact hh.supers hxy
  · exact hh.register c

theorem Noted.afterWalk (hh : h.Noted) (name : String) : (h.afterWalk name).Noted := by
  unfold Hierarchy.afterWalk
  split
  · exact ⟨hh.names, hh.supers⟩
  · exact hh

theorem noted_built (changes : List Change) : (built changes).Noted := by
  unfold built
  induction changes using List.reverseRecOn with
  | nil =>
    have hnone : ∀ x, empty.class? x = none := fun _ => rfl
    exact ⟨by simp [hnone], fun h => absurd h List.not_mem_nil⟩
  | append_singleton changes change ih =>
    rw [List.foldl_append, List.foldl_cons, List.foldl_nil]
    cases change with
    | register c => exact ih.register c
    | update c => exact ih.update c
    | walk name => exact ih.afterWalk name

theorem directSupers_of_new (changes : List Change) (hnew : (built changes).class? x = none) :
    (built changes).directSupers x = [] := by
  refine List.eq_nil_iff_forall_not_mem.mpr fun y hy => ?_
  have hknown := (noted_built changes).supers hy
  rw [hnew] at hknown
  cases hknown

def define (h : Hierarchy) (defs : List (Class Value)) : Hierarchy := defs.foldl register h

def bases? (h : Hierarchy) (name : String) : Option (List String) := (h.class? name).map (·.bases)

/-- A class is known by its name and with some bases. -/
structure Defined (h : Hierarchy) (name : String) (bases : List String) : Prop where
  known : ∃ c, h.class? name = some c ∧ c.name = name ∧ c.bases = bases
  supers : ∀ x, x ∈ h.directSupers name ↔ x ∈ bases

theorem Defined.bases?_eq (hh : h.Defined name bases) : h.bases? name = some bases := by
  obtain ⟨c, hc, -, rfl⟩ := hh.known
  rw [bases?, hc, Option.map_some]

theorem defined_register_new (hnew : h.class? c.name = none) (hsupers : h.directSupers c.name = []) :
    (h.register c).Defined c.name c.bases := by
  obtain ⟨new, hname, hbases, hclass, hinherits⟩ := register_spec (h := h) (c := c) (by simp [hnew])
  rw [hnew, Option.map_none, Option.getD_none] at hbases
  refine ⟨⟨new, (hclass _).trans (if_pos rfl), hname, hbases⟩, fun x => (hinherits _ x).trans ?_⟩
  rw [hbases, Inherits, Edge, hsupers]
  simp

theorem Defined.register (hh : h.Defined c.name bases) :
    (h.register c).Defined c.name (Class.joinBases bases c.bases) := by
  obtain ⟨known, hknown, hsame, rfl⟩ := hh.known
  obtain ⟨new, hname, hbases, hclass, hinherits⟩ := register_spec (h := h) (c := c) (by simp [hknown, hsame])
  rw [hknown, Option.map_some, Option.getD_some] at hbases
  refine ⟨⟨new, (hclass _).trans (if_pos rfl), hname, hbases⟩, fun x => (hinherits _ x).trans ?_⟩
  rw [Inherits, Edge, hh.supers, hbases]
  simp only [true_and, or_iff_right_iff_imp]
  exact fun hx => subset_joinBases hx

theorem Defined.define (hh : h.Defined name bases) {defs : List (Class Value)} (hname : ∀ c ∈ defs, c.name = name) :
    (h.define defs).Defined name ((defs.map (·.bases)).foldl Class.joinBases bases) := by
  unfold Hierarchy.define
  induction defs generalizing h bases with
  | nil => exact hh
  | cons c defs ih =>
    obtain ⟨rfl, hdefs⟩ := List.forall_mem_cons.mp hname
    exact ih hh.register hdefs

/-- The first definition of a class is kept, and the others are joined with it in turn. -/
theorem defined_define (changes : List Change) {c : Class Value} {defs : List (Class Value)}
    (hnew : (built changes).class? c.name = none) (hname : ∀ d ∈ defs, d.name = c.name) :
    ((built changes).define (c :: defs)).Defined c.name ((defs.map (·.bases)).foldl Class.joinBases c.bases) :=
  (defined_register_new hnew (directSupers_of_new changes hnew)).define hname

section AnyOrder

variable {changes : List Change} {defs defs' : List (Class Value)}

/-- A class has the same direct superclasses for all orders of its definitions. -/
def SupersAnyOrder (h : Hierarchy) (name : String) (defs : List (Class Value)) : Prop :=
  ∀ defs' : List (Class Value), defs'.Perm defs →
    ∀ x, x ∈ (h.define defs').directSupers name ↔ x ∈ (h.define defs).directSupers name

/-- The object of a class lists the same bases for all orders of its definitions. -/
def BasesAnyOrder (h : Hierarchy) (name : String) (defs : List (Class Value)) : Prop :=
  ∀ defs' : List (Class Value), defs'.Perm defs → (h.define defs').bases? name = (h.define defs).bases? name

structure NewClass (h : Hierarchy) (name : String) (defs : List (Class Value)) : Prop where
  new : h.class? name = none
  named : ∀ c ∈ defs, c.name = name
  commaFree : ∀ c ∈ defs, Names.CommaFree c.bases

theorem NewClass.perm (hh : h.NewClass name defs) (hperm : defs'.Perm defs) : h.NewClass name defs' :=
  ⟨hh.new, fun c hc => hh.named c (hperm.mem_iff.mp hc), fun c hc => hh.commaFree c (hperm.mem_iff.mp hc)⟩

theorem NewClass.defined (hh : (built changes).NewClass name (c :: defs)) :
    ((built changes).define (c :: defs)).Defined name ((defs.map (·.bases)).foldl Class.joinBases c.bases) := by
  obtain ⟨rfl, hdefs⟩ := List.forall_mem_cons.mp hh.named
  exact defined_define changes hh.new hdefs

theorem NewClass.mem_directSupers (hh : (built changes).NewClass name defs)
    (hkept : ¬ Class.Swallows (defs.map (·.bases))) :
    x ∈ ((built changes).define defs).directSupers name ↔ ∃ c ∈ defs, x ∈ c.bases := by
  cases defs with
  | nil =>
    rw [define, List.foldl_nil, directSupers_of_new changes hh.new]
    simp
  | cons c defs =>
    rw [hh.defined.supers, Class.mem_foldl_joinBases (List.forall_mem_map.mpr hh.commaFree) hkept, ← List.map_cons]
    simp only [List.mem_map, exists_exists_and_eq_and]

theorem swallows_perm (hperm : defs'.Perm defs) :
    Class.Swallows (defs'.map (·.bases)) ↔ Class.Swallows (defs.map (·.bases)) := by
  simp only [Class.Swallows, (hperm.map _).mem_iff]

/-- Where a base without a name may be lost, some order loses it and another one keeps it. -/
theorem NewClass.not_supersAnyOrder (hh : (built changes).NewClass name defs)
    (hlost : Class.Swallows (defs.map (·.bases))) : ¬ (built changes).SupersAnyOrder name defs := by
  intro horder
  obtain ⟨hempty, hunnamed, hall⟩ := hlost
  obtain ⟨c, hc, hcbases⟩ := List.mem_map.mp hempty
  obtain ⟨d, hd, hdbases⟩ := List.mem_map.mp hunnamed
  have hmem : "" ∈ ((built changes).define defs).directSupers name := by
    obtain ⟨before, after, rfl⟩ := List.append_of_mem hd
    have hperm : (d :: (before ++ after)).Perm (before ++ d :: after) := List.perm_middle.symm
    rw [← horder _ hperm, (hh.perm hperm).defined.supers]
    refine Class.subset_foldl_joinBases ?_
    rw [hdbases]
    exact List.mem_cons_self
  -- The empty definition comes first, then those with the nameless base only, and then all others.
  obtain ⟨before, after, rfl⟩ := List.append_of_mem hc
  let unnamed : Class Value → Bool := fun c => decide (c.bases = [""])
  have hperm : (c :: ((before ++ after).filter unnamed ++ (before ++ after).filter fun c => !unnamed c)).Perm
      (before ++ c :: after) :=
    ((List.filter_append_perm unnamed _).cons c).trans List.perm_middle.symm
  rw [← horder _ hperm, (hh.perm hperm).defined.supers, hcbases, List.map_append, List.foldl_append,
    Class.foldl_joinBases_nil] at hmem
  · obtain hnil | ⟨bases, hbases, hin⟩ := Class.mem_of_mem_foldl hmem
    · cases hnil
    · obtain ⟨e, he, rfl⟩ := List.mem_map.mp hbases
      have hdef : e ∈ before ++ c :: after :=
        hperm.mem_iff.mp (List.mem_cons_of_mem _ (List.mem_append_right _ he))
      have hother := (List.mem_filter.mp he).2
      have hsingle := hall e.bases (List.mem_map.mpr ⟨e, hdef, rfl⟩) hin
      simp [unnamed, hsingle] at hother
  · intro bases hbases
    obtain ⟨e, he, rfl⟩ := List.mem_map.mp hbases
    exact of_decide_eq_true (List.mem_filter.mp he).2

theorem NewClass.supersAnyOrder_iff (hh : (built changes).NewClass name defs) :
    (built changes).SupersAnyOrder name defs ↔ ¬ Class.Swallows (defs.map (·.bases)) := by
  refine ⟨fun horder hlost => hh.not_supersAnyOrder hlost horder, fun hkept defs' hperm x => ?_⟩
  rw [hh.mem_directSupers hkept, (hh.perm hperm).mem_directSupers (mt (swallows_perm hperm).mp hkept)]
  simp only [hperm.mem_iff]

theorem NewClass.supers_of_bases (hh : (built changes).NewClass name defs)
    (horder : (built changes).BasesAnyOrder name defs) : (built changes).SupersAnyOrder name defs := by
  intro defs' hperm x
  have hbases := horder defs' hperm
  cases defs with
  | nil => rw [List.perm_nil.mp hperm]
  | cons c defs =>
    cases defs' with
    | nil => exact absurd (List.nil_perm.mp hperm) (List.cons_ne_nil _ _)
    | cons c' defs' =>
      rw [hh.defined.bases?_eq, (hh.perm hperm).defined.bases?_eq, Option.some.injEq] at hbases
      rw [hh.defined.supers, (hh.perm hperm).defined.supers, hbases]

theorem NewClass.equallyOften (hh : (built changes).NewClass name defs)
    (horder : (built changes).BasesAnyOrder name defs) : Class.EquallyOften (defs.map (·.bases)) := by
  have hfirst : ∀ c ∈ defs, ∃ bases, ((built changes).define defs).bases? name = some bases ∧
      ∀ x, max 1 (bases.count x) = max 1 (c.bases.count x) := by
    intro c hc
    obtain ⟨before, after, rfl⟩ := List.append_of_mem hc
    have hperm : (c :: (before ++ after)).Perm (before ++ c :: after) := List.perm_middle.symm
    exact ⟨_, (horder _ hperm).symm.trans (hh.perm hperm).defined.bases?_eq, fun _ => Class.repeats_foldl_joinBases⟩
  refine List.forall_mem_map.mpr fun c hc => List.forall_mem_map.mpr fun d hd x => ?_
  obtain ⟨bases, hbases, hcount⟩ := hfirst c hc
  obtain ⟨bases', hbases', hcount'⟩ := hfirst d hd
  obtain rfl : bases = bases' := Option.some.inj (hbases.symm.trans hbases')
  rw [← hcount, hcount']

theorem NewClass.basesAnyOrder_iff (hh : (built changes).NewClass name defs)
    (hdiffer : ∃ c ∈ defs, ∃ d ∈ defs, c.bases ≠ d.bases) : (built changes).BasesAnyOrder name defs ↔
      ¬ Class.Swallows (defs.map (·.bases)) ∧ Class.EquallyOften (defs.map (·.bases)) := by
  constructor
  · exact fun horder => ⟨hh.supersAnyOrder_iff.mp (hh.supers_of_bases horder), hh.equallyOften horder⟩
  · rintro ⟨hkept, hoften⟩ defs' hperm
    cases defs with
    | nil => rw [List.perm_nil.mp hperm]
    | cons c defs =>
      cases defs' with
      | nil => exact absurd (List.nil_perm.mp hperm) (List.cons_ne_nil _ _)
      | cons c' defs' =>
        rw [hh.defined.bases?_eq, (hh.perm hperm).defined.bases?_eq]
        refine congrArg some (Class.foldl_joinBases_congr (hperm.map _) (List.forall_mem_map.mpr hh.commaFree) hkept
          hoften ?_)
        obtain ⟨d, hd, e, he, hne⟩ := hdiffer
        exact ⟨_, List.mem_map_of_mem hd, _, List.mem_map_of_mem he, hne⟩

/-- A new class has the same direct superclasses for all orders of its definitions exactly if none of them swallows a
base of others. Then it has the bases of all definitions; and if two of them differ, its object lists the same bases
for all orders exactly if, besides, they repeat their bases equally often. -/
theorem define_in_any_order (changes : List Change) (name : String) (defs : List (Class Value))
    (hdefs : (built changes).NewClass name defs) :
    ((built changes).SupersAnyOrder name defs ↔ ¬ Class.Swallows (defs.map (·.bases))) ∧
    (¬ Class.Swallows (defs.map (·.bases)) →
      ∀ x, x ∈ ((built changes).define defs).directSupers name ↔ ∃ c ∈ defs, x ∈ c.bases) ∧
    ((∃ c ∈ defs, ∃ d ∈ defs, c.bases ≠ d.bases) → ((built changes).BasesAnyOrder name defs ↔
      ¬ Class.Swallows (defs.map (·.bases)) ∧ Class.EquallyOften (defs.map (·.bases)))) :=
  ⟨hdefs.supersAnyOrder_iff, fun hkept _ => hdefs.mem_directSupers hkept, hdefs.basesAnyOrder_iff⟩

/-- A class that is defined three times, twice with the same bases in another order. -/
theorem define_in_any_order_three :
    let defs := [Builtin.bare "C" ["A", "B"], Builtin.bare "C" ["B", "A"], Builtin.bare "C" ["D"]]
    (built []).SupersAnyOrder "C" defs ∧ ∀ defs' : List (Class Value), defs'.Perm defs →
      ((built []).define defs').bases? "C" = some ["A", "B", "D"] := by
  intro defs
  have hdefs : (built []).NewClass "C" defs := ⟨rfl, by decide, by decide⟩
  have hkept : ¬ Class.Swallows (defs.map (·.bases)) := fun h => absurd h.1 (by decide)
  have hoften : Class.EquallyOften (defs.map (·.bases)) := by
    have hnodup : ∀ bases ∈ defs.map (·.bases), bases.Nodup := by decide
    have hone : ∀ bases ∈ defs.map (·.bases), ∀ x, max 1 (bases.count x) = 1 :=
      fun bases hbases x => max_eq_left (List.nodup_iff_count_le_one.mp (hnodup bases hbases) x)
    intro bases hbases bases' hbases' x
    rw [hone bases hbases, hone bases' hbases']
  obtain ⟨hsupers, -, hbases⟩ := define_in_any_order [] "C" defs hdefs
  refine ⟨hsupers.mpr hkept, fun defs' hperm => ?_⟩
  rw [(hbases (by decide)).mpr ⟨hkept, hoften⟩ defs' hperm]
  decide

/-- A repeated base stays repeated if it was so first, and a base without a name is lost after an empty list. -/
theorem not_in_any_order :
    ¬ (built []).BasesAnyOrder "C" [Builtin.bare "C" ["A", "A"], Builtin.bare "C" ["B"]] ∧
      ¬ (built []).SupersAnyOrder "C" [Builtin.bare "C" [], Builtin.bare "C" [""]] := by
  constructor
  · intro h
    exact absurd (h _ (List.Perm.swap ..)) (by decide)
  · intro h
    exact absurd (h _ (List.Perm.swap ..) "") (by decide)

end AnyOrder

end Hierarchy

end AbstractFlow
