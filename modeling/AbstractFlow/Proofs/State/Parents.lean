import AbstractFlow.Proofs.State.Resolution
import Mathlib.Data.List.Induction

/-! # Parents of registered scopes

A scope gets its parent from the first registration that names one for it, and keeps it. The walk outwards ends from
every scope exactly if these first parents never lead back to a scope they started from, and then every lookup ends
too, with what is found in the scopes that are visible. Registering keeps a scope from being its own parent, but not
from being the parent of its parent.
-/
namespace AbstractFlow.State

/-- A scope to be registered; the empty name is no parent. -/
structure Registration where
  name : String
  kind : ScopeKind
  parent : String

def registerAll (s : State) (rs : List Registration) : State :=
  rs.foldl (fun s r => s.registerScope r.name r.kind r.parent) s

/-- The parent that a registration names for a scope: another scope, and not for another scope. -/
def Registration.parentFor? (r : Registration) (x : String) : Option String :=
  if r.name = x ∧ r.parent ≠ "" ∧ r.parent ≠ x then some r.parent else none

/-- The parent that is named for a scope first. -/
def firstParent? (rs : List Registration) (x : String) : Option String := rs.findSome? (·.parentFor? x)

/-- The first parents lead from a scope back to it. -/
def Circular (rs : List Registration) : Prop :=
  ∃ x, Relation.TransGen (fun x y => firstParent? rs x = some y) x x

variable {s : State} {name x y : String}

section Registering

theorem parent?_of_scopes {s' : State} (h : s'.scopes = s.scopes) (x : String) : s'.parent? x = s.parent? x := by
  rw [parent?, h, parent?]

theorem parent?_addScope (s : State) (name : String) (kind : ScopeKind) (x : String) :
    (s.addScope name kind).parent? x = s.parent? x := by
  unfold addScope
  split
  · rfl
  · rename_i hnew
    have hnone : s.scopes.get? name = none := by simpa [Table.contains] using hnew
    rw [parent?, Table.get?_insert, parent?]
    split
    · rename_i hx
      rw [← hx, hnone]
      rfl
    · rfl

theorem scopes_noteGlobal (s : State) (name : String) (kind : ScopeKind) :
    (s.noteGlobal name kind).scopes = s.scopes := by
  unfold noteGlobal
  split <;> rfl

theorem hasParent_eq (s : State) (name : String) : s.hasParent name = (s.parent? name).isSome := by
  unfold hasParent parent?
  cases s.scopes.get? name <;> rfl

theorem parent?_adopt (hname : s.scopes.contains name = true) (hnone : s.parent? name = none) (parent x : String) :
    (s.adopt name parent).parent? x = if name = x then some parent else s.parent? x := by
  obtain ⟨e, he⟩ := Option.isSome_iff_exists.mp hname
  have hparent : e.parent = none := by simpa [parent?, he] using hnone
  unfold adopt
  simp only [he, hparent, Option.isNone_none, if_true]
  rw [parent?, Table.get?_insert, parent?]
  split <;> rfl

/-- A registration names a parent for its own scope only, and one that has a parent keeps it. -/
theorem parent?_registerScope (s : State) (r : Registration) (x : String) :
    (s.registerScope r.name r.kind r.parent).parent? x = (s.parent? x).or (r.parentFor? x) := by
  obtain ⟨name, kind, parent⟩ := r
  have hsame : ∀ x, (s.addScope name kind).parent? x = s.parent? x := s.parent?_addScope name kind
  have hadded := s.contains_addScope name kind
  unfold registerScope
  generalize s.addScope name kind = added at hsame hadded
  simp only [parent?_of_scopes (scopes_noteGlobal _ _ _)]
  by_cases hnames : parent ≠ "" ∧ parent ≠ name
  · cases hold : s.parent? name with
    | some old =>
      -- The scope has a parent already.
      rw [if_neg (by simp [hasParent_eq, hsame, hold]), hsame]
      by_cases hx : name = x
      · rw [← hx, hold, Option.some_or]
      · simp [Registration.parentFor?, hx]
    | none =>
      rw [if_pos (by simp [hasParent_eq, hsame, hold, hnames])]
      generalize hknown : (if added.scopes.contains parent = true then added
        else (added.addScope parent .module).noteGlobal parent .module) = known
      have hparents : ∀ x, known.parent? x = s.parent? x := by
        intro x
        rw [← hknown, ← hsame]
        split
        · rfl
        · rw [parent?_of_scopes (scopes_noteGlobal _ _ _), parent?_addScope]
      have hstill : known.scopes.contains name = true := by
        rw [← hknown]
        split
        · exact hadded
        · rw [scopes_noteGlobal]
          exact (widens_addScope _ _ _).scopes name hadded
      rw [parent?_adopt hstill (by rw [hparents, hold]), hparents]
      by_cases hx : name = x
      · subst hx
        rw [if_pos rfl, hold, Option.none_or, Registration.parentFor?, if_pos ⟨rfl, hnames⟩]
      · simp [Registration.parentFor?, hx]
  · rw [if_neg (by simp only [Bool.and_eq_true, decide_eq_true_eq]; tauto), hsame, Registration.parentFor?, if_neg]
    · rw [Option.or_none]
    · rintro ⟨rfl, h⟩
      exact hnames h

/-- Of all registrations the first that names a parent for a scope decides, unless the scope had one before. -/
theorem parent?_registerAll (s : State) (rs : List Registration) (x : String) :
    (s.registerAll rs).parent? x = (s.parent? x).or (firstParent? rs x) := by
  unfold registerAll firstParent?
  induction rs generalizing s with
  | nil => rw [List.foldl_nil, List.findSome?_nil, Option.or_none]
  | cons r rs ih =>
    rw [List.foldl_cons, ih, parent?_registerScope, Option.or_assoc, List.findSome?_cons]
    cases r.parentFor? x <;> rfl

end Registering

section Outwards

variable {start : Option String} {scopes scopes' around : List String}

theorem acyclic_of_scopes {s' : State} (h : s'.scopes = s.scopes) : s'.Acyclic ↔ s.Acyclic := by
  have hinside : s'.Inside = s.Inside := by
    funext x y
    rw [Inside, parent?_of_scopes h]
  rw [Acyclic, hinside, Acyclic]

theorem Outward.of_scopes {s' : State} (h : s.Outward start scopes) (heq : s'.scopes = s.scopes) :
    s'.Outward start scopes := by
  induction h with
  | nil => exact .nil
  | cons _ ih => exact .cons (by rwa [parent?_of_scopes heq])

theorem Outward.unique (h : s.Outward start scopes) (h' : s.Outward start scopes') : scopes = scopes' := by
  induction h generalizing scopes' with
  | nil =>
    cases h'
    rfl
  | cons _ ih =>
    cases h' with
    | cons h' => rw [ih h']

theorem Outward.exists_of_mem (h : s.Outward start scopes) (hx : x ∈ scopes) :
    ∃ rest, s.Outward (some x) rest ∧ rest.length ≤ scopes.length := by
  induction h with
  | nil => cases hx
  | @cons name around haround ih =>
    rcases List.mem_cons.mp hx with rfl | hx
    · exact ⟨_, .cons haround, le_rfl⟩
    · obtain ⟨rest, hrest, hle⟩ := ih hx
      exact ⟨rest, hrest, hle.trans (Nat.le_succ _)⟩

/-- A way that ends does not come back to a scope. -/
theorem Outward.not_mem_around (h : s.Outward (some x) (x :: around)) : x ∉ around := by
  intro hx
  have haround : s.Outward (s.parent? x) around := by
    cases h with
    | cons haround => exact haround
  obtain ⟨rest, hrest, hle⟩ := haround.exists_of_mem hx
  rw [← h.unique hrest, List.length_cons] at hle
  omega

theorem Outward.mem_of_inside (h : s.Outward start scopes) (hx : x ∈ scopes) (hxy : s.Inside x y) : y ∈ scopes := by
  induction h with
  | nil => cases hx
  | cons haround ih =>
    rcases List.mem_cons.mp hx with rfl | hx
    · rw [hxy] at haround
      cases haround
      exact List.mem_cons_of_mem _ List.mem_cons_self
    · exact List.mem_cons_of_mem _ (ih hx)

/-- All scopes that a scope stands inside are on its way outwards. -/
theorem Outward.mem_of_transGen (h : s.Outward (s.parent? x) around) (hxy : Relation.TransGen s.Inside x y) :
    y ∈ around := by
  induction hxy with
  | single hstep =>
    rw [hstep] at h
    cases h
    exact List.mem_cons_self
  | tail _ hstep ih => exact h.mem_of_inside ih hstep

/-- A scope from which the way outwards ends does not stand inside itself. -/
theorem Outward.not_inside (h : s.Outward (some x) scopes) : ¬ Relation.TransGen s.Inside x x := by
  intro hx
  cases h with
  | cons haround => exact (Outward.cons haround).not_mem_around (haround.mem_of_transGen hx)

/-- The walks outwards end exactly if no scope stands inside itself. -/
theorem acyclic_iff : s.Acyclic ↔ ∀ x, ∃ scopes, s.Outward (some x) scopes := by
  constructor
  · intro h x
    have houtward : s.Outward (some x) (s.chain (s.scopes.length + 1) (some x)) :=
      h.outward_chain List.nodup_nil (List.nil_subset _) (by simp) (by simp)
    exact ⟨_, houtward⟩
  · intro h x
    obtain ⟨_, hscopes⟩ := h x
    exact hscopes.not_inside

end Outwards

section Lookups

variable {here start : Option String} {scopes : List String} {found : Option (FrameKey × Value)}

/-- Class bodies are not looked into from the scopes inside them. -/
abbrev PassedOver (s : State) (here : Option String) (scope : String) : Prop :=
  here ≠ some scope ∧ s.isClassScope scope = true

/-- What a walk outwards finds that has come from `here` to a scope, if it ends. -/
inductive Finds (s : State) (name : String) (here : Option String) :
    Option String → Option (FrameKey × Value) → Prop
  | unbound : Finds s name here none none
  | bound {scope : String} {e : FrameKey × Value} (hvisible : ¬ s.PassedOver here scope)
      (h : s.find? scope name = some e) : Finds s name here (some scope) (some e)
  | missed {scope : String} {found : Option (FrameKey × Value)} (hvisible : ¬ s.PassedOver here scope)
      (h : s.find? scope name = none) (outwards : Finds s name here (s.parent? scope) found) :
      Finds s name here (some scope) found
  | passed {scope : String} {found : Option (FrameKey × Value)} (hpassed : s.PassedOver here scope)
      (outwards : Finds s name here (s.parent? scope) found) : Finds s name here (some scope) found

/-- What a lookup finds, if it ends: it starts where it would be written to. -/
abbrev LooksUp (s : State) (name : String) (found : Option (FrameKey × Value)) : Prop :=
  s.Finds name s.writeScope s.writeScope found

theorem Finds.exists_outward (h : s.Finds name here start found) (hnone : ∀ scope, s.find? scope name = none) :
    ∃ scopes, s.Outward start scopes := by
  induction h with
  | unbound => exact ⟨[], .nil⟩
  | @bound scope _ _ h =>
    rw [hnone scope] at h
    cases h
  | missed _ _ _ ih | passed _ _ ih =>
    obtain ⟨scopes, hscopes⟩ := ih
    exact ⟨_, .cons hscopes⟩

/-- On a way that ends, the first scope that binds the name decides. -/
theorem Outward.finds_iff (h : s.Outward start scopes) : s.Finds name here start found ↔
    found = (scopes.filter fun scope => ¬ s.PassedOver here scope).findSome? fun scope => s.find? scope name := by
  -- Scope by scope on the way outwards, which the search goes too.
  induction h with
  | nil =>
    constructor
    · intro h
      cases h
      rfl
    · rintro rfl
      exact .unbound
  | @cons scope around _ ih =>
    by_cases hpassed : s.PassedOver here scope
    · rw [List.filter_cons_of_neg (by simpa using hpassed), ← ih]
      refine ⟨fun h => ?_, .passed hpassed⟩
      cases h with
      | passed _ houtwards => exact houtwards
      | bound hvisible | missed hvisible => exact absurd hpassed hvisible
    · rw [List.filter_cons_of_pos (by simpa only [decide_eq_true_eq] using hpassed), List.findSome?_cons]
      cases hfind : s.find? scope name with
      | some e =>
        constructor
        · intro h
          cases h with
          | bound _ h => exact h.symm.trans hfind
          | missed _ h => rw [hfind] at h; cases h
          | passed h => exact absurd h hpassed
        · rintro rfl
          exact .bound hpassed hfind
      | none =>
        rw [← ih]
        refine ⟨fun h => ?_, .missed hpassed hfind⟩
        cases h with
        | bound _ h => rw [hfind] at h; cases h
        | missed _ _ houtwards => exact houtwards
        | passed h => exact absurd h hpassed

/-- The visible scopes are those that are not passed over. -/
theorem Outward.visible_eq (h : s.Outward start scopes) :
    s.visible scopes = scopes.filter fun scope => ¬ s.PassedOver start scope := by
  cases h with
  | nil => rfl
  | @cons scope around haround =>
    have hnew : scope ∉ around := (Outward.cons haround).not_mem_around
    rw [visible, List.filter_cons_of_pos (by simp)]
    congr 1
    refine List.filter_congr fun n hn => ?_
    have hne : scope ≠ n := fun h => hnew (h ▸ hn)
    simp [hne]

/-- Where no scope stands inside itself, every lookup ends, and with what resolving gives. -/
theorem Acyclic.looksUp_iff (h : s.Acyclic) : s.LooksUp name found ↔ found = s.resolve? name := by
  obtain ⟨scopes, hscopes, hvisible⟩ := h.exists_outward
  rw [LooksUp, hscopes.finds_iff, ← hscopes.visible_eq, ← hvisible, resolve?]

end Lookups

section Circles

variable {rs : List Registration} {r : Registration}

theorem exists_parentFor? (h : firstParent? rs x = some y) : ∃ r ∈ rs, r.parentFor? x = some y :=
  List.exists_of_findSome?_eq_some h

theorem parentFor?_eq_some : r.parentFor? x = some y ↔ r.name = x ∧ r.parent = y ∧ y ≠ "" ∧ y ≠ x := by
  unfold Registration.parentFor?
  split
  · rename_i h
    simp only [Option.some.injEq]
    constructor
    · rintro rfl
      exact ⟨h.1, rfl, h.2⟩
    · exact fun h => h.2.1
  · rename_i h
    refine iff_of_false (by simp) ?_
    rintro ⟨hname, rfl, hparent⟩
    exact h ⟨hname, hparent⟩

theorem firstParent?_concat (rs : List Registration) (r : Registration) (x : String) :
    firstParent? (rs ++ [r]) x = (firstParent? rs x).or (r.parentFor? x) := by
  rw [firstParent?, List.findSome?_append, List.findSome?_cons, List.findSome?_nil]
  cases r.parentFor? x <;> rfl

/-- Scopes that are registered from the outside in, each with its parent before others name it as theirs, are not
circular. -/
theorem not_circular_of_outside_in
    (h : rs.Pairwise fun r r' => r.parent = r'.name → r'.parentFor? r'.name = none) : ¬ Circular rs := by
  induction rs using List.reverseRec with
  | nil =>
    rintro ⟨x, hx⟩
    cases hx with
    | single h | tail _ h => cases h
  | append_singleton rs r ih =>
    obtain ⟨hrs, -, hlast⟩ := List.pairwise_append.mp h
    -- The last registration gives no parent to a scope that is one.
    have hstep : ∀ {w x y}, firstParent? (rs ++ [r]) w = some x → firstParent? (rs ++ [r]) x = some y →
        firstParent? rs x = some y := by
      intro w x y hwx hxy
      rw [firstParent?_concat] at hxy
      cases hearlier : firstParent? rs x with
      | some z => rwa [hearlier, Option.some_or] at hxy
      | none =>
        rw [hearlier, Option.none_or] at hxy
        obtain ⟨r', hr', hparent⟩ := exists_parentFor? hwx
        obtain ⟨-, rfl, -⟩ := parentFor?_eq_some.mp hparent
        obtain ⟨hname, rfl, -, hother⟩ := parentFor?_eq_some.mp hxy
        rcases List.mem_append.mp hr' with hr' | hr'
        · rw [← hname, hlast r' hr' r List.mem_cons_self hname.symm] at hxy
          cases hxy
        · exact absurd (congrArg Registration.parent (List.mem_singleton.mp hr')).symm hother
    have hpath : ∀ {w x y}, firstParent? (rs ++ [r]) w = some x →
        Relation.TransGen (fun x y => firstParent? (rs ++ [r]) x = some y) x y →
        Relation.TransGen (fun x y => firstParent? rs x = some y) x y := by
      intro w x y hwx hxy
      induction hxy with
      | single hxy => exact .single (hstep hwx hxy)
      | tail hxy hyz ih =>
        obtain ⟨v, -, hvy⟩ := Relation.TransGen.tail'_iff.mp hxy
        exact ih.tail (hstep hvy hyz)
    rintro ⟨x, hx⟩
    obtain ⟨w, -, hwx⟩ := Relation.TransGen.tail'_iff.mp hx
    exact ih hrs ⟨x, hpath hwx hx⟩

theorem acyclic_registerAll (config : Config) (rs : List Registration) :
    ((new config).registerAll rs).Acyclic ↔ ¬ Circular rs := by
  have hinside : ((new config).registerAll rs).Inside = fun x y => firstParent? rs x = some y := by
    funext x y
    rw [Inside, parent?_registerAll]
    rfl
  rw [Acyclic, hinside, Circular, not_exists]

/-- After any registrations, a scope has the parent that was named for it first. The walks outwards end, and so do the
lookups of all names from all scopes, under all contexts and whatever is bound, exactly if these parents lead from no
scope back to it; a lookup then gives what is bound in the first of the visible scopes. -/
theorem lookups_end_iff (config : Config) (rs : List Registration) :
    (∀ x, ((new config).registerAll rs).parent? x = firstParent? rs x) ∧
    ((∀ x, ∃ scopes, ((new config).registerAll rs).Outward (some x) scopes) ↔ ¬ Circular rs) ∧
    ((∀ s : State, s.scopes = ((new config).registerAll rs).scopes → ∀ name, ∃ found, s.LooksUp name found) ↔
      ¬ Circular rs) ∧
    (¬ Circular rs → ∀ s : State, s.scopes = ((new config).registerAll rs).scopes →
      ∀ name found, s.LooksUp name found ↔ found = s.resolve? name) := by
  have hends : ¬ Circular rs → ∀ s : State, s.scopes = ((new config).registerAll rs).scopes →
      ∀ name found, s.LooksUp name found ↔ found = s.resolve? name := by
    intro hrs s hs name found
    exact ((acyclic_of_scopes hs).mpr ((acyclic_registerAll config rs).mpr hrs)).looksUp_iff
  refine ⟨fun x => parent?_registerAll _ _ x, acyclic_iff.symm.trans (acyclic_registerAll config rs), ?_, hends⟩
  constructor
  · intro h
    -- A lookup where nothing is bound passes through all scopes around.
    refine (acyclic_registerAll config rs).mp (acyclic_iff.mpr fun x => ?_)
    let s : State := { (new config).registerAll rs with scope := some x, memory := [] }
    have hunbound : ∀ scope, s.find? scope "" = none := by
      intro scope
      rw [find?_eq]
      rfl
    obtain ⟨found, hfound⟩ := h s rfl ""
    obtain ⟨scopes, hscopes⟩ := hfound.exists_outward hunbound
    exact ⟨scopes, hscopes.of_scopes rfl⟩
  · intro hrs s hs name
    exact ⟨_, (hends hrs s hs name _).mpr rfl⟩

/-- The scopes of a module with a class and a method in it, which are registered from the outside in. -/
theorem lookups_end_iff_nested :
    let rs : List Registration :=
      [⟨"m", .module, ""⟩, ⟨"m.C", .classBody, "m"⟩, ⟨"m.C.f", .function, "m.C"⟩, ⟨"m.C.f", .function, "m.D"⟩]
    let s := (new ⟨.callSite, 1, true⟩).registerAll rs
    ¬ Circular rs ∧ s.parent? "m.C.f" = some "m.C" ∧ (∀ x, ∃ scopes, s.Outward (some x) scopes) ∧
      ∀ name, ∃ found, (s.setCurrent "m.C.f" .root).LooksUp name found := by
  intro rs s
  have hrs : ¬ Circular rs := not_circular_of_outside_in (by decide)
  obtain ⟨hparent, houtwards, hlookups, -⟩ := lookups_end_iff ⟨.callSite, 1, true⟩ rs
  exact ⟨hrs, (hparent _).trans (by decide), houtwards.mpr hrs, hlookups.mpr hrs (s.setCurrent "m.C.f" .root) rfl⟩

/-- Two functions that are registered as parents of each other: no walk outwards and no lookup from them ends. -/
theorem not_lookup_ends :
    let s := (new ⟨.callSite, 1, true⟩).registerAll [⟨"a", .function, "b"⟩, ⟨"b", .function, "a"⟩]
    (∀ scopes, ¬ s.Outward (some "a") scopes) ∧
      ∀ name found, ¬ (s.setCurrent "a" .root).LooksUp name found := by
  intro s
  have hab : s.parent? "a" = some "b" := by decide
  have hba : s.parent? "b" = some "a" := by decide
  have hinside : Relation.TransGen s.Inside "a" "a" := .tail (.single hab) hba
  have hends : ∀ scopes, ¬ s.Outward (some "a") scopes := fun _ h => h.not_inside hinside
  refine ⟨hends, fun name found h => ?_⟩
  obtain ⟨scopes, hscopes⟩ := h.exists_outward (fun _ => rfl)
  exact hends scopes (hscopes.of_scopes rfl)

end Circles

end AbstractFlow.State
