import AbstractFlow.Proofs.Insensitive.Passes
import AbstractFlow.Proofs.Value.Reach

/-! # Frames of flat containers

Where containers hold constants and unknown things only, every statement that joins its value to a variable,
or stores into it, leaves the core of the frame or raises its height, and the upper bounds of containers reach
no less far than before. Where the core stays, all else that changes are the lower bounds; and these a pass
clamps between two numbers that do not depend on the frame, so that they change in one pass at most.
-/
namespace AbstractFlow

namespace Stmt

/-- Statements by which constants, unknown things and containers of them come about. -/
def isFlat : Stmt → Bool
  | .const .. | .expr .. | .build .. | .subscriptStore .. | .jump .. | .goto _ | .label _ => true
  | _ => false

def isBasic : Stmt → Bool
  | .const .. | .expr .. => true
  | _ => false

def parts : Stmt → List String
  | .build _ _ elems keys => elems ++ keys
  | .subscriptStore _ index value => [index, value]
  | _ => []

theorem isLocal_of_isFlat {stmt : Stmt} (h : stmt.isFlat = true) : stmt.isLocal = true := by
  cases stmt <;> first | rfl | cases h

def width : Stmt → Nat
  | .build _ _ elems keys => elems.length + keys.length
  | _ => 0

end Stmt

/-- A variable that is assigned by constants and unknown things only. -/
def BasicIn (body : List Stmt) (name : String) : Prop :=
  ∀ stmt ∈ body, stmt.target = name → stmt.isBasic = true

instance (body : List Stmt) : DecidablePred (BasicIn body) :=
  fun name => inferInstanceAs (Decidable (∀ stmt ∈ body, stmt.target = name → stmt.isBasic = true))

/-- Bodies in which containers are never nested: whatever is put into a container is a basic variable. -/
structure FlatBody (body : List Stmt) : Prop where
  stmts : ∀ stmt ∈ body, stmt.isFlat = true
  parts : ∀ stmt ∈ body, ∀ name ∈ stmt.parts, name ≠ "" → BasicIn body name

theorem FlatBody.of_subset {body body' : List Stmt} (h : FlatBody body') (hsub : body ⊆ body') : FlatBody body :=
  ⟨fun stmt hstmt => h.stmts stmt (hsub hstmt), fun stmt hstmt name hname hne stmt' hstmt' =>
    h.parts stmt (hsub hstmt) name hname hne stmt' (hsub hstmt')⟩

def largestSize (body : List Stmt) : Nat := Word.half + (body.map Stmt.width).sum

/-- The variable and the type of a container that a statement builds. -/
def Stmt.built? : Stmt → Option (String × ContainerType)
  | .build target type _ _ => some (target, type)
  | _ => none

def builds (body : List Stmt) : List (String × ContainerType) := body.filterMap Stmt.built?

/-- How many elements a container has at least that was built of the given names. -/
def ContainerType.least (type : ContainerType) (elems keys : List String) : Nat :=
  match type with
  | .set => min elems.length 1
  | .dict => min keys.length 1
  | _ => elems.length

def Stmt.lower (type : ContainerType) : Stmt → Option Nat
  | .build _ type' elems keys => if type' = type then some (type'.least elems keys) else none
  | _ => none

theorem Stmt.built?_of_lower {stmt : Stmt} {type : ContainerType} (h : (stmt.lower type).isSome = true) :
    stmt.built? = some (stmt.target, type) := by
  cases stmt with
  | build target type' elems keys =>
    by_cases htype : type' = type
    · rw [htype]
      rfl
    · simp [Stmt.lower, htype] at h
  | _ => cases h

/-- What a statement makes of the lower bound of the container of a type that a variable holds. -/
def Stmt.adjust (name : String) (type : ContainerType) (n : Nat) : Stmt → Nat
  | .subscriptStore object _ _ => if object = name then max n 1 else n
  | stmt => if stmt.target = name ∧ name ≠ "" then (stmt.lower type).elim n (min n) else n

def adjustAll (name : String) (type : ContainerType) (stmts : List Stmt) (n : Nat) : Nat :=
  stmts.foldl (fun n stmt => stmt.adjust name type n) n

theorem Stmt.adjust_cases (stmt : Stmt) (name : String) (type : ContainerType) :
    (∀ n, stmt.adjust name type n = n) ∨ (∃ k, ∀ n, stmt.adjust name type n = min n k) ∨
      ∀ n, stmt.adjust name type n = max n 1 := by
  have hbinds : ∀ p : Prop, [Decidable p] → ∀ k : Option Nat,
      (∀ n : Nat, (if p then k.elim n (min n) else n) = n) ∨
        ∃ i, ∀ n : Nat, (if p then k.elim n (min n) else n) = min n i := by
    intro p _ k
    by_cases hp : p
    · cases k with
      | none => exact Or.inl fun n => if_pos hp
      | some i => exact Or.inr ⟨i, fun n => if_pos hp⟩
    · exact Or.inl fun n => if_neg hp
  cases stmt with
  | subscriptStore object _ _ =>
    by_cases hobject : object = name
    · exact Or.inr (Or.inr fun n => if_pos hobject)
    · exact Or.inl fun n => if_neg hobject
  | _ => exact (hbinds _ _).imp_right Or.inl

/-- A list of statements clamps the lower bounds. -/
theorem exists_adjustAll_eq (name : String) (type : ContainerType) (stmts : List Stmt) :
    ∃ least, ∃ most : Option Nat, ∀ n, adjustAll name type stmts n = max least (most.elim n (min n)) := by
  induction stmts using List.reverseRecOn with
  | nil => exact ⟨0, none, fun n => (Nat.zero_max n).symm⟩
  | append_singleton stmts stmt ih =>
    obtain ⟨least, most, hclamp⟩ := ih
    have hlast : ∀ n, adjustAll name type (stmts ++ [stmt]) n =
        stmt.adjust name type (max least (most.elim n (min n))) := by
      intro n
      rw [← hclamp]
      exact List.foldl_append
    rcases stmt.adjust_cases name type with h | ⟨k, h⟩ | h
    · exact ⟨least, most, fun n => by rw [hlast, h]⟩
    · refine ⟨min least k, some (most.elim k (min k)), fun n => ?_⟩
      rw [hlast, h]
      cases most <;> simp only [Option.elim_none, Option.elim_some] <;> omega
    · refine ⟨max least 1, most, fun n => ?_⟩
      rw [hlast, h]
      omega

theorem adjustAll_adjustAll (name : String) (type : ContainerType) (stmts : List Stmt) (n : Nat) :
    adjustAll name type stmts (adjustAll name type stmts n) = adjustAll name type stmts n := by
  obtain ⟨least, most, hclamp⟩ := exists_adjustAll_eq name type stmts
  rw [hclamp, hclamp]
  cases most <;> simp only [Option.elim_none, Option.elim_some] <;> omega

namespace Snapshot

variable {body stmts : List Stmt} {frame frame' : Snapshot} {stmt : Stmt}

/-- A flat value of a variable of a body, which is plain if the variable is basic. What containers it holds
were built by statements of the body. -/
structure Entry (body : List Stmt) (name : String) (v : Value) : Prop where
  target : name ∈ (Extent.ofBody body).names
  named : name ≠ ""
  flat : v.Flat (Extent.ofBody body) (largestSize body)
  basic : BasicIn body name → v.Within (Extent.ofBody body)
  built : ∀ type, (v.lower type).isSome = true → (name, type) ∈ builds body

structure Flat (body : List Stmt) (frame : Snapshot) : Prop where
  sorted : Dict.Sorted frame
  values : Dict.Each (Entry body) frame

def core (frame : Snapshot) : Snapshot := Dict.image Value.core frame

/-- The heights of all variables together, each counting one more. -/
def height (body : List Stmt) (frame : Snapshot) : Nat :=
  Dict.weight (fun v => v.height (Extent.ofBody body) + 1) frame

def lower (frame : Snapshot) (name : String) (type : ContainerType) : Option Nat :=
  (Dict.get? frame name).bind (·.lower type)

def reachAt (body : List Stmt) (frame : Snapshot) (p : String × ContainerType) : Nat :=
  (Dict.get? frame p.1).elim 0 fun v => v.reach (largestSize body) p.2

/-- How far the containers that the statements of a body build reach, all together. -/
def reach (body : List Stmt) (frame : Snapshot) : Nat := ((builds body).map (frame.reachAt body)).sum

theorem height_eq_of_core_eq (h : frame.core = frame'.core) : frame.height body = frame'.height body :=
  Dict.weight_eq_of_image_eq (fun _ _ hcore => congrArg (· + 1) (Value.height_eq_of_core_eq hcore)) h

theorem Flat.height_le (h : frame.Flat body) :
    frame.height body ≤ body.length * (Value.heightBound (Extent.ofBody body) + 1) := by
  have hweight : frame.height body ≤ frame.length * (Value.heightBound (Extent.ofBody body) + 1) :=
    Dict.weight_le fun x hx => Nat.succ_le_succ (h.values x hx).flat.height_le
  have hlength : frame.length ≤ (Extent.ofBody body).names.length :=
    h.sorted.length_le fun x hx => (h.values x hx).target
  rw [Extent.ofBody, List.length_map] at hlength
  exact hweight.trans (Nat.mul_le_mul_right _ hlength)

theorem flat_nil : Flat body [] := ⟨Dict.sorted_nil, Dict.each_nil⟩

theorem Flat.reachAt_le (h : frame.Flat body) (p : String × ContainerType) :
    frame.reachAt body p ≤ Number.steps (largestSize body) := by
  unfold reachAt
  cases hv : Dict.get? frame p.1 with
  | none => exact Nat.zero_le _
  | some v => exact (h.values.get? hv).flat.reach_le p.2

theorem Flat.reach_le (h : frame.Flat body) :
    frame.reach body ≤ (builds body).length * Number.steps (largestSize body) := by
  have hsum := List.sum_le_card_nsmul ((builds body).map (frame.reachAt body)) (Number.steps (largestSize body))
    (List.forall_mem_map.mpr fun p _ => h.reachAt_le p)
  rwa [List.length_map, smul_eq_mul] at hsum

theorem equal_of_keys_eq (hs : Dict.Sorted frame) (hs' : Dict.Sorted frame') (hkeys : frame.keys = frame'.keys)
    (hvalues : ∀ name v v', Dict.get? frame name = some v → Dict.get? frame' name = some v' →
      v.equal v' = true) : frame.equal frame' = true := by
  simp only [equal, hkeys, BEq.rfl, Bool.true_and, List.all_eq_true]
  intro x hx
  obtain ⟨i, hi, rfl⟩ := List.mem_iff_getElem.mp hx
  simp only [List.length_zip, Nat.lt_min] at hi
  rw [List.getElem_zip]
  have hname : frame[i].1 = frame'[i].1 := by
    have hat := congrArg (·[i]?) hkeys
    simpa [Dict.keys, hi.1, hi.2] using hat
  refine hvalues frame[i].1 _ _ (Dict.get?_of_mem hs (List.getElem_mem hi.1)) ?_
  rw [hname]
  exact Dict.get?_of_mem hs' (List.getElem_mem hi.2)

/-- Frames count as equal if they have the same core and lower bounds, and all containers reach equally far. -/
theorem Flat.equal_of_core_eq (h : frame.Flat body) (h' : frame'.Flat body) (hcore : frame.core = frame'.core)
    (hlower : ∀ name type, frame.lower name type = frame'.lower name type)
    (hreach : ∀ p ∈ builds body, frame.reachAt body p = frame'.reachAt body p) : frame.equal frame' = true := by
  have hkeys : frame.keys = frame'.keys := by
    have hkeys : ∀ s : Snapshot, s.core.keys = s.keys := fun s => by simp [core, Dict.keys, Dict.image]
    rw [← hkeys, hcore, hkeys]
  refine equal_of_keys_eq h.sorted h'.sorted hkeys fun name v v' hv hv' => ?_
  have hget := Dict.get?_image Value.core frame name
  rw [← core, hcore, core, Dict.get?_image, hv, hv'] at hget
  have hentry := h.values.get? hv
  refine hentry.flat.equal_of_core_eq (h'.values.get? hv').flat (Option.some.inj hget).symm (fun type => ?_)
    fun type hfound => ?_
  · have hbound := hlower name type
    rwa [lower, lower, hv, hv'] at hbound
  · have hsame := hreach (name, type) (hentry.built type hfound)
    rwa [reachAt, reachAt, hv, hv'] at hsame

theorem Flat.lookup (h : frame.Flat body) {name : String} (hname : name ≠ "" → BasicIn body name) :
    (frame.lookup name).Within (Extent.ofBody body) := by
  unfold Snapshot.lookup
  split
  · exact Value.plain_unknown
  · rename_i hne
    cases hv : Dict.get? frame name with
    | none => exact Value.plain_unknown
    | some v => exact (h.values.get? hv).basic (hname hne)

theorem Flat.exists_build (h : frame.Flat body) (type : ContainerType) {elems keys : List String}
    (hparts : ∀ name ∈ elems ++ keys, name ≠ "" → BasicIn body name)
    (hwidth : elems.length + keys.length ≤ largestSize body) :
    ∃ c, frame.build type elems keys = [.container c] ∧ c.type = type ∧ c.minSize = type.least elems keys ∧
      c.Flat (Extent.ofBody body) (largestSize body) := by
  have hmerged : ∀ names : List String, names ⊆ elems ++ keys →
      (Value.mergeAll (names.map frame.lookup)).Within (Extent.ofBody body) := by
    intro names hnames
    refine Value.mergeAll_of_forall Value.plain_nil (Value.plain_merge Constant.within_join) fun v hv => ?_
    obtain ⟨name, hname, rfl⟩ := List.mem_map.mp hv
    exact h.lookup (hparts name (hnames hname))
  have helems := hmerged elems (List.subset_append_left elems keys)
  have hkeys := hmerged keys (List.subset_append_right elems keys)
  have hlength : (elems.map frame.lookup).length ≤ largestSize body := by
    rw [List.length_map]
    omega
  have hsequence : ∀ type : ContainerType,
      (Container.ofElems type (elems.map frame.lookup)).Flat (Extent.ofBody body) (largestSize body) :=
    fun type => Container.flat_ofBounds type helems Value.plain_nil hlength hlength
  cases type with
  | list => exact ⟨_, rfl, rfl, List.length_map _, hsequence .list⟩
  | tuple => exact ⟨_, rfl, rfl, List.length_map _, hsequence .tuple⟩
  | set =>
    refine ⟨_, rfl, rfl, ?_, Container.flat_setOf helems hlength⟩
    exact congrArg (min · 1) (List.length_map _)
  | dict =>
    refine ⟨_, rfl, rfl, ?_, Container.flat_ofBounds .dict ?_ hkeys ?_ ?_⟩
    · simp only [Container.dictOf, Container.ofBounds, Container.normalize, ContainerType.least, List.length_map]
      omega
    · rw [← List.map_take]
      exact hmerged _ fun name hname => List.mem_append_left keys (List.mem_of_mem_take hname)
    · simp only [List.length_map]
      omega
    · simp only [List.length_map]
      omega

theorem width_le (hstmt : stmt ∈ body) : stmt.width ≤ largestSize body :=
  (List.le_sum_of_mem (List.mem_map_of_mem hstmt)).trans (Nat.le_add_left _ _)

theorem Flat.value (h : frame.Flat body) (hbody : FlatBody body) (hstmt : stmt ∈ body) :
    (frame.value stmt).Flat (Extent.ofBody body) (largestSize body) ∧
      (stmt.isBasic = true → (frame.value stmt).Within (Extent.ofBody body)) ∧
      ∀ type, (frame.value stmt).lower type = stmt.lower type := by
  have hplain : ∀ {v : Value}, v.Within (Extent.ofBody body) → frame.value stmt = v →
      (∀ type, stmt.lower type = none) →
      (frame.value stmt).Flat (Extent.ofBody body) (largestSize body) ∧
        (stmt.isBasic = true → (frame.value stmt).Within (Extent.ofBody body)) ∧
        ∀ type, (frame.value stmt).lower type = stmt.lower type := by
    intro v hv hvalue hlower
    rw [hvalue]
    refine ⟨Value.Within.flat hv, fun _ => hv, fun type => ?_⟩
    rw [Value.lower_of_within hv, hlower]
  have hflat := hbody.stmts stmt hstmt
  cases stmt with
  | assign | subscriptLoad => cases hflat
  | const t l => exact hplain (Extent.within_ofBody hstmt) rfl fun _ => rfl
  | build t type elems keys =>
    obtain ⟨c, hbuild, htype, hleast, hc⟩ := h.exists_build type (hbody.parts _ hstmt) (width_le hstmt)
    have hvalue : frame.value (.build t type elems keys) = [.container c] := hbuild
    rw [hvalue]
    refine ⟨Value.flat_container hc, fun hbasic => ?_, fun type' => ?_⟩
    · cases hbasic
    · rw [Value.lower_container, htype, hleast]
      rfl
  | _ => exact hplain Value.plain_unknown rfl fun _ => rfl

theorem Flat.insert (h : frame.Flat body) {name : String} {v : Value} (hv : Entry body name v) :
    Flat body (Dict.insert frame name v) :=
  ⟨Dict.sorted_insert name v h.sorted, h.values.insert hv⟩

/-- What a variable holds, or nothing where it is not bound. -/
theorem Flat.getD (h : frame.Flat body) (name : String) :
    ((Dict.get? frame name).getD []).Flat (Extent.ofBody body) (largestSize body) ∧
      (BasicIn body name → ((Dict.get? frame name).getD []).Within (Extent.ofBody body)) ∧
      ∀ type, (((Dict.get? frame name).getD []).lower type).isSome = true → (name, type) ∈ builds body := by
  cases hv : Dict.get? frame name with
  | none =>
    refine ⟨Value.uniform_nil, fun _ => Value.plain_nil, fun type hfound => ?_⟩
    cases hfound
  | some v =>
    have hentry := h.values.get? hv
    exact ⟨hentry.flat, hentry.basic, hentry.built⟩

theorem Flat.entry_bind (h : frame.Flat body) (hbody : FlatBody body) (hstmt : stmt ∈ body)
    (htarget : stmt.target ≠ "") (overwrites : Bool) :
    Entry body stmt.target (if overwrites then frame.value stmt
      else ((Dict.get? frame stmt.target).getD []).merge (frame.value stmt)) := by
  obtain ⟨hvalue, hwithin, hlower⟩ := h.value hbody hstmt
  obtain ⟨hbefore, hbasic, hbuilt⟩ := h.getD stmt.target
  have hmember : stmt.target ∈ (Extent.ofBody body).names := List.mem_map_of_mem hstmt
  have hplain : BasicIn body stmt.target → (frame.value stmt).Within (Extent.ofBody body) :=
    fun hbasicIn => hwithin (hbasicIn stmt hstmt rfl)
  have hnew : ∀ type, ((frame.value stmt).lower type).isSome = true → (stmt.target, type) ∈ builds body :=
    fun type hfound => List.mem_filterMap.mpr ⟨stmt, hstmt, Stmt.built?_of_lower (hlower type ▸ hfound)⟩
  cases overwrites with
  | true => exact ⟨hmember, htarget, hvalue, hplain, hnew⟩
  | false =>
    refine ⟨hmember, htarget, hbefore.merge hvalue, fun hbasicIn => ?_, fun type hfound => ?_⟩
    · exact Value.plain_merge Constant.within_join (hbasic hbasicIn) (hplain hbasicIn)
    · exact (hbefore.isSome_lower_of_merge hvalue hfound).elim (hbuilt type) (hnew type)

theorem Flat.entry_store (h : frame.Flat body) (hbody : FlatBody body) {object index value : String}
    (hstmt : .subscriptStore object index value ∈ body) {v : Value} (hv : Dict.get? frame object = some v) :
    Entry body object (v.store (frame.lookup value) (frame.lookup index)) := by
  have hentry := h.values.get? hv
  have hparts := hbody.parts _ hstmt
  refine ⟨hentry.target, hentry.named, ?_, fun hbasic => ?_, fun type hfound => ?_⟩
  · exact hentry.flat.store (Nat.le_add_right _ _) (h.lookup (hparts value (by simp [Stmt.parts])))
      (h.lookup (hparts index (by simp [Stmt.parts])))
  · rw [Value.store_of_within (hentry.basic hbasic)]
    exact hentry.basic hbasic
  · rw [Value.lower_store hentry.flat.sorted, Option.isSome_map] at hfound
    exact hentry.built type hfound

/-- What a local statement can do: bind its target, or store into a variable that is bound. -/
theorem Flat.after_cases (h : frame.Flat body) (overwrites : Bool) (stmt : Stmt) :
    ((∀ name type n, stmt.adjust name type n =
          if stmt.target = name ∧ name ≠ "" then (stmt.lower type).elim n (min n) else n) ∧
        frame.after overwrites stmt = frame.bind overwrites stmt.target (frame.value stmt)) ∨
      ∃ object index value, stmt = .subscriptStore object index value ∧
        ((Dict.get? frame object = none ∧ frame.after overwrites stmt = frame) ∨
          ∃ v, Dict.get? frame object = some v ∧ frame.after overwrites stmt =
            frame.insert object (v.store (frame.lookup value) (frame.lookup index))) := by
  cases stmt with
  | subscriptStore object index value =>
    refine Or.inr ⟨object, index, value, rfl, ?_⟩
    cases hv : Dict.get? frame object with
    | none => exact Or.inl ⟨rfl, by simp [Snapshot.after, hv]⟩
    | some v =>
      have hlookup : frame.lookup object = v := by
        simp [Snapshot.lookup, (h.values.get? hv).named, hv]
      exact Or.inr ⟨v, rfl, by simp [Snapshot.after, hv, hlookup]⟩
  | _ => exact Or.inl ⟨fun _ _ _ => rfl, rfl⟩

theorem Flat.after (h : frame.Flat body) (hbody : FlatBody body) (hstmt : stmt ∈ body) (overwrites : Bool) :
    (frame.after overwrites stmt).Flat body := by
  rcases h.after_cases overwrites stmt with ⟨-, hafter⟩ | ⟨object, index, value, rfl, ⟨-, hafter⟩ | ⟨v, hv, hafter⟩⟩
  · rw [hafter]
    by_cases htarget : stmt.target = ""
    · rwa [bind, if_pos htarget]
    · rw [bind_eq_insert htarget]
      exact h.insert (h.entry_bind hbody hstmt htarget overwrites)
  · rwa [hafter]
  · rw [hafter]
    exact h.insert (h.entry_store hbody hstmt hv)

theorem Flat.afterAll (h : frame.Flat body) (hbody : FlatBody body) (hstmts : stmts ⊆ body) (overwrites : Bool) :
    (frame.afterAll overwrites stmts).Flat body := by
  induction stmts generalizing frame with
  | nil => exact h
  | cons stmt rest ih =>
    obtain ⟨hstmt, hrest⟩ := List.cons_subset.mp hstmts
    exact ih (h.after hbody hstmt overwrites) hrest

/-- A statement that does not overwrite changes one variable at most: the core of its value remains, or the
height rises, and no container of it reaches less far. -/
theorem Flat.after_eq_or_insert (h : frame.Flat body) (hbody : FlatBody body) (hstmt : stmt ∈ body) :
    frame.after false stmt = frame ∨ ∃ name v, frame.after false stmt = Dict.insert frame name v ∧
      ∀ u, Dict.get? frame name = some u →
        (v.core = u.core ∨ u.height (Extent.ofBody body) < v.height (Extent.ofBody body)) ∧
          ∀ type, u.reach (largestSize body) type ≤ v.reach (largestSize body) type := by
  rcases h.after_cases false stmt with ⟨-, hafter⟩ | ⟨object, index, value, rfl, ⟨-, hafter⟩ | ⟨v, hv, hafter⟩⟩
  · by_cases htarget : stmt.target = ""
    · rw [bind, if_pos htarget] at hafter
      exact Or.inl hafter
    · rw [bind_eq_insert htarget] at hafter
      refine Or.inr ⟨_, _, hafter, fun u hu => ?_⟩
      have hflat := (h.values.get? hu).flat
      have hvalue := (h.value hbody hstmt).1
      rw [hu]
      exact ⟨hflat.merge_core_eq_or_height_lt hvalue, hflat.reach_le_merge hvalue⟩
  · exact Or.inl hafter
  · refine Or.inr ⟨_, _, hafter, fun u hu => ?_⟩
    obtain rfl := Option.some.inj (hv.symm.trans hu)
    have hflat := (h.values.get? hu).flat
    have hparts := hbody.parts _ hstmt
    exact ⟨hflat.store_core_eq_or_height_lt (Nat.le_add_right _ _) (h.lookup (hparts value (by simp [Stmt.parts])))
      (h.lookup (hparts index (by simp [Stmt.parts]))), hflat.reach_le_store _ _⟩

theorem Flat.after_core_eq_or_height_lt (h : frame.Flat body) (hbody : FlatBody body) (hstmt : stmt ∈ body) :
    (frame.after false stmt).core = frame.core ∨ frame.height body < (frame.after false stmt).height body := by
  rcases h.after_eq_or_insert hbody hstmt with hafter | ⟨name, v, hafter, hgrown⟩
  · exact Or.inl (congrArg core hafter)
  · rw [hafter]
    refine Dict.insertWith_image_eq_or_weight_lt (Nat.succ_pos _) fun u hu => ?_
    exact (hgrown u (Dict.get?_of_mem h.sorted hu)).1.imp_right Nat.succ_lt_succ

theorem Flat.reachAt_le_after (h : frame.Flat body) (hbody : FlatBody body) (hstmt : stmt ∈ body)
    (p : String × ContainerType) : frame.reachAt body p ≤ (frame.after false stmt).reachAt body p := by
  rcases h.after_eq_or_insert hbody hstmt with hafter | ⟨name, v, hafter, hgrown⟩
  · rw [hafter]
  · rw [hafter, reachAt, reachAt, Dict.get?_insert]
    split
    · rename_i hname
      cases hu : Dict.get? frame p.1 with
      | none => exact Nat.zero_le _
      | some u => exact (hgrown u (hname ▸ hu)).2 p.2
    · exact Nat.le_refl _

theorem lower_insert (frame : Snapshot) (name name' : String) (v : Value) (type : ContainerType) :
    lower (Dict.insert frame name v) name' type = if name' = name then v.lower type else frame.lower name' type := by
  unfold lower
  rw [Dict.get?_insert]
  split <;> rfl

theorem Flat.lower_after (h : frame.Flat body) (hbody : FlatBody body) (hstmt : stmt ∈ body)
    (hcore : (frame.after false stmt).core = frame.core) (name : String) (type : ContainerType) :
    (frame.after false stmt).lower name type = (frame.lower name type).map fun n => stmt.adjust name type n := by
  rcases h.after_cases false stmt with ⟨hadjust, hafter⟩ | ⟨object, index, value, rfl, ⟨hv, hafter⟩ | ⟨v, hv, hafter⟩⟩
  · simp only [hadjust]
    rw [hafter] at hcore ⊢
    by_cases hname : stmt.target = name ∧ name ≠ ""
    · obtain ⟨rfl, htarget⟩ := hname
      simp only [ne_eq, htarget, not_false_eq_true, and_self, ↓reduceIte]
      rw [bind_eq_insert htarget] at hcore ⊢
      -- The target was bound before, or the core would have changed.
      have hget := congrArg (Dict.get? · stmt.target) hcore
      simp only [core, Dict.get?_image, Dict.get?_insert, ↓reduceIte, Option.map_some] at hget
      obtain ⟨u, hu, hsame⟩ := Option.map_eq_some_iff.mp hget.symm
      have hlower : frame.lower stmt.target type = u.lower type := by
        rw [lower, hu]
        rfl
      obtain ⟨hvalue, -, hbound⟩ := h.value hbody hstmt
      rw [hu] at hsame ⊢
      rw [lower_insert, if_pos rfl, hlower, ← hbound]
      exact (h.values.get? hu).flat.lower_merge hvalue hsame.symm type
    · simp only [hname, ↓reduceIte, Option.map_id']
      by_cases htarget : stmt.target = ""
      · rw [bind, if_pos htarget]
      · rw [bind_eq_insert htarget, lower_insert, if_neg]
        rintro rfl
        exact hname ⟨rfl, htarget⟩
  · rw [hafter]
    by_cases hname : object = name
    · subst hname
      simp [lower, hv]
    · simp [Stmt.adjust, hname]
  · rw [hafter, lower_insert]
    by_cases hname : object = name
    · subst hname
      rw [if_pos rfl, Value.lower_store (h.values.get? hv).flat.sorted, lower, hv]
      simp [Stmt.adjust]
    · simp [Stmt.adjust, hname, Ne.symm hname]

/-- Statements that do not raise the height leave the core, and adjust the lower bounds one after the other. -/
theorem Flat.afterAll_steady (h : frame.Flat body) (hbody : FlatBody body) (hstmts : stmts ⊆ body) :
    frame.height body < (frame.afterAll false stmts).height body ∨
      ((frame.afterAll false stmts).core = frame.core ∧ ∀ name type,
        (frame.afterAll false stmts).lower name type = (frame.lower name type).map (adjustAll name type stmts)) := by
  induction stmts generalizing frame with
  | nil => exact Or.inr ⟨rfl, fun _ _ => Option.map_id'.symm⟩
  | cons stmt rest ih =>
    obtain ⟨hstmt, hrest⟩ := List.cons_subset.mp hstmts
    rw [afterAll_cons]
    rcases h.after_core_eq_or_height_lt hbody hstmt with hcore | hlt
    · rcases ih (h.after hbody hstmt false) hrest with hlt | ⟨hcore', hlower⟩
      · rw [height_eq_of_core_eq hcore] at hlt
        exact Or.inl hlt
      · refine Or.inr ⟨hcore'.trans hcore, fun name type => ?_⟩
        rw [hlower, h.lower_after hbody hstmt hcore, Option.map_map]
        rfl
    · rcases ih (h.after hbody hstmt false) hrest with hlt' | ⟨hcore', -⟩
      · exact Or.inl (hlt.trans hlt')
      · rw [height_eq_of_core_eq hcore']
        exact Or.inl hlt

theorem Flat.height_le_afterAll (h : frame.Flat body) (hbody : FlatBody body) (hstmts : stmts ⊆ body) :
    frame.height body ≤ (frame.afterAll false stmts).height body := by
  rcases h.afterAll_steady hbody hstmts with hlt | ⟨hcore, -⟩
  · exact hlt.le
  · exact (height_eq_of_core_eq hcore).ge

theorem Flat.reachAt_le_afterAll (h : frame.Flat body) (hbody : FlatBody body) (hstmts : stmts ⊆ body)
    (p : String × ContainerType) : frame.reachAt body p ≤ (frame.afterAll false stmts).reachAt body p := by
  induction stmts generalizing frame with
  | nil => exact Nat.le_refl _
  | cons stmt rest ih =>
    obtain ⟨hstmt, hrest⟩ := List.cons_subset.mp hstmts
    exact (h.reachAt_le_after hbody hstmt p).trans (ih (h.after hbody hstmt false) hrest)

theorem Flat.reach_le_afterAll (h : frame.Flat body) (hbody : FlatBody body) (hstmts : stmts ⊆ body) :
    frame.reach body ≤ (frame.afterAll false stmts).reach body :=
  List.sum_le_sum fun p _ => h.reachAt_le_afterAll hbody hstmts p

/-- Two passes in a row raise the height or reach further, or the second one leaves the frame equal. -/
theorem Flat.afterAll_equal_or_lt (h : frame.Flat body) (hbody : FlatBody body) :
    ((frame.afterAll false body).afterAll false body).equal (frame.afterAll false body) = true ∨
      frame.height body + (frame.afterAll false body).height body + (frame.afterAll false body).reach body <
        (frame.afterAll false body).height body + ((frame.afterAll false body).afterAll false body).height body +
          ((frame.afterAll false body).afterAll false body).reach body := by
  have hbody' := List.Subset.refl body
  have hfirst := h.afterAll hbody hbody' false
  have hsecond := hfirst.afterAll hbody hbody' false
  have hheight := h.height_le_afterAll hbody hbody'
  have hheight' := hfirst.height_le_afterAll hbody hbody'
  have hreach := hfirst.reach_le_afterAll hbody hbody'
  rcases h.afterAll_steady hbody hbody' with hlt | ⟨hcore, hlower⟩
  · right
    omega
  rcases hfirst.afterAll_steady hbody hbody' with hlt | ⟨hcore', hlower'⟩
  · right
    omega
  by_cases hall : ∀ p ∈ builds body, ((frame.afterAll false body).afterAll false body).reachAt body p =
      (frame.afterAll false body).reachAt body p
  · refine Or.inl (hsecond.equal_of_core_eq hfirst hcore' (fun name type => ?_) hall)
    -- The first of the passes has clamped the lower bounds, and clamping them again changes nothing.
    rw [hlower', hlower, Option.map_map]
    refine congrArg (Option.map · _) (funext fun n => ?_)
    exact adjustAll_adjustAll name type body n
  · right
    simp only [not_forall] at hall
    obtain ⟨p, hp, hne⟩ := hall
    have hlt : (frame.afterAll false body).reach body < ((frame.afterAll false body).afterAll false body).reach body :=
      List.sum_lt_sum _ _ (fun p _ => hfirst.reachAt_le_afterAll hbody hbody' p)
        ⟨p, hp, lt_of_le_of_ne (hfirst.reachAt_le_afterAll hbody hbody' p) (Ne.symm hne)⟩
    omega

end Snapshot

end AbstractFlow
