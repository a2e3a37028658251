import AbstractFlow.Proofs.Collection.Sorted
import AbstractFlow.Proofs.Collection.Weight

/-! # Semilattices on part of a type

An operation that joins: it is commutative, associative and idempotent on the items with a property, and
keeps the property. Such operations combine field by field, and name by name in dictionaries. The union of
sets of a limited size, which is lost when it grows too large, is one of them.
-/
namespace AbstractFlow

variable {α β : Type} {P : α → Prop} {Q : β → Prop} {f : α → α → α} {g : β → β → β}

structure SemilatticeOn (P : α → Prop) (f : α → α → α) : Prop where
  closed : ∀ {a b : α}, P a → P b → P (f a b)
  comm : ∀ {a b : α}, P a → P b → f a b = f b a
  assoc : ∀ {a b c : α}, P a → P b → P c → f (f a b) c = f a (f b c)
  idem : ∀ {a : α}, P a → f a a = a

namespace SemilatticeOn

/-- Laws carry over along a map that tells items apart and takes one operation to the other. -/
theorem pullback (h : SemilatticeOn Q g) (φ : α → β) (hφ : ∀ {a : α}, P a → Q (φ a))
    (hinj : ∀ {a b : α}, P a → P b → φ a = φ b → a = b) (hclosed : ∀ {a b : α}, P a → P b → P (f a b))
    (hhom : ∀ {a b : α}, P a → P b → φ (f a b) = g (φ a) (φ b)) : SemilatticeOn P f where
  closed := hclosed
  comm ha hb := by
    apply hinj (hclosed ha hb) (hclosed hb ha)
    rw [hhom ha hb, hhom hb ha]
    exact h.comm (hφ ha) (hφ hb)
  assoc ha hb hc := by
    have hab := hclosed ha hb
    have hbc := hclosed hb hc
    apply hinj (hclosed hab hc) (hclosed ha hbc)
    rw [hhom hab hc, hhom ha hb, hhom ha hbc, hhom hb hc]
    exact h.assoc (hφ ha) (hφ hb) (hφ hc)
  idem ha := by
    apply hinj (hclosed ha ha) ha
    rw [hhom ha ha]
    exact h.idem (hφ ha)

theorem image (h : SemilatticeOn Q g) (ι : β → α) (hι : ∀ {a : α}, P a → ∃ b, Q b ∧ ι b = a)
    (hclosed : ∀ {a b : α}, P a → P b → P (f a b))
    (hhom : ∀ {x y : β}, Q x → Q y → f (ι x) (ι y) = ι (g x y)) : SemilatticeOn P f where
  closed := hclosed
  comm := by
    intro a b ha hb
    obtain ⟨x, hx, rfl⟩ := hι ha
    obtain ⟨y, hy, rfl⟩ := hι hb
    rw [hhom hx hy, hhom hy hx, h.comm hx hy]
  assoc := by
    intro a b c ha hb hc
    obtain ⟨x, hx, rfl⟩ := hι ha
    obtain ⟨y, hy, rfl⟩ := hι hb
    obtain ⟨z, hz, rfl⟩ := hι hc
    rw [hhom hx hy, hhom (h.closed hx hy) hz, hhom hy hz, hhom hx (h.closed hy hz), h.assoc hx hy hz]
  idem := by
    intro a ha
    obtain ⟨x, hx, rfl⟩ := hι ha
    rw [hhom hx hx, h.idem hx]

theorem prod (hf : SemilatticeOn P f) (hg : SemilatticeOn Q g) :
    SemilatticeOn (fun x : α × β => P x.1 ∧ Q x.2) fun x y => (f x.1 y.1, g x.2 y.2) where
  closed ha hb := ⟨hf.closed ha.1 hb.1, hg.closed ha.2 hb.2⟩
  comm ha hb := Prod.ext (hf.comm ha.1 hb.1) (hg.comm ha.2 hb.2)
  assoc ha hb hc := Prod.ext (hf.assoc ha.1 hb.1 hc.1) (hg.assoc ha.2 hb.2 hc.2)
  idem ha := Prod.ext (hf.idem ha.1) (hg.idem ha.2)

theorem max [LinearOrder α] : SemilatticeOn (fun _ : α => True) Max.max where
  closed _ _ := trivial
  comm _ _ := max_comm _ _
  assoc _ _ _ := max_assoc _ _ _
  idem _ := max_self _

theorem min [LinearOrder α] : SemilatticeOn (fun _ : α => True) Min.min where
  closed _ _ := trivial
  comm _ _ := min_comm _ _
  assoc _ _ _ := min_assoc _ _ _
  idem _ := min_self _

theorem option (h : SemilatticeOn P f) :
    SemilatticeOn (fun x : Option α => ∀ a, x = some a → P a) (Dict.union f) where
  closed := by
    intro x y hx hy a ha
    cases x <;> cases y <;> simp only [Dict.union, reduceCtorEq, Option.some.injEq] at ha
    · exact hy a (ha ▸ rfl)
    · exact hx a (ha ▸ rfl)
    · exact ha ▸ h.closed (hx _ rfl) (hy _ rfl)
  comm := by
    intro x y hx hy
    cases x <;> cases y <;> try rfl
    exact congrArg some (h.comm (hx _ rfl) (hy _ rfl))
  assoc := by
    intro x y z hx hy hz
    cases x <;> cases y <;> cases z <;> try rfl
    exact congrArg some (h.assoc (hx _ rfl) (hy _ rfl) (hz _ rfl))
  idem := by
    intro x hx
    cases x
    · rfl
    · exact congrArg some (h.idem (hx _ rfl))

theorem dict {P : String → α → Prop} (h : ∀ name, SemilatticeOn (P name) f) :
    SemilatticeOn (fun d : Dict α => Dict.Sorted d ∧ Dict.Each P d) (Dict.mergeWith f) := by
  have hget : ∀ {d : Dict α}, Dict.Each P d → ∀ name v, Dict.get? d name = some v → P name v :=
    fun hd name v hv => hd.get? hv
  have hclosed : ∀ {d e : Dict α}, Dict.Sorted d ∧ Dict.Each P d → Dict.Sorted e ∧ Dict.Each P e →
      Dict.Sorted (Dict.mergeWith f d e) ∧ Dict.Each P (Dict.mergeWith f d e) := by
    intro d e hd he
    exact ⟨Dict.sorted_mergeWith f hd.1, Dict.Each.mergeWith (fun n _ _ => (h n).closed) hd.2 he.2⟩
  refine ⟨hclosed, fun {d e} hd he => ?_, fun {d e c} hd he hc => ?_, fun {d} hd => ?_⟩
  · refine Dict.ext_get? (hclosed hd he).1 (hclosed he hd).1 fun name => ?_
    rw [Dict.get?_mergeWith f name hd.1 he.1, Dict.get?_mergeWith f name he.1 hd.1]
    exact (h name).option.comm (hget hd.2 name) (hget he.2 name)
  · have hde := hclosed hd he
    have hec := hclosed he hc
    refine Dict.ext_get? (hclosed hde hc).1 (hclosed hd hec).1 fun name => ?_
    rw [Dict.get?_mergeWith f name hde.1 hc.1, Dict.get?_mergeWith f name hd.1 he.1,
      Dict.get?_mergeWith f name hd.1 hec.1, Dict.get?_mergeWith f name he.1 hc.1]
    exact (h name).option.assoc (hget hd.2 name) (hget he.2 name) (hget hc.2 name)
  · refine Dict.ext_get? (hclosed hd hd).1 hd.1 fun name => ?_
    rw [Dict.get?_mergeWith f name hd.1 hd.1]
    exact (h name).option.idem (hget hd.2 name)

end SemilatticeOn

/-- A union of lists that are determined by their members. -/
structure UnionOn (S : List α → Prop) (u : List α → List α → List α) : Prop where
  closed : ∀ {as bs : List α}, S as → S bs → S (u as bs)
  mem : ∀ {as bs : List α} {a : α}, S as → S bs → (a ∈ u as bs ↔ a ∈ as ∨ a ∈ bs)
  ext : ∀ {as bs : List α}, S as → S bs → (∀ a, a ∈ as ↔ a ∈ bs) → as = bs
  nodup : ∀ {as : List α}, S as → as.Nodup

namespace UnionOn

variable {S : List α → Prop} {u : List α → List α → List α} {as bs : List α}

theorem semilattice (h : UnionOn S u) : SemilatticeOn S u where
  closed := h.closed
  comm ha hb := by
    refine h.ext (h.closed ha hb) (h.closed hb ha) fun x => ?_
    rw [h.mem ha hb, h.mem hb ha]
    exact or_comm
  assoc ha hb hc := by
    have hab := h.closed ha hb
    have hbc := h.closed hb hc
    refine h.ext (h.closed hab hc) (h.closed ha hbc) fun x => ?_
    rw [h.mem hab hc, h.mem ha hb, h.mem ha hbc, h.mem hb hc]
    exact or_assoc
  idem ha := by
    refine h.ext (h.closed ha ha) ha fun x => ?_
    rw [h.mem ha ha]
    exact or_self_iff

theorem length_le_left (h : UnionOn S u) (ha : S as) (hb : S bs) : as.length ≤ (u as bs).length := by
  refine (List.subperm_of_subset (h.nodup ha) fun x hx => ?_).length_le
  exact (h.mem ha hb).mpr (Or.inl hx)

theorem ne_nil (h : UnionOn S u) (ha : S as) (hb : S bs) (hne : as ≠ []) : u as bs ≠ [] := by
  obtain ⟨x, hx⟩ := List.exists_mem_of_ne_nil as hne
  exact List.ne_nil_of_mem ((h.mem ha hb).mpr (Or.inl hx))

end UnionOn

/-- A join that is lost for good when it grows too large. -/
def joinUpTo (limit : Nat) (size : α → Nat) (f : α → α → α) : Option α → Option α → Option α
  | some a, some b => if size (f a b) ≤ limit then some (f a b) else none
  | _, _ => none

section Limited

variable {limit : Nat} {size : α → Nat}

theorem none_joinUpTo (x : Option α) : joinUpTo limit size f none x = none := by
  cases x <;> rfl

theorem joinUpTo_none (x : Option α) : joinUpTo limit size f x none = none := by
  cases x <;> rfl

theorem exists_of_joinUpTo_eq_some {x y : Option α} {c : α} (h : joinUpTo limit size f x y = some c) :
    ∃ a b, x = some a ∧ y = some b ∧ c = f a b ∧ size c ≤ limit := by
  cases x with
  | none =>
    rw [none_joinUpTo] at h
    cases h
  | some a =>
    cases y with
    | none =>
      rw [joinUpTo_none] at h
      cases h
    | some b =>
      simp only [joinUpTo] at h
      split at h
      · rename_i hfew
        cases h
        exact ⟨a, b, rfl, rfl, rfl, hfew⟩
      · cases h

theorem closed_joinUpTo (hf : ∀ {a b : α}, P a → P b → P (f a b)) {x y : Option α}
    (hx : ∀ a, x = some a → P a ∧ size a ≤ limit) (hy : ∀ a, y = some a → P a ∧ size a ≤ limit) :
    ∀ a, joinUpTo limit size f x y = some a → P a ∧ size a ≤ limit := by
  intro c hc
  obtain ⟨a, b, rfl, rfl, rfl, hfew⟩ := exists_of_joinUpTo_eq_some hc
  exact ⟨hf (hx a rfl).1 (hy b rfl).1, hfew⟩

theorem map_joinUpTo {β : Type} {g : β → β → β} {size' : β → Nat} (φ : α → β) (hsize : ∀ a, size' (φ a) = size a)
    {x y : Option α} (hhom : ∀ a b, x = some a → y = some b → φ (f a b) = g (φ a) (φ b)) :
    (joinUpTo limit size f x y).map φ = joinUpTo limit size' g (x.map φ) (y.map φ) := by
  cases x with
  | none => rw [none_joinUpTo, Option.map_none, none_joinUpTo]
  | some a =>
    cases y with
    | none => rw [joinUpTo_none, Option.map_none, joinUpTo_none]
    | some b =>
      simp only [joinUpTo, Option.map_some]
      rw [← hhom a b rfl rfl, hsize]
      split <;> rfl

/-- A join of three is lost as soon as all three together are too large. -/
theorem joinUpTo_joinUpTo (hf : ∀ {a b : α}, P a → P b → P (f a b))
    (hsize : ∀ {a b : α}, P a → P b → size a ≤ size (f a b)) {a b c : α} (ha : P a) (hb : P b) (hc : P c) :
    joinUpTo limit size f (joinUpTo limit size f (some a) (some b)) (some c) =
      if size (f (f a b) c) ≤ limit then some (f (f a b) c) else none := by
  have hle := hsize (hf ha hb) hc
  by_cases hfew : size (f a b) ≤ limit
  · simp only [joinUpTo, if_pos hfew]
  · rw [joinUpTo, if_neg hfew, none_joinUpTo, if_neg (by omega)]

theorem SemilatticeOn.upTo (h : SemilatticeOn P f) (hsize : ∀ {a b : α}, P a → P b → size a ≤ size (f a b))
    (limit : Nat) :
    SemilatticeOn (fun x : Option α => ∀ a, x = some a → P a ∧ size a ≤ limit) (joinUpTo limit size f) where
  closed := closed_joinUpTo h.closed
  comm := by
    intro x y hx hy
    cases x with
    | none => rw [none_joinUpTo, joinUpTo_none]
    | some a =>
      cases y with
      | none => rfl
      | some b => simp only [joinUpTo, h.comm (hx a rfl).1 (hy b rfl).1]
  assoc := by
    intro x y z hx hy hz
    cases x with
    | none => simp only [none_joinUpTo]
    | some a =>
      cases y with
      | none => simp only [none_joinUpTo, joinUpTo_none]
      | some b =>
        cases z with
        | none => simp only [joinUpTo_none]
        | some c =>
          obtain ⟨⟨ha, -⟩, ⟨hb, -⟩, ⟨hc, -⟩⟩ := And.intro (hx a rfl) (And.intro (hy b rfl) (hz c rfl))
          -- Joining three from the right is joining them from the left once they are turned around.
          have hswap : joinUpTo limit size f (some a) (joinUpTo limit size f (some b) (some c)) =
              joinUpTo limit size f (joinUpTo limit size f (some b) (some c)) (some a) := by
            simp only [joinUpTo]
            by_cases hfew : size (f b c) ≤ limit
            · simp only [if_pos hfew, h.comm ha (h.closed hb hc)]
            · simp only [if_neg hfew]
          have hturn : f (f b c) a = f (f a b) c := by
            rw [h.assoc ha hb hc, h.comm (h.closed hb hc) ha]
          rw [hswap, joinUpTo_joinUpTo h.closed hsize ha hb hc, joinUpTo_joinUpTo h.closed hsize hb hc ha, hturn]
  idem := by
    intro x hx
    cases x with
    | none => rfl
    | some a =>
      obtain ⟨ha, hfew⟩ := hx a rfl
      simp only [joinUpTo, h.idem ha, if_pos hfew]

end Limited

/-- The union of two constraints: it exists only if both do, and is lost if it grows too large. -/
def unionUpTo (limit : Nat) (u : List α → List α → List α) (as bs : List α) : List α :=
  if as = [] ∨ bs = [] then [] else if (u as bs).length ≤ limit then u as bs else []

/-- A constraint, or none where nothing is listed. -/
def listed (as : List α) : Option (List α) := if as = [] then none else some as

section Constraints

variable {S : List α → Prop} {u : List α → List α → List α} {limit : Nat} {as bs : List α}

theorem unionUpTo_eq (ha : as ≠ []) (hb : bs ≠ []) :
    unionUpTo limit u as bs = if (u as bs).length ≤ limit then u as bs else [] :=
  if_neg (by simp [ha, hb])

theorem listed_unionUpTo (h : UnionOn S u) (ha : S as) (hb : S bs) :
    listed (unionUpTo limit u as bs) = joinUpTo limit List.length u (listed as) (listed bs) := by
  by_cases hane : as = []
  · rw [hane, unionUpTo, if_pos (Or.inl rfl)]
    exact (none_joinUpTo _).symm
  by_cases hbne : bs = []
  · rw [hbne, unionUpTo, if_pos (Or.inr rfl)]
    exact (joinUpTo_none _).symm
  rw [unionUpTo_eq hane hbne, listed, listed, listed, if_neg hane, if_neg hbne, joinUpTo]
  split
  · rw [if_neg (h.ne_nil ha hb hane)]
  · rw [if_pos rfl]

theorem UnionOn.upTo (h : UnionOn S u) (hnil : S []) (limit : Nat) :
    SemilatticeOn (fun as => S as ∧ as.length ≤ limit) (unionUpTo limit u) := by
  refine (h.semilattice.upTo h.length_le_left limit).pullback listed ?_ ?_ ?_ ?_
  · intro as ha bs hbs
    unfold listed at hbs
    split at hbs
    · cases hbs
    · obtain rfl := Option.some.inj hbs
      exact ha
  · intro as bs _ _ heq
    unfold listed at heq
    split at heq <;> split at heq <;> simp_all
  · intro as bs ha hb
    unfold unionUpTo
    split
    · exact ⟨hnil, by simp⟩
    · split
      · rename_i hfew
        exact ⟨h.closed ha.1 hb.1, hfew⟩
      · exact ⟨hnil, by simp⟩
  · intro as bs ha hb
    exact listed_unionUpTo h ha.1 hb.1

end Constraints

namespace Sorted

variable [LT α] [DecidableLT α] [DecidableEq α] [IsStrictTotalOrder α (· < ·)]

theorem unionOn : UnionOn (fun as : List α => as.Pairwise (· < ·)) union where
  closed _ _ := pairwise_ofList _
  mem _ _ := mem_union
  ext := ext_mem
  nodup ha := ha.nodup

end Sorted

end AbstractFlow
