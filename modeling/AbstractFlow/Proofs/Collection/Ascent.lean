import AbstractFlow.Proofs.Collection.Semilattice

/-! # Operations that lead upwards

Joining item after item to a first one leads away from it: what is reached this way has absorbed the first one,
and leads back only if nothing has changed. Semilattices have this property, but it is weaker. It needs neither
order nor grouping to be of no account, so it also holds where of two like items the one that came first stays.
-/
namespace AbstractFlow

variable {α β : Type} {P : α → Prop} {Q : β → Prop} {f : α → α → α} {g : β → β → β} {a b c : α}

/-- What is reached from an item by joining others to it, one after the other. -/
inductive Climbs (P : α → Prop) (f : α → α → α) (a : α) : α → Prop where
  | refl : Climbs P f a a
  | step {b c : α} (h : Climbs P f a b) (hc : P c) : Climbs P f a (f b c)

structure AscendsOn (P : α → Prop) (f : α → α → α) : Prop where
  closed : ∀ {a b : α}, P a → P b → P (f a b)
  antisymm : ∀ {a b : α}, P a → Climbs P f a b → Climbs P f b a → a = b

/-- What is reached from an item neither changes when the item is joined to it, nor when it is joined to the
item. -/
structure AbsorbsOn (P : α → Prop) (f : α → α → α) : Prop where
  closed : ∀ {a b : α}, P a → P b → P (f a b)
  absorbs : ∀ {a b : α}, P a → Climbs P f a b → f b a = b ∧ f a b = b

namespace Climbs

theorem trans (hab : Climbs P f a b) (hbc : Climbs P f b c) : Climbs P f a c := by
  induction hbc with
  | refl => exact hab
  | step _ hc ih => exact ih.step hc

theorem mem (hclosed : ∀ {a b : α}, P a → P b → P (f a b)) (ha : P a) (h : Climbs P f a b) : P b := by
  induction h with
  | refl => exact ha
  | step _ hc ih => exact hclosed ih hc

/-- A map that takes one operation to the other takes what is reached to what is reached. -/
theorem map (hclosed : ∀ {a b : α}, P a → P b → P (f a b)) (φ : α → β) (hφ : ∀ {a : α}, P a → Q (φ a))
    (hhom : ∀ {a b : α}, P a → P b → φ (f a b) = g (φ a) (φ b)) (ha : P a) (h : Climbs P f a b) :
    Climbs Q g (φ a) (φ b) := by
  induction h with
  | refl => exact .refl
  | step hab hc ih =>
    rw [hhom (hab.mem hclosed ha) hc]
    exact ih.step (hφ hc)

theorem mono {P' : α → Prop} (hsub : ∀ {a : α}, P a → P' a) (h : Climbs P f a b) : Climbs P' f a b := by
  induction h with
  | refl => exact .refl
  | step _ hc ih => exact ih.step (hsub hc)

end Climbs

namespace AbsorbsOn

theorem idem (h : AbsorbsOn P f) (ha : P a) : f a a = a := (h.absorbs ha .refl).1

theorem ascends (h : AbsorbsOn P f) : AscendsOn P f := by
  refine ⟨h.closed, fun {a b} ha hab hba => ?_⟩
  have hb : P b := hab.mem h.closed ha
  calc a = f b a := (h.absorbs hb hba).2.symm
    _ = b := (h.absorbs ha hab).1

/-- An operation on fewer items. -/
theorem mono {P' : α → Prop} (h : AbsorbsOn P f) (hsub : ∀ {a : α}, P' a → P a)
    (hclosed : ∀ {a b : α}, P' a → P' b → P' (f a b)) : AbsorbsOn P' f :=
  ⟨hclosed, fun ha hab => h.absorbs (hsub ha) (hab.mono hsub)⟩

/-- An order that joining respects, and in which what is above absorbs what is below. -/
theorem ofOrder {R : α → α → Prop} (hclosed : ∀ {a b : α}, P a → P b → P (f a b))
    (hrefl : ∀ {a : α}, P a → R a a) (hjoin : ∀ {a b c : α}, P a → P b → P c → R a b → R a (f b c))
    (habsorbs : ∀ {a b : α}, P a → P b → R a b → f b a = b ∧ f a b = b) : AbsorbsOn P f := by
  have hclimbs : ∀ {a b : α}, P a → Climbs P f a b → R a b := by
    intro a b ha hab
    induction hab with
    | refl => exact hrefl ha
    | step hab hc ih => exact hjoin ha (hab.mem hclosed ha) hc ih
  exact ⟨hclosed, fun ha hab => habsorbs ha (hab.mem hclosed ha) (hclimbs ha hab)⟩

theorem ofEq (h : ∀ {a b : α}, P a → P b → f a b = a) : AbsorbsOn P f := by
  refine ofOrder (R := Eq) (fun ha hb => ?_) (fun _ => rfl) (fun _ hb hc hab => hab.trans (h hb hc).symm) ?_
  · rw [h ha hb]
    exact ha
  · rintro a b ha hb rfl
    exact ⟨h ha ha, h ha ha⟩

/-- A family of maps that together tell items apart, each into items that absorb what they come from. -/
theorem jointly {ι : Type} {β : ι → Type} {Q : ∀ i, β i → Prop} {g : ∀ i, β i → β i → β i}
    (h : ∀ i, AbsorbsOn (Q i) (g i)) (φ : ∀ i, α → β i) (hφ : ∀ i, ∀ {a : α}, P a → Q i (φ i a))
    (hinj : ∀ {a b : α}, P a → P b → (∀ i, φ i a = φ i b) → a = b)
    (hclosed : ∀ {a b : α}, P a → P b → P (f a b))
    (hhom : ∀ i, ∀ {a b : α}, P a → P b → φ i (f a b) = g i (φ i a) (φ i b)) : AbsorbsOn P f := by
  refine ⟨hclosed, fun {a b} ha hab => ?_⟩
  have hb := hab.mem hclosed ha
  have habsorbs := fun i => (h i).absorbs (hφ i ha) (hab.map hclosed (φ i) (hφ i) (hhom i) ha)
  constructor
  · exact hinj (hclosed hb ha) hb fun i => (hhom i hb ha).trans (habsorbs i).1
  · exact hinj (hclosed ha hb) hb fun i => (hhom i ha hb).trans (habsorbs i).2

theorem pullback (h : AbsorbsOn Q g) (φ : α → β) (hφ : ∀ {a : α}, P a → Q (φ a))
    (hinj : ∀ {a b : α}, P a → P b → φ a = φ b → a = b) (hclosed : ∀ {a b : α}, P a → P b → P (f a b))
    (hhom : ∀ {a b : α}, P a → P b → φ (f a b) = g (φ a) (φ b)) : AbsorbsOn P f :=
  jointly (ι := Unit) (fun _ => h) (fun _ => φ) (fun _ => hφ) (fun ha hb heq => hinj ha hb (heq ())) hclosed
    fun _ => hhom

theorem image (h : AbsorbsOn Q g) (ι : β → α) (hι : ∀ {a : α}, P a → ∃ b, Q b ∧ ι b = a)
    (hclosed : ∀ {a b : α}, P a → P b → P (f a b))
    (hhom : ∀ {x y : β}, Q x → Q y → f (ι x) (ι y) = ι (g x y)) : AbsorbsOn P f := by
  have hclimbs : ∀ {x : β} {a : α}, Q x → Climbs P f (ι x) a → ∃ y, ι y = a ∧ Climbs Q g x y := by
    intro x a hx hclimbs
    induction hclimbs with
    | refl => exact ⟨x, rfl, .refl⟩
    | step _ hc ih =>
      obtain ⟨y, rfl, hxy⟩ := ih
      obtain ⟨z, hz, rfl⟩ := hι hc
      exact ⟨g y z, (hhom (hxy.mem h.closed hx) hz).symm, hxy.step hz⟩
  refine ⟨hclosed, fun {a b} ha hab => ?_⟩
  obtain ⟨x, hx, rfl⟩ := hι ha
  obtain ⟨y, rfl, hxy⟩ := hclimbs hx hab
  have hy : Q y := hxy.mem h.closed hx
  obtain ⟨hyx, hxy⟩ := h.absorbs hx hxy
  exact ⟨(hhom hy hx).trans (congrArg ι hyx), (hhom hx hy).trans (congrArg ι hxy)⟩

theorem prod (hf : AbsorbsOn P f) (hg : AbsorbsOn Q g) :
    AbsorbsOn (fun x : α × β => P x.1 ∧ Q x.2) fun x y => (f x.1 y.1, g x.2 y.2) := by
  let R (x : α × β) : Prop := P x.1 ∧ Q x.2
  let u (x y : α × β) : α × β := (f x.1 y.1, g x.2 y.2)
  have hclosed : ∀ {x y : α × β}, R x → R y → R (u x y) :=
    fun hx hy => ⟨hf.closed hx.1 hy.1, hg.closed hx.2 hy.2⟩
  refine ⟨hclosed, fun {x y} hx (hxy : Climbs R u x y) => ?_⟩
  have hfst : Climbs P f x.1 y.1 :=
    Climbs.map (P := R) (f := u) hclosed Prod.fst (fun h => h.1) (fun _ _ => rfl) hx hxy
  have hsnd : Climbs Q g x.2 y.2 :=
    Climbs.map (P := R) (f := u) hclosed Prod.snd (fun h => h.2) (fun _ _ => rfl) hx hxy
  obtain ⟨hyx₁, hxy₁⟩ := hf.absorbs hx.1 hfst
  obtain ⟨hyx₂, hxy₂⟩ := hg.absorbs hx.2 hsnd
  exact ⟨Prod.ext hyx₁ hyx₂, Prod.ext hxy₁ hxy₂⟩

theorem option (h : AbsorbsOn P f) :
    AbsorbsOn (fun x : Option α => ∀ a, x = some a → P a) (Dict.union f) := by
  have hclosed : ∀ {x y : Option α}, (∀ a, x = some a → P a) → (∀ a, y = some a → P a) →
      ∀ a, Dict.union f x y = some a → P a := by
    intro x y hx hy a ha
    cases x <;> cases y <;> simp only [Dict.union, reduceCtorEq, Option.some.injEq] at ha
    · exact hy a (ha ▸ rfl)
    · exact hx a (ha ▸ rfl)
    · exact ha ▸ h.closed (hx _ rfl) (hy _ rfl)
  have hclimbs : ∀ {a : α} {y : Option α}, Climbs (fun x : Option α => ∀ a, x = some a → P a) (Dict.union f)
      (some a) y → ∃ b, y = some b ∧ Climbs P f a b := by
    intro a y hclimbs
    induction hclimbs with
    | refl => exact ⟨a, rfl, .refl⟩
    | @step _ c _ hc ih =>
      obtain ⟨b, rfl, hab⟩ := ih
      cases c with
      | none => exact ⟨b, rfl, hab⟩
      | some c => exact ⟨f b c, rfl, hab.step (hc c rfl)⟩
  refine ⟨hclosed, fun {x y} hx hxy => ?_⟩
  cases x with
  | none => cases y <;> exact ⟨rfl, rfl⟩
  | some a =>
    obtain ⟨b, rfl, hab⟩ := hclimbs hxy
    obtain ⟨hba, hab⟩ := h.absorbs (hx a rfl) hab
    exact ⟨congrArg some hba, congrArg some hab⟩

theorem dict {P : String → α → Prop} (h : ∀ name, AbsorbsOn (P name) f) :
    AbsorbsOn (fun d : Dict α => Dict.Sorted d ∧ Dict.Each P d) (Dict.mergeWith f) := by
  refine jointly (fun name => (h name).option) (fun name d => Dict.get? d name) ?_ ?_ ?_ ?_
  · exact fun name d hd v hv => hd.2.get? hv
  · exact fun hd he heq => Dict.ext_get? hd.1 he.1 heq
  · exact fun hd he => ⟨Dict.sorted_mergeWith f hd.1, Dict.Each.mergeWith (fun n _ _ => (h n).closed) hd.2 he.2⟩
  · exact fun name d e hd he => Dict.get?_mergeWith f name hd.1 he.1

/-- What is lost is above everything. -/
theorem upTo (h : AbsorbsOn P f) (limit : Nat) (size : α → Nat) :
    AbsorbsOn (fun x : Option α => ∀ a, x = some a → P a ∧ size a ≤ limit) (joinUpTo limit size f) := by
  -- Nothing leads down from what is lost, so below a member the whole way is among members.
  have hclimbs : ∀ {x : Option α} {b : α}, Climbs (fun x : Option α => ∀ a, x = some a → P a ∧ size a ≤ limit)
      (joinUpTo limit size f) x (some b) → ∃ a, x = some a ∧ Climbs P f a b := by
    intro x b hclimbs
    generalize hy : some b = y at hclimbs
    induction hclimbs generalizing b with
    | refl => exact ⟨b, hy.symm, .refl⟩
    | step _ hc ih =>
      obtain ⟨d, c, rfl, rfl, rfl, -⟩ := exists_of_joinUpTo_eq_some hy.symm
      obtain ⟨a, rfl, had⟩ := ih rfl
      exact ⟨a, rfl, had.step (hc c rfl).1⟩
  refine ⟨closed_joinUpTo h.closed, fun {x y} hx hxy => ?_⟩
  cases y with
  | none => exact ⟨none_joinUpTo x, joinUpTo_none x⟩
  | some b =>
    have hfew : size b ≤ limit := (Climbs.mem (closed_joinUpTo h.closed) hx hxy b rfl).2
    obtain ⟨a, rfl, hab⟩ := hclimbs hxy
    obtain ⟨hba, hab⟩ := h.absorbs (hx a rfl).1 hab
    rw [joinUpTo, joinUpTo, hba, hab, if_pos hfew]
    exact ⟨rfl, rfl⟩

end AbsorbsOn

theorem SemilatticeOn.absorbs (h : SemilatticeOn P f) : AbsorbsOn P f := by
  refine AbsorbsOn.ofOrder (R := fun a b => f b a = b) h.closed h.idem ?_ ?_
  · intro a b c ha hb hc hab
    calc f (f b c) a = f b (f c a) := h.assoc hb hc ha
      _ = f b (f a c) := by rw [h.comm hc ha]
      _ = f (f b a) c := (h.assoc hb ha hc).symm
      _ = f b c := by rw [hab]
  · exact fun ha hb hab => ⟨hab, (h.comm ha hb).trans hab⟩

end AbstractFlow
