import AbstractFlow.Proofs.Collection.Dict
import Mathlib

/-! # Weights of dictionaries

What holds of all entries survives a union, if it survives the join of two entries of one name. If such
a join either leaves an entry alone, as far as a map can see, or makes it heavier, then so does a union
with the dictionary as a whole; and a dictionary with few names and light entries is light.
-/
namespace AbstractFlow.Dict

variable {α : Type} {f : α → α → α} {p : String → α → Prop} {w : α → Nat}

def Each (p : String → α → Prop) (d : Dict α) : Prop := ∀ e ∈ d, p e.1 e.2

theorem each_nil : Each p [] := by simp [Each]

theorem Each.get? {d : Dict α} (h : Each p d) {name : String} {v : α} (hv : Dict.get? d name = some v) :
    p name v := h (name, v) (mem_of_get? hv)

theorem Each.insertWith (hf : ∀ n u v, p n u → p n v → p n (f u v)) {d : Dict α} (hd : Each p d)
    {name : String} {v : α} (hv : p name v) : Each p (Dict.insertWith f name v d) := by
  induction d with
  | nil => simpa [Dict.insertWith, Each] using hv
  | cons x rest ih =>
    obtain ⟨n, u⟩ := x
    have hu : p n u := hd (n, u) List.mem_cons_self
    have hrest : Each p rest := fun e he => hd e (List.mem_cons_of_mem _ he)
    unfold Dict.insertWith
    split
    · exact List.forall_mem_cons.mpr ⟨hv, hd⟩
    · split
      · rename_i hn
        subst hn
        exact List.forall_mem_cons.mpr ⟨hf _ u v hu hv, hrest⟩
      · exact List.forall_mem_cons.mpr ⟨hu, ih hrest⟩

theorem Each.insert {d : Dict α} (hd : Each p d) {name : String} {v : α} (hv : p name v) :
    Each p (d.insert name v) := Each.insertWith (fun _ _ _ _ h => h) hd hv

theorem Each.mergeWith (hf : ∀ n u v, p n u → p n v → p n (f u v)) {d e : Dict α} (hd : Each p d)
    (he : Each p e) : Each p (Dict.mergeWith f d e) := by
  unfold Dict.mergeWith
  induction e generalizing d with
  | nil => exact hd
  | cons x rest ih =>
    exact ih (Each.insertWith hf hd (he x List.mem_cons_self)) fun y hy => he y (List.mem_cons_of_mem _ hy)

/-- The weight of all entries together. -/
def weight (w : α → Nat) (d : Dict α) : Nat := (d.map fun e => w e.2).sum

@[simp] theorem weight_nil : weight w [] = 0 := rfl

@[simp] theorem weight_cons (e : String × α) (d : Dict α) : weight w (e :: d) = w e.2 + weight w d := by
  simp [weight]

/-- The entries as a map sees them. -/
def image {β : Type} (g : α → β) (d : Dict α) : Dict β := d.map fun e => (e.1, g e.2)

section Image

variable {β : Type} {g : α → β} {d e : Dict α}

@[simp] theorem image_nil : image g [] = [] := rfl

@[simp] theorem image_cons (x : String × α) (d : Dict α) : image g (x :: d) = (x.1, g x.2) :: image g d := rfl

@[simp] theorem image_id (d : Dict α) : image id d = d := by simp [image]

theorem get?_image (g : α → β) (d : Dict α) (name : String) : get? (image g d) name = (get? d name).map g := by
  induction d with
  | nil => rfl
  | cons x rest ih =>
    obtain ⟨n, u⟩ := x
    by_cases hn : n = name
    · simp [get?, hn]
    · simp [get?, hn, ih]

theorem sorted_image : Sorted (image g d) ↔ Sorted d := List.pairwise_map

theorem image_mergeWith {f' : β → β → β} (hd : Sorted d) (he : Sorted e)
    (hhom : ∀ name x y, get? d name = some x → get? e name = some y → g (f x y) = f' (g x) (g y)) :
    image g (mergeWith f d e) = mergeWith f' (image g d) (image g e) := by
  have hd' : Sorted (image g d) := sorted_image.mpr hd
  refine ext_get? (sorted_image.mpr (sorted_mergeWith f hd)) (sorted_mergeWith f' hd') fun name => ?_
  rw [get?_image, get?_mergeWith f name hd he, get?_mergeWith f' name hd' (sorted_image.mpr he), get?_image, get?_image]
  cases hx : get? d name with
  | none => cases get? e name <;> rfl
  | some x =>
    cases hy : get? e name with
    | none => rfl
    | some y => exact congrArg some (hhom name x y hx hy)

/-- A union with entries that absorb the entries of the same names leaves these entries. -/
theorem mergeWith_image {f' : β → β → β} {g' : α → β} (hd : Sorted d)
    (habsorbs : ∀ name x, get? d name = some x → f' (g x) (g' x) = g' x) :
    mergeWith f' (image g d) (image g' d) = image g' d := by
  have hg : Sorted (image g d) := sorted_image.mpr hd
  have hg' : Sorted (image g' d) := sorted_image.mpr hd
  refine ext_get? (sorted_mergeWith f' hg) hg' fun name => ?_
  rw [get?_mergeWith f' name hg hg', get?_image, get?_image]
  cases hx : get? d name with
  | none => rfl
  | some x => exact congrArg some (habsorbs name x hx)

theorem weight_eq_of_image_eq (hw : ∀ u v, g u = g v → w u = w v) (h : image g d = image g e) :
    weight w d = weight w e := by
  induction d generalizing e with
  | nil =>
    cases e with
    | nil => rfl
    | cons y e => cases h
  | cons x d ih =>
    cases e with
    | nil => cases h
    | cons y e =>
      simp only [image_cons, List.cons.injEq, Prod.mk.injEq] at h
      rw [weight_cons, weight_cons, hw _ _ h.1.2, ih h.2]

theorem insertWith_image_eq_or_weight_lt {name : String} {v : α} (hpos : 0 < w v)
    (hf : ∀ u, (name, u) ∈ d → g (f u v) = g u ∨ w u < w (f u v)) :
    image g (insertWith f name v d) = image g d ∨ weight w d < weight w (insertWith f name v d) := by
  induction d with
  | nil =>
    right
    simpa [insertWith] using hpos
  | cons x rest ih =>
    obtain ⟨n, u⟩ := x
    unfold insertWith
    split
    · right
      simp only [weight_cons]
      omega
    · split
      · rename_i hn
        subst hn
        rcases hf u List.mem_cons_self with h | h
        · exact Or.inl (by rw [image_cons, image_cons, h])
        · exact Or.inr (by simp only [weight_cons]; omega)
      · rcases ih fun u hu => hf u (List.mem_cons_of_mem _ hu) with h | h
        · exact Or.inl (by rw [image_cons, image_cons, h])
        · exact Or.inr (by simp only [weight_cons]; omega)

/-- A union that changes the image of a dictionary makes it heavier. -/
theorem mergeWith_image_eq_or_weight_lt (hw : ∀ u v, g u = g v → w u = w v) (hpos : ∀ n v, p n v → 0 < w v)
    (hkeep : ∀ n u v, p n u → p n v → p n (f u v))
    (hf : ∀ n u v, p n u → p n v → g (f u v) = g u ∨ w u < w (f u v)) (hd : Each p d) (he : Each p e) :
    image g (mergeWith f d e) = image g d ∨ weight w d < weight w (mergeWith f d e) := by
  unfold mergeWith
  induction e generalizing d with
  | nil => exact Or.inl rfl
  | cons x rest ih =>
    have hx := he x List.mem_cons_self
    have hrest : Each p rest := fun y hy => he y (List.mem_cons_of_mem _ hy)
    rw [List.foldl_cons]
    have hstep : image g (insertWith f x.1 x.2 d) = image g d ∨ weight w d < weight w (insertWith f x.1 x.2 d) :=
      insertWith_image_eq_or_weight_lt (hpos _ _ hx) fun u hu => hf _ u x.2 (hd _ hu) hx
    have hfold := ih (Each.insertWith hkeep hd hx) hrest
    rcases hstep with h | h
    · rwa [h, weight_eq_of_image_eq hw h] at hfold
    · rcases hfold with h' | h'
      · exact Or.inr (by rwa [weight_eq_of_image_eq hw h'])
      · exact Or.inr (h.trans h')

theorem image_image_eq_or_weight_lt (hw : ∀ u v, g u = g v → w u = w v) {f : α → α}
    (h : ∀ x ∈ d, g (f x.2) = g x.2 ∨ w x.2 < w (f x.2)) :
    image g (image f d) = image g d ∨ weight w d < weight w (image f d) := by
  induction d with
  | nil => exact Or.inl rfl
  | cons x rest ih =>
    obtain ⟨hx, hrest⟩ := List.forall_mem_cons.mp h
    simp only [image_cons, weight_cons]
    rcases hx with hx | hx
    · rcases ih hrest with hsame | hlt
      · exact Or.inl (by rw [hx, hsame])
      · have := hw _ _ hx
        exact Or.inr (by omega)
    · have hle : weight w rest ≤ weight w (image f rest) := by
        rcases ih hrest with hsame | hlt
        · exact (weight_eq_of_image_eq hw hsame).ge
        · exact hlt.le
      exact Or.inr (by omega)

end Image

/-- A union that changes a dictionary makes it heavier. -/
theorem mergeWith_eq_or_weight_lt (hpos : ∀ n v, p n v → 0 < w v)
    (hkeep : ∀ n u v, p n u → p n v → p n (f u v))
    (hf : ∀ n u v, p n u → p n v → f u v = u ∨ w u < w (f u v)) {d e : Dict α} (hd : Each p d)
    (he : Each p e) : mergeWith f d e = d ∨ weight w d < weight w (mergeWith f d e) := by
  have himage := mergeWith_image_eq_or_weight_lt (g := id) (fun _ _ h => congrArg w h) hpos hkeep hf hd he
  rwa [image_id, image_id] at himage

theorem Sorted.length_le {d : Dict α} (hd : Sorted d) {names : List String}
    (h : ∀ e ∈ d, e.1 ∈ names) : d.length ≤ names.length := by
  have hnodup : (d.map Prod.fst).Nodup := (List.pairwise_map.mpr hd).imp fun hlt => hlt.ne
  have hsub : d.map Prod.fst ⊆ names := by
    intro n hn
    obtain ⟨e, he, rfl⟩ := List.mem_map.mp hn
    exact h e he
  have := (List.subperm_of_subset hnodup hsub).length_le
  rwa [List.length_map] at this

theorem weight_le {d : Dict α} {bound : Nat} (h : ∀ e ∈ d, w e.2 ≤ bound) :
    weight w d ≤ d.length * bound := by
  induction d with
  | nil => simp
  | cons e rest ih =>
    have he := h e List.mem_cons_self
    have hrest := ih fun x hx => h x (List.mem_cons_of_mem _ hx)
    rw [weight_cons, List.length_cons, Nat.add_mul, Nat.one_mul]
    omega

end AbstractFlow.Dict
