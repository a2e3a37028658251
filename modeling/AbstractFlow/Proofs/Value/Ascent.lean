import AbstractFlow.Proofs.Collection.Ascent
import AbstractFlow.Proofs.Value.Closed

/-! # Merging leads upwards

Values of constants, containers and what is unknown do not obey all laws of a semilattice: of two zeros of
different signs a set keeps the one that came first. But merging still leads upwards, at every depth, and
what is reached has absorbed what it came from. So where a value comes back to what it was, no merge in
between has changed it.
-/
namespace AbstractFlow

namespace NumberSet

variable {s t u : NumberSet} {xs : List Number} {x y : Number}

theorem Increasing.place_le (h : Increasing xs) (hx : x ∈ xs) (hy : y ∈ xs) (hkey : x.key ≤ y.key) :
    x.place ≤ y.place := by
  rcases Int.lt_or_eq_of_le hkey with hlt | heq
  · exact Int.le_of_lt (Number.place_lt_of_key_lt hlt)
  · have hnodup : (xs.map Number.key).Nodup := List.pairwise_map.mpr (h.pairwise.imp Int.ne_of_lt)
    rw [List.inj_on_of_nodup_map hnodup hx hy heq]

/-- Above exact members are the sets that have them all, and above any set the ranges around it. -/
inductive Under (s t : NumberSet) : Prop where
  | exact (hs : s.exact ≠ []) (ht : t.exact ≠ []) (h : s.exact ⊆ t.exact)
  | range (ht : t.exact = []) (hlower : t.lower.place ≤ s.lower.place) (hupper : s.upper.place ≤ t.upper.place)

theorem Under.refl (s : NumberSet) : s.Under s := by
  by_cases h : s.exact = []
  · exact .range h (Int.le_refl _) (Int.le_refl _)
  · exact .exact h h (List.Subset.refl _)

theorem Under.bounds (hs : s.Tidy) (ht : t.Tidy) (h : s.Under t) :
    t.lower.place ≤ s.lower.place ∧ s.upper.place ≤ t.upper.place := by
  cases h with
  | range _ hlower hupper => exact ⟨hlower, hupper⟩
  | exact hs' ht' hsub =>
    have hlower := hsub (hs.lower_mem hs')
    have hupper := hsub (hs.upper_mem hs')
    exact ⟨ht.increasing.place_le (ht.lower_mem ht') hlower (ht.inside hlower).1,
      ht.increasing.place_le hupper (ht.upper_mem ht') (ht.inside hupper).2⟩

theorem place_min_le (x y : Number) : (x.min y).place ≤ x.place := by
  rw [Number.min_eq]
  split <;> omega

theorem le_place_max (x y : Number) : x.place ≤ (x.max y).place := by
  rw [Number.max_eq]
  split <;> omega

/-- What is joined to a set only adds to what is under it. -/
theorem Under.join (hs : s.Tidy) (ht : t.Tidy) (hu : u.Tidy) (h : s.Under t) : s.Under (t.join u) := by
  obtain ⟨hlower, hupper⟩ := h.bounds hs ht
  by_cases hrange : t.exact = [] ∨ u.exact = []
  · rw [join_of_range ht hu hrange]
    exact .range rfl ((place_min_le _ _).trans hlower) (hupper.trans (le_place_max _ _))
  · obtain ⟨ht', hu'⟩ := not_or.mp hrange
    cases h with
    | range hnil _ _ => exact absurd hnil ht'
    | exact hs' _ hsub =>
      have hall := List.Subset.trans hsub (subset_sortedNumbers_append ht.increasing u.exact)
      have hsorted := increasing_sortedNumbers (t.exact ++ u.exact)
      rw [join_of_exact ht hu ht' hu']
      obtain ⟨x, rest, heq⟩ := List.exists_cons_of_ne_nil (sortedNumbers_ne_nil (t := u) ht ht')
      rw [heq] at hall hsorted ⊢
      by_cases hfew : (x :: rest).length ≤ exactLimit
      · have hexact : (spanned (x :: rest) (t.lower.min u.lower) (t.upper.max u.upper)).exact = x :: rest :=
          if_pos hfew
        refine .exact hs' ?_ ?_ <;> rw [hexact]
        · exact List.cons_ne_nil x rest
        · exact hall
      · -- The members are too many, and only the first and the last of them stay.
        have hfirst := hall (hs.lower_mem hs')
        have hlast := hall (hs.upper_mem hs')
        refine .range (if_neg hfew) (hsorted.place_le List.mem_cons_self hfirst (hsorted.head_le hfirst)) ?_
        rw [spanned_upper]
        exact hsorted.place_le hlast (List.getLast_mem _) (hsorted.le_last hlast)

theorem Under.absorbs (hs : s.Tidy) (ht : t.Tidy) (h : s.Under t) : t.join s = t ∧ s.join t = t := by
  cases h with
  | range ht' hlower hupper =>
    obtain ⟨exact, lower, upper⟩ := t
    simp only at ht' hlower hupper
    subst ht'
    rw [join_of_range ht hs (Or.inl rfl), join_of_range hs ht (Or.inr rfl),
      Number.semilattice_min.comm (a := s.lower) trivial trivial,
      Number.semilattice_max.comm (a := s.upper) trivial trivial]
    dsimp only
    have hupper' : upper.max s.upper = upper := by
      rw [Number.semilattice_max.comm trivial trivial, Number.max_eq, if_pos hupper]
    rw [Number.min_eq, if_pos hlower, hupper']
    exact ⟨rfl, rfl⟩
  | exact hs' ht' hsub =>
    have hback := subset_sortedNumbers_append ht.increasing s.exact
    have hsame : sortedNumbers (t.exact ++ s.exact) = t.exact := by
      refine Sorted.ext_mem (increasing_sortedNumbers _).pairwise ht.increasing.pairwise fun x => ⟨fun hx => ?_, ?_⟩
      · rcases List.mem_append.mp (mem_of_mem_sortedNumbers hx) with hx | hx
        · exact hx
        · exact hsub hx
      · exact fun hx => hback hx
    have hsame' : sortedNumbers (s.exact ++ t.exact) = t.exact := by
      have hmem : ∀ {x}, x ∈ sortedNumbers (s.exact ++ t.exact) → x ∈ t.exact := by
        intro x hx
        rcases List.mem_append.mp (mem_of_mem_sortedNumbers hx) with hx | hx
        · exact hsub hx
        · exact hx
      refine Sorted.ext_mem (increasing_sortedNumbers _).pairwise ht.increasing.pairwise fun x => ⟨hmem, fun hx => ?_⟩
      -- A member is found again up to the sign of a zero, and both sets have the same zero.
      obtain ⟨y, hy, hkey⟩ := exists_key_of_mem (ht.increasing.numbers x hx) (List.mem_append_right s.exact hx)
      have hplace : y.place = x.place := le_antisymm (ht.increasing.place_le (hmem hy) hx hkey.le)
        (ht.increasing.place_le hx (hmem hy) hkey.ge)
      exact Number.place_injective hplace ▸ hy
    rw [join_of_exact ht hs ht' hs', join_of_exact hs ht hs' ht', hsame, hsame']
    exact ⟨ht.spanned_exact ht' _ _, ht.spanned_exact ht' _ _⟩

theorem absorbs_join : AbsorbsOn NumberSet.Tidy join :=
  AbsorbsOn.ofOrder (fun _ _ => tidy_join _ _) (fun _ => .refl _) Under.join Under.absorbs

end NumberSet

theorem Container.absorbs {p : Value → Prop} {m : Value → Value → Value} (h : AbsorbsOn p m)
    (hnames : ∀ {a b : Value}, p a → p b → (m a b).typeNames ⊆ a.typeNames ++ b.typeNames)
    (type : ContainerType) :
    AbsorbsOn (fun c : Container Value => c.type = type ∧ c.Tidy ∧ p c.elem ∧ p c.key) (mergeWith m) := by
  have hstrings := (Sorted.unionOn (α := String)).semilattice.absorbs
  refine (hstrings.prod (h.prod (hstrings.prod (h.prod
    (SemilatticeOn.min.absorbs.prod semilattice_looserSize.absorbs))))).pullback
    (fun c => (c.elemTypes, c.elem, c.keyTypes, c.key, c.minSize, c.maxSize)) ?_ ?_ ?_ ?_
  · intro c hc
    exact ⟨hc.2.1.elemTypes, hc.2.2.1, hc.2.1.keyTypes, hc.2.2.2, trivial, trivial⟩
  · rintro ⟨t, et, e, kt, k, lo, hi⟩ ⟨t', et', e', kt', k', lo', hi'⟩ hc hd heq
    simp only [Prod.mk.injEq] at heq hc hd
    obtain ⟨rfl, rfl, rfl, rfl, rfl, rfl⟩ := heq
    rw [hc.1, hd.1]
  · intro c d hc hd
    exact ⟨hc.1, tidy_normalize _, h.closed hc.2.2.1 hd.2.2.1, h.closed hc.2.2.2 hd.2.2.2⟩
  · intro c d hc hd
    rw [mergeWith_eq hnames hc.2 hd.2]

namespace Object

def Modest : Object → Prop
  | .unknown _ | .container _ => True
  | .constant c => c.WellFormed
  | _ => False

variable {p : Value → Prop} {m : Value → Value → Value} {k : String} {x y : Object}

theorem Modest.withAttrs (h : x.Modest) (as : Attrs) : (x.withAttrs as).Modest := by
  cases x with
  | unknown | container => trivial
  | _ => exact h

theorem Modest.mergeWith (h : x.Modest) : (x.mergeWith m y).Modest := by
  unfold Object.mergeWith
  split
  · trivial
  · split
    · exact Constant.wellFormed_join h
    · trivial
    · exact h.elim
    · exact h.elim
    · exact h.withAttrs _

theorem stable_modest : Stable Modest where
  unknown _ := trivial
  constant hc := hc
  container _ := trivial
  withAttrs h as := h.withAttrs as
  withMethod h _ _ := h.elim
  mergeWith h _ _ := h.mergeWith

/-- Of modest objects only what is unknown may have attributes. -/
theorem Modest.attrs_eq_nil (h : x.Modest) (hknown : x.isUnknown = false) : x.attrs = [] := by
  cases x with
  | unknown => cases hknown
  | constant | container => rfl
  | _ => exact h.elim

theorem Modest.subject (h : x.Modest) (hkey : x.key = y.key) : x.subject = y.subject := by
  have hkind := kind_of_key hkey
  cases x with
  | unknown as =>
    have hunknown := isUnknown_of_kind hkind.symm rfl
    cases y with
    | unknown bs => rfl
    | _ => cases hunknown
  | constant c =>
    obtain ⟨d, rfl⟩ := exists_constant_of_kind hkind.symm
    have htype := key_constant_inj hkey
    rcases c with ⟨_ | _ | _, _⟩ | _ | _ <;> rcases d with ⟨_ | _ | _, _⟩ | _ | _ <;>
      first | rfl | exact absurd htype (by simp [Constant.typeName, NumericType.name])
  | container c =>
    obtain ⟨d, rfl⟩ := exists_container_of_kind hkind.symm
    exact congrArg Subject.container (key_container_inj hkey)
  | _ => exact h.elim

structure Slot (p : Value → Prop) (k : String) (o : Object) : Prop where
  key : o.key = k
  tidy : o.Tidy
  modest : o.Modest
  inside : o.Inside p

theorem Slot.mergeWith (h : ∀ {a b : Value}, p a → p b → p (m a b)) (hx : Slot p k x) (hy : Slot p k y) :
    Slot p k (x.mergeWith m y) := by
  have hkey : x.key = y.key := hx.key.trans hy.key.symm
  refine ⟨?_, tidy_mergeWith hx.tidy, hx.modest.mergeWith, ?_⟩
  · rw [key_mergeWith m hkey, hx.key]
  · exact inside_mergeWith (AgreeOn.refl h) hx.inside hy.inside

theorem absorbs (h : AbsorbsOn p m)
    (hnames : ∀ {a b : Value}, p a → p b → (m a b).typeNames ⊆ a.typeNames ++ b.typeNames) :
    AbsorbsOn (Slot p k) (mergeWith m) := by
  by_cases hempty : ∃ o, Slot p k o
  swap
  · exact AbsorbsOn.ofEq fun ha _ => absurd ⟨_, ha⟩ hempty
  obtain ⟨o, ho⟩ := hempty
  -- All objects of the key are of the shape of one of them.
  have hsubject : ∀ {x : Object}, Slot p k x → x.subject = o.subject :=
    fun hx => hx.modest.subject (hx.key.trans ho.key.symm)
  cases o with
  | unknown as =>
    refine (AbsorbsOn.dict fun _ => h).image Object.unknown (fun {x} hx => ?_) (Slot.mergeWith h.closed)
      fun _ _ => if_neg (not_not_intro rfl)
    have hx' := hsubject hx
    rcases x with bs | ⟨_ | _ | _⟩ | _ | _ | _ | _ | _ <;> try cases hx'
    exact ⟨bs, ⟨hx.tidy, inside_unknown.mp hx.inside⟩, rfl⟩
  | constant c =>
    rcases c with ⟨t, _⟩ | _ | _
    · refine NumberSet.absorbs_join.image (fun s => .constant (.number t s)) (fun {x} hx => ?_)
        (Slot.mergeWith h.closed) fun _ _ => if_neg (not_not_intro rfl)
      have hx' := hsubject hx
      rcases x with as | ⟨⟨t', s⟩ | _ | _⟩ | _ | _ | _ | _ | _ <;> try cases hx'
      exact ⟨s, hx.tidy, rfl⟩
    · refine StringSet.semilattice_join.absorbs.image (fun s => .constant (.string s)) (fun {x} hx => ?_)
        (Slot.mergeWith h.closed) fun _ _ => if_neg (not_not_intro rfl)
      have hx' := hsubject hx
      rcases x with as | ⟨_ | s | _⟩ | _ | _ | _ | _ | _ <;> try cases hx'
      exact ⟨s, ⟨hx.tidy, hx.modest.length⟩, rfl⟩
    · refine AbsorbsOn.ofEq fun {x y} hx hy => ?_
      have hx' := hsubject hx
      have hy' := hsubject hy
      rcases x with as | ⟨_ | _ | _⟩ | _ | _ | _ | _ | _ <;> try cases hx'
      rcases y with as | ⟨_ | _ | _⟩ | _ | _ | _ | _ | _ <;> try cases hy'
      exact if_neg (not_not_intro rfl)
  | container c =>
    refine (Container.absorbs h hnames c.type).image Object.container (fun {x} hx => ?_)
      (Slot.mergeWith h.closed) fun {c d} hc hd => if_neg (not_not_intro ?_)
    · have hx' := hsubject hx
      rcases x with as | ⟨_ | _ | _⟩ | d | _ | _ | _ | _ <;> try cases hx'
      exact ⟨d, ⟨Subject.container.inj hx', hx.tidy, inside_container.mp hx.inside⟩, rfl⟩
    · rw [Object.key, Object.key, hc.1, hd.1]
  | _ => exact ho.modest.elim

end Object

namespace Value

/-- A value in canonical form that comprises constants, containers and what is unknown. -/
def Modest (v : Value) : Prop := v.Comprises Object.Modest

theorem closed_modest : Closed Modest := closed_comprises Object.stable_modest

variable {p : Value → Prop} {m : Value → Value → Value} {a b v : Value}

theorem Modest.here (h : v.Modest) : v.Tidy ∧ ∀ o ∈ v, o.Modest := (everywhere_iff.mp h).1

theorem Modest.tidy (h : v.Modest) : v.Tidy := h.here.1

theorem Modest.objects (h : v.Modest) : ∀ o ∈ v, o.Modest := h.here.2

theorem Modest.inside (h : v.Modest) : v.Inside Modest := (everywhere_iff.mp h).2

theorem attrs_eq_nil_of_known (hv : ∀ o ∈ v, o.Modest) (hknown : v.hasUnknown = false) : ∀ o ∈ v, o.attrs = [] :=
  fun o ho => (hv o ho).attrs_eq_nil (hasUnknown_eq_false.mp hknown o ho)

theorem absorbed_append_of_attrs_eq_nil (hb : ∀ o ∈ b, o.attrs = []) : absorbed m (a ++ b) = absorbed m a := by
  unfold absorbed
  rw [List.foldl_append]
  induction b with
  | nil => rfl
  | cons o rest ih =>
    obtain ⟨ho, hrest⟩ := List.forall_mem_cons.mp hb
    rw [List.foldl_cons, ho]
    exact ih hrest

theorem absorbed_eq_nil (hv : ∀ o ∈ v, o.attrs = []) : absorbed m v = [] :=
  absorbed_append_of_attrs_eq_nil (a := []) hv

/-- However two values are merged, their attributes are united: only what is unknown has any. -/
theorem absorbed_mergeWith_modest (ha : a.Tidy ∧ ∀ o ∈ a, o.Modest) (hb : b.Tidy ∧ ∀ o ∈ b, o.Modest) :
    absorbed m (mergeWith m a b) = Dict.mergeWith m (absorbed m a) (absorbed m b) := by
  -- Attributes are only those of what is unknown, which stands alone.
  have happend : absorbed m (a ++ b) = Dict.mergeWith m (absorbed m a) (absorbed m b) := by
    cases hunknown : b.hasUnknown with
    | true =>
      obtain ⟨bs, rfl⟩ := hb.1.alone hunknown
      have hbs : Dict.Sorted bs := hb.1.objects _ List.mem_cons_self
      rw [absorbed_unknown hbs]
      exact List.foldl_append
    | false =>
      have hnil := attrs_eq_nil_of_known hb.2 hunknown
      rw [absorbed_append_of_attrs_eq_nil hnil, absorbed_eq_nil hnil]
      rfl
  unfold mergeWith
  split
  · rename_i hempty
    rw [List.isEmpty_iff.mp hempty]
    exact (Dict.nil_mergeWith m (sorted_absorbed m b)).symm
  split
  · rename_i hempty
    rw [List.isEmpty_iff.mp hempty]
    rfl
  split
  · rw [collapseWith_eq, absorbed_unknown (sorted_absorbed m _), happend]
  rename_i hknown
  simp only [Bool.or_eq_true, not_or, Bool.not_eq_true] at hknown
  have hfold := forall_foldl_absorbWith (m := m) (P := fun o => o.Modest ∧ o.isUnknown = false)
    (fun x y hx _ hkey => ⟨hx.1.mergeWith, Object.isUnknown_mergeWith hx.2 hkey⟩)
    (fun o ho => ⟨ha.2 o ho, hasUnknown_eq_false.mp hknown.1 o ho⟩)
    (fun o ho => ⟨hb.2 o ho, hasUnknown_eq_false.mp hknown.2 o ho⟩)
  have hnil : ∀ o ∈ b.foldl (absorbWith m) a, o.attrs = [] := fun o ho => (hfold o ho).1.attrs_eq_nil (hfold o ho).2
  rw [absorbed_eq_nil (attrs_eq_nil_of_known ha.2 hknown.1), absorbed_eq_nil (attrs_eq_nil_of_known hb.2 hknown.2)]
  dsimp only
  split
  · rw [collapseWith_eq, absorbed_unknown (sorted_absorbed m _), absorbed_eq_nil hnil]
    rfl
  · rw [absorbed_eq_nil fun o ho => hnil o (mem_canonical.mp ho)]
    rfl

/-- One level of merging leads upwards if merging what is nested does. -/
theorem absorbs_mergeWith (h : AbsorbsOn p m)
    (hnames : ∀ {a b : Value}, p a → p b → (m a b).typeNames ⊆ a.typeNames ++ b.typeNames) :
    AbsorbsOn (fun v => (v.Tidy ∧ ∀ o ∈ v, o.Modest) ∧ v.Inside p) (mergeWith m) := by
  have hattrs := AbsorbsOn.dict fun _ : String => h
  have hobjects := AbsorbsOn.dict fun k => Object.absorbs (k := k) h hnames
  -- A value is told from others by all its attributes together and, unless it is unknown, by its objects under
  -- their keys.
  refine (hattrs.prod (hobjects.upTo objectLimit List.length)).pullback (fun v => (absorbed m v, v.known)) ?_ ?_ ?_ ?_
  · intro v hv
    refine ⟨⟨sorted_absorbed m v, ?_⟩, fun d hd => ?_⟩
    · cases hunknown : v.hasUnknown with
      | true =>
        obtain ⟨as, rfl⟩ := hv.1.1.alone hunknown
        have has : Dict.Sorted as := hv.1.1.objects _ List.mem_cons_self
        rw [absorbed_unknown has]
        exact Object.inside_unknown.mp (hv.2 _ List.mem_cons_self)
      | false =>
        rw [absorbed_eq_nil (attrs_eq_nil_of_known hv.1.2 hunknown)]
        exact Dict.each_nil
    · dsimp only at hd
      unfold known at hd
      split at hd
      · cases hd
      · obtain rfl := Option.some.inj hd
        refine ⟨⟨hv.1.1.sorted, ?_⟩, ?_⟩
        · rintro ⟨k, o⟩ he
          obtain ⟨ho, rfl⟩ := mem_keyed.mp he
          exact ⟨rfl, hv.1.1.objects o ho, hv.1.2 o ho, hv.2 o ho⟩
        · rw [length_keyed]
          exact hv.1.1.few
  · intro a b ha hb heq
    obtain ⟨habsorbed, hknown⟩ := Prod.mk.inj heq
    exact eq_of_known ha.1.1 hb.1.1 habsorbed hknown
  · intro a b ha hb
    refine ⟨⟨tidy_mergeWith ha.1.1 hb.1.1, ?_⟩, (mergeWith_agree (AgreeOn.refl h.closed) ha.2 hb.2).2⟩
    exact forall_mergeWith (fun x y hx _ _ => hx.mergeWith) (fun _ _ => trivial) ha.1.2 hb.1.2
  · intro a b ha hb
    exact Prod.ext (absorbed_mergeWith_modest ha.1 hb.1) (known_mergeWith ha.1.1 hb.1.1)

theorem absorbs_depth (n : Nat) : AbsorbsOn (fun v => v.depth ≤ n ∧ v.Modest) merge := by
  induction n with
  | zero =>
    have hnil : ∀ {v : Value}, v.depth ≤ 0 ∧ v.Modest → v = [] :=
      fun hv => depth_eq_zero.mp (Nat.le_zero.mp hv.1)
    refine AbsorbsOn.ofEq fun ha hb => ?_
    rw [hnil ha, hnil hb]
    rfl
  | succ n ih =>
    have hlevel := absorbs_mergeWith ih fun _ _ => typeNames_merge_subset _ _
    rw [mergeWith_merge] at hlevel
    exact everywhere_depth_succ (fun v => v.Tidy ∧ ∀ o ∈ v, o.Modest) n ▸ hlevel

/-- Merging modest values of any depth leads upwards. -/
theorem absorbsOn_merge : AbsorbsOn Modest merge := by
  refine ⟨closed_modest.merge, fun {a b} ha hab => ?_⟩
  have hdepth : ∃ n, ∀ k, n ≤ k → Climbs (fun v => v.depth ≤ k ∧ v.Modest) merge a b := by
    clear ha
    induction hab with
    | refl => exact ⟨0, fun _ _ => .refl⟩
    | @step b c _ hc ih =>
      obtain ⟨n, hn⟩ := ih
      refine ⟨max n c.depth, fun k hk => (hn k ?_).step ⟨?_, hc⟩⟩
      · omega
      · omega
  obtain ⟨n, hn⟩ := hdepth
  exact (absorbs_depth (max a.depth n)).absorbs ⟨Nat.le_max_left _ _, ha⟩ (hn _ (Nat.le_max_right _ _))

end Value

end AbstractFlow
