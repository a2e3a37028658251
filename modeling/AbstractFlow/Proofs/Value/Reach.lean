import AbstractFlow.Proofs.Number.Rounding
import AbstractFlow.Proofs.Value.Flat
import AbstractFlow.Proofs.Value.Imprint

/-! # How far sizes reach

Merges and stores only raise the upper bound of the size of a container, until it is lost. Whether this
makes a difference is up to the digests, which see a bound as a number, and large counts share their number.
So a bound reaches as far as the steps that its number has taken. Flat values of one core and with the same
lower bounds count as equal as soon as their upper bounds reach equally far.
-/
namespace AbstractFlow

namespace Container

variable {e : Extent} {w : Nat} {c d : Container Value}

theorem Flat.getD_maxSize_le (h : c.Flat e w) : c.maxSize.getD w ≤ w := by
  cases hmax : c.maxSize with
  | none => exact Nat.le_refl w
  | some n => exact h.size n hmax

theorem digest_eq_of_core_eq {D : Type} (H : Hasher D) (hcore : c.core = d.core) (hmin : c.minSize = d.minSize)
    (hmax : (c.maxSize.map fun n => (Number.ofInt n).magnitude) = d.maxSize.map fun n => (Number.ofInt n).magnitude) :
    (Object.container c).digest H = (Object.container d).digest H := by
  obtain ⟨type, elemTypes, elem, keyTypes, key, minSize, maxSize⟩ := c
  obtain ⟨type', elemTypes', elem', keyTypes', key', minSize', maxSize'⟩ := d
  simp only [core, mk.injEq] at hcore
  obtain ⟨rfl, rfl, rfl, rfl, rfl, -, -⟩ := hcore
  obtain rfl : minSize = minSize' := hmin
  rw [digest_chain, digest_chain]
  dsimp only
  rw [toBits_sizeNumber_inj.mpr hmax]

theorem sizes_eq_of_reach_eq (hcore : c.core = d.core)
    (hreach : Number.steps (c.maxSize.getD w) = Number.steps (d.maxSize.getD w)) :
    (c.maxSize.map fun n => (Number.ofInt n).magnitude) = d.maxSize.map fun n => (Number.ofInt n).magnitude := by
  have hbounded : (c.maxSize.map fun _ => 0) = d.maxSize.map fun _ => 0 := congrArg Container.maxSize hcore
  cases hmax : c.maxSize with
  | none =>
    rw [hmax] at hbounded
    rw [Option.map_eq_none_iff.mp hbounded.symm]
  | some m =>
    rw [hmax] at hbounded hreach
    obtain ⟨n, hn, -⟩ := Option.map_eq_some_iff.mp hbounded.symm
    rw [hn] at hreach ⊢
    exact congrArg some (Number.magnitude_eq_of_steps_eq hreach)

end Container

namespace Object

variable {e : Extent} {w : Nat} {x y : Object}

/-- How many steps the upper bound has taken; a lost one has taken all of them. -/
def reach (w : Nat) : Object → Nat
  | .container c => Number.steps (c.maxSize.getD w)
  | _ => 0

theorem Flat.reach_le (h : x.Flat e w) : x.reach w ≤ Number.steps w := by
  cases x with
  | container c => exact Number.steps_mono (Container.Flat.getD_maxSize_le h)
  | _ => exact Nat.zero_le _

theorem Flat.reach_le_mergeWith (hx : x.Flat e w) (hy : y.Flat e w) (hkey : x.key = y.key) :
    x.reach w ≤ (x.mergeWith Value.merge y).reach w := by
  refine hx.cases_of_key (Q := fun x y => x.reach w ≤ (x.mergeWith Value.merge y).reach w) hy hkey ?_ ?_
  · exact fun _ _ _ _ _ => Nat.zero_le _
  · intro c d hc hd hkey
    rw [mergeWith_container Value.merge hkey, Container.mergeWith_eq_extend hc.tidy hd.tidy]
    refine Number.steps_mono ?_
    have hle := hc.getD_maxSize_le
    simp only [Container.extend]
    cases hmax : c.maxSize with
    | none => exact Nat.le_refl w
    | some m =>
      rw [hmax] at hle
      cases d.maxSize with
      | none => exact hle
      | some n => exact Nat.le_max_left m n

theorem Flat.reach_le_stored (hx : x.Flat e w) (elem key : Value) : x.reach w ≤ (x.stored elem key).reach w := by
  cases x with
  | container c =>
    have hle := Container.Flat.getD_maxSize_le hx
    rw [Object.stored, Container.withStore_eq_extend (Container.Flat.tidy hx)]
    refine Number.steps_mono ?_
    simp only [Container.extend]
    cases hmax : c.maxSize with
    | none => exact Nat.le_refl w
    | some n =>
      rw [hmax] at hle
      simp only [Option.bind_some, Container.nextSize]
      split
      · exact Nat.le_succ n
      · exact hle
  | _ => exact Nat.le_refl _

end Object

namespace Value

variable {e : Extent} {w : Nat} {v v' a b elem key : Value}

/-- How far the container of a type reaches; what is unknown reaches as far as possible. -/
def reach (w : Nat) (v : Value) (type : ContainerType) : Nat :=
  if v.hasUnknown then Number.steps w else (Dict.get? v.keyed (Object.containerKey type)).elim 0 (Object.reach w)

theorem reach_of_known (h : v.hasUnknown = false) (type : ContainerType) :
    v.reach w type = (Dict.get? v.keyed (Object.containerKey type)).elim 0 (Object.reach w) := by
  rw [reach, h, if_neg Bool.false_ne_true]

theorem Flat.object (h : v.Flat e w) (hknown : v.hasUnknown = false) {k : String} {x : Object}
    (hx : Dict.get? v.keyed k = some x) : x.Flat e w ∧ x.key = k := by
  rcases h with rfl | ⟨-, hall⟩
  · cases hknown
  · exact each_keyed hall (k, x) (Dict.mem_of_get? hx)

theorem Flat.reach_le (h : v.Flat e w) (type : ContainerType) : v.reach w type ≤ Number.steps w := by
  cases hunknown : v.hasUnknown with
  | true => rw [reach, if_pos hunknown]
  | false =>
    rw [reach_of_known hunknown]
    cases hx : Dict.get? v.keyed (Object.containerKey type) with
    | none => exact Nat.zero_le _
    | some x => exact (h.object hunknown hx).1.reach_le

theorem Flat.reach_le_merge (ha : a.Flat e w) (hb : b.Flat e w) (type : ContainerType) :
    a.reach w type ≤ (a.merge b).reach w type := by
  cases hmerge : (a.merge b).hasUnknown with
  | true =>
    rw [reach.eq_1 w (a.merge b), if_pos hmerge]
    exact ha.reach_le type
  | false =>
    have hknown : a.hasUnknown = false ∧ b.hasUnknown = false := by
      simp only [← Bool.not_eq_true, ← not_or]
      intro h
      rw [hasUnknown_merge ha.tidy hb.tidy h] at hmerge
      cases hmerge
    rw [reach_of_known hknown.1, reach_of_known hmerge, keyed_merge_of_known ha.tidy hb.tidy hmerge,
      Dict.get?_mergeWith _ _ ha.tidy.sorted hb.tidy.sorted]
    cases hx : Dict.get? a.keyed (Object.containerKey type) with
    | none => exact Nat.zero_le _
    | some x =>
      cases hy : Dict.get? b.keyed (Object.containerKey type) with
      | none => exact Nat.le_refl _
      | some y =>
        obtain ⟨hxflat, hxkey⟩ := ha.object hknown.1 hx
        obtain ⟨hyflat, hykey⟩ := hb.object hknown.2 hy
        exact hxflat.reach_le_mergeWith hyflat (hxkey.trans hykey.symm)

theorem Flat.reach_le_store (h : v.Flat e w) (elem key : Value) (type : ContainerType) :
    v.reach w type ≤ (v.store elem key).reach w type := by
  have hunknown := hasUnknown_store h.tidy elem key
  cases hknown : v.hasUnknown with
  | true => rw [reach, reach, hunknown, hknown, if_pos rfl, if_pos rfl]
  | false =>
    rw [reach_of_known hknown, reach_of_known (hunknown.trans hknown), store_eq_map h.sorted,
      keyed_map (Object.key_stored elem key), Dict.get?_image]
    cases hx : Dict.get? v.keyed (Object.containerKey type) with
    | none => exact Nat.zero_le _
    | some x => exact (h.object hknown hx).1.reach_le_stored elem key

theorem equal_of_image_eq
    (h : Dict.image (Object.digest .spooky) v.keyed = Dict.image (Object.digest .spooky) v'.keyed) :
    v.equal v' = true := by
  have hkeys : ∀ v : Value, (Dict.image (Object.digest .spooky) v.keyed).map Prod.fst = v.map Object.key := by
    intro v
    simp [Dict.image, keyed]
  have hdigests : ∀ v : Value,
      (Dict.image (Object.digest .spooky) v.keyed).map Prod.snd = objectDigests .spooky v := by
    intro v
    induction v with
    | nil => rfl
    | cons o rest ih => rw [keyed_cons, Dict.image_cons, List.map_cons, ih, objectDigests]
  rw [equal, equalBy, ← hkeys, ← hkeys, ← hdigests, ← hdigests, h]
  simp

theorem Flat.equal_of_core_eq (hv : v.Flat e w) (hv' : v'.Flat e w) (hcore : v.core = v'.core)
    (hlower : ∀ type, v.lower type = v'.lower type)
    (hreach : ∀ type, (v.lower type).isSome = true → v.reach w type = v'.reach w type) : v.equal v' = true := by
  have hsame : v.hasUnknown = v'.hasUnknown := by rw [← hasUnknown_core, hcore, hasUnknown_core]
  cases hknown : v.hasUnknown with
  | true => rw [hv.eq_unknown hknown, hv'.eq_unknown (hsame.symm.trans hknown), equal_of_image_eq rfl]
  | false =>
    have hknown' := hsame.symm.trans hknown
    refine equal_of_image_eq (Dict.ext_get? (Dict.sorted_image.mpr hv.sorted) (Dict.sorted_image.mpr hv'.sorted)
      fun k => ?_)
    have hget := get?_core v k
    rw [hcore, get?_core] at hget
    rw [Dict.get?_image, Dict.get?_image]
    cases hx : Dict.get? v.keyed k with
    | none =>
      rw [hx] at hget
      rw [Option.map_eq_none_iff.mp hget]
    | some x =>
      rw [hx] at hget
      obtain ⟨y, hy, hyx⟩ := Option.map_eq_some_iff.mp hget
      rw [hy, Option.map_some, Option.map_some, Option.some.injEq]
      -- Only a container can differ from an object of the same core, and only in its bounds.
      cases x with
      | container c =>
        cases y with
        | container d =>
          have hkey : Object.containerKey c.type = k := (hv.object hknown hx).2
          have hmin := hlower c.type
          have hmax := hreach c.type
          rw [reach_of_known hknown, reach_of_known hknown', lower, hkey, hx, hy] at hmax
          rw [lower, lower, hkey, hx, hy] at hmin
          refine Container.digest_eq_of_core_eq .spooky (Object.container.inj hyx).symm (Option.some.inj hmin) ?_
          exact Container.sizes_eq_of_reach_eq (Object.container.inj hyx).symm (hmax rfl)
        | _ => cases hyx
      | _ =>
        cases y with
        | container d => cases hyx
        | _ => exact congrArg _ hyx.symm

end Value

end AbstractFlow
