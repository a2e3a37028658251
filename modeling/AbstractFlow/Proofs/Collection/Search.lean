import Mathlib.Data.List.Basic
import Mathlib.Order.Basic

/-! # Search by halving

In a list that is sorted for a test, so that what follows a member that passes it passes too, halving finds
the first member that passes.
-/
namespace AbstractFlow.Search

/-- The place between `i` and `j` from which on a test holds, found by halving. -/
def place (holds : Nat → Bool) (i j : Nat) : Nat :=
  if i < j then
    if holds ((i + j) / 2) then place holds i ((i + j) / 2) else place holds ((i + j) / 2 + 1) j
  else i
termination_by j - i

/-- Below the place the test fails, and from it on it holds, if it is known to do so outside the two ends. -/
theorem place_spec {holds : Nat → Bool} {n : Nat}
    (hmono : ∀ k l, k ≤ l → l < n → holds k = true → holds l = true) {i j : Nat} (hij : i ≤ j) (hj : j ≤ n)
    (hbelow : ∀ k < i, holds k = false) (habove : ∀ k, j ≤ k → k < n → holds k = true) :
    (∀ k < place holds i j, holds k = false) ∧ ∀ k, place holds i j ≤ k → k < n → holds k = true := by
  fun_induction place holds i j with
  | case1 i j hlt hmiddle ih =>
    exact ih (by omega) (by omega) hbelow fun k hk hkn => hmono _ k hk hkn hmiddle
  | case2 i j hlt hmiddle ih =>
    refine ih (by omega) hj (fun k hk => ?_) habove
    cases hholds : holds k with
    | false => rfl
    | true => exact absurd (hmono k _ (by omega) (by omega) hholds) hmiddle
  | case3 i j hlt =>
    obtain rfl : i = j := by omega
    exact ⟨hbelow, habove⟩

variable {α : Type}

def first? (test : α → Bool) (xs : List α) : Option α := xs[place (fun k => xs[k]?.any test) 0 xs.length]?

/-- In a list that is sorted for the test halving finds what a look at one member after the other finds. -/
theorem first?_eq_find? {test : α → Bool} {xs : List α}
    (h : xs.Pairwise fun x y => test x = true → test y = true) :
    first? test xs = xs.find? test := by
  -- The list is sorted for the test, so from the first member that passes on all of them pass.
  have hmono : ∀ k l, k ≤ l → l < xs.length → xs[k]?.any test = true → xs[l]?.any test = true := by
    intro k l hkl hl hk
    rw [List.getElem?_eq_getElem hl]
    rw [List.getElem?_eq_getElem (Nat.lt_of_le_of_lt hkl hl)] at hk
    rcases Nat.eq_or_lt_of_le hkl with rfl | hkl
    · exact hk
    · exact List.pairwise_iff_getElem.mp h k l (Nat.lt_trans hkl hl) hl hkl hk
  obtain ⟨hbelow, hfrom⟩ := place_spec hmono (Nat.zero_le _) (Nat.le_refl _) (by simp)
    fun k hk hlt => absurd hlt (Nat.not_lt.mpr hk)
  unfold first?
  generalize place (fun k => xs[k]?.any test) 0 xs.length = p at hbelow hfrom
  cases hp : xs[p]? with
  | none =>
    refine (List.find?_eq_none.mpr fun x hx hpass => ?_).symm
    obtain ⟨k, hk, rfl⟩ := List.mem_iff_getElem.mp hx
    have hfails := hbelow k (Nat.lt_of_lt_of_le hk (List.getElem?_eq_none_iff.mp hp))
    rw [List.getElem?_eq_getElem hk] at hfails
    exact absurd hpass (Bool.eq_false_iff.mp hfails)
  | some x =>
    obtain ⟨hlt, rfl⟩ := List.getElem?_eq_some_iff.mp hp
    have hpass := hfrom p (Nat.le_refl p) hlt
    rw [hp] at hpass
    rw [eq_comm, List.find?_eq_some_iff_getElem]
    refine ⟨hpass, p, hlt, rfl, fun k hk => ?_⟩
    have hfails := hbelow k hk
    rw [List.getElem?_eq_getElem (Nat.lt_trans hk hlt)] at hfails
    simpa using hfails

/-- A member that is looked for is the first one that passes a test, if it passes and nothing behind a member that
passes is what is looked for. -/
theorem any_find? {test hit : α → Bool} {xs : List α} (hhit : ∀ x ∈ xs, hit x = true → test x = true)
    (h : xs.Pairwise fun x y => test x = true → hit y = false) : (xs.find? test).any hit = xs.any hit := by
  induction xs with
  | nil => rfl
  | cons x rest ih =>
    obtain ⟨hx, hrest⟩ := List.pairwise_cons.mp h
    rw [List.find?_cons, List.any_cons]
    cases htest : test x with
    | true =>
      have hnone : rest.any hit = false := List.any_eq_false.mpr fun y hy => Bool.eq_false_iff.mp (hx y hy htest)
      rw [hnone, Bool.or_false]
      rfl
    | false =>
      have hmiss : hit x = false :=
        Bool.eq_false_iff.mpr fun hfound => Bool.eq_false_iff.mp htest (hhit x List.mem_cons_self hfound)
      rw [hmiss, Bool.false_or]
      exact ih (fun y hy => hhit y (List.mem_cons_of_mem x hy)) hrest

end AbstractFlow.Search
