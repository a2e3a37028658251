import AbstractFlow.Context
import AbstractFlow.Proofs.Oracle.Keys

/-! # Keys of contexts

The key of a context writes down its stamp, and the stamp can be read back: the hexadecimal digits give the
digest, and what stands behind the last colon is the depth.
-/
namespace AbstractFlow

namespace Text

def digitValue (c : Char) : Nat := if c.isDigit then c.toNat - 48 else c.toNat - 87

def readHex (cs : List Char) : Nat := cs.foldl (fun n c => 16 * n + digitValue c) 0

theorem digitValue_digitChar {n : Nat} (h : n < 16) : digitValue n.digitChar = n := by
  interval_cases n <;> rfl

theorem readHex_toDigits (n : Nat) : readHex (Nat.toDigits 16 n) = n := by
  induction n using Nat.strongRecOn with
  | ind n ih =>
    rw [Nat.toDigits_eq_if (by decide)]
    split
    · rename_i hlt
      simp [readHex, digitValue_digitChar hlt]
    · have hshorter : n / 16 < n := by omega
      have hread := ih (n / 16) hshorter
      unfold readHex at hread ⊢
      rw [List.foldl_append, hread, List.foldl_cons, List.foldl_nil,
        digitValue_digitChar (Nat.mod_lt n (by decide)), Nat.div_add_mod]

/-- The zeros in front do not count. -/
theorem readHex_hexDigits (width n : Nat) : readHex (hexDigits width n) = n := by
  have hzeros : ∀ k, (List.replicate k '0').foldl (fun n c => 16 * n + digitValue c) 0 = 0 := by
    intro k
    induction k with
    | zero => rfl
    | succ k ih => exact ih
  unfold hexDigits readHex
  rw [List.foldl_append, hzeros]
  exact readHex_toDigits n

end Text

namespace Context

theorem isRoot_iff {c : Context} : c.isRoot = true ↔ c.depth = 0 := by
  rw [isRoot, List.isEmpty_iff, depth, List.length_eq_zero_iff]

theorem key_of_isRoot {c : Context} (hroot : c.isRoot = true) : c.key = "" := if_pos hroot

theorem toList_key {c : Context} (hroot : ¬ c.isRoot = true) :
    c.key.toList = Text.hexDigits 16 c.stamp.1.toNat ++ ':' :: (toString (c.stamp.2 : Int)).toList := by
  unfold key
  rw [if_neg hroot, String.toList_append, String.toList_append, String.toList_ofList, List.append_assoc]
  rfl

theorem key_ne_empty {c : Context} (hroot : ¬ c.isRoot = true) : c.key ≠ "" := by
  intro h
  have hlist := toList_key hroot
  rw [h] at hlist
  simp at hlist

/-- The key shows all of the stamp, and nothing else. -/
theorem key_inj {c d : Context} : c.key = d.key ↔ c.stamp = d.stamp := by
  constructor
  · intro h
    by_cases hc : c.isRoot = true <;> by_cases hd : d.isRoot = true
    · rw [stamp, stamp, digest, digest, isRoot_iff.mp hc, isRoot_iff.mp hd, List.isEmpty_iff.mp hc,
        List.isEmpty_iff.mp hd]
    · exact absurd (h.symm.trans (key_of_isRoot hc)) (key_ne_empty hd)
    · exact absurd (h.trans (key_of_isRoot hd)) (key_ne_empty hc)
    · have hlist := String.toList_inj.mpr h
      have hcolon : ∀ i : Int, ':' ∉ (toString i).toList := not_mem_toString (by decide) (by decide)
      rw [toList_key hc, toList_key hd] at hlist
      obtain ⟨hdigest, hdepth⟩ := append_cons_inj_of_last (hcolon _) (hcolon _) hlist
      have hread := congrArg Text.readHex hdigest
      rw [Text.readHex_hexDigits, Text.readHex_hexDigits] at hread
      exact Prod.ext (UInt64.toNat_inj.mp hread)
        (Int.ofNat_inj.mp (Int.repr_injective (String.toList_inj.mp hdepth)))
  · intro h
    have hdigest : c.digest .spooky = d.digest .spooky := congrArg Prod.fst h
    have hdepth : c.depth = d.depth := congrArg Prod.snd h
    have hroot : c.isRoot = d.isRoot := Bool.eq_iff_iff.mpr (by rw [isRoot_iff, isRoot_iff, hdepth])
    rw [key, key, hroot, hdigest, hdepth]

end Context

end AbstractFlow
