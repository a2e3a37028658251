import AbstractFlow.Digest.Hasher
import Mathlib.Logic.Equiv.List

/-! # Ideal hash functions

A hash function without collisions remembers everything: the number that a digest starts from and all
messages that it has absorbed since. Two digests are equal then only if they have absorbed the same
messages, one by one. What a digest cannot tell apart is left to how data is cut into messages.
-/
namespace AbstractFlow

theorem littleEndian_injective : Function.Injective littleEndian := by
  intro v w h
  simp only [littleEndian, List.cons.injEq, and_true, ← UInt8.toNat_inj, UInt64.toNat_toUInt8,
    UInt64.toNat_shiftRight, Nat.shiftRight_eq_div_pow] at h
  have hv := v.toNat_lt
  have hw := w.toNat_lt
  apply UInt64.toNat_inj.mp
  simp at h
  omega

theorem ByteString.ofString_injective : Function.Injective ByteString.ofString := by
  intro s t h
  have hdata : s.toUTF8.data.toList = t.toUTF8.data.toList := congrArg bytes h
  apply String.toByteArray_inj.mp
  exact ByteArray.ext (Array.toList_inj.mp hdata)

theorem flatMap_blocks_eq_iff {α β γ : Type} {f : α → List β} {g : α → γ} {n : Nat}
    (hlength : ∀ x, (f x).length = n + 1) {xs ys : List α} (h : ∀ x ∈ xs, ∀ y ∈ ys, f x = f y ↔ g x = g y) :
    xs.flatMap f = ys.flatMap f ↔ xs.map g = ys.map g := by
  have hne : ∀ (x : α) (rest : List β), f x ++ rest ≠ [] := by
    intro x rest hnil
    have hx := hlength x
    rw [(List.append_eq_nil_iff.mp hnil).1] at hx
    cases hx
  induction xs generalizing ys with
  | nil =>
    cases ys with
    | nil => simp
    | cons y ys => exact iff_of_false (hne y _).symm (List.cons_ne_nil _ _).symm
  | cons x xs ih =>
    cases ys with
    | nil => exact iff_of_false (hne x _) (List.cons_ne_nil _ _)
    | cons y ys =>
      obtain ⟨hx, hxs⟩ := List.forall_mem_cons.mp h
      have hblock : f x = f y ↔ g x = g y := hx y List.mem_cons_self
      have hrest : xs.flatMap f = ys.flatMap f ↔ xs.map g = ys.map g :=
        ih fun x' hx' y' hy' => hxs x' hx' y' (List.mem_cons_of_mem y hy')
      rw [List.flatMap_cons, List.flatMap_cons, List.map_cons, List.map_cons, List.cons.injEq, ← hblock, ← hrest]
      constructor
      · intro heq
        exact List.append_inj heq (by rw [hlength, hlength])
      · rintro ⟨hfirst, hothers⟩
        rw [hfirst, hothers]

theorem map_eq_map_iff {α β γ : Type} {f : α → β} {g : α → γ} {xs ys : List α}
    (h : ∀ x ∈ xs, ∀ y ∈ ys, f x = f y ↔ g x = g y) : xs.map f = ys.map f ↔ xs.map g = ys.map g := by
  rw [← flatMap_blocks_eq_iff (f := fun x => [f x]) (g := g) (n := 0) (fun _ => rfl) (by simpa using h),
    ← List.map_eq_flatMap, ← List.map_eq_flatMap]

namespace Hasher

variable {D : Type} (H : Hasher D)

/-- No two numbers, messages or digests are mistaken for each other, and nothing that has absorbed a
message for a number. -/
structure Ideal : Prop where
  ofWord : Function.Injective H.ofWord
  bytes : Function.Injective H.bytes
  absorb : ∀ {m m' d d'}, H.absorb m d = H.absorb m' d' → m = m' ∧ d = d'
  fresh : ∀ w m d, H.ofWord w ≠ H.absorb m d

/-- A number that absorbs messages from the first to the last. -/
def chain (w : UInt64) (ms : List (List UInt8)) : D := ms.foldl (fun d m => H.absorb m d) (H.ofWord w)

theorem chain_concat (w : UInt64) (ms : List (List UInt8)) (m : List UInt8) :
    H.chain w (ms ++ [m]) = H.absorb m (H.chain w ms) := List.foldl_append

theorem ofWord_eq (w : UInt64) : H.ofWord w = H.chain w [] := rfl

theorem combine_eq (ds : List D) : H.combine ds = H.chain 0 (ds.map H.bytes) := by
  rw [chain, List.foldl_map]
  rfl

def closed (ss : List ByteString) : List (List UInt8) := ss.flatMap fun s => [s.bytes, [0]]

theorem strings_chain (w : UInt64) (ms : List (List UInt8)) (ss : List ByteString) :
    H.strings (H.chain w ms) ss = H.chain w (ms ++ closed ss) := by
  induction ss generalizing ms with
  | nil => simp [strings, closed]
  | cons s rest ih =>
    have hstep : H.strings (H.chain w ms) (s :: rest) = H.strings (H.chain w (ms ++ [s.bytes] ++ [[0]])) rest := by
      rw [chain_concat, chain_concat]
      rfl
    rw [hstep, ih]
    simp [closed]

theorem words_chain (w : UInt64) (ms : List (List UInt8)) (ws : List UInt64) :
    H.words (H.chain w ms) ws = H.chain w (ms ++ ws.map littleEndian) := by
  induction ws generalizing ms with
  | nil => simp [words]
  | cons x rest ih =>
    have hstep : H.words (H.chain w ms) (x :: rest) = H.words (H.chain w (ms ++ [littleEndian x])) rest := by
      rw [chain_concat]
      rfl
    rw [hstep, ih]
    simp

theorem texts_chain (w : UInt64) (ms : List (List UInt8)) (ss : List String) :
    H.texts (H.chain w ms) ss = H.chain w (ms ++ closed (ss.map .ofString)) := H.strings_chain w ms _

theorem texts_texts (d : D) (ss ts : List String) : H.texts (H.texts d ss) ts = H.texts d (ss ++ ts) := by
  simp [texts, strings]

theorem nested_chain (w : UInt64) (ms : List (List UInt8)) (ds : List D) :
    H.nested (H.chain w ms) ds = H.chain w (ms ++ [H.bytes (H.combine ds)]) :=
  (H.chain_concat w ms _).symm

variable {H}

theorem Ideal.chain_inj (h : H.Ideal) {w w' : UInt64} {ms ms' : List (List UInt8)} :
    H.chain w ms = H.chain w' ms' ↔ w = w' ∧ ms = ms' := by
  constructor
  · intro heq
    induction ms using List.reverseRecOn generalizing ms' with
    | nil =>
      cases ms' using List.reverseRecOn with
      | nil => exact ⟨h.ofWord heq, rfl⟩
      | append_singleton ms' m' =>
        rw [chain_concat] at heq
        exact absurd heq (h.fresh _ _ _)
    | append_singleton ms m ih =>
      cases ms' using List.reverseRecOn with
      | nil =>
        rw [chain_concat] at heq
        exact absurd heq.symm (h.fresh _ _ _)
      | append_singleton ms' m' =>
        rw [chain_concat, chain_concat] at heq
        obtain ⟨hm, hd⟩ := h.absorb heq
        obtain ⟨hw, hms⟩ := ih hd
        exact ⟨hw, by rw [hms, hm]⟩
  · rintro ⟨rfl, rfl⟩
    rfl

theorem Ideal.bytes_inj (h : H.Ideal) {d d' : D} : H.bytes d = H.bytes d' ↔ d = d' := h.bytes.eq_iff

theorem closed_inj {ss ts : List ByteString} : closed ss = closed ts ↔ ss = ts := by
  unfold closed
  rw [flatMap_blocks_eq_iff (g := id) (n := 1) (fun _ => rfl), List.map_id, List.map_id]
  rintro ⟨s⟩ _ ⟨t⟩ _
  simp

theorem closed_texts_inj {ss ts : List String} :
    closed (ss.map .ofString) = closed (ts.map .ofString) ↔ ss = ts := by
  rw [closed_inj, ByteString.ofString_injective.list_map.eq_iff]

theorem Ideal.texts_inj (h : H.Ideal) {w w' : UInt64} {ss ts : List String} :
    H.texts (H.ofWord w) ss = H.texts (H.ofWord w') ts ↔ w = w' ∧ ss = ts := by
  rw [ofWord_eq, ofWord_eq, texts_chain, texts_chain, h.chain_inj, List.nil_append, List.nil_append,
    closed_texts_inj]

theorem Ideal.combine_inj (h : H.Ideal) {ds es : List D} : H.combine ds = H.combine es ↔ ds = es := by
  rw [combine_eq, combine_eq, h.chain_inj, h.bytes.list_map.eq_iff]
  simp

/-- The number from which a digest starts, or its first message if that is a digest, and so on downwards. -/
inductive Rooted (H : Hasher D) (w : UInt64) : D → Prop where
  | base (ms : List (List UInt8)) (hw : w ≠ 0) : Rooted H w (H.chain w ms)
  | first {d : D} (h : Rooted H w d) (ms : List (List UInt8)) : Rooted H w (H.chain 0 (H.bytes d :: ms))

theorem Rooted.combine {w : UInt64} {d : D} (h : H.Rooted w d) (ds : List D) : H.Rooted w (H.combine (d :: ds)) := by
  rw [combine_eq]
  exact .first h _

theorem rooted_ofWord {w : UInt64} (hw : w ≠ 0) : H.Rooted w (H.ofWord w) := .base [] hw

theorem rooted_texts {w : UInt64} (hw : w ≠ 0) (ss : List String) : H.Rooted w (H.texts (H.ofWord w) ss) := by
  rw [ofWord_eq, texts_chain]
  exact .base _ hw

theorem Rooted.unique (h : H.Ideal) {w w' : UInt64} {d d' : D} (hd : H.Rooted w d) (hd' : H.Rooted w' d')
    (heq : d = d') : w = w' := by
  induction hd generalizing d' with
  | base ms hw =>
    cases hd' with
    | base => exact (h.chain_inj.mp heq).1
    | first => exact absurd (h.chain_inj.mp heq).1 hw
  | first hd ms ih =>
    cases hd' with
    | base _ hw' => exact absurd (h.chain_inj.mp heq).1.symm hw'
    | first hd' => exact ih hd' (h.bytes (List.cons.inj (h.chain_inj.mp heq).2).1)

/-- A digest that lists the number and the messages themselves. -/
def remembering : Hasher (Nat × List (List Nat)) where
  ofWord w := (w.toNat, [])
  bytes d := List.replicate (Encodable.encode d) 0
  absorb m d := (d.1, m.map UInt8.toNat :: d.2)

theorem ideal_remembering : remembering.Ideal where
  ofWord w w' h := UInt64.toNat_inj.mp (congrArg Prod.fst h)
  bytes d d' h := Encodable.encode_injective (by simpa [remembering] using congrArg List.length h)
  absorb {m m' d d'} h := by
    obtain ⟨hword, hmessages⟩ := Prod.mk.inj h
    obtain ⟨hm, hrest⟩ := List.cons.inj hmessages
    exact ⟨List.map_injective_iff.mpr (fun _ _ => UInt8.toNat_inj.mp) hm, Prod.ext hword hrest⟩
  fresh w m d h := by cases congrArg Prod.snd h

end Hasher

end AbstractFlow
