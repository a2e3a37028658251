import AbstractFlow.Digest.Spooky
import AbstractFlow.Value.Object

/-!
# Digests of values

A digest covers everything known of a value. Two values count as equal when their objects agree
pairwise in key and digest.
-/
namespace AbstractFlow

def flagWord (b : Bool) : UInt64 := if b then 1123535697898 else 7451123546465

def Constant.digest {D : Type} (H : Hasher D) (c : Constant) : D :=
  let tagged (code : UInt64) := H.combine [H.ofWord 1935468612388, H.ofWord code]
  match c with
  | .number .int s => H.combine [tagged 0, s.digest H]
  | .number .float s => H.combine [tagged 1, s.digest H]
  | .string s => H.combine [tagged 2, s.digest H]
  | .number .bool s => H.combine [tagged 3, s.digest H]
  | .none => tagged 4

def ContainerType.code : ContainerType → UInt64
  | .list => 0
  | .tuple => 1
  | .set => 2
  | .dict => 3

/-- The upper bound as a number, an absent one as minus one. -/
def sizeNumber : Option Nat → Number
  | some n => .ofInt n
  | none => .ofInt (-1)

def ExternalKind.salt : ExternalKind → UInt64
  | .function => 5768797545612
  | .classObject => 6950650687583
  | .instanceObject => 7018347391875

mutual

def Object.digest {D : Type} (H : Hasher D) : Object → D
  | .unknown as => H.combine [H.ofWord 6758959635298, attrsDigest H (H.ofWord 8916790813476) as]
  | .constant c => c.digest H
  | .container ⟨type, elemTypes, elem, keyTypes, key, minSize, maxSize⟩ =>
    let d := H.texts (H.combine [H.ofWord 2608058625550, H.ofWord type.code]) elemTypes
    let d := H.texts d keyTypes
    let d := H.words d [(Number.ofInt minSize).toBits, (sizeNumber maxSize).toBits]
    H.nested d
      [H.combine (H.ofWord 1085740485675 :: objectDigests H elem),
        H.combine (H.ofWord 1085740485675 :: objectDigests H key)]
  | .function ⟨name, params, async, binding, getter, setter, as⟩ =>
    let d := H.texts (H.texts (H.ofWord 6075460587450) [name]) params
    let flags : UInt64 := (if getter then 1 else 0) + (if setter then 2 else 0)
    let d := H.combine
      [d, H.ofWord (flagWord async), H.ofWord binding.rank.toUInt64, H.ofWord flags]
    H.combine [d, attrsDigest H (H.ofWord 8916790813476) as]
  | .classObject ⟨name, bases, methods, as⟩ =>
    let d := H.texts (H.texts (H.ofWord 9005419490459) [name]) bases
    H.combine
      [d, attrsDigest H (H.ofWord 8916790813476) methods,
        attrsDigest H (H.ofWord 8916790813476) as]
  | .instanceObject ⟨name, site, as⟩ =>
    H.combine
      [H.texts (H.ofWord 3569715369783) [name, site],
        attrsDigest H (H.ofWord 8916790813476) as]
  | .external ⟨kind, module, name, as⟩ =>
    H.combine
      [H.texts (H.ofWord kind.salt) [module, name], attrsDigest H (H.ofWord 8916790813476) as]

def objectDigests {D : Type} (H : Hasher D) : List Object → List D
  | [] => []
  | o :: os => o.digest H :: objectDigests H os

def attrsDigest {D : Type} (H : Hasher D) (d : D) : List (String × List Object) → D
  | [] => d
  | (n, v) :: rest =>
    attrsDigest H
      (H.nested (H.texts d [n]) [H.combine (H.ofWord 1085740485675 :: objectDigests H v)]) rest

end

namespace Value

def digest {D : Type} (H : Hasher D) (v : Value) : D :=
  H.combine (H.ofWord 1085740485675 :: objectDigests H v)

/-- Equality as a hash function sees it: the same keys and digests in the same order. -/
def equalBy {D : Type} [DecidableEq D] (H : Hasher D) (a b : Value) : Bool :=
  a.map Object.key == b.map Object.key && objectDigests H a == objectDigests H b

/-- Whether two values say the same. -/
def equal (a b : Value) : Bool := equalBy .spooky a b

end Value

end AbstractFlow
