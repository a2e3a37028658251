import AbstractFlow.Text.ByteString

/-!
# Digests

Digests are built by absorbing messages one after the other, each into the digest so far. The
construction is kept apart from the hash function, so that what it distinguishes can be studied
for an ideal one.
-/
namespace AbstractFlow

/-- A seeded hash function: constants and messages as digests. -/
structure Hasher (D : Type) where
  /-- A fixed number as a digest. -/
  ofWord : UInt64 → D
  /-- A digest as a message. -/
  bytes : D → List UInt8
  /-- Absorbs a message into a digest. -/
  absorb : List UInt8 → D → D

/-- The eight bytes of a word, the least significant first. -/
def littleEndian (w : UInt64) : List UInt8 :=
  [w.toUInt8, (w >>> 8).toUInt8, (w >>> 16).toUInt8, (w >>> 24).toUInt8, (w >>> 32).toUInt8,
    (w >>> 40).toUInt8, (w >>> 48).toUInt8, (w >>> 56).toUInt8]

namespace Hasher

variable {D : Type} (H : Hasher D)

/-- Combines digests in order, from nothing. -/
def combine (ds : List D) : D :=
  ds.foldl (fun acc d => H.absorb (H.bytes d) acc) (H.ofWord 0)

/-- Absorbs strings, each closed by a zero byte so that their borders count. -/
def strings (d : D) (ss : List ByteString) : D :=
  ss.foldl (fun acc s => H.absorb [0] (H.absorb s.bytes acc)) d

def texts (d : D) (ss : List String) : D := H.strings d (ss.map .ofString)

def words (d : D) (ws : List UInt64) : D :=
  ws.foldl (fun acc w => H.absorb (littleEndian w) acc) d

def nested (d : D) (ds : List D) : D :=
  H.absorb (H.bytes (H.combine ds)) d

end Hasher

end AbstractFlow
