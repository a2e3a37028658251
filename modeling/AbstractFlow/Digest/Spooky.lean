import AbstractFlow.Digest.Hasher

/-!
# The 64-bit hash function

Messages below 192 bytes are mixed in a state of four words, longer ones in a state of twelve.
Each step works on the leading words and turns the state by one place, so that a whole round
brings every word back to its place. The digest is the first word of the final state.
-/
namespace AbstractFlow

namespace Spooky

def magic : UInt64 := 0xdeadbeefdeadbeef

@[inline]
def rotate (x k : UInt64) : UInt64 := (x <<< k) ||| (x >>> (64 - k))

/-- A number from at most `n` bytes, the least significant first. -/
def wordOf : (n : Nat) → List UInt8 → UInt64
  | 0, _ | _, [] => 0
  | n + 1, b :: bs => (wordOf n bs <<< 8) ||| b.toUInt64

structure Short where
  a : UInt64
  b : UInt64
  c : UInt64
  d : UInt64

@[inline]
def Short.mixStep (s : Short) (k : UInt64) : Short :=
  let c := rotate s.c k + s.d
  ⟨s.b, c, s.d, s.a ^^^ c⟩

def Short.mix (s : Short) : Short :=
  s.mixStep 50 |>.mixStep 52 |>.mixStep 30 |>.mixStep 41 |>.mixStep 54 |>.mixStep 48
    |>.mixStep 38 |>.mixStep 37 |>.mixStep 62 |>.mixStep 34 |>.mixStep 5 |>.mixStep 36

@[inline]
def Short.endStep (s : Short) (k : UInt64) : Short :=
  let c := rotate s.c k
  ⟨s.b, c, (s.d ^^^ s.c) + c, s.a⟩

/-- Eleven steps leave the first word in the second place. -/
def Short.finish (s : Short) : UInt64 :=
  Short.b <| s.endStep 15 |>.endStep 52 |>.endStep 26 |>.endStep 51 |>.endStep 28 |>.endStep 9
    |>.endStep 47 |>.endStep 54 |>.endStep 32 |>.endStep 25 |>.endStep 63

/-- Absorbs whole blocks of 32 bytes and gives back what is left. -/
def Short.blocks : Nat → Short → List UInt8 → Short × List UInt8
  | 0, s, bs => (s, bs)
  | fuel + 1, s, bs =>
    if bs.length < 32 then (s, bs)
    else
      let s := mix { s with
        c := s.c + wordOf 8 bs
        d := s.d + wordOf 8 (bs.drop 8) }
      let s := { s with
        a := s.a + wordOf 8 (bs.drop 16)
        b := s.b + wordOf 8 (bs.drop 24) }
      blocks fuel s (bs.drop 32)

/-- The last bytes, fewer than 16, and the length of the whole message. -/
def Short.tail (s : Short) (length : Nat) (bs : List UInt8) : Short :=
  let d := s.d + (length.toUInt64 <<< 56)
  if bs.isEmpty then { s with c := s.c + magic, d := d + magic }
  else { s with c := s.c + wordOf 8 bs, d := d + wordOf 8 (bs.drop 8) }

def short (message : List UInt8) (seed : UInt64) : UInt64 :=
  let start : Short := ⟨seed, 0, magic, magic⟩
  let (s, rest) := start.blocks (message.length / 32) message
  if 16 ≤ rest.length then
    let s := Short.mix { s with
      c := s.c + wordOf 8 rest
      d := s.d + wordOf 8 (rest.drop 8) }
    (s.tail message.length (rest.drop 16)).finish
  else (s.tail message.length rest).finish

def blockWords (bs : List UInt8) : List UInt64 :=
  (List.range 12).map fun i => wordOf 8 (bs.drop (8 * i))

def mixStep : List UInt64 → UInt64 × UInt64 → List UInt64
  | [s0, s1, s2, s3, s4, s5, s6, s7, s8, s9, s10, s11], (word, k) =>
    let s0 := s0 + word
    let s11 := s11 ^^^ s0
    [s1, s2 ^^^ s10, s3, s4, s5, s6, s7, s8, s9, s10, s11 + s1, rotate s0 k]
  | s, _ => s

def mix (s : List UInt64) (block : List UInt8) : List UInt64 :=
  ((blockWords block).zip [11, 32, 43, 31, 17, 28, 39, 57, 55, 54, 22, 46]).foldl mixStep s

def endStep : List UInt64 → UInt64 → List UInt64
  | [h0, h1, h2, h3, h4, h5, h6, h7, h8, h9, h10, h11], k =>
    let h11 := h11 + h1
    [rotate h1 k, h2 ^^^ h11, h3, h4, h5, h6, h7, h8, h9, h10, h11, h0]
  | h, _ => h

def endRound (h : List UInt64) : List UInt64 :=
  [44, 15, 34, 21, 38, 33, 10, 13, 38, 53, 42, 54].foldl endStep h

def longBlocks : Nat → List UInt64 → List UInt8 → List UInt64 × List UInt8
  | 0, s, bs => (s, bs)
  | fuel + 1, s, bs => if bs.length < 96 then (s, bs) else longBlocks fuel (mix s bs) (bs.drop 96)

def long (message : List UInt8) (seed : UInt64) : UInt64 :=
  let start := [seed, 0, magic, seed, 0, magic, seed, 0, magic, seed, 0, magic]
  let (s, rest) := longBlocks (message.length / 96) start message
  let words := (blockWords rest).zipIdx.map fun (w, i) =>
    if i = 11 then w + (rest.length.toUInt64 <<< 56) else w
  let h := s.zipWith (· + ·) words
  (endRound (endRound (endRound h))).headD 0

def hash (message : List UInt8) (seed : UInt64) : UInt64 :=
  if message.length < 192 then short message seed else long message seed

end Spooky

/-- The digests that are shown: 64-bit words. -/
def Hasher.spooky : Hasher UInt64 where
  ofWord w := w
  bytes := littleEndian
  absorb := Spooky.hash

end AbstractFlow
