/-
  This file defines the digest SHA-256 of a list of bytes. The
  message is padded to blocks of 64 bytes, each block is
  expanded to 64 words, and 64 rounds mix these words into a
  state of eight words.

  Key definitions include:
    * `Sha256.State`
    * `Sha256.expand`
    * `Sha256.compress`
    * `Sha256.digest`
-/

namespace Systolic

namespace Sha256

/- Powers are those of the natural numbers themselves. -/
attribute [local instance (high)] instPowNat

------------------------------------------------------------
-- Words
------------------------------------------------------------

/- Rotate a word to the right by `n` places, `0 < n < 32`. -/
def rotateRight
    (w n : UInt32) : UInt32 :=
  (w >>> n) ||| (w <<< (32 - n))

/- The constant that each round adds. -/
def roundConstants : List UInt32 :=
  [ 0x428a2f98, 0x71374491, 0xb5c0fbcf, 0xe9b5dba5,
    0x3956c25b, 0x59f111f1, 0x923f82a4, 0xab1c5ed5,
    0xd807aa98, 0x12835b01, 0x243185be, 0x550c7dc3,
    0x72be5d74, 0x80deb1fe, 0x9bdc06a7, 0xc19bf174,
    0xe49b69c1, 0xefbe4786, 0x0fc19dc6, 0x240ca1cc,
    0x2de92c6f, 0x4a7484aa, 0x5cb0a9dc, 0x76f988da,
    0x983e5152, 0xa831c66d, 0xb00327c8, 0xbf597fc7,
    0xc6e00bf3, 0xd5a79147, 0x06ca6351, 0x14292967,
    0x27b70a85, 0x2e1b2138, 0x4d2c6dfc, 0x53380d13,
    0x650a7354, 0x766a0abb, 0x81c2c92e, 0x92722c85,
    0xa2bfe8a1, 0xa81a664b, 0xc24b8b70, 0xc76c51a3,
    0xd192e819, 0xd6990624, 0xf40e3585, 0x106aa070,
    0x19a4c116, 0x1e376c08, 0x2748774c, 0x34b0bcb5,
    0x391c0cb3, 0x4ed8aa4a, 0x5b9cca4f, 0x682e6ff3,
    0x748f82ee, 0x78a5636f, 0x84c87814, 0x8cc70208,
    0x90befffa, 0xa4506ceb, 0xbef9a3f7, 0xc67178f2 ]

/- The four bytes of a word, most significant first. -/
def wordBytes (w : UInt32) : List UInt8 :=
  [(w >>> 24).toUInt8, (w >>> 16).toUInt8, (w >>> 8).toUInt8, w.toUInt8]

/- The words of a list of bytes, four bytes each. -/
def words : List UInt8 → List UInt32
| a :: b :: c :: d :: rest =>
    ((a.toUInt32 <<< 24) ||| (b.toUInt32 <<< 16) |||
      (c.toUInt32 <<< 8) ||| d.toUInt32) :: words rest
| _ => []

------------------------------------------------------------
-- Padding
------------------------------------------------------------

/- The eight bytes of a bit count, most significant first. -/
def lengthBytes (bits : Nat) : List UInt8 :=
  (List.range 8).reverse.map (fun i => (bits / 256 ^ i).toUInt8)

/-
  The message, a marking bit, zeroes up to the last eight bytes
  of a block, and the length of the message in bits.
-/
def pad (message : List UInt8) : List UInt8 :=
  let zeroes := (119 - message.length % 64) % 64
  message ++ [0x80] ++ List.replicate zeroes 0 ++ lengthBytes (8 * message.length)

------------------------------------------------------------
-- Rounds
------------------------------------------------------------

/- The eight words that the rounds mix. -/
structure State where
  a : UInt32
  b : UInt32
  c : UInt32
  d : UInt32
  e : UInt32
  f : UInt32
  g : UInt32
  h : UInt32
deriving DecidableEq, Repr

/- The state before the first block. -/
def State.initial : State :=
  { a := 0x6a09e667, b := 0xbb67ae85, c := 0x3c6ef372, d := 0xa54ff53a,
    e := 0x510e527f, f := 0x9b05688c, g := 0x1f83d9ab, h := 0x5be0cd19 }

/- Add two states word by word. -/
def State.add
    (s t : State) : State :=
  { a := s.a + t.a, b := s.b + t.b, c := s.c + t.c, d := s.d + t.d,
    e := s.e + t.e, f := s.f + t.f, g := s.g + t.g, h := s.h + t.h }

/- The words of a state in order. -/
def State.toList (s : State) : List UInt32 :=
  [s.a, s.b, s.c, s.d, s.e, s.f, s.g, s.h]

/-
  Extend a schedule, held newest word first, by `n` words. Each
  new word mixes the words two, seven, fifteen and sixteen
  places before it.
-/
def extend : Nat → List UInt32 → List UInt32
| 0, ws => ws
| n + 1, ws =>
    let w2 := ws.getD 1 0
    let w7 := ws.getD 6 0
    let w15 := ws.getD 14 0
    let w16 := ws.getD 15 0
    let s0 := rotateRight w15 7 ^^^ rotateRight w15 18 ^^^ (w15 >>> 3)
    let s1 := rotateRight w2 17 ^^^ rotateRight w2 19 ^^^ (w2 >>> 10)
    extend n ((w16 + s0 + w7 + s1) :: ws)

/- The 64 words of a block of 16 words. -/
def expand (block : List UInt32) : List UInt32 :=
  (extend 48 block.reverse).reverse

/- One round, with the sum of its word and its constant. -/
def round
    (s : State)
    (k w : UInt32) : State :=
  let s1 := rotateRight s.e 6 ^^^ rotateRight s.e 11 ^^^ rotateRight s.e 25
  let ch := (s.e &&& s.f) ^^^ (~~~ s.e &&& s.g)
  let t1 := s.h + s1 + ch + k + w
  let s0 := rotateRight s.a 2 ^^^ rotateRight s.a 13 ^^^ rotateRight s.a 22
  let maj := (s.a &&& s.b) ^^^ (s.a &&& s.c) ^^^ (s.b &&& s.c)
  { a := t1 + s0 + maj, b := s.a, c := s.b, d := s.c,
    e := s.d + t1, f := s.e, g := s.f, h := s.g }

/- Mix one block into a state. -/
def compress
    (s : State)
    (block : List UInt32) : State :=
  let mixed := (roundConstants.zip (expand block)).foldl
    (fun t (k, w) => round t k w) s
  s.add mixed

/- Mix `n` blocks of 16 words into a state. -/
def compressBlocks : Nat → State → List UInt32 → State
| 0, s, _ => s
| n + 1, s, ws =>
    compressBlocks n (compress s (ws.take 16)) (ws.drop 16)

------------------------------------------------------------
-- Digest
------------------------------------------------------------

/- The 32 bytes of the digest of a message. -/
def digest (message : List UInt8) : List UInt8 :=
  let ws := words (pad message)
  (compressBlocks (ws.length / 16) State.initial ws).toList.flatMap wordBytes

end Sha256

end Systolic
