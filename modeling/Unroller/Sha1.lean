/-!
# The SHA-1 digest

The message is padded to whole blocks of 64 bytes, each block is expanded to eighty words, and
eighty rounds mix it into a state of five words.
-/

namespace Unroller.Sha1

/-- The five chaining words. -/
structure State where
  a : UInt32
  b : UInt32
  c : UInt32
  d : UInt32
  e : UInt32
deriving DecidableEq, Inhabited

/-- The state before the first block. -/
def start : State := ⟨0x67452301, 0xEFCDAB89, 0x98BADCFE, 0x10325476, 0xC3D2E1F0⟩

/-- Rotates a word left by `n` bits, `0 < n < 32`. -/
def rotateLeft (x : UInt32) (n : UInt32) : UInt32 := (x <<< n) ||| (x >>> (32 - n))

/-- The eight bytes of a 64-bit number, most significant first. -/
def bigEndian64 (n : Nat) : List UInt8 :=
  (List.range 8).map fun i => UInt8.ofNat (n >>> (8 * (7 - i)))

/-- The message, a set bit, zeros up to 56 modulo 64 bytes, and the length in bits. -/
def pad (message : List UInt8) : List UInt8 :=
  let zeros := (119 - message.length % 64) % 64
  message ++ 0x80 :: List.replicate zeros 0 ++ bigEndian64 (8 * message.length)

/-- The big-endian words of a list of bytes; a tail shorter than four bytes is dropped. -/
def toWords : List UInt8 → List UInt32
  | p :: q :: r :: s :: rest =>
    ((p.toUInt32 <<< 24) ||| (q.toUInt32 <<< 16) ||| (r.toUInt32 <<< 8) ||| s.toUInt32)
      :: toWords rest
  | _ => []

/-- Appends `count` expansion words to a message schedule of at least sixteen words. -/
def expand : (count : Nat) → Array UInt32 → Array UInt32
  | 0, w => w
  | count + 1, w =>
    let back (k : Nat) : UInt32 := w.getD (w.size - k) 0
    expand count (w.push (rotateLeft (back 3 ^^^ back 8 ^^^ back 14 ^^^ back 16) 1))

/-- The mixing function and the constant of round `t`. -/
def mix (t : Nat) (b c d : UInt32) : UInt32 × UInt32 :=
  if t < 20 then ((b &&& c) ||| (~~~ b &&& d), 0x5A827999)
  else if t < 40 then (b ^^^ c ^^^ d, 0x6ED9EBA1)
  else if t < 60 then ((b &&& c) ||| (b &&& d) ||| (c &&& d), 0x8F1BBCDC)
  else (b ^^^ c ^^^ d, 0xCA62C1D6)

/-- Round `t` with schedule word `w`. -/
def round (s : State) (t : Nat) (w : UInt32) : State :=
  let (f, k) := mix t s.b s.c s.d
  ⟨rotateLeft s.a 5 + f + s.e + k + w, s.a, rotateLeft s.b 30, s.c, s.d⟩

/-- Absorbs one block of sixteen words. -/
def absorb (s : State) (block : List UInt32) : State :=
  let schedule := expand 64 block.toArray
  let r := (List.range 80).foldl (fun r t => round r t (schedule.getD t 0)) s
  ⟨s.a + r.a, s.b + r.b, s.c + r.c, s.d + r.d, s.e + r.e⟩

/-- Absorbs `count` blocks. -/
def absorbAll : (count : Nat) → State → List UInt32 → State
  | 0, s, _ => s
  | count + 1, s, words => absorbAll count (absorb s (words.take 16)) (words.drop 16)

/-- The digest of a message, as five words. -/
def digest (message : List UInt8) : State :=
  let words := toWords (pad message)
  absorbAll (words.length / 16) start words

end Unroller.Sha1
