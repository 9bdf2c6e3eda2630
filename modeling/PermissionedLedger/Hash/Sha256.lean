import PermissionedLedger.Bytes.Basic

/-!
# SHA-256

The hash function of the Secure Hash Standard with 32-bit words: a message is
padded to whole blocks of 64 bytes, every block is expanded to 64 words, and
64 rounds mix them into a state of eight words.

It names every block and transaction.
-/

namespace PermissionedLedger.Sha256

/-- A word of the state. -/
abbrev Word := UInt32

/-- The eight words that the rounds work on. -/
structure State where
  (a b c d e f g h : Word)

/-- The fractional bits of the square roots of the first eight primes. -/
def initial : State :=
  ⟨0x6a09e667, 0xbb67ae85, 0x3c6ef372, 0xa54ff53a,
   0x510e527f, 0x9b05688c, 0x1f83d9ab, 0x5be0cd19⟩

/-- The fractional bits of the cube roots of the first 64 primes. -/
def roundConstants : List Word := [
    0x428a2f98, 0x71374491, 0xb5c0fbcf, 0xe9b5dba5, 0x3956c25b, 0x59f111f1, 0x923f82a4, 0xab1c5ed5,
    0xd807aa98, 0x12835b01, 0x243185be, 0x550c7dc3, 0x72be5d74, 0x80deb1fe, 0x9bdc06a7, 0xc19bf174,
    0xe49b69c1, 0xefbe4786, 0x0fc19dc6, 0x240ca1cc, 0x2de92c6f, 0x4a7484aa, 0x5cb0a9dc, 0x76f988da,
    0x983e5152, 0xa831c66d, 0xb00327c8, 0xbf597fc7, 0xc6e00bf3, 0xd5a79147, 0x06ca6351, 0x14292967,
    0x27b70a85, 0x2e1b2138, 0x4d2c6dfc, 0x53380d13, 0x650a7354, 0x766a0abb, 0x81c2c92e, 0x92722c85,
    0xa2bfe8a1, 0xa81a664b, 0xc24b8b70, 0xc76c51a3, 0xd192e819, 0xd6990624, 0xf40e3585, 0x106aa070,
    0x19a4c116, 0x1e376c08, 0x2748774c, 0x34b0bcb5, 0x391c0cb3, 0x4ed8aa4a, 0x5b9cca4f, 0x682e6ff3,
    0x748f82ee, 0x78a5636f, 0x84c87814, 0x8cc70208, 0x90befffa, 0xa4506ceb, 0xbef9a3f7, 0xc67178f2]

/-- Rotation towards the low-order end. -/
def rotate (w : Word) (n : Word) : Word := (w >>> n) ||| (w <<< (32 - n))

/-- The word sixteen rounds after the oldest one given. The argument holds the latest
words first, so that it starts with the word one round back. -/
def nextWord : List Word → Word
  | _ :: w2 :: _ :: _ :: _ :: _ :: w7 :: _ :: _ :: _ :: _ :: _ :: _ :: _ :: w15 :: w16 :: _ =>
    let s0 := rotate w15 7 ^^^ rotate w15 18 ^^^ (w15 >>> 3)
    let s1 := rotate w2 17 ^^^ rotate w2 19 ^^^ (w2 >>> 10)
    s1 + w7 + s0 + w16
  | _ => 0

/-- Adds `n` words to a schedule that is held latest word first. -/
def expand : Nat → List Word → List Word
  | 0, ws => ws
  | n + 1, ws => expand n (nextWord ws :: ws)

/-- One round, given the sum of its constant and its schedule word. -/
def round (s : State) (kw : Word) : State :=
  let choice := (s.e &&& s.f) ^^^ ((~~~ s.e) &&& s.g)
  let majority := (s.a &&& s.b) ^^^ (s.a &&& s.c) ^^^ (s.b &&& s.c)
  let t1 := s.h + (rotate s.e 6 ^^^ rotate s.e 11 ^^^ rotate s.e 25) + choice + kw
  let t2 := (rotate s.a 2 ^^^ rotate s.a 13 ^^^ rotate s.a 22) + majority
  ⟨t1 + t2, s.a, s.b, s.c, s.d + t1, s.e, s.f, s.g⟩

/-- The words of a block, most significant byte first. -/
def words : Nat → Bytes → List Word
  | 0, _ => []
  | n + 1, bs => UInt32.ofNat (Bytes.toNatBE (bs.take 4)) :: words n (bs.drop 4)

/-- Mixes one block into the state. -/
def absorb (s : State) (block : Bytes) : State :=
  let schedule := (expand 48 (words 16 block).reverse).reverse
  let t := (List.zipWith (· + ·) roundConstants schedule).foldl round s
  ⟨s.a + t.a, s.b + t.b, s.c + t.c, s.d + t.d, s.e + t.e, s.f + t.f, s.g + t.g, s.h + t.h⟩

/-- Mixes the first `n` blocks of the bytes into the state. -/
def absorbAll : Nat → State → Bytes → State
  | 0, s, _ => s
  | n + 1, s, bs => absorbAll n (absorb s (bs.take 64)) (bs.drop 64)

/-- The padding after a message of `n` bytes: a one bit, zeros up to the last 8 bytes of a
block, and the length in bits. -/
def padding (n : Nat) : Bytes :=
  0x80 :: (List.replicate ((119 - n % 64) % 64) 0 ++ Bytes.ofNatBE 8 (8 * n))

/-- The bytes of a state, most significant byte of each word first. -/
def State.toBytes (s : State) : Bytes :=
  [s.a, s.b, s.c, s.d, s.e, s.f, s.g, s.h].flatMap fun w => Bytes.ofNatBE 4 w.toNat

/-- The digest of a message, as bytes. -/
def hash (message : Bytes) : Bytes :=
  let padded := message ++ padding message.length
  (absorbAll (padded.length / 64) initial padded).toBytes

@[simp] theorem length_hash (message : Bytes) : (hash message).length = 32 := by
  simp [hash, State.toBytes]

end PermissionedLedger.Sha256
