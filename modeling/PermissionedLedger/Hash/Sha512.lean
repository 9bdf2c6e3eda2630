import PermissionedLedger.Bytes.Basic

/-!
# SHA-512

The hash function of the Secure Hash Standard with 64-bit words: a message is
padded to whole blocks of 128 bytes, every block is expanded to 80 words, and
80 rounds mix them into a state of eight words.

It is the hash inside Ed25519 signatures.
-/

namespace PermissionedLedger.Sha512

/-- A word of the state. -/
abbrev Word := UInt64

/-- The eight words that the rounds work on. -/
structure State where
  (a b c d e f g h : Word)

/-- The fractional bits of the square roots of the first eight primes. -/
def initial : State :=
  ⟨0x6a09e667f3bcc908, 0xbb67ae8584caa73b, 0x3c6ef372fe94f82b, 0xa54ff53a5f1d36f1,
   0x510e527fade682d1, 0x9b05688c2b3e6c1f, 0x1f83d9abfb41bd6b, 0x5be0cd19137e2179⟩

/-- The fractional bits of the cube roots of the first 80 primes. -/
def roundConstants : List Word := [
    0x428a2f98d728ae22, 0x7137449123ef65cd, 0xb5c0fbcfec4d3b2f, 0xe9b5dba58189dbbc,
    0x3956c25bf348b538, 0x59f111f1b605d019, 0x923f82a4af194f9b, 0xab1c5ed5da6d8118,
    0xd807aa98a3030242, 0x12835b0145706fbe, 0x243185be4ee4b28c, 0x550c7dc3d5ffb4e2,
    0x72be5d74f27b896f, 0x80deb1fe3b1696b1, 0x9bdc06a725c71235, 0xc19bf174cf692694,
    0xe49b69c19ef14ad2, 0xefbe4786384f25e3, 0x0fc19dc68b8cd5b5, 0x240ca1cc77ac9c65,
    0x2de92c6f592b0275, 0x4a7484aa6ea6e483, 0x5cb0a9dcbd41fbd4, 0x76f988da831153b5,
    0x983e5152ee66dfab, 0xa831c66d2db43210, 0xb00327c898fb213f, 0xbf597fc7beef0ee4,
    0xc6e00bf33da88fc2, 0xd5a79147930aa725, 0x06ca6351e003826f, 0x142929670a0e6e70,
    0x27b70a8546d22ffc, 0x2e1b21385c26c926, 0x4d2c6dfc5ac42aed, 0x53380d139d95b3df,
    0x650a73548baf63de, 0x766a0abb3c77b2a8, 0x81c2c92e47edaee6, 0x92722c851482353b,
    0xa2bfe8a14cf10364, 0xa81a664bbc423001, 0xc24b8b70d0f89791, 0xc76c51a30654be30,
    0xd192e819d6ef5218, 0xd69906245565a910, 0xf40e35855771202a, 0x106aa07032bbd1b8,
    0x19a4c116b8d2d0c8, 0x1e376c085141ab53, 0x2748774cdf8eeb99, 0x34b0bcb5e19b48a8,
    0x391c0cb3c5c95a63, 0x4ed8aa4ae3418acb, 0x5b9cca4f7763e373, 0x682e6ff3d6b2b8a3,
    0x748f82ee5defb2fc, 0x78a5636f43172f60, 0x84c87814a1f0ab72, 0x8cc702081a6439ec,
    0x90befffa23631e28, 0xa4506cebde82bde9, 0xbef9a3f7b2c67915, 0xc67178f2e372532b,
    0xca273eceea26619c, 0xd186b8c721c0c207, 0xeada7dd6cde0eb1e, 0xf57d4f7fee6ed178,
    0x06f067aa72176fba, 0x0a637dc5a2c898a6, 0x113f9804bef90dae, 0x1b710b35131c471b,
    0x28db77f523047d84, 0x32caab7b40c72493, 0x3c9ebe0a15c9bebc, 0x431d67c49c100d4c,
    0x4cc5d4becb3e42b6, 0x597f299cfc657e2a, 0x5fcb6fab3ad6faec, 0x6c44198c4a475817]

/-- Rotation towards the low-order end. -/
def rotate (w : Word) (n : Word) : Word := (w >>> n) ||| (w <<< (64 - n))

/-- The word sixteen rounds after the oldest one given. The argument holds the latest
words first, so that it starts with the word one round back. -/
def nextWord : List Word → Word
  | _ :: w2 :: _ :: _ :: _ :: _ :: w7 :: _ :: _ :: _ :: _ :: _ :: _ :: _ :: w15 :: w16 :: _ =>
    let s0 := rotate w15 1 ^^^ rotate w15 8 ^^^ (w15 >>> 7)
    let s1 := rotate w2 19 ^^^ rotate w2 61 ^^^ (w2 >>> 6)
    s1 + w7 + s0 + w16
  | _ => 0

/-- Adds `n` words to a schedule that is held latest word first. -/
def expand : Nat → List Word → List Word
  | 0, ws => ws
  | n + 1, ws => expand n (nextWord ws :: ws)

/-- One round, given the sum of its constant and its schedule word. -/
def round (s : State) (kw : Word) : State :=
  let choice := (s.e &&& s.f) ^^^ ((~~~ s.e) &&& s.g)
  let majority := (s.a &&& s.b) ^^^ (s.a &&& s.c) ^^^ (s.b &&& s.c)
  let t1 := s.h + (rotate s.e 14 ^^^ rotate s.e 18 ^^^ rotate s.e 41) + choice + kw
  let t2 := (rotate s.a 28 ^^^ rotate s.a 34 ^^^ rotate s.a 39) + majority
  ⟨t1 + t2, s.a, s.b, s.c, s.d + t1, s.e, s.f, s.g⟩

/-- The words of a block, most significant byte first. -/
def words : Nat → Bytes → List Word
  | 0, _ => []
  | n + 1, bs => UInt64.ofNat (Bytes.toNatBE (bs.take 8)) :: words n (bs.drop 8)

/-- Mixes one block into the state. -/
def absorb (s : State) (block : Bytes) : State :=
  let schedule := (expand 64 (words 16 block).reverse).reverse
  let t := (List.zipWith (· + ·) roundConstants schedule).foldl round s
  ⟨s.a + t.a, s.b + t.b, s.c + t.c, s.d + t.d, s.e + t.e, s.f + t.f, s.g + t.g, s.h + t.h⟩

/-- Mixes the first `n` blocks of the bytes into the state. -/
def absorbAll : Nat → State → Bytes → State
  | 0, s, _ => s
  | n + 1, s, bs => absorbAll n (absorb s (bs.take 128)) (bs.drop 128)

/-- The padding after a message of `n` bytes: a one bit, zeros up to the last 16 bytes of a
block, and the length in bits. -/
def padding (n : Nat) : Bytes :=
  0x80 :: (List.replicate ((239 - n % 128) % 128) 0 ++ Bytes.ofNatBE 16 (8 * n))

/-- The bytes of a state, most significant byte of each word first. -/
def State.toBytes (s : State) : Bytes :=
  [s.a, s.b, s.c, s.d, s.e, s.f, s.g, s.h].flatMap fun w => Bytes.ofNatBE 8 w.toNat

/-- The digest of a message, as bytes. -/
def hash (message : Bytes) : Bytes :=
  let padded := message ++ padding message.length
  (absorbAll (padded.length / 128) initial padded).toBytes

@[simp] theorem length_hash (message : Bytes) : (hash message).length = 64 := by
  simp [hash, State.toBytes]

end PermissionedLedger.Sha512
