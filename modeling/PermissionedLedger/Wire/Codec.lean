import PermissionedLedger.Bytes.Basic
import PermissionedLedger.Text.Utf8

/-!
# Codecs

The byte format of block files. A codec knows the size of a value's encoding, the
encoding, and how to read one value off the front of a byte string; what follows
the value is left over. Encodings delimit themselves:

* numbers take a fixed number of bytes, least significant first;
* a list is its length in eight bytes, then its elements;
* a value of a type with alternatives is the alternative's number in four bytes,
  then its fields.

`Codec.LawfulAt` and `Codec.Extends` are the two laws: reading back what was
written, whatever follows, and not depending on what follows. Together they make
every strict prefix of an encoding unreadable (`decode_prefix_eq_none`).
-/

namespace PermissionedLedger

-- sums start from the zero of the core library, whatever else is imported
attribute [local instance (high)] Zero.ofOfNat0

/-- How values of a type are laid out in bytes. -/
structure Codec (α : Type) where
  /-- number of bytes of a value's encoding -/
  size : α → Nat
  /-- a value's encoding -/
  encode : α → Bytes
  /-- a value read off the front, and the rest -/
  decode : Bytes → Option (α × Bytes)

namespace Codec

variable {α β : Type}

/-- The value is read back, whatever follows it, and its size is that of its encoding. -/
def LawfulAt (c : Codec α) (a : α) : Prop :=
  c.size a = (c.encode a).length ∧ ∀ rest, c.decode (c.encode a ++ rest) = some (a, rest)

/-- What is read does not depend on what follows it. -/
def Extends (c : Codec α) : Prop :=
  ∀ front a rest more,
    c.decode front = some (a, rest) → c.decode (front ++ more) = some (a, rest ++ more)

/-- A strict prefix of an encoding cannot be read. -/
theorem decode_prefix_eq_none {c : Codec α} {a : α} (hl : c.LawfulAt a) (he : c.Extends)
    {front more : Bytes} (h : front ++ more = c.encode a) (hmore : more ≠ []) :
    c.decode front = none := by
  rcases hd : c.decode front with _ | ⟨b, rest⟩
  · rfl
  · have h1 := he front b rest more hd
    have h2 := hl.2 []
    rw [List.append_nil, ← h, h1, Option.some.injEq, Prod.mk.injEq] at h2
    exact absurd (List.append_eq_nil_iff.1 h2.2).2 hmore

/-! ## Building blocks -/

/-- The first `n` bytes and the rest, if there are that many. -/
def split? (n : Nat) (bs : Bytes) : Option (Bytes × Bytes) :=
  if n ≤ bs.length then some (bs.take n, bs.drop n) else none

/-- A number in `width` bytes. -/
def number (width : Nat) : Codec Nat where
  size _ := width
  encode n := Bytes.ofNatLE width n
  decode bs := (split? width bs).map fun (front, rest) => (Bytes.toNatLE front, rest)

/-- A value that takes no bytes. -/
def const (a : α) : Codec α where
  size _ := 0
  encode _ := []
  decode bs := some (a, bs)

/-- One value after another. -/
def pair (a : Codec α) (b : Codec β) : Codec (α × β) where
  size v := a.size v.1 + b.size v.2
  encode v := a.encode v.1 ++ b.encode v.2
  decode bs := do
    let (x, bs) ← a.decode bs
    let (y, bs) ← b.decode bs
    return ((x, y), bs)

/-- Values of another type, which not every value read need stand for. -/
def convert (c : Codec α) (of? : α → Option β) (back : β → α) : Codec β where
  size b := c.size (back b)
  encode b := c.encode (back b)
  decode bs := do
    let (a, bs) ← c.decode bs
    return (← of? a, bs)

/-- Values of another type. -/
def map (c : Codec α) (of : α → β) (back : β → α) : Codec β := c.convert (some ∘ of) back

/-- Exactly `n` values, read one after another. -/
def decodeMany (c : Codec α) : Nat → Bytes → Option (List α × Bytes)
  | 0, bs => some ([], bs)
  | n + 1, bs => do
    let (a, bs) ← c.decode bs
    let (as, bs) ← decodeMany c n bs
    return (a :: as, bs)

/-- A list: its length, then its elements. -/
def list (c : Codec α) : Codec (List α) where
  size as := 8 + (as.map c.size).sum
  encode as := Bytes.ofNatLE 8 as.length ++ as.flatMap c.encode
  decode bs := do
    let (n, bs) ← (number 8).decode bs
    c.decodeMany n bs

/-- A byte string: its length, then its bytes. -/
def bytes : Codec Bytes where
  size data := 8 + data.length
  encode data := Bytes.ofNatLE 8 data.length ++ data
  decode bs := do
    let (n, bs) ← (number 8).decode bs
    split? n bs

/-- Exactly `n` bytes. -/
def vector (n : Nat) : Codec (Vector UInt8 n) where
  size _ := n
  encode v := v.toList
  decode bs := do
    let (front, rest) ← split? n bs
    return (← Bytes.toVector? n front, rest)

/-- A text, as the byte string that spells it. -/
def text : Codec (List Char) := bytes.convert Utf8.decode? Utf8.encode

/-- A type with alternatives: the number of a value's alternative, then that alternative's
encoding of it. -/
def union (tag : α → Nat) (alternative? : Nat → Option (Codec α)) : Codec α where
  size a := 4 + (alternative? (tag a)).elim 0 (·.size a)
  encode a := Bytes.ofNatLE 4 (tag a) ++ (alternative? (tag a)).elim [] (·.encode a)
  decode bs := do
    let (n, bs) ← (number 4).decode bs
    let c ← alternative? n
    c.decode bs

/-! ## Words -/

/-- A byte. -/
def uint8 : Codec UInt8 := (number 1).map UInt8.ofNat UInt8.toNat

/-- A 32-bit word. -/
def uint32 : Codec UInt32 := (number 4).map UInt32.ofNat UInt32.toNat

/-- A 64-bit word. -/
def uint64 : Codec UInt64 := (number 8).map UInt64.ofNat UInt64.toNat

/-- A signed 64-bit word, in two's complement. -/
def int64 : Codec Int64 := (number 8).map (Int64.ofNat ·) (·.toBitVec.toNat)

/-- A truth value: one byte, zero or one. -/
def bool : Codec Bool :=
  (number 1).convert (fun n => if n = 0 then some false else if n = 1 then some true else none)
    Bool.toNat

end Codec

end PermissionedLedger
